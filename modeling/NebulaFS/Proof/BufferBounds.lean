import NebulaFS.Buffer

/-!
# The bounds of the buffer

`checkBounds` throws where the sum of position and length, as a `size_t`, is above the size. A sum that has
no place in a word comes out small again, and where it is not above the size the accessors go on outside of
the buffer. Everywhere else they are right (`boundsExact_iff`).
-/

namespace NebulaFS

/-- The sum of two words is above a size as a word just where it is, unless it wraps around to one that is
not. -/
theorem lt_mod_iff_lt_iff {n first second size : Nat} (hfirst : first < n) (hsecond : second < n)
    (hsize : size < n) :
    (size < (first + second) % n ↔ size < first + second)
      ↔ first + second < n ∨ size < first + second - n := by
  by_cases hsum : first + second < n
  · rw [Nat.mod_eq_of_lt hsum]
    exact iff_of_true Iff.rfl (.inl hsum)
  · have hmod : (first + second) % n = first + second - n := by
      rw [Nat.mod_eq_sub_mod (Nat.not_lt.mp hsum), Nat.mod_eq_of_lt (by omega)]
    rw [hmod]
    omega

namespace Buffer

variable {α : Type} {buffer : Buffer} {pos length : UInt64}

/-- An access throws just where its range goes beyond the bytes, and otherwise has a result with `P`. -/
structure Exact (buffer : Buffer) (pos length : UInt64) (P : α → Prop)
    (access : Except (Fault OutOfRange) α) : Prop where
  throws_iff : (∃ e, access = .error (.returned e))
    ↔ buffer.data.length < pos.toNat + length.toNat
  result : pos.toNat + length.toNat ≤ buffer.data.length → ∃ value, access = .ok value ∧ P value

/-- These are the bytes of the range, one after the other. -/
def IsRange (buffer : Buffer) (pos length : UInt64) (bytes : Bytes) : Prop :=
  bytes.length = length.toNat
    ∧ ∀ i < length.toNat, bytes[i]? = buffer.data[pos.toNat + i]?

/-- The range has the new bytes and every byte outside of it is the old one. -/
structure Overwrites (buffer : Buffer) (pos length : UInt64) (data : ByteArr length.toNat)
    (after : Buffer) : Prop where
  length_eq : after.data.length = buffer.data.length
  inside : ∀ i < length.toNat, after.data[pos.toNat + i]? = data.toList[i]?
  outside : ∀ i, i < pos.toNat ∨ pos.toNat + length.toNat ≤ i → after.data[i]? = buffer.data[i]?

/-- The span is over the bytes of the range. -/
def Covers (pos length : UInt64) (span : Span) : Prop :=
  ∀ i, span.start ≤ i ∧ i < span.start + span.length
    ↔ pos.toNat ≤ i ∧ i < pos.toNat + length.toNat

/-- The five accessors are exact for these arguments. -/
structure BoundsExact (buffer : Buffer) (pos length : UInt64) (data : ByteArr length.toNat) :
    Prop where
  read : Exact buffer pos length (buffer.IsRange pos length) (buffer.read pos length)
  writeAt : Exact buffer pos length (buffer.Overwrites pos length data)
    (buffer.writeAt pos length data)
  view : Exact buffer pos length (Covers pos length) (buffer.view pos length)
  mutableView : Exact buffer pos length (Covers pos length) (buffer.mutableView pos length)
  slice : Exact buffer pos length (fun copied => buffer.IsRange pos length copied.data)
    (buffer.slice pos length)

/-- The sum of position and length is one of `size_t`, or comes out above the size all the same. -/
def SumKept (buffer : Buffer) (pos length : UInt64) : Prop :=
  pos.toNat + length.toNat < wordSize
    ∨ buffer.data.length < pos.toNat + length.toNat - wordSize

/-! ### What is checked -/

theorem checkBounds_throws_iff :
    (∃ e, buffer.checkBounds pos length = .error (.returned e))
      ↔ buffer.data.length < (pos.toNat + length.toNat) % wordSize := by
  rw [checkBounds, UInt64.toNat_add, ← wordSize]
  split
  · exact iff_of_true ⟨_, rfl⟩ ‹_›
  · refine iff_of_false ?_ ‹_›
    rintro ⟨e, h⟩
    cases h

/-- What an accessor does behind the check throws nothing more. -/
theorem throws_bind_iff {next : Unit → Except (Fault OutOfRange) α}
    (hnext : ∀ e, next () ≠ .error (.returned e)) :
    (∃ e, (buffer.checkBounds pos length >>= next) = .error (.returned e))
      ↔ ∃ e, buffer.checkBounds pos length = .error (.returned e) := by
  cases hcheck : buffer.checkBounds pos length with
  | error fault =>
      constructor
      · rintro ⟨e, h⟩
        cases h
        exact ⟨e, rfl⟩
      · rintro ⟨e, h⟩
        cases h
        exact ⟨e, rfl⟩
  | ok checked =>
      refine iff_of_false ?_ ?_
      · rintro ⟨e, h⟩
        exact hnext e h
      · rintro ⟨e, h⟩
        cases h

theorem checkBounds_eq_ok (hsize : buffer.data.length < wordSize)
    (h : pos.toNat + length.toNat ≤ buffer.data.length) :
    buffer.checkBounds pos length = .ok () := by
  rw [checkBounds, if_neg]
  rw [UInt64.toNat_add, ← wordSize, Nat.mod_eq_of_lt (Nat.lt_of_le_of_lt h hsize)]
  exact Nat.not_lt.mpr h

/-- An accessor that does its work behind the check is exact just where the sum is kept. -/
theorem exact_checked_iff {P : α → Prop} {next : Unit → Except (Fault OutOfRange) α}
    (hsize : buffer.data.length < wordSize) (hnext : ∀ e, next () ≠ .error (.returned e))
    (hresult : pos.toNat + length.toNat ≤ buffer.data.length →
      ∃ value, next () = .ok value ∧ P value) :
    Exact buffer pos length P (buffer.checkBounds pos length >>= next)
      ↔ buffer.SumKept pos length := by
  have hthrows : (∃ e, (buffer.checkBounds pos length >>= next) = .error (.returned e))
      ↔ buffer.data.length < (pos.toNat + length.toNat) % wordSize :=
    (throws_bind_iff hnext).trans checkBounds_throws_iff
  rw [SumKept, ← lt_mod_iff_lt_iff (n := wordSize) pos.toNat_lt length.toNat_lt hsize]
  constructor
  · intro h
    exact hthrows.symm.trans h.throws_iff
  · refine fun h => ⟨hthrows.trans h, fun hinside => ?_⟩
    rw [checkBounds_eq_ok hsize hinside]
    exact hresult hinside

/-! ### What is touched -/

theorem isRange_slice (h : pos.toNat + length.toNat ≤ buffer.data.length) :
    buffer.IsRange pos length (Cursor.slice buffer.data pos.toNat length.toNat) := by
  refine ⟨Cursor.length_slice h, fun i hi => ?_⟩
  rw [Cursor.slice, List.getElem?_take_of_lt hi, List.getElem?_drop]

theorem overwrites_splice {data : ByteArr length.toNat}
    (h : pos.toNat + length.toNat ≤ buffer.data.length) :
    buffer.Overwrites pos length data
      { data := buffer.data.take pos.toNat ++ data.toList
          ++ buffer.data.drop (pos.toNat + length.toNat) } := by
  have hfront : (buffer.data.take pos.toNat).length = pos.toNat :=
    List.length_take_of_le (by omega)
  have hdata : data.toList.length = length.toNat := data.toList_length
  have hchanged : (buffer.data.take pos.toNat ++ data.toList).length
      = pos.toNat + length.toNat := by rw [List.length_append, hfront, hdata]
  refine ⟨?_, fun i hi => ?_, ?_⟩
  · rw [List.length_append, hchanged, List.length_drop]
    omega
  · rw [List.getElem?_append_left (by omega), List.getElem?_append_right (by omega), hfront,
      Nat.add_sub_cancel_left]
  · rintro i (hbefore | hbehind)
    · rw [List.getElem?_append_left (by omega), List.getElem?_append_left (by omega),
        List.getElem?_take_of_lt hbefore]
    · rw [List.getElem?_append_right (by omega), hchanged, List.getElem?_drop,
        Nat.add_sub_of_le hbehind]

theorem copyRange_ne_returned (pos length : Nat) (e : OutOfRange) :
    buffer.copyRange pos length ≠ .error (.returned e) := by
  rw [copyRange]
  split
  · exact fun h => by cases h
  · exact fun h => by cases h

theorem copyRange_eq_ok {pos length : Nat} (h : pos + length ≤ buffer.data.length) :
    buffer.copyRange pos length = .ok (Cursor.slice buffer.data pos length) :=
  if_pos h

/-- **Bounds.** The accessors are exact just where the sum of position and length is not taken for a
smaller one that is not above the size. -/
theorem boundsExact_iff (hsize : buffer.data.length < wordSize) (data : ByteArr length.toNat) :
    BoundsExact buffer pos length data ↔ buffer.SumKept pos length := by
  have hread : Exact buffer pos length (buffer.IsRange pos length) (buffer.read pos length)
      ↔ buffer.SumKept pos length :=
    exact_checked_iff hsize (copyRange_ne_returned _ _) fun h =>
      ⟨_, copyRange_eq_ok h, isRange_slice h⟩
  have hview : Exact buffer pos length (Covers pos length) (buffer.view pos length)
      ↔ buffer.SumKept pos length :=
    exact_checked_iff hsize (fun e h => by cases h) fun _ => ⟨_, rfl, fun i => Iff.rfl⟩
  have hslice : Exact buffer pos length (fun copied => buffer.IsRange pos length copied.data)
      (buffer.slice pos length) ↔ buffer.SumKept pos length := by
    refine exact_checked_iff hsize (fun e h => ?_) fun h => ?_
    · rw [copyRange] at h
      split at h
      · cases h
      · cases h
    · rw [copyRange_eq_ok h]
      exact ⟨_, rfl, isRange_slice h⟩
  have hwrite : Exact buffer pos length (buffer.Overwrites pos length data)
      (buffer.writeAt pos length data) ↔ buffer.SumKept pos length := by
    refine exact_checked_iff hsize (fun e h => ?_) fun h => ?_
    · split at h
      · cases h
      · cases h
    · rw [if_pos h]
      exact ⟨_, rfl, overwrites_splice h⟩
  constructor
  · exact fun h => hread.mp h.read
  · exact fun h => ⟨hread.mpr h, hwrite.mpr h, hview.mpr h, hview.mpr h, hslice.mpr h⟩

theorem boundsExact_iff_three :
    BoundsExact { data := [5, 6, 7] } 1 2 ⟨[8, 9], rfl⟩
      ↔ SumKept { data := [5, 6, 7] } 1 2 :=
  boundsExact_iff (by decide) _

/-- The byte before the buffer is taken for one of it. -/
theorem not_boundsExact_before :
    ¬ BoundsExact { data := [5, 6, 7] } 0xFFFFFFFFFFFFFFFF 1 ⟨[8], rfl⟩ := by
  intro h
  obtain ⟨e, hthrown⟩ := h.read.throws_iff.mpr (by decide)
  have hread : ({ data := [5, 6, 7] } : Buffer).read 0xFFFFFFFFFFFFFFFF 1 = .error .outOfBounds :=
    rfl
  rw [hread] at hthrown
  cases hthrown

end Buffer

end NebulaFS
