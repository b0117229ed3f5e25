import Mathlib.Data.List.Basic

/-!
# Reading a list from a position

A decoder walks over one buffer with a position that only moves forward. `Remaining data pos rest`
says what is still ahead of it, and every lemma below is about taking one encoding off the front:
the position moves by the length of what was read, and what is ahead is what followed it.

`readMany` is the counted loop such decoders are built from. It keeps what it had read when a read
fails, because its callers do.
-/

namespace Cursor

universe u

variable {α β ε : Type*}

/-- `rest` is what `data` still holds from position `pos` on. -/
def Remaining (data : List α) (pos : Nat) (rest : List α) : Prop :=
  pos ≤ data.length ∧ data.drop pos = rest

def slice (data : List α) (pos n : Nat) : List α :=
  (data.drop pos).take n

theorem remaining_append (pre rest : List α) : Remaining (pre ++ rest) pre.length rest :=
  ⟨by simp, List.drop_left⟩

theorem remaining_start (data : List α) : Remaining data 0 data :=
  ⟨Nat.zero_le _, rfl⟩

theorem Remaining.length_eq {data rest : List α} {pos : Nat} (h : Remaining data pos rest) :
    pos + rest.length = data.length := by
  have hlength : rest.length = data.length - pos := by rw [← h.2, List.length_drop]
  have hpos := h.1
  omega

theorem Remaining.advance {data first rest : List α} {pos : Nat}
    (h : Remaining data pos (first ++ rest)) : Remaining data (pos + first.length) rest := by
  have hlength := h.length_eq
  rw [List.length_append] at hlength
  refine ⟨by omega, ?_⟩
  rw [← List.drop_drop, h.2, List.drop_left]

theorem Remaining.advance_one {data rest : List α} {first : α} {pos : Nat}
    (h : Remaining data pos (first :: rest)) : Remaining data (pos + 1) rest := by
  rw [← List.singleton_append] at h
  exact h.advance

theorem Remaining.slice_eq {data first rest : List α} {pos : Nat}
    (h : Remaining data pos (first ++ rest)) : slice data pos first.length = first := by
  rw [slice, h.2, List.take_left]

theorem Remaining.slice_eq_of_length {data first rest : List α} {pos n : Nat}
    (h : Remaining data pos (first ++ rest)) (hn : first.length = n) :
    slice data pos n = first := hn ▸ h.slice_eq

theorem length_slice {data : List α} {pos n : Nat} (h : pos + n ≤ data.length) :
    (slice data pos n).length = n := by
  simp only [slice, List.length_take, List.length_drop]
  omega

theorem slice_append_right {first rest : List α} {pos n : Nat} (h : first.length ≤ pos) :
    slice (first ++ rest) pos n = slice rest (pos - first.length) n := by
  rw [slice, slice, List.drop_append, List.drop_eq_nil_of_le h, List.nil_append]

theorem slice_append_left {first rest : List α} {pos n : Nat} (h : pos + n ≤ first.length) :
    slice (first ++ rest) pos n = slice first pos n := by
  have hrest : n ≤ (first.drop pos).length := by
    rw [List.length_drop]
    omega
  rw [slice, slice, List.drop_append_of_le_length (by omega), List.take_append_of_le_length hrest]

theorem slice_all {data : List α} {n : Nat} (h : data.length = n) : slice data 0 n = data := by
  rw [slice, List.drop_zero, List.take_of_length_le (Nat.le_of_eq h)]

theorem slice_take {data : List α} {n pos length : Nat} (h : pos + length ≤ n) :
    slice (data.take n) pos length = slice data pos length := by
  rw [slice, slice, List.drop_take, List.take_take, Nat.min_eq_left (by omega)]

theorem slice_slice {data : List α} {start n pos length : Nat} (h : pos + length ≤ n) :
    slice (slice data start n) pos length = slice data (start + pos) length := by
  change slice ((data.drop start).take n) pos length = _
  rw [slice_take h, slice, slice, List.drop_drop]

theorem length_mul_le_length_flatMap {γ : Type*} {encode : γ → List α} {items : List γ} {k : Nat}
    (h : ∀ item ∈ items, k ≤ (encode item).length) :
    items.length * k ≤ (items.flatMap encode).length := by
  induction items with
  | nil => simp
  | cons item items ih =>
      have hhead := h item (by simp)
      have htail := ih fun other hother => h other (by simp [hother])
      rw [List.length_cons, List.flatMap_cons, List.length_append, Nat.succ_mul]
      omega

theorem length_encode_le_length_flatMap {γ : Type*} {encode : γ → List α} {items : List γ}
    {item : γ} (h : item ∈ items) : (encode item).length ≤ (items.flatMap encode).length := by
  obtain ⟨before, after, rfl⟩ := List.append_of_mem h
  rw [List.flatMap_append, List.flatMap_cons, List.length_append, List.length_append]
  omega

/-! ### The counted loop -/

/-- Read `count` items one after the other, from position `pos`. A failed read ends the loop and
hands over the items read before it. -/
def readMany (read : Nat → Except ε (β × Nat)) :
    Nat → Nat → Except (List β × ε) (List β × Nat)
  | 0, pos => .ok ([], pos)
  | count + 1, pos =>
      match read pos with
      | .error e => .error ([], e)
      | .ok (item, pos) =>
          match readMany read count pos with
          | .error (items, e) => .error (item :: items, e)
          | .ok (items, pos) => .ok (item :: items, pos)

def collected : Except (List β × ε) (List β × Nat) → List β
  | .ok (items, _) => items
  | .error (items, _) => items

/-- The read hands over a value with `Q`, or fails with an error that has `E`. -/
def Yields (E : ε → Prop) (Q : β → Prop) : Except ε β → Prop
  | .ok value => Q value
  | .error e => E e

theorem Yields.mono {E : ε → Prop} {Q R : β → Prop} {read : Except ε β} (h : Yields E Q read)
    (himp : ∀ value, Q value → R value) : Yields E R read := by
  cases read with
  | error e => exact h
  | ok value => exact himp value h

theorem Yields.of_ok {E : ε → Prop} {Q : β → Prop} {read : Except ε β} {value : β}
    (h : Yields E Q read) (hread : read = .ok value) : Q value := by
  rw [hread] at h
  exact h

theorem Yields.of_error {E : ε → Prop} {Q : β → Prop} {read : Except ε β} {e : ε}
    (h : Yields E Q read) (hread : read = .error e) : E e := by
  rw [hread] at h
  exact h

theorem Yields.bind {δ γ : Type u} {E : ε → Prop} {Q : δ → Prop} {R : γ → Prop}
    {read : Except ε δ} {next : δ → Except ε γ} (h : Yields E Q read)
    (hnext : ∀ value, Q value → Yields E R (next value)) : Yields E R (read >>= next) := by
  cases read with
  | error e => exact h
  | ok value => exact hnext value h

theorem bind_eq_ok_iff {δ γ : Type u} {read : Except ε δ} {next : δ → Except ε γ} {value : γ} :
    (read >>= next) = .ok value ↔ ∃ found, read = .ok found ∧ next found = .ok value := by
  cases read with
  | error e =>
      constructor
      · intro h
        cases h
      · rintro ⟨_, h, -⟩
        cases h
  | ok found =>
      constructor
      · intro h
        exact ⟨found, rfl, h⟩
      · rintro ⟨_, h, hnext⟩
        cases h
        exact hnext

/-- The read fails in these ways only, if it fails. -/
def FailsOnly (E : ε → Prop) (read : Except ε β) : Prop :=
  ∀ e, read = .error e → E e

theorem failsOnly_ok (E : ε → Prop) (value : β) : FailsOnly E (.ok value) := by
  intro e h
  cases h

theorem failsOnly_error_iff {E : ε → Prop} {e : ε} :
    FailsOnly E (.error e : Except ε β) ↔ E e := by
  constructor
  · exact fun h => h e rfl
  · rintro h _ ⟨⟩
    exact h

theorem Yields.failsOnly {E : ε → Prop} {Q : β → Prop} {read : Except ε β} (h : Yields E Q read) :
    FailsOnly E read :=
  fun _ herror => h.of_error herror

theorem failsOnly_bind_iff {δ γ : Type u} {E : ε → Prop} {read : Except ε δ}
    {next : δ → Except ε γ} :
    FailsOnly E (read >>= next)
      ↔ FailsOnly E read ∧ ∀ value, read = .ok value → FailsOnly E (next value) := by
  cases read with
  | error e =>
      constructor
      · exact fun h => ⟨fun other herror => h other (by cases herror; rfl), fun _ hok => by cases hok⟩
      · exact fun h other herror => h.1 other (by cases herror; rfl)
  | ok found =>
      constructor
      · refine fun h => ⟨failsOnly_ok E found, ?_⟩
        rintro _ ⟨⟩
        exact h
      · exact fun h => h.2 found rfl

/-- What every read of the loop keeps to, the loop keeps to. -/
theorem readMany_yields {E : ε → Prop} {P : Nat → Prop} {read : Nat → Except ε (β × Nat)}
    (hread : ∀ pos, P pos → Yields E (fun item => P item.2) (read pos)) (count : Nat) {pos : Nat}
    (h : P pos) :
    Yields (fun e => E e.2) (fun items => P items.2) (readMany read count pos) := by
  induction count generalizing pos with
  | zero => exact h
  | succ count ih =>
      have hhead := hread pos h
      rw [readMany]
      cases hresult : read pos with
      | error e =>
          rw [hresult] at hhead
          exact hhead
      | ok found =>
          obtain ⟨item, next⟩ := found
          rw [hresult] at hhead
          have htail := ih hhead
          simp only
          cases hrest : readMany read count next with
          | error e =>
              rw [hrest] at htail
              exact htail
          | ok items =>
              rw [hrest] at htail
              exact htail

/-- A loop whose reads go on and stay inside does so as well. -/
theorem readMany_advances {E : ε → Prop} {start limit : Nat} {read : Nat → Except ε (β × Nat)}
    (hread : ∀ pos, start ≤ pos → pos ≤ limit →
      Yields E (fun item => pos ≤ item.2 ∧ item.2 ≤ limit) (read pos))
    (count : Nat) {pos : Nat} (hstart : start ≤ pos) (hlimit : pos ≤ limit) :
    Yields (fun e => E e.2) (fun items => pos ≤ items.2 ∧ items.2 ≤ limit)
      (readMany read count pos) := by
  have hkeeps : ∀ next, pos ≤ next ∧ next ≤ limit →
      Yields E (fun item => pos ≤ item.2 ∧ item.2 ≤ limit) (read next) :=
    fun next hnext => (hread next (Nat.le_trans hstart hnext.1) hnext.2).mono fun item hitem =>
      ⟨Nat.le_trans hnext.1 hitem.1, hitem.2⟩
  exact readMany_yields hkeeps count ⟨Nat.le_refl pos, hlimit⟩

/-- Reading back a sequence of encodings. `view` is what the reader makes of an encoded item, which
is the item itself for a format that stores all of it. -/
theorem readMany_flatMap {data : List α} {read : Nat → Except ε (β × Nat)}
    {γ : Type*} {encode : γ → List α} {view : γ → β} {items : List γ}
    (hread : ∀ item ∈ items, ∀ pos rest, Remaining data pos (encode item ++ rest) →
      read pos = .ok (view item, pos + (encode item).length))
    {pos : Nat} {rest : List α} (h : Remaining data pos (items.flatMap encode ++ rest)) :
    readMany read items.length pos
      = .ok (items.map view, pos + (items.flatMap encode).length) := by
  induction items generalizing pos with
  | nil => simp [readMany]
  | cons item items ih =>
      rw [List.flatMap_cons, List.append_assoc] at h
      have hhead := hread item (by simp) pos _ h
      have htail := ih (fun other hother => hread other (by simp [hother])) h.advance
      simp only [List.length_cons, readMany, hhead, htail, List.map_cons, List.flatMap_cons,
        List.length_append]
      rw [Nat.add_assoc]

theorem length_of_readMany {read : Nat → Except ε (β × Nat)} {count pos next : Nat} {items : List β}
    (h : readMany read count pos = .ok (items, next)) : items.length = count := by
  induction count generalizing pos items with
  | zero =>
      cases h
      rfl
  | succ count ih =>
      rw [readMany] at h
      split at h
      · cases h
      · split at h
        · cases h
        · rename_i hrest
          cases h
          rw [List.length_cons, ih hrest]

/-- `count` pieces one after the other, from `pos` to `next`. -/
inductive Chain (Piece : Nat → Nat → Prop) : (count pos next : Nat) → Prop
  | nil {pos : Nat} : Chain Piece 0 pos pos
  | cons {count pos mid next : Nat} (h : Piece pos mid) (hrest : Chain Piece count mid next) :
      Chain Piece (count + 1) pos next

theorem chain_zero_iff {Piece : Nat → Nat → Prop} {pos next : Nat} :
    Chain Piece 0 pos next ↔ next = pos := by
  constructor
  · rintro ⟨⟩
    rfl
  · rintro rfl
    exact .nil

theorem chain_succ_iff {Piece : Nat → Nat → Prop} {count pos next : Nat} :
    Chain Piece (count + 1) pos next ↔ ∃ mid, Piece pos mid ∧ Chain Piece count mid next := by
  constructor
  · intro h
    cases h with
    | cons hpiece hrest => exact ⟨_, hpiece, hrest⟩
  · rintro ⟨mid, hpiece, hrest⟩
    exact .cons hpiece hrest

/-- The loop gets through just where there are as many pieces. -/
theorem chain_iff {Piece : Nat → Nat → Prop} {read : Nat → Except ε (β × Nat)}
    (hread : ∀ pos next, Piece pos next ↔ ∃ item, read pos = .ok (item, next))
    (count pos next : Nat) :
    Chain Piece count pos next ↔ ∃ items, readMany read count pos = .ok (items, next) := by
  constructor
  · intro h
    induction h with
    | nil => exact ⟨[], rfl⟩
    | cons hpiece _ ih =>
        obtain ⟨item, hitem⟩ := (hread _ _).mp hpiece
        obtain ⟨items, hitems⟩ := ih
        exact ⟨item :: items, by simp only [readMany, hitem, hitems]⟩
  · rintro ⟨items, h⟩
    induction count generalizing pos items with
    | zero =>
        cases h
        exact .nil
    | succ count ih =>
        rw [readMany] at h
        split at h
        · cases h
        · rename_i item mid hitem
          split at h
          · cases h
          · rename_i others last hrest
            cases h
            exact .cons ((hread _ _).mpr ⟨item, hitem⟩) (ih mid others hrest)

/-- The loop fails with an error just where a read does that it gets to. -/
theorem readMany_error_iff {read : Nat → Except ε (β × Nat)} {e : ε} (count pos : Nat) :
    (∃ items, readMany read count pos = .error (items, e))
      ↔ ∃ k < count, ∃ mid, Chain (fun pos next => ∃ item, read pos = .ok (item, next)) k pos mid
        ∧ read mid = .error e := by
  induction count generalizing pos with
  | zero =>
      refine iff_of_false ?_ ?_
      · rintro ⟨items, h⟩
        cases h
      · rintro ⟨k, hk, -⟩
        exact absurd hk (Nat.not_lt_zero k)
  | succ count ih =>
      cases hhead : read pos with
      | error found =>
          rw [readMany, hhead]
          constructor
          · rintro ⟨items, h⟩
            cases h
            exact ⟨0, Nat.succ_pos count, pos, .nil, hhead⟩
          · rintro ⟨k, -, mid, hchain, herror⟩
            cases hchain with
            | nil =>
                cases hhead.symm.trans herror
                exact ⟨[], rfl⟩
            | cons hpiece _ =>
                obtain ⟨item, hitem⟩ := hpiece
                cases hhead.symm.trans hitem
      | ok found =>
          obtain ⟨item, next⟩ := found
          have hloop : (∃ items, readMany read (count + 1) pos = .error (items, e))
              ↔ ∃ items, readMany read count next = .error (items, e) := by
            rw [readMany, hhead]
            simp only
            cases readMany read count next with
            | ok found => simp
            | error failure => simp [Prod.ext_iff]
          rw [hloop, ih]
          constructor
          · rintro ⟨k, hk, mid, hchain, herror⟩
            exact ⟨k + 1, Nat.succ_lt_succ hk, mid, .cons ⟨item, hhead⟩ hchain, herror⟩
          · rintro ⟨k, hk, mid, hchain, herror⟩
            cases hchain with
            | nil => cases hhead.symm.trans herror
            | cons hpiece hchain =>
                obtain ⟨other, hother⟩ := hpiece
                cases hhead.symm.trans hother
                exact ⟨_, Nat.lt_of_succ_lt_succ hk, mid, hchain, herror⟩

/-- The loop fails in these ways only if every read does that it gets to. -/
theorem failsOnly_readMany_iff {E : ε → Prop} {Piece : Nat → Nat → Prop}
    {read : Nat → Except ε (β × Nat)}
    (hread : ∀ pos next, Piece pos next ↔ ∃ item, read pos = .ok (item, next)) (count pos : Nat) :
    FailsOnly (fun failure => E failure.2) (readMany read count pos)
      ↔ ∀ k < count, ∀ mid, Chain Piece k pos mid → FailsOnly E (read mid) := by
  have hpiece : Piece = fun pos next => ∃ item, read pos = .ok (item, next) := by
    funext pos next
    exact propext (hread pos next)
  rw [hpiece]
  constructor
  · intro h k hk mid hchain e herror
    obtain ⟨items, hloop⟩ := (readMany_error_iff count pos).mpr ⟨k, hk, mid, hchain, herror⟩
    exact h (items, e) hloop
  · rintro h ⟨items, e⟩ hloop
    obtain ⟨k, hk, mid, hchain, herror⟩ := (readMany_error_iff count pos).mp ⟨items, hloop⟩
    exact h k hk mid hchain e herror

end Cursor
