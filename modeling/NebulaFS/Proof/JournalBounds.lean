import NebulaFS.Journal
import NebulaFS.Proof.VarIntLemmas

/-!
# Where the decoder of the journal leaves its input

The loop of `deserialize` adds the position, the length an entry declares and the 32 bytes of its checksum
in a word. A length close to the word size brings the sum round to a small number, the check passes, and
the payload is read from outside. `deserialize_inBounds_iff` says that nothing else can leave the input.
-/

namespace NebulaFS

open LittleEndian Cursor

namespace JournalManager

variable {data : Bytes} {offset pos payload : Nat} {size : UInt64}

/-- An entry begins at the offset, up to a payload of this length. -/
def HeadAt (data : Bytes) (offset : Nat) (size : UInt64) (payload : Nat) : Prop :=
  offset < data.length ∧ ∃ sequence stampAt,
    readVarInt .journalCorrupt data (offset + 1) = .ok (sequence, stampAt)
      ∧ stampAt + 12 ≤ data.length
      ∧ readVarInt .journalCorrupt data (stampAt + 12) = .ok (size, payload)

/-- The entry ends beyond the input, and the sum in a word does not. -/
def Overlong (data : Bytes) (payload : Nat) (size : UInt64) : Prop :=
  data.length < payload + size.toNat + 32 ∧ (payload + size.toNat + 32) % wordSize ≤ data.length

/-- So many whole entries stand from one offset to another. -/
inductive EntriesTo (data : Bytes) : Nat → Nat → Nat → Prop
  | nil (offset : Nat) : EntriesTo data 0 offset offset
  | cons {count offset pos payload : Nat} {size : UInt64} (head : HeadAt data offset size payload)
      (fits : payload + size.toNat + 32 ≤ data.length)
      (rest : EntriesTo data count (payload + size.toNat + 32) pos) :
      EntriesTo data (count + 1) offset pos

/-! ### One round of the loop -/

/-- The round behind the length it reads. -/
theorem HeadAt.readEntry_eq (h : HeadAt data offset size payload) :
    ∃ head : JournalEntry, readEntry data offset = do
      require ((payload + size.toNat + 32) % wordSize ≤ data.length) .journalCorrupt
      let (bytes, offset) ← readRange data payload size.toNat
      let (checksum, offset) ← readArr 32 data offset
      return ({ head with data := bytes, checksum := checksum }, offset) := by
  obtain ⟨hoffset, sequence, stampAt, hsequence, hstamp, hsize⟩ := h
  have hseconds := readRange_of_le (show stampAt + 8 ≤ data.length by omega)
  have hnanos := readRange_of_le (show stampAt + 8 + 4 ≤ data.length by omega)
  refine ⟨{ type := .ofByte data[offset]
            sequence := sequence
            timestamp :=
              { seconds := (UInt64.ofNat (leValue (slice data stampAt 8))).toInt64
                nanos := UInt32.ofNat (leValue (slice data (stampAt + 8) 4)) } }, ?_⟩
  rw [readEntry, require, if_pos (decide_eq_true hoffset), readByte_of_lt hoffset]
  simp only [bind, Except.bind, hsequence]
  rw [require, if_pos (decide_eq_true hstamp)]
  simp only [hseconds, hnanos, Nat.add_assoc stampAt 8 4]
  rw [hsize]

theorem readEntry_of_fits (h : HeadAt data offset size payload)
    (hfits : payload + size.toNat + 32 ≤ data.length) :
    ∃ entry, readEntry data offset = .ok (entry, payload + size.toNat + 32) := by
  obtain ⟨head, hread⟩ := h.readEntry_eq
  have hsum : (payload + size.toNat + 32) % wordSize ≤ data.length :=
    le_trans (Nat.mod_le _ _) hfits
  rw [require, if_pos (decide_eq_true hsum),
    readRange_of_le (show payload + size.toNat ≤ data.length by omega)] at hread
  simp only [bind, Except.bind, readArr] at hread
  rw [dif_pos hfits] at hread
  exact ⟨_, hread⟩

theorem readEntry_of_overlong (h : HeadAt data offset size payload)
    (hlong : Overlong data payload size) : readEntry data offset = .error .outOfBounds := by
  obtain ⟨hbeyond, hsum⟩ := hlong
  obtain ⟨head, hread⟩ := h.readEntry_eq
  rw [hread, require, if_pos (decide_eq_true hsum)]
  simp only [bind, Except.bind, readRange]
  by_cases hbytes : payload + size.toNat ≤ data.length
  · simp only [if_pos hbytes, readArr, dif_neg (Nat.not_le.mpr hbeyond)]
  · rw [if_neg hbytes]

theorem readEntry_of_refused (h : HeadAt data offset size payload)
    (hsum : data.length < (payload + size.toNat + 32) % wordSize) :
    readEntry data offset = .error (.returned .journalCorrupt) := by
  obtain ⟨head, hread⟩ := h.readEntry_eq
  rw [hread, require, if_neg (by rw [decide_eq_true_eq]; omega)]
  rfl

theorem readEntry_of_no_head (h : ∀ size payload, ¬ HeadAt data offset size payload) :
    readEntry data offset = .error (.returned .journalCorrupt) := by
  by_cases hoffset : offset < data.length
  · have hsequence := readVarInt_inside .journalCorrupt (show offset + 1 ≤ data.length from hoffset)
    rw [readEntry, require, if_pos (decide_eq_true hoffset), readByte_of_lt hoffset]
    simp only [bind, Except.bind]
    cases hread : readVarInt .journalCorrupt data (offset + 1) with
    | error e =>
        rw [hread] at hsequence
        rw [show e = .returned .journalCorrupt from hsequence]
    | ok found =>
        obtain ⟨sequence, stampAt⟩ := found
        simp only
        by_cases hstamp : stampAt + 12 ≤ data.length
        · rw [require, if_pos (decide_eq_true hstamp)]
          simp only [readRange_of_le (show stampAt + 8 ≤ data.length by omega),
            readRange_of_le (show stampAt + 8 + 4 ≤ data.length by omega), Nat.add_assoc stampAt 8 4]
          have hsize := readVarInt_inside .journalCorrupt hstamp
          cases hlength : readVarInt .journalCorrupt data (stampAt + 12) with
          | error e =>
              rw [hlength] at hsize
              rw [show e = .returned .journalCorrupt from hsize]
          | ok found =>
              exact absurd ⟨hoffset, sequence, stampAt, hread, hstamp, hlength⟩ (h found.1 found.2)
        · rw [require, if_neg (by rw [decide_eq_true_eq]; exact hstamp)]
  · rw [readEntry, require, if_neg (by rw [decide_eq_true_eq]; exact hoffset)]
    rfl

/-! ### The loop -/

/-- Some entry that the loop comes to is overlong. -/
def MeetsOverlong (data : Bytes) (count offset : Nat) : Prop :=
  ∃ k < count, ∃ pos size payload, EntriesTo data k offset pos ∧ HeadAt data pos size payload
    ∧ Overlong data payload size

theorem readEntry_ok_iff (offset next : Nat) :
    (∃ entry, readEntry data offset = .ok (entry, next)) ↔ ∃ size payload,
      HeadAt data offset size payload ∧ payload + size.toNat + 32 ≤ data.length
        ∧ next = payload + size.toNat + 32 := by
  constructor
  · rintro ⟨entry, hread⟩
    by_cases hhead : ∃ size payload, HeadAt data offset size payload
    · obtain ⟨size, payload, hhead⟩ := hhead
      by_cases hfits : payload + size.toNat + 32 ≤ data.length
      · obtain ⟨other, hother⟩ := readEntry_of_fits hhead hfits
        cases hread.symm.trans hother
        exact ⟨size, payload, hhead, hfits, rfl⟩
      · by_cases hsum : (payload + size.toNat + 32) % wordSize ≤ data.length
        · cases (readEntry_of_overlong hhead ⟨Nat.not_le.mp hfits, hsum⟩).symm.trans hread
        · cases (readEntry_of_refused hhead (Nat.not_le.mp hsum)).symm.trans hread
    · have hnone : ∀ size payload, ¬ HeadAt data offset size payload :=
        fun size payload h => hhead ⟨size, payload, h⟩
      cases (readEntry_of_no_head hnone).symm.trans hread
  · rintro ⟨size, payload, hhead, hfits, rfl⟩
    exact readEntry_of_fits hhead hfits

theorem readEntry_outOfBounds_iff (offset : Nat) :
    readEntry data offset = .error .outOfBounds
      ↔ ∃ size payload, HeadAt data offset size payload ∧ Overlong data payload size := by
  constructor
  · intro hread
    by_cases hhead : ∃ size payload, HeadAt data offset size payload
    · obtain ⟨size, payload, hhead⟩ := hhead
      refine ⟨size, payload, hhead, ?_, ?_⟩
      · by_contra hfits
        obtain ⟨entry, hentry⟩ := readEntry_of_fits hhead (Nat.not_lt.mp hfits)
        cases hread.symm.trans hentry
      · by_contra hsum
        cases hread.symm.trans (readEntry_of_refused hhead (Nat.not_le.mp hsum))
    · have hnone : ∀ size payload, ¬ HeadAt data offset size payload :=
        fun size payload h => hhead ⟨size, payload, h⟩
      cases hread.symm.trans (readEntry_of_no_head hnone)
  · rintro ⟨size, payload, hhead, hlong⟩
    exact readEntry_of_overlong hhead hlong

theorem entriesTo_iff (count offset pos : Nat) :
    EntriesTo data count offset pos
      ↔ Chain (fun pos next => ∃ entry, readEntry data pos = .ok (entry, next)) count offset pos := by
  constructor
  · intro h
    induction h with
    | nil offset => exact .nil
    | cons head fits _ ih => exact .cons (readEntry_of_fits head fits) ih
  · intro h
    induction h with
    | nil => exact .nil _
    | cons hpiece _ ih =>
        obtain ⟨size, payload, hhead, hfits, rfl⟩ := (readEntry_ok_iff _ _).mp hpiece
        exact .cons hhead hfits ih

theorem readMany_outOfBounds_iff (count offset : Nat) :
    (∃ entries, readMany (readEntry data) count offset = .error (entries, .outOfBounds))
      ↔ MeetsOverlong data count offset := by
  rw [readMany_error_iff, MeetsOverlong]
  simp only [← entriesTo_iff, readEntry_outOfBounds_iff, exists_and_left]

/-- Behind the two leading numbers only the loop can leave the input. -/
theorem deserialize_of_header (receiver : JournalManager) {sequence count : UInt64}
    {countAt start : Nat} (hsequence : readVarInt .journalCorrupt data 0 = .ok (sequence, countAt))
    (hcount : readVarInt .journalCorrupt data countAt = .ok (count, start)) :
    ((receiver.deserialize data).2 = none
        ∨ (receiver.deserialize data).2 = some (.returned .journalCorrupt))
      ↔ ¬ MeetsOverlong data count.toNat start := by
  rw [← readMany_outOfBounds_iff, deserialize, hsequence]
  simp only [hcount]
  cases readMany (readEntry data) count.toNat start with
  | ok found => simp
  | error failure =>
      obtain ⟨entries, e⟩ := failure
      cases e <;> simp

/-- **When decoding stays inside its input**: when no entry that the loop comes to declares a length that
brings the sum of the check round the word. -/
theorem deserialize_inBounds_iff (receiver : JournalManager) (data : Bytes) :
    ((receiver.deserialize data).2 = none
        ∨ (receiver.deserialize data).2 = some (.returned .journalCorrupt))
      ↔ ∀ sequence countAt count start,
        readVarInt .journalCorrupt data 0 = .ok (sequence, countAt) →
        readVarInt .journalCorrupt data countAt = .ok (count, start) →
        ∀ k pos size payload, k < count.toNat → EntriesTo data k start pos →
          HeadAt data pos size payload → ¬ Overlong data payload size := by
  have hfirst := readVarInt_inside .journalCorrupt (Nat.zero_le data.length)
  cases hsequence : readVarInt .journalCorrupt data 0 with
  | error e =>
      rw [hsequence] at hfirst
      obtain rfl : e = .returned .journalCorrupt := hfirst
      refine iff_of_true (Or.inr ?_) fun sequence countAt _ _ h => by cases h
      rw [deserialize, hsequence]
  | ok found =>
      obtain ⟨sequence, countAt⟩ := found
      rw [hsequence] at hfirst
      have hsecond := readVarInt_inside .journalCorrupt hfirst.2
      cases hcount : readVarInt .journalCorrupt data countAt with
      | error e =>
          simp only at hsecond
          rw [hcount] at hsecond
          obtain rfl : e = .returned .journalCorrupt := hsecond
          refine iff_of_true (Or.inr ?_) ?_
          · rw [deserialize, hsequence]
            simp only [hcount]
          · rintro _ _ count start ⟨⟩ h
            rw [hcount] at h
            cases h
      | ok found =>
          obtain ⟨count, start⟩ := found
          rw [deserialize_of_header receiver hsequence hcount]
          constructor
          · rintro hnone _ _ _ _ ⟨⟩ h k pos size payload hk hentries hhead hlong
            obtain ⟨rfl, rfl⟩ := Prod.mk.inj (Except.ok.inj (hcount.symm.trans h))
            exact hnone ⟨k, hk, pos, size, payload, hentries, hhead, hlong⟩
          · rintro h ⟨k, hk, pos, size, payload, hentries, hhead, hlong⟩
            exact h _ _ _ _ rfl hcount k pos size payload hk hentries hhead hlong

/-- One entry that declares `2 ^ 64 - 58` bytes, at position 26 of an input of 26 bytes. -/
theorem not_inBounds_wrapped :
    ([0, 1, 1, 0] ++ List.replicate 12 0 ++ VarInt.encode 0xFFFFFFFFFFFFFFC6).length = 26
      ∧ ((new {}).deserialize ([0, 1, 1, 0] ++ List.replicate 12 0
        ++ VarInt.encode 0xFFFFFFFFFFFFFFC6)).2 = some .outOfBounds := by
  decide +kernel

end JournalManager

end NebulaFS
