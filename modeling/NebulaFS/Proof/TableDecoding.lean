import NebulaFS.Proof.TablePersistence

/-!
# Which bytes decode to a usable table

`deserialize` bounds the capacity from above and checks nothing else of it, and it does not compare the
size with the slots. Neither does it ask for all the slots: where the data ends, the rest of them are what
the receiver has there. `Slots` says of the bytes how many occupied slots come about that way, and a table
is usable just where there are as many as the size says and a power of two in all
(`usable_of_decoded_iff`). The lookups only need a slot at all: the mask keeps them inside, and a stored
probe length has 32 bits (`checkedProbe_eq`).
-/

namespace NebulaFS

open Cursor MaskedProbe

namespace HashTable

variable {table receiver : HashTable} {entries : List Entry} {hash : UInt64} {data : Bytes}
  {offset : Nat}

/-! ### Looking up in any table -/

theorem next_lt {n : Nat} (hn : 0 < n) (slot : Nat) : next n slot < n := by
  have hle : (slot + 1) &&& (n - 1) ≤ n - 1 := Nat.and_le_right
  rw [next]
  omega

theorem checkedLoop_eq (fuel : Nat) {slot probeLength : Nat} (hslot : slot < entries.length)
    (hfuel : maxProbe entries < fuel + probeLength) :
    checkedLoop entries hash (fuel + 1) slot probeLength
      = .ok (probeLoop entries hash fuel slot probeLength) := by
  induction fuel generalizing slot probeLength with
  | zero =>
      have hle := le_maxProbe entries slot
      rw [entryAt_eq_getElem hslot] at hle
      rw [checkedLoop, List.getElem?_eq_getElem hslot, probeLoop]
      exact if_pos (by omega)
  | succ fuel ih =>
      have hrest := ih (next_lt (by omega : 0 < entries.length) slot)
        (show maxProbe entries < fuel + (probeLength + 1) by omega)
      rw [checkedLoop, List.getElem?_eq_getElem hslot, probeLoop, entryAt_eq_getElem hslot]
      simp only [hrest]
      split
      · rfl
      · split
        · rfl
        · split
          · rfl
          · rfl

/-- A table with a slot is never left by a probe, and every probe ends. -/
theorem checkedProbe_eq (hn : 0 < entries.length) (hash : UInt64) :
    checkedProbe entries hash = .ok (probe entries hash) := by
  have hslot : idealSlot entries.length hash < entries.length := by
    have hle : hash.toNat &&& (entries.length - 1) ≤ entries.length - 1 := Nat.and_le_right
    rw [idealSlot]
    omega
  exact checkedLoop_eq _ hslot (by omega)

/-- The capacity is a power of two, the size is the number of occupied slots, and what `find` and `remove`
look for is found without leaving the table. -/
structure Usable (table : HashTable) : Prop where
  capacity : ∃ k, table.capacity = 2 ^ k
  size : table.size = table.entries.countP (·.occupied)
  lookups : ∀ key, checkedProbe table.entries (hashKey key) = .ok (probe table.entries (hashKey key))

theorem usable_iff : table.Usable
    ↔ (∃ k, table.capacity = 2 ^ k) ∧ table.size = table.entries.countP (·.occupied) := by
  constructor
  · intro h
    exact ⟨h.capacity, h.size⟩
  · rintro ⟨⟨k, hcapacity⟩, hsize⟩
    have hn : 0 < table.entries.length := by
      rw [← capacity, hcapacity]
      exact Nat.two_pow_pos k
    exact ⟨⟨k, hcapacity⟩, hsize, fun key => checkedProbe_eq hn (hashKey key)⟩

/-! ### What the bytes hold -/

/-- Hash, id and probe length of an occupied slot. -/
def FieldsAt (data : Bytes) (offset last : Nat) : Prop :=
  ∃ hash hashEnd entryId idEnd probeLength,
    readVarInt .corruptIndex data offset = .ok (hash, hashEnd)
      ∧ readVarInt .corruptIndex data hashEnd = .ok (entryId, idEnd)
      ∧ readVarInt .corruptIndex data idEnd = .ok (probeLength, last)

/-- The slots from an offset on, over the slots of the receiver, with the number of occupied ones. -/
inductive Slots (data : Bytes) : (before : List Entry) → (offset occupied : Nat) → Prop
  | nil {offset : Nat} : Slots data [] offset 0
  | ended {before : List Entry} {offset : Nat} (hend : data.length < offset + 2) :
      Slots data before offset (before.countP (·.occupied))
  | free {entry : Entry} {before : List Entry} {offset occupied : Nat}
      (hinside : offset + 2 ≤ data.length) (hflag : data[offset]? = some 0)
      (hrest : Slots data before (offset + 2) occupied) : Slots data (entry :: before) offset occupied
  | taken {entry : Entry} {before : List Entry} {offset last occupied : Nat} {flag : UInt8}
      (hinside : offset + 2 ≤ data.length) (hflag : data[offset]? = some flag) (hset : flag ≠ 0)
      (hfields : FieldsAt data (offset + 2) last) (hrest : Slots data before last occupied) :
      Slots data (entry :: before) offset (occupied + 1)

theorem FieldsAt.unique {last other : Nat} (h : FieldsAt data offset last)
    (hother : FieldsAt data offset other) : last = other := by
  obtain ⟨_, _, _, _, _, hhash, hid, hprobe⟩ := h
  obtain ⟨_, _, _, _, _, hhash', hid', hprobe'⟩ := hother
  cases hhash.symm.trans hhash'
  cases hid.symm.trans hid'
  cases hprobe.symm.trans hprobe'
  rfl

/-- One round of the loop: a slot that is not occupied, one that is, or one without its fields. -/
theorem deserializeEntry_cases (entry : Entry) (hinside : offset + 2 ≤ data.length) :
    (data[offset]? = some 0 ∧ ∃ after, after.occupied = false
        ∧ deserializeEntry data entry offset = (after, .ok (offset + 2)))
      ∨ ∃ flag, data[offset]? = some flag ∧ flag ≠ 0
        ∧ ((∃ after last, FieldsAt data (offset + 2) last ∧ after.occupied = true
            ∧ deserializeEntry data entry offset = (after, .ok last))
          ∨ (∀ last, ¬ FieldsAt data (offset + 2) last)
            ∧ ∃ after e, deserializeEntry data entry offset = (after, .error e)) := by
  have hflag : data[offset]? = some data[offset] := List.getElem?_eq_getElem (by omega)
  have htomb : data[offset + 1]? = some data[offset + 1] := List.getElem?_eq_getElem (by omega)
  rw [deserializeEntry, readByte, hflag]
  simp only
  rw [readByte, htomb]
  simp only
  by_cases hset : data[offset] ≠ 0
  · refine .inr ⟨_, rfl, hset, ?_⟩
    rw [if_pos hset]
    cases hhash : readVarInt .corruptIndex data (offset + 1 + 1) with
    | error e =>
        refine .inr ⟨?_, _, e, rfl⟩
        rintro last ⟨_, _, _, _, _, hhash', -⟩
        cases hhash.symm.trans hhash'
    | ok found =>
        obtain ⟨hash, hashEnd⟩ := found
        simp only
        cases hid : readVarInt .corruptIndex data hashEnd with
        | error e =>
            refine .inr ⟨?_, _, e, rfl⟩
            rintro last ⟨_, _, _, _, _, hhash', hid', -⟩
            cases hhash.symm.trans hhash'
            cases hid.symm.trans hid'
        | ok found =>
            obtain ⟨entryId, idEnd⟩ := found
            simp only
            cases hprobe : readVarInt .corruptIndex data idEnd with
            | error e =>
                refine .inr ⟨?_, _, e, rfl⟩
                rintro last ⟨_, _, _, _, _, hhash', hid', hprobe'⟩
                cases hhash.symm.trans hhash'
                cases hid.symm.trans hid'
                cases hprobe.symm.trans hprobe'
            | ok found =>
                obtain ⟨probeLength, last⟩ := found
                exact .inl ⟨_, last, ⟨_, _, _, _, _, hhash, hid, hprobe⟩, rfl, rfl⟩
  · rw [if_neg hset]
    exact .inl ⟨by rw [not_not.mp hset], _, rfl, rfl⟩

theorem slots_cons_iff_of_free {entry : Entry} {before : List Entry} {occupied : Nat}
    (hinside : offset + 2 ≤ data.length) (hflag : data[offset]? = some 0) :
    Slots data (entry :: before) offset occupied ↔ Slots data before (offset + 2) occupied := by
  constructor
  · intro h
    cases h with
    | ended hend => omega
    | free _ _ hrest => exact hrest
    | taken _ hflag' hset _ _ =>
        rw [hflag] at hflag'
        exact absurd (Option.some.inj hflag').symm hset
  · intro h
    exact .free hinside hflag h

theorem slots_cons_iff_of_taken {entry : Entry} {before : List Entry} {occupied : Nat} {flag : UInt8}
    (hinside : offset + 2 ≤ data.length) (hflag : data[offset]? = some flag) (hset : flag ≠ 0) :
    Slots data (entry :: before) offset occupied ↔ ∃ last rest, occupied = rest + 1
      ∧ FieldsAt data (offset + 2) last ∧ Slots data before last rest := by
  constructor
  · intro h
    cases h with
    | ended hend => omega
    | free _ hflag' _ =>
        rw [hflag] at hflag'
        exact absurd (Option.some.inj hflag') hset
    | taken _ _ _ hfields hrest => exact ⟨_, _, rfl, hfields, hrest⟩
  · rintro ⟨last, rest, rfl, hfields, hrest⟩
    exact .taken hinside hflag hset hfields hrest

/-- **The loop gets through just where the bytes hold slots**, and then has as many occupied ones. -/
theorem deserializeEntries_iff (data : Bytes) (before : List Entry) (offset : Nat) :
    (deserializeEntries data before offset).1.length = before.length
      ∧ ∀ occupied, Slots data before offset occupied
        ↔ (deserializeEntries data before offset).2 = none
          ∧ occupied = (deserializeEntries data before offset).1.countP (·.occupied) := by
  induction before generalizing offset with
  | nil =>
      refine ⟨rfl, fun occupied => ⟨?_, ?_⟩⟩
      · intro h
        cases h with
        | nil => exact ⟨rfl, rfl⟩
        | ended _ => exact ⟨rfl, rfl⟩
      · rintro ⟨-, rfl⟩
        exact .nil
  | cons entry before ih =>
      rw [deserializeEntries]
      by_cases hend : data.length < offset + 2
      · rw [if_pos hend]
        refine ⟨rfl, fun occupied => ⟨?_, ?_⟩⟩
        · intro h
          cases h with
          | ended _ => exact ⟨rfl, rfl⟩
          | free hinside _ _ => omega
          | taken hinside _ _ _ _ => omega
        · rintro ⟨-, rfl⟩
          exact .ended hend
      · have hinside : offset + 2 ≤ data.length := Nat.not_lt.mp hend
        rw [if_neg hend]
        rcases deserializeEntry_cases entry hinside with
          ⟨hflag, after, hoccupied, hentry⟩
          | ⟨flag, hflag, hset, ⟨after, last, hfields, hoccupied, hentry⟩ | ⟨hnone, after, e, hentry⟩⟩
        · obtain ⟨hlength, hrest⟩ := ih (offset + 2)
          rw [hentry]
          refine ⟨congrArg (· + 1) hlength, fun occupied => ?_⟩
          rw [slots_cons_iff_of_free hinside hflag, hrest]
          simp [hoccupied]
        · obtain ⟨hlength, hrest⟩ := ih last
          rw [hentry]
          refine ⟨congrArg (· + 1) hlength, fun occupied => ?_⟩
          rw [slots_cons_iff_of_taken hinside hflag hset]
          simp only [List.countP_cons_of_pos hoccupied]
          constructor
          · rintro ⟨last', rest, rfl, hfields', hslots⟩
            obtain rfl := hfields.unique hfields'
            obtain ⟨hstatus, rfl⟩ := (hrest rest).mp hslots
            exact ⟨hstatus, rfl⟩
          · rintro ⟨hstatus, rfl⟩
            exact ⟨last, _, rfl, hfields, (hrest _).mpr ⟨hstatus, rfl⟩⟩
        · rw [hentry]
          refine ⟨rfl, fun occupied => ⟨?_, ?_⟩⟩
          · intro h
            obtain ⟨last, _, _, hfields, _⟩ := (slots_cons_iff_of_taken hinside hflag hset).mp h
            exact absurd hfields (hnone last)
          · rintro ⟨hstatus, -⟩
            cases hstatus

/-! ### The whole table -/

/-- Where the bytes hold as many slots as the capacity says, it is a power of two and the size is the number
of occupied ones. -/
def HoldsTable (receiver : HashTable) (data : Bytes) : Prop :=
  ∀ capacity sizeAt size start occupied, readVarInt .corruptIndex data 0 = .ok (capacity, sizeAt) →
    readVarInt .corruptIndex data sizeAt = .ok (size, start) →
    capacity.toNat ≤ (data.length - start) / 2 → capacity.toNat ≤ 1024 * 1024 →
    Slots data (resize receiver.entries capacity.toNat) start occupied →
    (∃ k, capacity.toNat = 2 ^ k) ∧ size.toNat = occupied

theorem deserialize_of_head (receiver : HashTable) {capacity size : UInt64} {sizeAt start : Nat}
    (hcapacity : readVarInt .corruptIndex data 0 = .ok (capacity, sizeAt))
    (hsize : readVarInt .corruptIndex data sizeAt = .ok (size, start))
    (hroom : capacity.toNat ≤ (data.length - start) / 2) (hlimit : capacity.toNat ≤ 1024 * 1024) :
    receiver.deserialize data
      = ({ entries := (deserializeEntries data (resize receiver.entries capacity.toNat) start).1
           size := size.toNat },
        (deserializeEntries data (resize receiver.entries capacity.toNat) start).2) := by
  have hstart : start ≤ data.length := by
    have hfirst := readVarInt_inside .corruptIndex (Nat.zero_le data.length)
    rw [hcapacity] at hfirst
    have hsecond := readVarInt_inside .corruptIndex hfirst.2
    rw [hsize] at hsecond
    exact hsecond.2
  rw [deserialize, hcapacity]
  simp only [hsize]
  rw [if_neg (Nat.not_lt.mpr hstart), if_neg (Nat.not_lt.mpr hroom), if_neg (Nat.not_lt.mpr hlimit)]

/-- What a success was called with. -/
theorem head_of_deserialize (h : receiver.deserialize data = (table, none)) :
    ∃ capacity sizeAt size start, readVarInt .corruptIndex data 0 = .ok (capacity, sizeAt)
      ∧ readVarInt .corruptIndex data sizeAt = .ok (size, start)
      ∧ capacity.toNat ≤ (data.length - start) / 2 ∧ capacity.toNat ≤ 1024 * 1024 := by
  rw [deserialize] at h
  cases hcapacity : readVarInt .corruptIndex data 0 with
  | error e =>
      rw [hcapacity] at h
      cases h
  | ok found =>
      obtain ⟨capacity, sizeAt⟩ := found
      rw [hcapacity] at h
      simp only at h
      cases hsize : readVarInt .corruptIndex data sizeAt with
      | error e =>
          rw [hsize] at h
          cases h
      | ok found =>
          obtain ⟨size, start⟩ := found
          rw [hsize] at h
          simp only at h
          split at h
          · cases h
          · split at h
            · cases h
            · rename_i hroom
              split at h
              · cases h
              · rename_i hlimit
                exact ⟨capacity, sizeAt, size, start, rfl, hsize, Nat.not_lt.mp hroom,
                  Nat.not_lt.mp hlimit⟩

/-- **When a decoded table is usable.** -/
theorem usable_of_decoded_iff (receiver : HashTable) (data : Bytes) :
    (∀ table, receiver.deserialize data = (table, none) → table.Usable)
      ↔ HoldsTable receiver data := by
  constructor
  · intro h capacity sizeAt size start occupied hcapacity hsize hroom hlimit hslots
    obtain ⟨hlength, hiff⟩ :=
      deserializeEntries_iff data (resize receiver.entries capacity.toNat) start
    obtain ⟨hstatus, rfl⟩ := (hiff occupied).mp hslots
    have hdecoded := deserialize_of_head receiver hcapacity hsize hroom hlimit
    rw [hstatus] at hdecoded
    obtain ⟨⟨k, hpower⟩, hcount⟩ := usable_iff.mp (h _ hdecoded)
    rw [HashTable.capacity, hlength, length_resize] at hpower
    exact ⟨⟨k, hpower⟩, hcount⟩
  · intro h table htable
    obtain ⟨capacity, sizeAt, size, start, hcapacity, hsize, hroom, hlimit⟩ :=
      head_of_deserialize htable
    obtain ⟨hlength, hiff⟩ :=
      deserializeEntries_iff data (resize receiver.entries capacity.toNat) start
    rw [deserialize_of_head receiver hcapacity hsize hroom hlimit] at htable
    obtain ⟨rfl, hstatus⟩ := Prod.mk.inj htable
    obtain ⟨hpower, hcount⟩ := h _ _ _ _ _ hcapacity hsize hroom hlimit ((hiff _).mpr ⟨hstatus, rfl⟩)
    refine usable_iff.mpr ⟨?_, hcount⟩
    rw [HashTable.capacity, hlength, length_resize]
    exact hpower

/-- Two zeros are a table without slots, and its first access is outside. -/
theorem not_usable_of_no_slots :
    ∃ table, (new 16).deserialize [0, 0] = (table, none) ∧ ¬ table.Usable
      ∧ checkedProbe table.entries (hashKey [0x61]) = .error .outOfBounds := by
  refine ⟨{ entries := [] }, by decide +kernel, ?_, by decide +kernel⟩
  intro h
  obtain ⟨k, hk⟩ := h.capacity
  exact absurd hk.symm (Nat.ne_of_gt (Nat.two_pow_pos k))

end HashTable

end NebulaFS
