import NebulaFS.Proof.SectionCodecs

/-!
# Metadata in a buffer that runs on

The metadata parser is told where its section ends, but it only asks whether an entry starts inside
it. Here is what becomes of the section when more and more of the bytes behind it are in the buffer:
the entries that end inside are found each time (`entriesInside`), and the one that starts inside and
ends beyond is found as soon as the buffer has all of it (`recovered_parse_take`).
-/

namespace NebulaFS

open Cursor

namespace MetadataStore

theorem getString_set_self (store : MetadataStore) (key value : Bytes) :
    (store.set key value).getString key = some value :=
  AList.lookup_insert store.entries

/-- Setting a key to the value it has changes nothing. -/
theorem getString_set_of_mem {store : MetadataStore} {key value : Bytes}
    (h : store.getString key = some value) (other : Bytes) :
    (store.set key value).getString other = store.getString other := by
  by_cases hother : other = key
  · rw [hother, getString_set_self, h]
  · exact AList.lookup_insert_ne hother

end MetadataStore

namespace MetadataParser

/-! ### One entry -/

/-- An entry with these lengths stands at the offset, and all of it is there. -/
structure EntryAt (data : Bytes) (offset : Nat) (keyLen valLen : VarInt.DecodeResult) : Prop where
  key : VarInt.decode (data.drop offset) = keyLen
  keyValid : keyLen.valid = true
  keyShort : keyLen.value.toNat ≤ maxKeyLength
  val : VarInt.decode ((data.drop offset).drop keyLen.consumed) = valLen
  valValid : valLen.valid = true
  valShort : valLen.value.toNat ≤ maxValueLength
  inside : offset + (keyLen.consumed + valLen.consumed + keyLen.value.toNat + valLen.value.toNat)
    ≤ data.length

def entryOf (data : Bytes) (offset : Nat) (keyLen valLen : VarInt.DecodeResult) : Bytes × Bytes :=
  let pos := keyLen.consumed + valLen.consumed
  (slice (data.drop offset) pos keyLen.value.toNat,
    slice (data.drop offset) (pos + keyLen.value.toNat) valLen.value.toNat)

def entryEnd (offset : Nat) (keyLen valLen : VarInt.DecodeResult) : Nat :=
  offset + (keyLen.consumed + valLen.consumed + keyLen.value.toNat + valLen.value.toNat)

variable {data : Bytes} {offset next : Nat} {keyLen valLen : VarInt.DecodeResult}
  {entry : Bytes × Bytes}

theorem EntryAt.parseEntry (h : EntryAt data offset keyLen valLen) :
    parseEntry data offset
      = .ok (entryOf data offset keyLen valLen, entryEnd offset keyLen valLen) := by
  have hinside := h.inside
  have hconsumed : keyLen.consumed ≠ 0 := by
    have hvalid : (VarInt.decode (data.drop offset)).valid = true := by rw [h.key, h.keyValid]
    have hlt : 0 < (VarInt.decode (data.drop offset)).consumed :=
      VarInt.lt_consumed_decodeLoop hvalid
    rw [h.key] at hlt
    omega
  unfold MetadataParser.parseEntry
  simp only [h.key, h.val]
  rw [if_neg (by omega), if_neg (by simp [h.keyValid, hconsumed]),
    if_neg (Nat.not_lt.mpr h.keyShort), if_neg (by simp [h.valValid]),
    if_neg (Nat.not_lt.mpr h.valShort), if_neg (by omega), if_neg (by omega), if_neg (by omega)]
  rfl

/-- What passes a check of the parser. -/
theorem corrupt_else_iff {α : Type} {c : Prop} [Decidable c] {message : String} {result : Result α}
    {value : α} :
    (if c then corrupt offset message else result) = .ok value ↔ ¬ c ∧ result = .ok value := by
  by_cases hc : c
  · simp [hc, corrupt]
  · simp [hc]

theorem entryAt_of_parseEntry (h : parseEntry data offset = .ok (entry, next)) :
    ∃ keyLen valLen, EntryAt data offset keyLen valLen ∧ entry = entryOf data offset keyLen valLen
      ∧ next = entryEnd offset keyLen valLen := by
  unfold parseEntry at h
  split at h
  · cases h
  · simp only [corrupt_else_iff] at h
    obtain ⟨hkey, hkeyShort, hval, hvalShort, hlengths, hkeyEnd, hvalEnd, h⟩ := h
    obtain ⟨rfl, rfl⟩ := Prod.mk.inj (Except.ok.inj h)
    rw [not_or, not_not] at hkey
    exact ⟨_, _, ⟨rfl, hkey.1, by omega, rfl, not_not.mp hval, by omega, by omega⟩, rfl, rfl⟩

/-- An entry stands in a beginning of the buffer just when it ends in it. -/
theorem entryAt_take {n : Nat} (hn : n ≤ data.length) :
    EntryAt (data.take n) offset keyLen valLen
      ↔ EntryAt data offset keyLen valLen ∧ entryEnd offset keyLen valLen ≤ n := by
  have hlength : (data.take n).length = n := List.length_take_of_le hn
  constructor
  · intro h
    have hinside := h.inside
    rw [hlength] at hinside
    have hkey := h.key
    have hval := h.val
    rw [List.drop_take] at hkey hval
    rw [List.drop_take] at hval
    exact ⟨⟨((VarInt.decode_take h.keyValid).mp hkey).1, h.keyValid, h.keyShort,
      ((VarInt.decode_take h.valValid).mp hval).1, h.valValid, h.valShort, by omega⟩, hinside⟩
  · rintro ⟨h, hend⟩
    rw [entryEnd] at hend
    refine ⟨?_, h.keyValid, h.keyShort, ?_, h.valValid, h.valShort, by omega⟩
    · rw [List.drop_take]
      exact (VarInt.decode_take h.keyValid).mpr ⟨h.key, by omega⟩
    · rw [List.drop_take, List.drop_take]
      exact (VarInt.decode_take h.valValid).mpr ⟨h.val, by omega⟩

theorem parseEntry_take {n : Nat} (hn : n ≤ data.length) :
    parseEntry (data.take n) offset = .ok (entry, next)
      ↔ parseEntry data offset = .ok (entry, next) ∧ next ≤ n := by
  have hsame : ∀ keyLen valLen, entryEnd offset keyLen valLen ≤ n →
      entryOf (data.take n) offset keyLen valLen = entryOf data offset keyLen valLen := by
    intro keyLen valLen hend
    rw [entryEnd] at hend
    rw [entryOf, entryOf, List.drop_take, slice_take (by omega), slice_take (by omega)]
  constructor
  · intro h
    obtain ⟨keyLen, valLen, hentry, rfl, rfl⟩ := entryAt_of_parseEntry h
    obtain ⟨hwhole, hend⟩ := (entryAt_take hn).mp hentry
    rw [hwhole.parseEntry, hsame _ _ hend]
    exact ⟨rfl, hend⟩
  · rintro ⟨h, hnext⟩
    obtain ⟨keyLen, valLen, hentry, rfl, rfl⟩ := entryAt_of_parseEntry h
    rw [((entryAt_take hn).mpr ⟨hentry, hnext⟩).parseEntry, hsame _ _ hnext]

/-! ### The section -/

/-- What a caller has of the metadata that keeps an empty store when there is an error. -/
def recovered : Result MetadataStore → MetadataStore
  | .ok store => store
  | .error _ => {}

/-- The entries from the offset on that end inside the section, and the one after them if it starts
inside but ends beyond. -/
def entriesInside (data : Bytes) (size : Nat) :
    (fuel : Nat) → Nat → MetadataStore → MetadataStore × Option ((Bytes × Bytes) × Nat)
  | 0, _, store => (store, none)
  | fuel + 1, offset, store =>
      if size ≤ offset then (store, none)
      else
        match parseEntry data offset with
        | .error _ => (store, none)
        | .ok (entry, next) =>
            if size < next then (store, some (entry, next))
            else entriesInside data size fuel next (store.set entry.1 entry.2)

theorem entriesInside_some {size fuel : Nat} {store last : MetadataStore}
    (h : entriesInside data size fuel offset store = (last, some (entry, next))) :
    size < next ∧ next ≤ data.length := by
  induction fuel generalizing offset store with
  | zero => cases h
  | succ fuel ih =>
      rw [entriesInside] at h
      split at h
      · cases h
      · split at h
        · cases h
        · rename_i found after hparse
          split at h
          · obtain ⟨-, hsome⟩ := Prod.mk.inj h
            obtain ⟨rfl, rfl⟩ := Prod.mk.inj (Option.some.inj hsome)
            obtain ⟨keyLen, valLen, hentry, -, rfl⟩ := entryAt_of_parseEntry hparse
            exact ⟨‹_›, hentry.inside⟩
          · exact ih h

/-- What is found in the first `n` bytes. -/
def foundIn (n : Nat) : MetadataStore × Option ((Bytes × Bytes) × Nat) → MetadataStore
  | (store, none) => store
  | (store, some (entry, next)) => if next ≤ n then store.set entry.1 entry.2 else store

theorem recovered_parseLoop_take {size n fuel : Nat} {store : MetadataStore}
    (hn : n ≤ data.length) (hsize : size ≤ n) (hoffset : offset ≤ n)
    (hfuel : size ≤ offset + fuel) (hstart : offset = 0 → store = {}) :
    recovered (parseLoop (data.take n) size fuel offset store)
      = foundIn n (entriesInside data size fuel offset store) := by
  have hlength : (data.take n).length = n := List.length_take_of_le hn
  induction fuel generalizing offset store with
  | zero =>
      rw [parseLoop, if_pos (by omega)]
      rfl
  | succ fuel ih =>
      rw [parseLoop, entriesInside]
      by_cases hdone : size ≤ offset
      · rw [if_pos hdone, if_pos hdone]
        rfl
      · rw [if_neg hdone, if_neg hdone]
        rcases parseEntry_cases (data.take n) (show offset ≤ (data.take n).length by omega) with
          ⟨entry, next, heq, hlt, hnext⟩ | ⟨e, heq⟩
        · rw [hlength] at hnext
          have hwhole := ((parseEntry_take hn).mp heq).1
          rw [heq, hwhole]
          simp only
          by_cases hbeyond : size < next
          · rw [if_pos hbeyond, foundIn, if_pos hnext]
            cases fuel <;> rw [parseLoop, if_pos (by omega)] <;> rfl
          · rw [if_neg hbeyond]
            exact ih hnext (by omega) (by omega)
        · -- the entry is cut off or bad: what was found before it stays
          have hkept : recovered (if offset = 0 then .error (.returned e) else .ok store) = store := by
            split
            · exact (hstart ‹_›).symm
            · rfl
          rw [heq]
          simp only
          rw [hkept]
          cases hwhole : parseEntry data offset with
          | error fault => rfl
          | ok found =>
              obtain ⟨entry, next⟩ := found
              have hcut : ¬ next ≤ n := by
                intro hnext
                rw [(parseEntry_take hn).mpr ⟨hwhole, hnext⟩] at heq
                cases heq
              simp only
              rw [if_pos (by omega), foundIn, if_neg hcut]

/-- The metadata that the parser finds when the buffer has the first `n` bytes from the start of the
section on. -/
theorem recovered_parse_take {size n : Nat} (hn : n ≤ data.length) (hsize : size ≤ n) :
    recovered (parse (data.take n) size) = foundIn n (entriesInside data size size 0 {}) := by
  have hlength : (data.take n).length = n := List.length_take_of_le hn
  rw [parse, if_neg (by omega)]
  exact recovered_parseLoop_take hn hsize (by omega) (by omega) fun _ => rfl

/-! ### Sections that were written -/

/-- An entry that was written ends where its writer left off, if it is not refused for its lengths. -/
theorem parseEntry_serializeEntry {key value rest : Bytes} (hfits : data.length < 2 ^ 64)
    (h : Remaining data offset (MetadataStore.serializeEntry key value ++ rest))
    (hparse : parseEntry data offset = .ok (entry, next)) :
    next = offset + (MetadataStore.serializeEntry key value).length := by
  have hlength := h.length_eq
  rw [MetadataStore.serializeEntry] at h hlength ⊢
  simp only [List.length_append, List.append_assoc] at h hlength ⊢
  obtain ⟨keyLen, valLen, hentry, -, rfl⟩ := entryAt_of_parseEntry hparse
  have hkey := hentry.key
  rw [h.2, VarInt.decode_encode_append] at hkey
  have hval := hentry.val
  rw [h.2, ← hkey, List.drop_left, VarInt.decode_encode_append] at hval
  rw [entryEnd, ← hkey, ← hval]
  simp only
  rw [toNat_ofNat_of_lt (by omega), toNat_ofNat_of_lt (by omega)]
  omega

theorem entriesInside_of_remaining {entries : List (Sigma fun _ : Bytes => Bytes)} {rest : Bytes}
    {fuel size : Nat} {store : MetadataStore} (hfits : data.length < 2 ^ 64)
    (h : Remaining data offset
      (entries.flatMap (fun entry => MetadataStore.serializeEntry entry.1 entry.2) ++ rest))
    (hsize : size = offset
      + (entries.flatMap fun entry => MetadataStore.serializeEntry entry.1 entry.2).length) :
    (entriesInside data size fuel offset store).2 = none := by
  induction fuel generalizing entries offset store with
  | zero => rfl
  | succ fuel ih =>
      rw [entriesInside]
      cases entries with
      | nil =>
          rw [List.flatMap_nil, List.length_nil, Nat.add_zero] at hsize
          rw [if_pos (Nat.le_of_eq hsize)]
      | cons head entries =>
          rw [List.flatMap_cons, List.length_append] at hsize
          rw [List.flatMap_cons, List.append_assoc] at h
          split
          · rfl
          · cases hparse : parseEntry data offset with
            | error e => rfl
            | ok found =>
                obtain ⟨entry, next⟩ := found
                have hnext := parseEntry_serializeEntry hfits h hparse
                simp only
                rw [if_neg (by omega), hnext]
                exact ih h.advance (by omega)

/-- What follows a section that was written makes no difference to what is found in it. -/
theorem entriesInside_serialize {store : MetadataStore} {rest : Bytes}
    (hfits : (store.serialize ++ rest).length < 2 ^ 64) :
    (entriesInside (store.serialize ++ rest) store.serialize.length store.serialize.length 0 {}).2
      = none :=
  entriesInside_of_remaining hfits (remaining_start _) (Nat.zero_add _).symm

end MetadataParser

end NebulaFS
