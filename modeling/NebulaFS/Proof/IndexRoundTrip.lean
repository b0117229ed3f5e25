import Mathlib.Data.List.Induction
import NebulaFS.Proof.IndexLookups
import NebulaFS.Proof.SectionCodecs

/-!
# The index table is read back

What is decoded has the entries in their order and a map by id made from them, so it is right whatever the
map of the encoded index was (`positioned_restored`). That one is right too where `validate` says so
(`positioned_of_validate`), and then both find the same. It need not be: an id that was inserted twice and
removed leaves an entry that is in no map.
-/

namespace NebulaFS

open Cursor

namespace IndexManager

variable {manager other : IndexManager} {live : List ArchiveEntry}

/-- An entry that is indexed as this one. -/
def asLive (entry : IndexEntry) : ArchiveEntry :=
  { id := entry.entryId
    offset := entry.offset
    storedSize := entry.size
    checksum := entry.checksum }

theorem map_toIndexEntry_asLive (entries : List IndexEntry) :
    (entries.map asLive).map toIndexEntry = entries := by
  rw [List.map_map]
  exact List.map_id entries

theorem map_id_asLive (entries : List IndexEntry) :
    (entries.map asLive).map ArchiveEntry.id = entries.map (·.entryId) := by
  rw [List.map_map]
  rfl

theorem Positioned.of_eq (h : Positioned live manager) (hentries : other.entries = manager.entries)
    (hindex : other.idIndex = manager.idIndex) : Positioned live other where
  entries_eq := hentries.trans h.entries_eq
  nodup := h.nodup
  lookup_iff := by
    rw [hindex]
    exact h.lookup_iff

/-! ### The decoded index -/

theorem indexById_concat (entries : List IndexEntry) (entry : IndexEntry) :
    indexById (entries ++ [entry]) = (indexById entries).insert entry.entryId entries.length := by
  rw [indexById, List.zipIdx_append, List.foldl_append, ← indexById]
  simp

theorem positioned_restored {entries : List IndexEntry} (hids : (entries.map (·.entryId)).Nodup) :
    Positioned (entries.map asLive) { entries := entries, idIndex := indexById entries } := by
  induction entries using List.reverseRecOn with
  | nil => exact positioned_empty
  | append_singleton entries entry ih =>
      rw [List.map_append, List.map_singleton] at hids
      obtain ⟨hbefore, -, hdisjoint⟩ := List.nodup_append.mp hids
      have hfresh : (asLive entry).id ∉ (entries.map asLive).map ArchiveEntry.id := by
        rw [map_id_asLive]
        intro hmem
        exact hdisjoint _ hmem _ (List.mem_singleton_self _) rfl
      rw [List.map_append, List.map_singleton]
      exact ((ih hbefore).insert hfresh).of_eq rfl (indexById_concat entries entry)

/-! ### The encoded index -/

/-- `validate` counts: as many ids as entries, and each has an entry of its own. -/
theorem positioned_of_validate (hids : (manager.entries.map (·.entryId)).Nodup)
    (hvalid : manager.validate = true) : Positioned (manager.entries.map asLive) manager := by
  rw [validate, Bool.and_eq_true, beq_iff_eq, List.all_eq_true] at hvalid
  obtain ⟨hlength, hall⟩ := hvalid
  have hright : ∀ {id position}, manager.idIndex.lookup id = some position →
      ∃ entry, manager.entries[position]? = some entry ∧ entry.entryId = id := by
    intro id position hlookup
    have hmem := hall ⟨id, position⟩ (AList.mem_lookup_iff.mp hlookup)
    simpa [Option.any_eq_true] using hmem
  -- no id without an entry, and none left out
  have hsubset : manager.idIndex.keys ⊆ manager.entries.map (·.entryId) := by
    intro id hkey
    obtain ⟨position, hlookup⟩ := Option.isSome_iff_exists.mp (AList.lookup_isSome.mpr hkey)
    obtain ⟨entry, hentry, rfl⟩ := hright hlookup
    exact List.mem_map_of_mem (List.mem_of_getElem? hentry)
  have hcount : (manager.entries.map (·.entryId)).length ≤ manager.idIndex.keys.length := by
    rw [AList.keys, List.keys, List.length_map, List.length_map]
    exact Nat.le_of_eq hlength
  have hperm := (List.subperm_of_subset manager.idIndex.keys_nodup hsubset).perm_of_length_le hcount
  refine ⟨(map_toIndexEntry_asLive _).symm, by rw [map_id_asLive]; exact hids, ?_⟩
  intro id position
  have hget : ((manager.entries.map asLive)[position]?).map ArchiveEntry.id
      = (manager.entries.map (·.entryId))[position]? := by
    rw [← List.getElem?_map, map_id_asLive]
  rw [hget]
  constructor
  · intro hlookup
    obtain ⟨entry, hentry, rfl⟩ := hright hlookup
    rw [List.getElem?_map, hentry]
    rfl
  · intro hposition
    have hkey : id ∈ manager.idIndex.keys := hperm.mem_iff.mpr (List.mem_of_getElem? hposition)
    obtain ⟨found, hlookup⟩ := Option.isSome_iff_exists.mp (AList.lookup_isSome.mpr hkey)
    obtain ⟨entry, hentry, hid⟩ := hright hlookup
    have hfound : (manager.entries.map (·.entryId))[found]? = some id := by
      rw [List.getElem?_map, hentry, Option.map_some, hid]
    obtain ⟨hlt, hat⟩ := List.getElem?_eq_some_iff.mp hfound
    obtain ⟨hlt', hat'⟩ := List.getElem?_eq_some_iff.mp hposition
    rw [hlookup, (hids.getElem_inj_iff).mp (hat.trans hat'.symm)]

/-- Where no id is inserted that is there already, the map by id is right. -/
theorem positioned_of_fresh_ids {ops : List Op} (h : Positioned live manager)
    (hfresh : Runs.Along (fun live op after => keep live op = after)
      (fun live op => ∀ entry, op = .insert entry → entry.id ∉ live.map ArchiveEntry.id) live ops) :
    Positioned (ops.foldl keep live) (ops.foldl step manager) := by
  induction ops generalizing live manager with
  | nil => exact h
  | cons op ops ih =>
      obtain ⟨hop, hrest⟩ := hfresh
      cases op with
      | insert entry => exact ih (h.insert (hop entry rfl)) (hrest _ rfl)
      | remove id => exact ih (h.remove id) (hrest _ rfl)

/-! ### The round trip -/

/-- The count that is written passes the check on the bytes an entry takes at least. -/
theorem count_le_of_serialize (manager : IndexManager) (hfits : manager.serialize.length < 2 ^ 64)
    {count : UInt64} {offset : Nat}
    (hcount : readVarInt .corruptIndex manager.serialize 0 = .ok (count, offset)) :
    count.toNat ≤ (manager.serialize.length - offset) / minBytesPerEntry := by
  by_contra hlarge
  have hrejected : (deserialize manager.serialize).2 = some (.returned .corruptIndex) := by
    rw [deserialize, hcount]
    simp only
    rw [if_pos (Nat.not_le.mp hlarge)]
  rw [deserialize_serialize manager hfits] at hrejected
  cases hrejected

theorem findById_decoded (hids : (manager.entries.map (·.entryId)).Nodup)
    (hvalid : manager.validate = true) (id : EntryID) :
    findById { entries := manager.entries, idIndex := indexById manager.entries } id
      = manager.findById id := by
  rw [(positioned_restored hids).findById_eq, (positioned_of_validate hids hvalid).findById_eq]

/-- After any removals, and insertions of ids that are not there, the decoded index is the same. -/
theorem index_restored_run {ops : List Op}
    (hfresh : Runs.Along (fun live op after => keep live op = after)
      (fun live op => ∀ entry, op = .insert entry → entry.id ∉ live.map ArchiveEntry.id) [] ops)
    (hfits : (ops.foldl step {}).serialize.length < 2 ^ 64) :
    ∃ restored, deserialize (ops.foldl step {}).serialize = (restored, none)
      ∧ restored.entries = (ops.foldl step {}).entries
      ∧ ∀ id, restored.findById id = (ops.foldl step {}).findById id := by
  have hpositioned := positioned_of_fresh_ids positioned_empty hfresh
  have hids : ((ops.foldl step {}).entries.map (·.entryId)).Nodup := by
    rw [hpositioned.entries_eq, List.map_map]
    exact hpositioned.nodup
  exact ⟨_, deserialize_serialize _ hfits, rfl,
    findById_decoded hids hpositioned.validate_eq_true⟩

/-- **The round trip of the index table.** The entries come back in their order with a valid index, which
finds what the encoded one finds if that is valid. -/
theorem index_table_restored (manager : IndexManager) (hids : (manager.entries.map (·.entryId)).Nodup)
    (hfits : manager.serialize.length < 2 ^ 64) :
    (∀ count offset, readVarInt .corruptIndex manager.serialize 0 = .ok (count, offset) →
        count.toNat ≤ (manager.serialize.length - offset) / minBytesPerEntry)
      ∧ ∃ restored, deserialize manager.serialize = (restored, none)
        ∧ restored.entries = manager.entries ∧ restored.validate = true
        ∧ (manager.validate = true → ∀ id, restored.findById id = manager.findById id) := by
  refine ⟨fun _ _ hcount => count_le_of_serialize manager hfits hcount, _,
    deserialize_serialize manager hfits, rfl, (positioned_restored hids).validate_eq_true, ?_⟩
  intro hvalid id
  exact findById_decoded hids hvalid id

theorem index_table_restored_of_two :
    let manager := [Op.insert { id := 300, offset := 0xFFFFFFFFFFFFFFFF, path := [97] },
      .insert { id := 2, storedSize := 5 }].foldl step {}
    ∃ restored, deserialize manager.serialize = (restored, none)
      ∧ restored.findById 300 = manager.findById 300 := by
  intro manager
  obtain ⟨-, restored, hrestored, -, -, hfind⟩ :=
    index_table_restored manager (by decide) (by decide +kernel)
  exact ⟨restored, hrestored, hfind (by decide) 300⟩

/-- An id is inserted twice and removed: one entry is left, which only the decoded index finds. -/
theorem not_findById_restored :
    let manager := [Op.insert { id := 1 }, .insert { id := 1 }, .remove 1].foldl step {}
    (manager.entries.map (·.entryId)).Nodup ∧ manager.findById 1 = none
      ∧ (deserialize manager.serialize).1.findById 1 = some { entryId := 1 } := by
  decide +kernel

end IndexManager

end NebulaFS
