import Mathlib.Data.List.Nodup
import NebulaFS.IndexManager
import NebulaFS.Lib.Runs

/-!
# The lookups of the index

A run of insertions and removals is followed by the list of the live entries (`keep`). The entries of
the index are those, and the map by id has their positions (`Positioned`), which a removal from the
middle repairs. With distinct paths the map by path follows too (`Pathed`). The map by type keeps the
positions of before a removal, so that it stays right only while the last entry is removed.
-/

namespace NebulaFS

namespace IndexManager

inductive Op
  | insert (entry : ArchiveEntry)
  | remove (id : EntryID)

def step (manager : IndexManager) : Op → IndexManager
  | .insert entry => manager.insert entry
  | .remove id => (manager.remove id).1

/-- The live entries in the order of their insertion. -/
def keep (live : List ArchiveEntry) : Op → List ArchiveEntry
  | .insert entry => live ++ [entry]
  | .remove id => live.filter fun entry => entry.id ≠ id

variable {live : List ArchiveEntry} {manager : IndexManager} {entry : ArchiveEntry} {id : EntryID}

/-! ### Positions -/

/-- The entries are the live ones, and the map by id has their positions. -/
structure Positioned (live : List ArchiveEntry) (manager : IndexManager) : Prop where
  entries_eq : manager.entries = live.map toIndexEntry
  nodup : (live.map ArchiveEntry.id).Nodup
  lookup_iff : ∀ id position, manager.idIndex.lookup id = some position
    ↔ (live[position]?).map ArchiveEntry.id = some id

theorem positioned_empty : Positioned [] {} where
  entries_eq := rfl
  nodup := List.nodup_nil
  lookup_iff := by simp

/-- The entry of an id, with what stands before and behind it. -/
theorem Positioned.exists_split (h : Positioned live manager) {position : Nat}
    (hlookup : manager.idIndex.lookup id = some position) :
    ∃ first entry last, live = first ++ entry :: last ∧ first.length = position
      ∧ entry.id = id := by
  obtain ⟨entry, hentry, hid⟩ := Option.map_eq_some_iff.mp ((h.lookup_iff id position).mp hlookup)
  obtain ⟨hlt, hget⟩ := List.getElem?_eq_some_iff.mp hentry
  refine ⟨live.take position, entry, live.drop (position + 1), ?_, ?_, hid⟩
  · rw [← hget, List.getElem_cons_drop, List.take_append_drop]
  · rw [List.length_take]
    omega

theorem Positioned.lookup_eq_none_iff (h : Positioned live manager) (id : EntryID) :
    manager.idIndex.lookup id = none ↔ id ∉ live.map ArchiveEntry.id := by
  rw [Option.eq_none_iff_forall_ne_some, ← not_exists_not, not_iff_not]
  constructor
  · rintro ⟨position, hlookup⟩
    obtain ⟨first, entry, last, rfl, -, rfl⟩ := h.exists_split (not_not.mp hlookup)
    simp
  · intro hmem
    obtain ⟨position, hposition⟩ := List.mem_iff_getElem?.mp hmem
    rw [List.getElem?_map] at hposition
    exact ⟨position, not_not.mpr ((h.lookup_iff id position).mpr hposition)⟩

theorem Positioned.insert (h : Positioned live manager) (hfresh : entry.id ∉ live.map ArchiveEntry.id) :
    Positioned (live ++ [entry]) (manager.insert entry) where
  entries_eq := by
    rw [IndexManager.insert, h.entries_eq, List.map_append]
    rfl
  nodup := by
    rw [List.map_append]
    apply List.Nodup.append h.nodup (List.nodup_singleton _)
    simpa using hfresh
  lookup_iff := by
    intro id position
    have hlength : manager.entries.length = live.length := by
      rw [h.entries_eq, List.length_map]
    rw [IndexManager.insert]
    by_cases hid : id = entry.id
    · subst hid
      rw [AList.lookup_insert, Option.some.injEq, hlength]
      constructor
      · rintro rfl
        simp
      · intro hposition
        by_contra hne
        rw [List.getElem?_append] at hposition
        split at hposition
        · apply hfresh
          rw [← List.getElem?_map] at hposition
          exact List.mem_of_getElem? hposition
        · rw [List.getElem?_cons, if_neg (by omega)] at hposition
          simp at hposition
    · rw [AList.lookup_insert_ne hid, h.lookup_iff, List.getElem?_append]
      split
      · exact Iff.rfl
      · rw [List.getElem?_eq_none (by omega), List.getElem?_cons]
        split
        · simpa using fun heq => hid heq.symm
        · simp

/-! ### Removing from the middle -/

theorem getElem?_shift {first last : List ArchiveEntry} {position : Nat}
    (hne : position ≠ first.length) (entry : ArchiveEntry) :
    (first ++ last)[if first.length < position then position - 1 else position]?
      = (first ++ entry :: last)[position]? := by
  rcases Nat.lt_or_gt_of_ne hne with hlt | hgt
  · rw [if_neg (by omega), List.getElem?_append_left hlt, List.getElem?_append_left hlt]
  · have hsucc : position - first.length = position - 1 - first.length + 1 := by omega
    rw [if_pos hgt, List.getElem?_append_right (by omega), List.getElem?_append_right (by omega), hsucc,
      List.getElem?_cons_succ]

theorem lookup_shiftPositions (idIndex : UnorderedMap EntryID Nat) (idx : Nat) (id : EntryID) :
    (shiftPositions idIndex idx).lookup id
      = (idIndex.lookup id).map fun eidx => if idx < eidx then eidx - 1 else eidx :=
  List.dlookup_map₂ id

theorem filter_ne_of_split {first last : List ArchiveEntry}
    (hnodup : ((first ++ entry :: last).map ArchiveEntry.id).Nodup) :
    (first ++ entry :: last).filter (fun other => other.id ≠ entry.id) = first ++ last := by
  rw [List.map_append, List.map_cons, List.nodup_append] at hnodup
  obtain ⟨-, hlast, hfirst⟩ := hnodup
  have hbefore : ∀ other ∈ first, other.id ≠ entry.id :=
    fun other hmem => hfirst _ (List.mem_map_of_mem hmem) _ List.mem_cons_self
  have hbehind : ∀ other ∈ last, other.id ≠ entry.id := by
    intro other hmem heq
    apply (List.nodup_cons.mp hlast).1
    rw [← heq]
    exact List.mem_map_of_mem hmem
  rw [List.filter_append, List.filter_cons_of_neg (by simp), List.filter_eq_self.mpr (by simpa using hbefore),
    List.filter_eq_self.mpr (by simpa using hbehind)]

theorem Positioned.remove (h : Positioned live manager) (id : EntryID) :
    Positioned (live.filter fun entry => entry.id ≠ id) (manager.remove id).1 := by
  cases hlookup : manager.idIndex.lookup id with
  | none =>
      have habsent := (h.lookup_eq_none_iff id).mp hlookup
      have hfilter : (live.filter fun entry => entry.id ≠ id) = live := by
        rw [List.filter_eq_self]
        intro entry hmem
        apply decide_eq_true
        rintro rfl
        exact habsent (List.mem_map_of_mem hmem)
      rw [IndexManager.remove, hlookup, hfilter]
      exact h
  | some idx =>
      obtain ⟨first, entry, last, rfl, rfl, rfl⟩ := h.exists_split hlookup
      have hfilter := filter_ne_of_split h.nodup
      have hne : ∀ {position : Nat} {other : EntryID}, other ≠ entry.id →
          ((first ++ entry :: last)[position]?).map ArchiveEntry.id = some other →
          position ≠ first.length := by
        rintro position other hother hposition rfl
        simp at hposition
        exact hother hposition.symm
      rw [IndexManager.remove, hlookup, hfilter]
      refine ⟨?_, ?_, ?_⟩
      · rw [h.entries_eq]
        simp [List.eraseIdx_append_of_length_le]
      · rw [← hfilter]
        exact h.nodup.sublist (List.filter_sublist.map _)
      · intro other position
        rw [lookup_shiftPositions]
        by_cases hother : other = entry.id
        · subst hother
          rw [AList.lookup_erase]
          refine iff_of_false (by simp) ?_
          intro hposition
          rw [← List.getElem?_map] at hposition
          have hmem := List.mem_of_getElem? hposition
          rw [← hfilter] at hmem
          obtain ⟨found, hfound, heq⟩ := List.mem_map.mp hmem
          simp only [List.mem_filter, decide_eq_true_eq] at hfound
          exact hfound.2 heq
        · rw [AList.lookup_erase_ne hother]
          constructor
          · intro hposition
            obtain ⟨before, hbefore, rfl⟩ := Option.map_eq_some_iff.mp hposition
            have hentry := (h.lookup_iff other before).mp hbefore
            rw [getElem?_shift (hne hother hentry) entry]
            exact hentry
          · intro hposition
            have hback : ∃ before, before ≠ first.length
                ∧ (if first.length < before then before - 1 else before) = position := by
              by_cases hlt : position < first.length
              · exact ⟨position, by omega, if_neg (by omega)⟩
              · exact ⟨position + 1, by omega, if_pos (by omega)⟩
            obtain ⟨before, hbefore, rfl⟩ := hback
            rw [getElem?_shift hbefore entry] at hposition
            rw [(h.lookup_iff other before).mpr hposition]
            rfl

/-! ### Looking up by id -/

theorem Positioned.findById_of_mem (h : Positioned live manager) (hmem : entry ∈ live) :
    manager.findById entry.id = some (toIndexEntry entry) := by
  obtain ⟨position, hposition⟩ := List.mem_iff_getElem?.mp hmem
  have hlookup : manager.idIndex.lookup entry.id = some position := by
    rw [h.lookup_iff, hposition]
    rfl
  rw [findById, hlookup]
  dsimp only
  rw [h.entries_eq, List.getElem?_map, hposition]
  rfl

theorem Positioned.findById_of_notMem (h : Positioned live manager)
    (hmem : id ∉ live.map ArchiveEntry.id) : manager.findById id = none := by
  rw [findById, (h.lookup_eq_none_iff id).mpr hmem]

theorem Positioned.findById_eq (h : Positioned live manager) (id : EntryID) :
    manager.findById id = (live.find? fun entry => entry.id = id).map toIndexEntry := by
  cases hfind : live.find? fun entry => entry.id = id with
  | some entry =>
      have hid : entry.id = id := by
        simpa using List.find?_some hfind
      rw [← hid]
      exact h.findById_of_mem (List.mem_of_find?_eq_some hfind)
  | none =>
      apply h.findById_of_notMem
      intro hmem
      obtain ⟨entry, hentry, heq⟩ := List.mem_map.mp hmem
      have hne := List.find?_eq_none.mp hfind entry hentry
      simp [heq] at hne

theorem Positioned.contains_eq (h : Positioned live manager) (id : EntryID) :
    manager.contains id = decide (id ∈ live.map ArchiveEntry.id) := by
  rw [contains, Bool.eq_iff_iff, decide_eq_true_iff, Option.isSome_iff_ne_none, ne_eq,
    h.lookup_eq_none_iff, not_not]

theorem Positioned.validate_eq_true (h : Positioned live manager) : manager.validate = true := by
  have hkeys : manager.idIndex.keys.Perm (live.map ArchiveEntry.id) := by
    rw [List.perm_ext_iff_of_nodup manager.idIndex.keys_nodup h.nodup]
    intro id
    rw [← AList.mem_keys, ← not_iff_not, ← AList.lookup_eq_none, h.lookup_eq_none_iff]
  have hlength : manager.entries.length = manager.idIndex.entries.length := by
    have hperm := hkeys.length_eq
    rw [AList.keys, List.keys, List.length_map, List.length_map] at hperm
    rw [h.entries_eq, List.length_map, hperm]
  rw [validate, Bool.and_eq_true, beq_iff_eq, List.all_eq_true]
  refine ⟨hlength, ?_⟩
  intro pair hpair
  have hlookup : manager.idIndex.lookup pair.1 = some pair.2 := AList.mem_lookup_iff.mpr hpair
  obtain ⟨entry, hentry, hid⟩ := Option.map_eq_some_iff.mp ((h.lookup_iff pair.1 pair.2).mp hlookup)
  rw [h.entries_eq, List.getElem?_map, hentry]
  simpa [toIndexEntry] using hid

/-! ### Looking up by path -/

/-- The map by path has the live entries, each under its own path. -/
structure Pathed (live : List ArchiveEntry) (manager : IndexManager) : Prop where
  nodup : (live.map ArchiveEntry.path).Nodup
  lookup_iff : ∀ path id, manager.pathMap.lookup path = some id
    ↔ ∃ entry ∈ live, entry.path = path ∧ entry.id = id

theorem pathed_empty : Pathed [] {} where
  nodup := List.nodup_nil
  lookup_iff := by simp

theorem Pathed.insert (h : Pathed live manager) (hne : entry.path ≠ [])
    (hfresh : entry.path ∉ live.map ArchiveEntry.path) :
    Pathed (live ++ [entry]) (manager.insert entry) where
  nodup := by
    rw [List.map_append]
    apply List.Nodup.append h.nodup (List.nodup_singleton _)
    simpa using hfresh
  lookup_iff := by
    intro path id
    rw [IndexManager.insert]
    dsimp only
    rw [if_pos hne]
    by_cases hpath : path = entry.path
    · subst hpath
      rw [AList.lookup_insert, Option.some.injEq]
      constructor
      · rintro rfl
        exact ⟨entry, by simp, rfl, rfl⟩
      · rintro ⟨other, hmem, heq, rfl⟩
        rcases List.mem_append.mp hmem with hmem | hmem
        · exact absurd (heq ▸ List.mem_map_of_mem hmem) hfresh
        · rw [List.mem_singleton.mp hmem]
    · rw [AList.lookup_insert_ne hpath, h.lookup_iff]
      constructor
      · rintro ⟨other, hmem, heq⟩
        exact ⟨other, List.mem_append_left _ hmem, heq⟩
      · rintro ⟨other, hmem, heq⟩
        rcases List.mem_append.mp hmem with hmem | hmem
        · exact ⟨other, hmem, heq⟩
        · rw [List.mem_singleton.mp hmem] at heq
          exact absurd heq.1.symm hpath

theorem eq_of_id_eq {other : ArchiveEntry} (hnodup : (live.map ArchiveEntry.id).Nodup)
    (hentry : entry ∈ live) (hother : other ∈ live) (heq : other.id = entry.id) : other = entry :=
  List.inj_on_of_nodup_map hnodup hother hentry heq

/-- The path of exactly the removed entry goes. -/
theorem erasePath_eq (h : Pathed live manager) (hnodup : (live.map ArchiveEntry.id).Nodup)
    (hmem : entry ∈ live) : erasePath manager.pathMap entry.id = manager.pathMap.erase entry.path := by
  have hentry : (⟨entry.path, entry.id⟩ : Σ _ : Bytes, EntryID) ∈ manager.pathMap.entries := by
    apply AList.mem_lookup_iff.mp
    exact (h.lookup_iff entry.path entry.id).mpr ⟨entry, hmem, rfl, rfl⟩
  rw [erasePath]
  cases hfind : manager.pathMap.entries.find? fun pair => pair.2 == entry.id with
  | none =>
      have hnone := List.find?_eq_none.mp hfind _ hentry
      simp at hnone
  | some pair =>
      have hid : pair.2 = entry.id := by
        simpa using List.find?_some hfind
      have hlookup : manager.pathMap.lookup pair.1 = some pair.2 :=
        AList.mem_lookup_iff.mpr (List.mem_of_find?_eq_some hfind)
      obtain ⟨other, hother, hpath, heq⟩ := (h.lookup_iff pair.1 pair.2).mp hlookup
      dsimp only
      rw [← hpath, eq_of_id_eq hnodup hmem hother (heq.trans hid)]

theorem Pathed.remove (h : Pathed live manager) (hpositioned : Positioned live manager)
    (id : EntryID) :
    Pathed (live.filter fun entry => entry.id ≠ id) (manager.remove id).1 where
  nodup := h.nodup.sublist (List.filter_sublist.map _)
  lookup_iff := by
    intro path other
    cases hlookup : manager.idIndex.lookup id with
    | none =>
        have habsent := (hpositioned.lookup_eq_none_iff id).mp hlookup
        rw [IndexManager.remove, hlookup]
        dsimp only
        rw [h.lookup_iff]
        constructor
        · rintro ⟨entry, hmem, heq⟩
          refine ⟨entry, List.mem_filter.mpr ⟨hmem, decide_eq_true ?_⟩, heq⟩
          rintro rfl
          exact habsent (List.mem_map_of_mem hmem)
        · rintro ⟨entry, hmem, heq⟩
          exact ⟨entry, (List.mem_filter.mp hmem).1, heq⟩
    | some idx =>
        obtain ⟨first, removed, last, hlive, -, rfl⟩ := hpositioned.exists_split hlookup
        have hremoved : removed ∈ live := by simp [hlive]
        rw [IndexManager.remove, hlookup]
        dsimp only
        rw [erasePath_eq h hpositioned.nodup hremoved]
        by_cases hpath : path = removed.path
        · subst hpath
          rw [AList.lookup_erase]
          refine iff_of_false (by simp) ?_
          rintro ⟨entry, hmem, heq, -⟩
          obtain ⟨hentry, hid⟩ := List.mem_filter.mp hmem
          have hsame : entry = removed := List.inj_on_of_nodup_map h.nodup hentry hremoved heq
          simp [hsame] at hid
        · rw [AList.lookup_erase_ne hpath, h.lookup_iff]
          constructor
          · rintro ⟨entry, hmem, hentry, heq⟩
            refine ⟨entry, List.mem_filter.mpr ⟨hmem, decide_eq_true ?_⟩, hentry, heq⟩
            intro hid
            apply hpath
            rw [← hentry, eq_of_id_eq hpositioned.nodup hremoved hmem hid]
          · rintro ⟨entry, hmem, heq⟩
            exact ⟨entry, (List.mem_filter.mp hmem).1, heq⟩

theorem Pathed.findByPath_eq (h : Pathed live manager) (hpositioned : Positioned live manager)
    (path : Bytes) :
    manager.findByPath path = (live.find? fun entry => entry.path = path).map toIndexEntry := by
  rw [findByPath]
  cases hfind : live.find? fun entry => entry.path = path with
  | some entry =>
      have hpath : entry.path = path := by
        simpa using List.find?_some hfind
      have hmem := List.mem_of_find?_eq_some hfind
      rw [(h.lookup_iff path entry.id).mpr ⟨entry, hmem, hpath, rfl⟩]
      exact hpositioned.findById_of_mem hmem
  | none =>
      have hlookup : manager.pathMap.lookup path = none := by
        rw [Option.eq_none_iff_forall_ne_some]
        intro id hid
        obtain ⟨entry, hmem, heq, -⟩ := (h.lookup_iff path id).mp hid
        have hne := List.find?_eq_none.mp hfind entry hmem
        simp [heq] at hne
      rw [hlookup]
      rfl

theorem Pathed.containsPath_eq (h : Pathed live manager) (path : Bytes) :
    manager.containsPath path = decide (path ∈ live.map ArchiveEntry.path) := by
  rw [containsPath, Bool.eq_iff_iff, decide_eq_true_iff, Option.isSome_iff_exists, List.mem_map]
  constructor
  · rintro ⟨id, hid⟩
    obtain ⟨entry, hmem, heq, -⟩ := (h.lookup_iff path id).mp hid
    exact ⟨entry, hmem, heq⟩
  · rintro ⟨entry, hmem, heq⟩
    exact ⟨entry.id, (h.lookup_iff path entry.id).mpr ⟨entry, hmem, heq, rfl⟩⟩

/-- The order is the one of the map by path, in which every live entry stands once. -/
theorem Pathed.findByPrefix_perm (h : Pathed live manager) (hpositioned : Positioned live manager)
    (start : Bytes) :
    (manager.findByPrefix start).Perm
      ((live.filter fun entry => start.isPrefixOf entry.path).map toIndexEntry) := by
  have hperm : manager.pathMap.entries.Perm
      (live.map fun entry => (⟨entry.path, entry.id⟩ : Σ _ : Bytes, EntryID)) := by
    have hnodup : (live.map fun entry => (⟨entry.path, entry.id⟩ : Σ _ : Bytes, EntryID)).Nodup := by
      apply List.Nodup.of_map Sigma.fst
      rw [List.map_map]
      exact h.nodup
    rw [List.perm_ext_iff_of_nodup manager.pathMap.nodupKeys.nodup hnodup]
    rintro ⟨path, id⟩
    rw [← AList.mem_lookup_iff, Option.mem_def, h.lookup_iff]
    simp
  have hfound : (live.map fun entry => (⟨entry.path, entry.id⟩ : Σ _ : Bytes, EntryID)).filterMap
        (fun pair => if start.isPrefixOf pair.1 then manager.findById pair.2 else none)
      = (live.filter fun entry => start.isPrefixOf entry.path).map toIndexEntry := by
    rw [List.filterMap_map, ← List.filterMap_eq_map, List.filterMap_filter]
    apply List.filterMap_congr
    intro entry hmem
    simp [hpositioned.findById_of_mem hmem]
  rw [findByPrefix, ← hfound]
  exact hperm.filterMap _

/-! ### Runs -/

/-- The entry of an insertion has an id and a path of its own. -/
def Fresh (live : List ArchiveEntry) : Op → Prop
  | .insert entry => entry.id ∉ live.map ArchiveEntry.id ∧ entry.path ≠ []
      ∧ entry.path ∉ live.map ArchiveEntry.path
  | .remove _ => True

instance (live : List ArchiveEntry) : (op : Op) → Decidable (Fresh live op)
  | .insert _ => inferInstanceAs (Decidable (_ ∧ _ ∧ _))
  | .remove _ => isTrue trivial

theorem positioned_run {ops : List Op} (h : Positioned live manager) (hpathed : Pathed live manager)
    (hfresh : Runs.Along (fun live op after => keep live op = after) Fresh live ops) :
    Positioned (ops.foldl keep live) (ops.foldl step manager)
      ∧ Pathed (ops.foldl keep live) (ops.foldl step manager) := by
  induction ops generalizing live manager with
  | nil => exact ⟨h, hpathed⟩
  | cons op ops ih =>
      obtain ⟨hop, hrest⟩ := hfresh
      cases op with
      | insert entry =>
          exact ih (h.insert hop.1) (hpathed.insert hop.2.1 hop.2.2) (hrest _ rfl)
      | remove id => exact ih (h.remove id) (hpathed.remove h id) (hrest _ rfl)

/-- **The lookups of the index are those of its live entries.** -/
theorem lookups_eq_live (ops : List Op)
    (hfresh : Runs.Along (fun live op after => keep live op = after) Fresh [] ops) :
    let live := ops.foldl keep []
    let manager := ops.foldl step {}
    (∀ id, manager.findById id = (live.find? fun entry => entry.id = id).map toIndexEntry)
      ∧ (∀ path,
        manager.findByPath path = (live.find? fun entry => entry.path = path).map toIndexEntry)
      ∧ (∀ id, manager.contains id = decide (id ∈ live.map ArchiveEntry.id))
      ∧ (∀ path, manager.containsPath path = decide (path ∈ live.map ArchiveEntry.path))
      ∧ (∀ start, (manager.findByPrefix start).Perm
        ((live.filter fun entry => start.isPrefixOf entry.path).map toIndexEntry))
      ∧ manager.entries = live.map toIndexEntry ∧ manager.validate = true := by
  obtain ⟨hpositioned, hpathed⟩ := positioned_run positioned_empty pathed_empty hfresh
  exact ⟨hpositioned.findById_eq, hpathed.findByPath_eq hpositioned, hpositioned.contains_eq,
    hpathed.containsPath_eq, hpathed.findByPrefix_perm hpositioned, hpositioned.entries_eq,
    hpositioned.validate_eq_true⟩

theorem lookups_eq_live_two :
    let manager := [Op.insert { id := 1, path := [97] }, .insert { id := 2, path := [98] },
      .remove 1].foldl step {}
    manager.findByPath [98] = some { entryId := 2 } ∧ manager.containsPath [97] = false
      ∧ manager.validate = true := by
  obtain ⟨-, hpath, -, hcontains, -, -, hvalidate⟩ := lookups_eq_live
    [.insert { id := 1, path := [97] }, .insert { id := 2, path := [98] }, .remove 1] (by decide)
  exact ⟨hpath [98], hcontains [97], hvalidate⟩

end IndexManager

end NebulaFS
