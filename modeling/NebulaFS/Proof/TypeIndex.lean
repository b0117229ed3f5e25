import NebulaFS.Proof.IndexLookups

/-!
# The map by type

The lists of the map by type hold positions. An insertion adds the position of its entry to the list of
its type, and the removal of the last entry takes that position out again. The removal of any other
entry leaves the position of the last one in a list, and that is one behind the end
(`findByType_right_iff`).
-/

namespace NebulaFS

namespace IndexManager

variable {live : List ArchiveEntry} {manager : IndexManager} {entry : ArchiveEntry} {id : EntryID}

/-! ### Positions of a type -/

def positionsOf (live : List ArchiveEntry) (type : EntryType) : List Nat :=
  (live.zipIdx.filter fun pair => pair.1.type = type).map Prod.snd

theorem positionsOf_concat (live : List ArchiveEntry) (entry : ArchiveEntry) (type : EntryType) :
    positionsOf (live ++ [entry]) type
      = positionsOf live type ++ if entry.type = type then [live.length] else [] := by
  rw [positionsOf, List.zipIdx_append, List.filter_append, List.map_append]
  congr 1
  by_cases htype : entry.type = type
  · simp [htype]
  · simp [htype]

theorem mem_positionsOf_iff {type : EntryType} {position : Nat} :
    position ∈ positionsOf live type
      ↔ ∃ entry, live[position]? = some entry ∧ entry.type = type := by
  rw [positionsOf, List.mem_map]
  constructor
  · rintro ⟨pair, hpair, rfl⟩
    obtain ⟨hmem, htype⟩ := List.mem_filter.mp hpair
    exact ⟨pair.1, List.mem_zipIdx_iff_getElem?.mp hmem, of_decide_eq_true htype⟩
  · rintro ⟨entry, hentry, htype⟩
    refine ⟨(entry, position), List.mem_filter.mpr ⟨?_, decide_eq_true htype⟩, rfl⟩
    exact List.mem_zipIdx_iff_getElem?.mpr hentry

/-- The list of every type holds the positions of its entries. -/
def TypeIndexed (live : List ArchiveEntry) (manager : IndexManager) : Prop :=
  ∀ type, (manager.typeIndex.lookup type).getD [] = positionsOf live type

theorem typeIndexed_empty : TypeIndexed [] {} := fun _ => rfl

theorem TypeIndexed.insert (h : TypeIndexed live manager) (hpositioned : Positioned live manager)
    (entry : ArchiveEntry) : TypeIndexed (live ++ [entry]) (manager.insert entry) := by
  intro type
  have hlength : manager.entries.length = live.length := by
    rw [hpositioned.entries_eq, List.length_map]
  rw [IndexManager.insert, positionsOf_concat, hlength]
  by_cases htype : entry.type = type
  · rw [if_pos htype, htype, AList.lookup_insert, h type]
    rfl
  · rw [if_neg htype, AList.lookup_insert_ne (Ne.symm htype), h type, List.append_nil]

/-! ### Looking up by type -/

/-- A lookup by type gives the live entries of that type. -/
def TypesRight (state : List ArchiveEntry × IndexManager) : Prop :=
  ∀ type, state.2.findByType type
    = .ok ((state.1.filter fun entry => entry.type = type).map toIndexEntry)

theorem mapM_eq_ok {α β ε : Type} {items : List α} {f : α → Except ε β} {g : α → β}
    (h : ∀ item ∈ items, f item = .ok (g item)) : items.mapM f = .ok (items.map g) := by
  induction items with
  | nil => rfl
  | cons item items ih =>
      have hitems := ih fun other hmem => h other (List.mem_cons_of_mem _ hmem)
      rw [List.mapM_cons, h item List.mem_cons_self, hitems]
      rfl

theorem exists_of_mapM_eq_ok {α β ε : Type} {items : List α} {f : α → Except ε β} {results : List β}
    (h : items.mapM f = .ok results) {item : α} (hmem : item ∈ items) :
    ∃ result, f item = .ok result := by
  induction items generalizing results with
  | nil => cases hmem
  | cons head items ih =>
      rw [List.mapM_cons] at h
      cases hhead : f head with
      | error e =>
          rw [hhead] at h
          cases h
      | ok result =>
          rcases List.mem_cons.mp hmem with rfl | hmem
          · exact ⟨result, hhead⟩
          · cases hitems : items.mapM f with
            | error e =>
                rw [hhead, hitems] at h
                cases h
            | ok others => exact ih hitems hmem

theorem TypeIndexed.typesRight (h : TypeIndexed live manager)
    (hpositioned : Positioned live manager) : TypesRight (live, manager) := by
  intro type
  dsimp only
  have hentries : ∀ pair ∈ live.zipIdx.filter (fun pair => pair.1.type = type),
      manager.entryAt pair.2 = .ok (toIndexEntry pair.1) := by
    intro pair hpair
    have hentry := List.mem_zipIdx_iff_getElem?.mp (List.mem_filter.mp hpair).1
    rw [entryAt, hpositioned.entries_eq, List.getElem?_map, hentry]
    rfl
  have hfirst : (live.zipIdx.filter fun pair => pair.1.type = type).map Prod.fst
      = live.filter fun entry => entry.type = type := by
    calc (live.zipIdx.filter fun pair => pair.1.type = type).map Prod.fst
        = (live.zipIdx.map Prod.fst).filter fun entry => entry.type = type := by
          rw [List.filter_map]
          rfl
      _ = live.filter fun entry => entry.type = type := by rw [List.zipIdx_map_fst]
  have hread : (live.zipIdx.filter fun pair => pair.1.type = type).mapM (manager.entryAt ∘ Prod.snd)
      = .ok ((live.zipIdx.filter fun pair => pair.1.type = type).map fun pair => toIndexEntry pair.1) :=
    mapM_eq_ok hentries
  rw [findByType, h type, positionsOf, List.mapM_map, hread, ← hfirst, List.map_map]
  rfl

/-! ### Removing -/

theorem TypeIndexed.mem_entries_iff (h : TypeIndexed live manager) {type : EntryType} {position : Nat} :
    (∃ positions, (⟨type, positions⟩ : Σ _ : EntryType, List Nat) ∈ manager.typeIndex.entries
      ∧ position ∈ positions) ↔ position ∈ positionsOf live type := by
  rw [← h type]
  cases hlookup : manager.typeIndex.lookup type with
  | none =>
      refine iff_of_false ?_ (by simp)
      rintro ⟨positions, hmem, -⟩
      rw [AList.mem_lookup_iff.mpr hmem] at hlookup
      cases hlookup
  | some positions =>
      constructor
      · rintro ⟨others, hmem, hposition⟩
        have heq : some others = some positions :=
          (Option.mem_def.mp (AList.mem_lookup_iff.mpr hmem)).symm.trans hlookup
        cases heq
        exact hposition
      · intro hposition
        exact ⟨positions, AList.mem_lookup_iff.mp hlookup, hposition⟩

/-- The position of a live entry is taken out of the list of its type. -/
theorem TypeIndexed.erasePosition_eq (h : TypeIndexed live manager) {position : Nat}
    (hentry : live[position]? = some entry) :
    erasePosition manager.typeIndex position
      = manager.typeIndex.insert entry.type ((positionsOf live entry.type).erase position) := by
  have hposition : position ∈ positionsOf live entry.type :=
    mem_positionsOf_iff.mpr ⟨entry, hentry, rfl⟩
  obtain ⟨positions, hmem, hcontains⟩ := h.mem_entries_iff.mpr hposition
  rw [erasePosition]
  cases hfind : manager.typeIndex.entries.find? fun pair => pair.2.contains position with
  | none =>
      have hnone := List.find?_eq_none.mp hfind _ hmem
      simp [hcontains] at hnone
  | some pair =>
      have hpair := List.mem_of_find?_eq_some hfind
      have hlist : position ∈ pair.2 := by
        simpa using List.find?_some hfind
      obtain ⟨other, hother, htype⟩ := mem_positionsOf_iff.mp (h.mem_entries_iff.mp ⟨pair.2, hpair, hlist⟩)
      cases hother.symm.trans hentry
      have hlookup : manager.typeIndex.lookup pair.1 = some pair.2 := AList.mem_lookup_iff.mpr hpair
      have hpositions := h pair.1
      rw [hlookup] at hpositions
      dsimp only
      rw [htype, ← hpositions]
      rfl

theorem TypeIndexed.remove_last (h : TypeIndexed (live ++ [entry]) manager)
    (hpositioned : Positioned (live ++ [entry]) manager) :
    TypeIndexed live (manager.remove entry.id).1 := by
  have hlookup : manager.idIndex.lookup entry.id = some live.length := by
    rw [hpositioned.lookup_iff]
    simp
  have hentry : (live ++ [entry])[live.length]? = some entry := by simp
  have hnotMem : ∀ type, live.length ∉ positionsOf live type := by
    intro type hmem
    obtain ⟨other, hother, -⟩ := mem_positionsOf_iff.mp hmem
    simp at hother
  intro type
  rw [IndexManager.remove, hlookup]
  dsimp only
  rw [h.erasePosition_eq hentry, positionsOf_concat, if_pos rfl, List.erase_append_right _ (hnotMem _),
    List.erase_cons_head, List.append_nil]
  by_cases htype : type = entry.type
  · rw [htype, AList.lookup_insert]
    rfl
  · rw [AList.lookup_insert_ne htype, h type, positionsOf_concat, if_neg (Ne.symm htype),
      List.append_nil]

/-- After the removal of another entry the position of the last one lies outside. -/
theorem TypeIndexed.not_typesRight_remove {first rest after : List ArchiveEntry}
    {removed last : ArchiveEntry} (h : TypeIndexed (first ++ removed :: (rest ++ [last])) manager)
    (hpositioned : Positioned (first ++ removed :: (rest ++ [last])) manager) :
    ¬ TypesRight (after, (manager.remove removed.id).1) := by
  have hlookup : manager.idIndex.lookup removed.id = some first.length := by
    rw [hpositioned.lookup_iff]
    simp
  have hremoved : (first ++ removed :: (rest ++ [last]))[first.length]? = some removed := by simp
  have hlast : (first ++ removed :: (rest ++ [last]))[first.length + rest.length + 1]? = some last := by
    rw [List.getElem?_append_right (by omega),
      show first.length + rest.length + 1 - first.length = rest.length + 1 by omega]
    simp
  have hposition : first.length + rest.length + 1
      ∈ positionsOf (first ++ removed :: (rest ++ [last])) last.type :=
    mem_positionsOf_iff.mpr ⟨last, hlast, rfl⟩
  have hstays : first.length + rest.length + 1
      ∈ ((manager.remove removed.id).1.typeIndex.lookup last.type).getD [] := by
    rw [IndexManager.remove, hlookup]
    dsimp only
    rw [h.erasePosition_eq hremoved]
    by_cases htype : last.type = removed.type
    · rw [htype, AList.lookup_insert, Option.getD_some]
      rw [htype] at hposition
      exact (List.mem_erase_of_ne (by omega)).mpr hposition
    · rw [AList.lookup_insert_ne htype, h last.type]
      exact hposition
  have houtside : (manager.remove removed.id).1.entryAt (first.length + rest.length + 1)
      = .error .outOfBounds := by
    have hentries : (manager.remove removed.id).1.entries.length = first.length + rest.length + 1 := by
      rw [IndexManager.remove, hlookup]
      dsimp only
      rw [hpositioned.entries_eq, List.length_eraseIdx_of_lt (by simp)]
      simp
      omega
    rw [entryAt, List.getElem?_eq_none (by omega)]
  intro hright
  obtain ⟨entry, hentry⟩ := exists_of_mapM_eq_ok (hright last.type) hstays
  rw [houtside] at hentry
  cases hentry

/-! ### Runs -/

/-- The live entries and the index that follows them. -/
def next (state : List ArchiveEntry × IndexManager) (op : Op) : List ArchiveEntry × IndexManager :=
  (keep state.1 op, step state.2 op)

/-- The entry of an insertion has an id of its own. -/
def FreshId (state : List ArchiveEntry × IndexManager) : Op → Prop
  | .insert entry => entry.id ∉ state.1.map ArchiveEntry.id
  | .remove _ => True

/-- Of the live entries only the last one is removed. -/
def RemovesLast (state : List ArchiveEntry × IndexManager) : Op → Prop
  | .insert _ => True
  | .remove id => id ∈ state.1.map ArchiveEntry.id →
      state.1.getLast?.map ArchiveEntry.id = some id

instance (state : List ArchiveEntry × IndexManager) : (op : Op) → Decidable (FreshId state op)
  | .insert _ => inferInstanceAs (Decidable (_ ∉ _))
  | .remove _ => isTrue trivial

instance (state : List ArchiveEntry × IndexManager) : (op : Op) → Decidable (RemovesLast state op)
  | .insert _ => isTrue trivial
  | .remove _ => inferInstanceAs (Decidable (_ → _))

theorem remove_of_absent (hpositioned : Positioned live manager)
    (habsent : id ∉ live.map ArchiveEntry.id) :
    (live.filter fun entry => entry.id ≠ id) = live ∧ (manager.remove id).1 = manager := by
  constructor
  · rw [List.filter_eq_self]
    intro entry hmem
    apply decide_eq_true
    rintro rfl
    exact habsent (List.mem_map_of_mem hmem)
  · rw [IndexManager.remove, (hpositioned.lookup_eq_none_iff id).mpr habsent]

theorem TypeIndexed.remove (h : TypeIndexed live manager) (hpositioned : Positioned live manager)
    (hlast : RemovesLast (live, manager) (.remove id)) :
    TypeIndexed (live.filter fun entry => entry.id ≠ id) (manager.remove id).1 := by
  by_cases hmem : id ∈ live.map ArchiveEntry.id
  · obtain ⟨entry, hentry, rfl⟩ := Option.map_eq_some_iff.mp (hlast hmem)
    obtain ⟨first, rfl⟩ : ∃ first, live = first ++ [entry] :=
      List.getLast?_eq_some_iff.mp hentry
    have hfilter := filter_ne_of_split hpositioned.nodup
    rw [List.append_nil] at hfilter
    rw [hfilter]
    exact h.remove_last hpositioned
  · obtain ⟨hfilter, hremove⟩ := remove_of_absent hpositioned hmem
    rw [hfilter, hremove]
    exact h

theorem not_typesRight_of_not_last (h : TypeIndexed live manager)
    (hpositioned : Positioned live manager) (hlast : ¬ RemovesLast (live, manager) (.remove id))
    (after : List ArchiveEntry) : ¬ TypesRight (after, (manager.remove id).1) := by
  rw [RemovesLast, Classical.not_imp] at hlast
  obtain ⟨hmem, hne⟩ := hlast
  obtain ⟨removed, hremoved, rfl⟩ := List.mem_map.mp hmem
  obtain ⟨first, behind, rfl⟩ := List.append_of_mem hremoved
  rcases List.eq_nil_or_concat behind with rfl | ⟨rest, last, rfl⟩
  · simp at hne
  · rw [List.concat_eq_append] at h hpositioned
    exact h.not_typesRight_remove hpositioned

/-- **The lookups by type are right in every state of a run exactly if only last entries are
removed.** -/
theorem findByType_right_iff (ops : List Op)
    (hfresh : Runs.Along (fun state op after => next state op = after) FreshId ([], {}) ops) :
    (∀ n, TypesRight ((ops.take n).foldl next ([], {})))
      ↔ Runs.Along (fun state op after => next state op = after) RemovesLast ([], {}) ops := by
  have hempty : TypesRight ([], {}) := fun _ => rfl
  rw [← Runs.along_next_iff hempty]
  apply Runs.along_iff_of_side (fun state => Positioned state.1 state.2 ∧ TypeIndexed state.1 state.2)
    _ _ ⟨positioned_empty, typeIndexed_empty⟩ hfresh
  · rintro ⟨live, manager⟩ op ⟨hpositioned, htypes⟩ hop
    cases op with
    | insert entry =>
        exact iff_of_true ((htypes.insert hpositioned entry).typesRight (hpositioned.insert hop))
          trivial
    | remove id =>
        constructor
        · intro hright
          by_contra hlast
          exact not_typesRight_of_not_last htypes hpositioned hlast _ hright
        · intro hlast
          exact (htypes.remove hpositioned hlast).typesRight (hpositioned.remove id)
  · rintro ⟨live, manager⟩ op after ⟨hpositioned, htypes⟩ hop hlast rfl
    cases op with
    | insert entry => exact ⟨hpositioned.insert hop, htypes.insert hpositioned entry⟩
    | remove id => exact ⟨hpositioned.remove id, htypes.remove hpositioned hlast⟩

theorem findByType_right_two :
    ([Op.insert { id := 1 }, .insert { id := 2, type := .directory }, .remove 2].foldl next
      ([], {})).2.findByType .file = .ok [{ entryId := 1 }] :=
  (findByType_right_iff [.insert { id := 1 }, .insert { id := 2, type := .directory }, .remove 2]
    (by decide)).mpr (by decide) 3 .file

/-- The first of two entries is removed, and the second one is looked up. -/
theorem findByType_outOfBounds :
    Runs.Along (fun state op after => next state op = after) FreshId ([], {})
        [.insert { id := 1 }, .insert { id := 2, type := .directory }, .remove 1]
      ∧ ([Op.insert { id := 1 }, .insert { id := 2, type := .directory }, .remove 1].foldl next
        ([], {})).2.findByType .directory = .error .outOfBounds :=
  ⟨by decide, rfl⟩

end IndexManager

end NebulaFS
