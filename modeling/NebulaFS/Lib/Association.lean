import Mathlib.Algebra.BigOperators.Group.List.Basic
import Mathlib.Data.List.AList

/-!
# Association lists as maps

An `AList` stands for the map of its lookups. Here are the values of such a map changed or dropped one
by one (`filterMapValues`), their sum (`total`), and the map that a list of entries leaves when they
are inserted in turn (`lookup_foldl_insert`).
-/

namespace AList

variable {κ ν M : Type*}

section

variable (change : κ → ν → Option ν)

/-- What becomes of an entry whose value is changed or dropped. -/
def changeEntry (entry : Sigma fun _ : κ => ν) : Option (Sigma fun _ : κ => ν) :=
  (change entry.1 entry.2).map fun value => ⟨entry.1, value⟩

theorem keys_filterMap_sublist (entries : List (Sigma fun _ : κ => ν)) :
    (entries.filterMap (changeEntry change)).keys.Sublist entries.keys := by
  induction entries with
  | nil => exact List.Sublist.slnil
  | cons entry entries ih =>
      rw [List.filterMap_cons, changeEntry]
      cases change entry.1 entry.2 with
      | none => exact ih.cons entry.1
      | some value => exact ih.cons_cons entry.1

def filterMapValues (s : AList fun _ : κ => ν) : AList fun _ : κ => ν :=
  ⟨s.entries.filterMap (changeEntry change),
    List.Nodup.sublist (keys_filterMap_sublist change s.entries) s.nodupKeys⟩

end

variable [DecidableEq κ]

theorem dlookup_filterMap (change : κ → ν → Option ν) {entries : List (Sigma fun _ : κ => ν)}
    (hnodup : entries.NodupKeys) (key : κ) :
    (entries.filterMap (changeEntry change)).dlookup key
      = (entries.dlookup key).bind (change key) := by
  induction entries with
  | nil => rfl
  | cons entry entries ih =>
      obtain ⟨hnew, hrest⟩ := List.nodupKeys_cons.mp hnodup
      have hih := ih hrest
      by_cases hkey : key = entry.1
      · subst hkey
        rw [List.dlookup_cons_eq, Option.bind_some, List.filterMap_cons, changeEntry]
        cases change entry.1 entry.2 with
        | none =>
            apply List.dlookup_eq_none.mpr
            intro hmem
            exact hnew ((keys_filterMap_sublist change entries).subset hmem)
        | some value => exact List.dlookup_cons_eq _ _ _
      · rw [List.dlookup_cons_ne _ _ hkey, ← hih, List.filterMap_cons, changeEntry]
        cases change entry.1 entry.2 with
        | none => rfl
        | some value => exact List.dlookup_cons_ne _ _ hkey

@[simp]
theorem lookup_filterMapValues (change : κ → ν → Option ν) (s : AList fun _ : κ => ν) (key : κ) :
    (s.filterMapValues change).lookup key = (s.lookup key).bind (change key) :=
  dlookup_filterMap change s.nodupKeys key

theorem lookup_foldl_insert {entries : List (Sigma fun _ : κ => ν)} (hnodup : entries.NodupKeys)
    (s : AList fun _ : κ => ν) (key : κ) :
    (entries.foldl (fun s entry => s.insert entry.1 entry.2) s).lookup key
      = (entries.dlookup key).or (s.lookup key) := by
  induction entries generalizing s with
  | nil => rfl
  | cons entry entries ih =>
      obtain ⟨hnew, hrest⟩ := List.nodupKeys_cons.mp hnodup
      rw [List.foldl_cons, ih hrest]
      by_cases hkey : key = entry.1
      · rw [hkey, List.dlookup_eq_none.mpr hnew, List.dlookup_cons_eq, lookup_insert]
        rfl
      · rw [List.dlookup_cons_ne _ _ hkey, lookup_insert_ne hkey]

theorem entries_perm_of_lookup {s t : AList fun _ : κ => ν} (h : ∀ key, s.lookup key = t.lookup key) :
    s.entries.Perm t.entries := by
  apply List.lookup_ext s.nodupKeys t.nodupKeys
  intro key value
  have hkey : s.entries.dlookup key = t.entries.dlookup key := h key
  rw [hkey]

/-! ### Sums -/

section

variable [AddCommMonoid M] (weight : ν → M)

omit [DecidableEq κ] in
def total (s : AList fun _ : κ => ν) : M := (s.entries.map fun entry => weight entry.2).sum

theorem total_congr {s t : AList fun _ : κ => ν} (h : ∀ key, s.lookup key = t.lookup key) :
    s.total weight = t.total weight :=
  ((entries_perm_of_lookup h).map _).sum_eq

theorem total_insert {s : AList fun _ : κ => ν} {key : κ} (h : key ∉ s) (value : ν) :
    (s.insert key value).total weight = weight value + s.total weight := by
  rw [total, entries_insert_of_notMem h, List.map_cons, List.sum_cons]
  rfl

theorem total_erase {s : AList fun _ : κ => ν} {key : κ} {value : ν}
    (h : s.lookup key = some value) :
    weight value + (s.erase key).total weight = s.total weight := by
  have habsent : key ∉ s.erase key := fun hmem => (mem_erase.mp hmem).1 rfl
  rw [← total_insert weight habsent]
  apply total_congr
  intro other
  by_cases hother : other = key
  · rw [hother, lookup_insert, h]
  · rw [lookup_insert_ne hother, lookup_erase_ne hother]

theorem lookup_insert_erase (s : AList fun _ : κ => ν) (key : κ) (value : ν) (other : κ) :
    ((s.erase key).insert key value).lookup other = (s.insert key value).lookup other := by
  by_cases hother : other = key
  · rw [hother, lookup_insert, lookup_insert]
  · rw [lookup_insert_ne hother, lookup_insert_ne hother, lookup_erase_ne hother]

/-- Whatever was under the key. -/
theorem total_insert_eq (s : AList fun _ : κ => ν) (key : κ) (value : ν) :
    (s.insert key value).total weight = weight value + (s.erase key).total weight := by
  have habsent : key ∉ s.erase key := fun hmem => (mem_erase.mp hmem).1 rfl
  rw [← total_insert weight habsent]
  exact total_congr weight fun other => (lookup_insert_erase s key value other).symm

theorem total_eq_add_erase (s : AList fun _ : κ => ν) (key : κ) :
    s.total weight = (s.lookup key).elim 0 weight + (s.erase key).total weight := by
  cases hlookup : s.lookup key with
  | some value => exact (total_erase weight hlookup).symm
  | none =>
      rw [Option.elim_none, zero_add]
      apply total_congr
      intro other
      by_cases hother : other = key
      · rw [hother, hlookup, lookup_erase]
      · rw [lookup_erase_ne hother]

/-- What is dropped has no part in the sum. -/
theorem sum_filterMap {α β : Type*} (f : α → Option β) (g : β → M) (items : List α) :
    ((items.filterMap f).map g).sum = (items.map fun item => (f item).elim 0 g).sum := by
  induction items with
  | nil => rfl
  | cons item items ih =>
      rw [List.map_cons, List.sum_cons, List.filterMap_cons, ← ih]
      cases f item with
      | none => exact (zero_add _).symm
      | some found => exact List.sum_cons

omit [DecidableEq κ] in
theorem total_filterMapValues (change : κ → ν → Option ν) (s : AList fun _ : κ => ν) :
    (s.filterMapValues change).total weight
      = (s.entries.map fun entry => (change entry.1 entry.2).elim 0 weight).sum := by
  refine (sum_filterMap (changeEntry change) (fun entry => weight entry.2) s.entries).trans ?_
  apply congrArg List.sum
  apply List.map_congr_left
  intro entry _
  rw [changeEntry]
  cases change entry.1 entry.2 with
  | none => rfl
  | some value => rfl

/-- The values that one map has at the keys of another one, summed over either map. -/
theorem sum_common (s t : AList fun _ : κ => ν) :
    (s.entries.map fun entry => (t.lookup entry.1).elim 0 weight).sum
      = (t.entries.map fun entry => if (s.lookup entry.1).isSome then weight entry.2 else 0).sum := by
  have hother (entry : Sigma fun _ : κ => ν) :
      (if (s.lookup entry.1).isSome then weight entry.2 else 0)
        = (if (s.lookup entry.1).isSome then some entry.2 else none).elim 0 weight := by
    by_cases hkey : (s.lookup entry.1).isSome
    · rw [if_pos hkey, if_pos hkey, Option.elim_some]
    · rw [if_neg hkey, if_neg hkey, Option.elim_none]
  simp only [hother]
  rw [← total_filterMapValues weight (fun key _ => t.lookup key) s,
    ← total_filterMapValues weight
      (fun key value => if (s.lookup key).isSome then some value else none) t]
  apply total_congr
  intro key
  rw [lookup_filterMapValues, lookup_filterMapValues]
  cases s.lookup key with
  | none => cases t.lookup key with
    | none => rfl
    | some value => rfl
  | some found => cases t.lookup key with
    | none => rfl
    | some value => rfl

theorem total_insert_of_lookup {s : AList fun _ : κ => ν} {key : κ} {old : ν}
    (h : s.lookup key = some old) (value : ν) :
    weight old + (s.insert key value).total weight = weight value + s.total weight := by
  rw [total_insert_eq, ← total_erase weight h]
  exact add_left_comm _ _ _

end

end AList
