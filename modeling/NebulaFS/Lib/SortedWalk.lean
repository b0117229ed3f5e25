import Mathlib.Data.List.Sort
import Mathlib.Order.RelClasses

/-!
# Walks in the order of a key

A walk through a search tree visits the subtrees of a node with the separators between them
(`interleave`). Where the walk is in order, what stands before and after a subtree is bounded by the
separators next to it (`bounds_of_pairwise`), and an ordered insertion takes place inside the subtree
(`orderedInsert_between`), and so does a removal (`withoutKey_between`).
-/

namespace SortedWalk

variable {α κ ν : Type*}

/-- A list of items before, between and after the separators. -/
def interleave : List (List α) → List α → List α
  | [], separators => separators
  | items :: rest, [] => items ++ interleave rest []
  | items :: rest, separator :: separators => items ++ separator :: interleave rest separators

theorem sublist_interleave {items : List α} {lists : List (List α)} (h : items ∈ lists)
    (separators : List α) : items.Sublist (interleave lists separators) := by
  induction lists generalizing separators with
  | nil => cases h
  | cons head lists ih =>
      cases separators with
      | nil =>
          rcases List.mem_cons.mp h with rfl | hmem
          · exact List.sublist_append_left _ _
          · exact (ih hmem []).trans (List.sublist_append_right _ _)
      | cons separator separators =>
          rcases List.mem_cons.mp h with rfl | hmem
          · exact List.sublist_append_left _ _
          · apply (ih hmem separators).trans
            exact (List.sublist_cons_self _ _).trans (List.sublist_append_right _ _)

theorem separators_sublist (lists : List (List α)) (separators : List α) :
    separators.Sublist (interleave lists separators) := by
  induction lists generalizing separators with
  | nil => exact List.Sublist.refl _
  | cons items lists ih =>
      cases separators with
      | nil => exact List.nil_sublist _
      | cons separator separators =>
          exact ((ih separators).cons_cons separator).trans (List.sublist_append_right _ _)

theorem mem_keys_between {key : κ} {before items after : List (κ × ν)}
    (hbefore : ∀ pair ∈ before, pair.1 ≠ key) (hafter : ∀ pair ∈ after, pair.1 ≠ key) :
    key ∈ (before ++ items ++ after).map Prod.fst ↔ key ∈ items.map Prod.fst := by
  have hfirst : key ∉ before.map Prod.fst := by
    intro hmem
    obtain ⟨pair, hpair, heq⟩ := List.mem_map.mp hmem
    exact hbefore pair hpair heq
  have hlast : key ∉ after.map Prod.fst := by
    intro hmem
    obtain ⟨pair, hpair, heq⟩ := List.mem_map.mp hmem
    exact hafter pair hpair heq
  rw [List.map_append, List.map_append, List.mem_append, List.mem_append]
  tauto

variable [LinearOrder κ] {key : κ}

/-- Two pairs are in the order of their keys. -/
abbrev ByKey : κ × ν → κ × ν → Prop := Order.Preimage Prod.fst (· ≤ ·)

/-- The last pair before a stretch bounds all those before it, and the first one behind it all those
behind. -/
theorem bounds_of_pairwise {before items after : List (κ × ν)}
    (h : (before ++ items ++ after).Pairwise ByKey)
    (hbefore : ∀ pair ∈ before.getLast?, pair.1 < key)
    (hafter : ∀ pair ∈ after.head?, key ≤ pair.1) :
    (∀ pair ∈ before, pair.1 < key) ∧ ∀ pair ∈ after, key ≤ pair.1 := by
  rw [List.pairwise_append, List.pairwise_append] at h
  obtain ⟨⟨hfirst, -, -⟩, hlast, -⟩ := h
  constructor
  · intro pair hpair
    obtain ⟨start, last, rfl⟩ : ∃ start last, before = start ++ [last] :=
      ⟨_, _, (List.dropLast_append_getLast (List.ne_nil_of_mem hpair)).symm⟩
    have hbound : last.1 < key := hbefore last (by simp)
    rcases List.mem_append.mp hpair with hmem | hmem
    · have hle : pair.1 ≤ last.1 := (List.pairwise_append.mp hfirst).2.2 pair hmem last (by simp)
      exact lt_of_le_of_lt hle hbound
    · rw [List.mem_singleton.mp hmem]
      exact hbound
  · intro pair hpair
    cases after with
    | nil => cases hpair
    | cons first after =>
        have hbound : key ≤ first.1 := hafter first rfl
        rcases List.mem_cons.mp hpair with rfl | hmem
        · exact hbound
        · have hle : first.1 ≤ pair.1 := (List.pairwise_cons.mp hlast).1 pair hmem
          exact le_trans hbound hle

theorem orderedInsert_between {value : ν} {before after : List (κ × ν)} (items : List (κ × ν))
    (hbefore : ∀ pair ∈ before, pair.1 < key) (hafter : ∀ pair ∈ after, key ≤ pair.1) :
    (before ++ items ++ after).orderedInsert ByKey (key, value)
      = before ++ items.orderedInsert ByKey (key, value) ++ after := by
  induction before with
  | cons pair before ih =>
      have hnot : ¬ ByKey (key, value) pair := not_le.mpr (hbefore pair List.mem_cons_self)
      have hrest := ih fun pair hmem => hbefore pair (List.mem_cons_of_mem _ hmem)
      simp only [List.cons_append, List.orderedInsert_of_not_le _ _ hnot, hrest]
  | nil =>
      simp only [List.nil_append]
      induction items with
      | cons pair items ih =>
          by_cases hle : ByKey (key, value) pair
          · simp only [List.cons_append, List.orderedInsert_cons_of_le _ _ hle]
          · simp only [List.cons_append, List.orderedInsert_of_not_le _ _ hle, ih]
      | nil =>
          cases after with
          | nil => rfl
          | cons pair after =>
              have hle : ByKey (key, value) pair := hafter pair List.mem_cons_self
              simp only [List.nil_append, List.orderedInsert_cons_of_le _ _ hle,
                List.orderedInsert_nil, List.singleton_append]

/-- The pairs of the other keys. -/
def withoutKey (key : κ) (pairs : List (κ × ν)) : List (κ × ν) :=
  pairs.filter fun pair => pair.1 ≠ key

theorem withoutKey_eq_self {pairs : List (κ × ν)} (h : ∀ pair ∈ pairs, pair.1 ≠ key) :
    withoutKey key pairs = pairs := by
  rw [withoutKey, List.filter_eq_self]
  intro pair hmem
  exact decide_eq_true (h pair hmem)

theorem withoutKey_between {before after : List (κ × ν)} (items : List (κ × ν))
    (hbefore : ∀ pair ∈ before, pair.1 ≠ key) (hafter : ∀ pair ∈ after, pair.1 ≠ key) :
    withoutKey key (before ++ items ++ after) = before ++ withoutKey key items ++ after := by
  have hfirst : before.filter (fun pair => pair.1 ≠ key) = before := withoutKey_eq_self hbefore
  have hlast : after.filter (fun pair => pair.1 ≠ key) = after := withoutKey_eq_self hafter
  rw [withoutKey, List.filter_append, List.filter_append, hfirst, hlast]
  rfl

/-- Two pairs are in the order of their keys, which differ. -/
abbrev ByKeyStrict : κ × ν → κ × ν → Prop := Order.Preimage Prod.fst (· < ·)

theorem pairwise_byKey {pairs : List (κ × ν)} (h : pairs.Pairwise ByKeyStrict) :
    pairs.Pairwise ByKey :=
  h.imp le_of_lt

theorem pairwise_byKeyStrict_iff {pairs : List (κ × ν)} :
    pairs.Pairwise ByKeyStrict ↔ pairs.Pairwise ByKey ∧ (pairs.map Prod.fst).Nodup := by
  rw [List.Nodup, List.pairwise_map, ← List.pairwise_and_iff]
  exact List.Pairwise.iff fun _ _ => lt_iff_le_and_ne

theorem withoutKey_append_cons {first last : List (κ × ν)} {pair : κ × ν}
    (h : (first ++ pair :: last).Pairwise ByKeyStrict) :
    withoutKey pair.1 (first ++ pair :: last) = first ++ last := by
  obtain ⟨-, hlast, hfirst⟩ := List.pairwise_append.mp h
  have hbefore : ∀ other ∈ first, other.1 ≠ pair.1 :=
    fun other hmem => ne_of_lt (hfirst other hmem pair List.mem_cons_self)
  have hafter : ∀ other ∈ last, other.1 ≠ pair.1 :=
    fun other hmem => ne_of_gt ((List.pairwise_cons.mp hlast).1 other hmem)
  have hbetween := withoutKey_between [pair] hbefore hafter
  rw [List.append_assoc, List.singleton_append] at hbetween
  rw [hbetween]
  simp [withoutKey]

theorem length_withoutKey {pairs : List (κ × ν)} (h : pairs.Pairwise ByKeyStrict)
    (hmem : key ∈ pairs.map Prod.fst) : (withoutKey key pairs).length + 1 = pairs.length := by
  obtain ⟨pair, hpair, rfl⟩ := List.mem_map.mp hmem
  obtain ⟨first, last, rfl⟩ := List.append_of_mem hpair
  rw [withoutKey_append_cons h]
  simp only [List.length_append, List.length_cons]
  omega

end SortedWalk
