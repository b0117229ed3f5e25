import Mathlib.Data.Finmap
import Mathlib.Data.String.Basic
import NebulaFS.Lib.Runs
import NebulaFS.Proof.BTreeRemoval

/-!
# Runs of the tree of the file system

The tree answers like a finite map as long as its removals go a safe way
(`Filesystem.answers_like_map`). Its rule lets a sibling lend its only key, and a removal that
finds nothing still fills the children on its way, so that a later removal may meet a leaf or a root
without keys (`Filesystem.answers_outOfBounds`).
-/

namespace NebulaFS

open SortedWalk

namespace BTree

namespace Filesystem

variable {κ ν : Type} [LinearOrder κ] {tree : BTree κ ν} {order : Nat}

inductive Call (κ ν : Type)
  | insert (key : κ) (value : ν)
  | remove (key : κ)
  | find (key : κ)
  | contains (key : κ)
  | size

inductive Answer (ν : Type)
  | inserted
  | removed (removed : Bool)
  | found (value : Option ν)
  | present (present : Bool)
  | size (count : Nat)
deriving DecidableEq

def call (tree : BTree κ ν) : Call κ ν → Access (BTree κ ν × Answer ν)
  | .insert key value => (fun after => (after, .inserted)) <$> tree.insert key value
  | .remove key => (fun result => (result.1, .removed result.2)) <$> remove tree key
  | .find key => (fun value => (tree, .found value)) <$> tree.find key
  | .contains key => (fun present => (tree, .present present)) <$> tree.contains key
  | .size => pure (tree, .size tree.size)

def answers (tree : BTree κ ν) : List (Call κ ν) → Access (List (Answer ν))
  | [] => .ok []
  | head :: calls => do
      let (after, answer) ← call tree head
      let rest ← answers after calls
      return answer :: rest

/-! ### The map -/

abbrev Map (κ ν : Type) := Finmap fun _ : κ => ν

def mapCall (map : Map κ ν) : Call κ ν → Map κ ν × Answer ν
  | .insert key value => (map.insert key value, .inserted)
  | .remove key => (map.erase key, .removed (decide (key ∈ map)))
  | .find key => (map, .found (map.lookup key))
  | .contains key => (map, .present (decide (key ∈ map)))
  | .size => (map, .size map.keys.card)

def mapAnswers (map : Map κ ν) : List (Call κ ν) → List (Answer ν)
  | [] => []
  | head :: calls => (mapCall map head).2 :: mapAnswers (mapCall map head).1 calls

/-- The walk visits the pairs of the map. -/
def Holds (map : Map κ ν) (pairs : List (κ × ν)) : Prop :=
  ∀ key value, map.lookup key = some value ↔ (key, value) ∈ pairs

variable {map : Map κ ν} {pairs : List (κ × ν)} {key : κ}

theorem Holds.mem_iff (h : Holds map pairs) (key : κ) : key ∈ map ↔ key ∈ pairs.map Prod.fst := by
  rw [← Finmap.lookup_isSome, Option.isSome_iff_exists, List.mem_map]
  constructor
  · rintro ⟨value, hvalue⟩
    exact ⟨(key, value), (h key value).mp hvalue, rfl⟩
  · rintro ⟨pair, hpair, rfl⟩
    exact ⟨pair.2, (h pair.1 pair.2).mpr hpair⟩

theorem Holds.lookup_eq (h : Holds map pairs) {answer : Option ν} (hfound : Found key pairs answer) :
    map.lookup key = answer := by
  cases answer with
  | some value => exact (h key value).mpr (hfound.mem value rfl)
  | none =>
      rw [Option.eq_none_iff_forall_ne_some]
      intro value hvalue
      exact hfound.absent rfl value ((h key value).mp hvalue)

theorem Holds.card_keys (h : Holds map pairs) (hsorted : pairs.Pairwise ByKeyStrict) :
    map.keys.card = pairs.length := by
  have hkeys : map.keys = (pairs.map Prod.fst).toFinset := by
    ext key
    rw [Finmap.mem_keys, List.mem_toFinset, h.mem_iff]
  rw [hkeys, List.toFinset_card_of_nodup (pairwise_byKeyStrict_iff.mp hsorted).2, List.length_map]

theorem Holds.insert (h : Holds map pairs) (habsent : key ∉ pairs.map Prod.fst) (value : ν)
    {after : List (κ × ν)} (hperm : after.Perm ((key, value) :: pairs)) :
    Holds (map.insert key value) after := by
  intro other item
  rw [hperm.mem_iff, List.mem_cons, Prod.mk.injEq]
  by_cases heq : other = key
  · subst heq
    have hnot : (other, item) ∉ pairs := fun hmem => habsent (List.mem_map_of_mem hmem)
    rw [Finmap.lookup_insert, Option.some.injEq]
    constructor
    · rintro rfl
      exact .inl ⟨rfl, rfl⟩
    · rintro (⟨-, rfl⟩ | hmem)
      · rfl
      · exact absurd hmem hnot
  · rw [Finmap.lookup_insert_of_ne _ heq, h other item]
    constructor
    · exact .inr
    · rintro (⟨hkey, -⟩ | hmem)
      · exact absurd hkey heq
      · exact hmem

theorem Holds.erase (h : Holds map pairs) (key : κ) :
    Holds (map.erase key) (withoutKey key pairs) := by
  intro other item
  rw [withoutKey, List.mem_filter, decide_eq_true_iff]
  by_cases heq : other = key
  · subst heq
    rw [Finmap.lookup_erase]
    constructor
    · intro hnone
      cases hnone
    · rintro ⟨-, hne⟩
      exact absurd rfl hne
  · rw [Finmap.lookup_erase_ne heq, h other item]
    constructor
    · intro hmem
      exact ⟨hmem, heq⟩
    · exact fun hmem => hmem.1

/-! ### Calls and runs -/

/-- An insertion brings a new key. -/
def InsertsNew (tree : BTree κ ν) : Call κ ν → Prop
  | .insert key _ => key ∉ tree.inOrder.map Prod.fst
  | _ => True

/-- A removal goes a safe way, unless the tree is empty. -/
def RemovesSafely (tree : BTree κ ν) : Call κ ν → Prop
  | .remove key => tree.size ≠ 0 →
      safe ((tree.order - 1) / 2 ≤ ·) true tree.root.depth key none false tree.root = true
  | _ => True

instance (tree : BTree κ ν) : (head : Call κ ν) → Decidable (InsertsNew tree head)
  | .insert key _ => inferInstanceAs (Decidable (key ∉ tree.inOrder.map Prod.fst))
  | .remove _ => isTrue trivial
  | .find _ => isTrue trivial
  | .contains _ => isTrue trivial
  | .size => isTrue trivial

instance (tree : BTree κ ν) : (head : Call κ ν) → Decidable (RemovesSafely tree head)
  | .insert _ _ => isTrue trivial
  | .remove _ => inferInstanceAs (Decidable (_ → _))
  | .find _ => isTrue trivial
  | .contains _ => isTrue trivial
  | .size => isTrue trivial

/-- The call ends, and in this tree. -/
abbrev Step (tree : BTree κ ν) (head : Call κ ν) (after : BTree κ ν) : Prop :=
  Prod.fst <$> call tree head = .ok after

/-- **A call on a safe way does to the tree what it does to the map.** -/
theorem exists_call (horder : 3 ≤ order) (h : Ordered order tree) (hholds : Holds map tree.inOrder)
    {head : Call κ ν} (hnew : InsertsNew tree head) (hsafely : RemovesSafely tree head) :
    ∃ after, call tree head = .ok (after, (mapCall map head).2) ∧ Ordered order after
      ∧ Holds (mapCall map head).1 after.inOrder := by
  cases head with
  | insert key value =>
      obtain ⟨after, hinsert, hordered, hperm⟩ := h.insert horder hnew value
      refine ⟨after, ?_, hordered, hholds.insert hnew value hperm⟩
      rw [call, hinsert]
      rfl
  | remove key =>
      have hsafe := hsafely
      rw [RemovesSafely, h.order_eq] at hsafe
      obtain ⟨after, hremove, hordered, hwalk⟩ := exists_remove horder h hsafe
      refine ⟨after, ?_, hordered, ?_⟩
      · have hpresent : decide (key ∈ tree.inOrder.map Prod.fst) = decide (key ∈ map) := by
          rw [Bool.eq_iff_iff, decide_eq_true_iff, decide_eq_true_iff, hholds.mem_iff]
        rw [call, hremove, hpresent]
        rfl
      · rw [hwalk]
        exact hholds.erase key
  | find key =>
      obtain ⟨answer, hfind, -, hfound⟩ := h.find key
      refine ⟨tree, ?_, h, hholds⟩
      rw [call, hfind, mapCall, hholds.lookup_eq hfound]
      rfl
  | contains key =>
      obtain ⟨answer, -, hcontains, hfound⟩ := h.find key
      refine ⟨tree, ?_, h, hholds⟩
      have hpresent : answer.isSome = decide (key ∈ map) := by
        rw [Bool.eq_iff_iff, decide_eq_true_iff, hfound.isSome_iff, hholds.mem_iff]
      rw [call, hcontains, hpresent]
      rfl
  | size =>
      refine ⟨tree, ?_, h, hholds⟩
      rw [call, mapCall, hholds.card_keys h.sorted, h.size_eq]
      rfl

theorem exists_answers (horder : 3 ≤ order) (h : Ordered order tree) (hholds : Holds map tree.inOrder)
    {calls : List (Call κ ν)}
    (hrun : Runs.Along Step (fun tree head => InsertsNew tree head ∧ RemovesSafely tree head) tree
      calls) : answers tree calls = .ok (mapAnswers map calls) := by
  induction calls generalizing tree map with
  | nil => rfl
  | cons head calls ih =>
      obtain ⟨⟨hnew, hsafely⟩, hrest⟩ := hrun
      obtain ⟨after, hcall, hordered, hafter⟩ := exists_call horder h hholds hnew hsafely
      have hstep : Step tree head after := by
        rw [Step, hcall]
        rfl
      rw [answers, hcall, ok_bind]
      dsimp only
      rw [ih hordered hafter (hrest after hstep), ok_bind]
      rfl

/-- **On safe ways the tree answers like a map.** -/
theorem answers_like_map {order : Nat} (horder : 4 ≤ order) (calls : List (Call κ ν))
    (hrun : Runs.Along Step (fun tree head => InsertsNew tree head ∧ RemovesSafely tree head)
      { order := order } calls) :
    answers ({ order := order } : BTree κ ν) calls = .ok (mapAnswers ∅ calls) := by
  apply exists_answers (by omega) (ordered_new order) _ hrun
  intro key value
  have hinOrder : ({ order := order } : BTree κ ν).inOrder = [] := inOrder_ofPairs []
  rw [hinOrder, Finmap.lookup_empty]
  simp

theorem answers_like_map_fourNames :
    answers ({ order := 4 } : BTree String EntryID)
        [.insert "a" 1, .insert "b" 2, .insert "c" 3, .insert "d" 4, .remove "a", .remove "e",
          .find "b", .size]
      = .ok (mapAnswers ∅ [.insert "a" 1, .insert "b" 2, .insert "c" 3, .insert "d" 4, .remove "a",
          .remove "e", .find "b", .size]) :=
  answers_like_map (by decide) _ (by decide +kernel)

/-- The second removal takes the only key out of the first leaf, and the third one looks for the last
key of that leaf. -/
theorem answers_outOfBounds :
    Runs.Along Step InsertsNew ({ order := 4 } : BTree String EntryID)
        [.insert "a" 1, .insert "b" 2, .insert "c" 3, .insert "d" 4, .remove "a", .remove "d",
          .remove "b"]
      ∧ answers ({ order := 4 } : BTree String EntryID)
        [.insert "a" 1, .insert "b" 2, .insert "c" 3, .insert "d" 4, .remove "a", .remove "d",
          .remove "b"] = .error .outOfBounds := by
  constructor
  · decide +kernel
  · decide +kernel

end Filesystem

end BTree

end NebulaFS
