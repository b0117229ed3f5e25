import NebulaFS.Lib.Runs
import NebulaFS.Proof.BTreeRemoval

/-!
# Runs of the index

A removal from the index goes wrong in two ways. A key that it meets in an inner node is replaced by its
predecessor, but its value stays (`Index.remove_wrong`); and a last child with a poor left neighbour is
merged away before the removal goes on to it. In a run without either every removal takes out the pair
of its key (`Index.removesPairs_along`).
-/

namespace NebulaFS

open SortedWalk

namespace BTree

variable {κ ν : Type} [LinearOrder κ] {tree : BTree κ ν} {order : Nat}

namespace Index

inductive Op (κ ν : Type)
  | insert (key : κ) (value : ν)
  | remove (key : κ)

def step (tree : BTree κ ν) : Op κ ν → Access (BTree κ ν)
  | .insert key value => tree.insert key value
  | .remove key => Prod.fst <$> remove tree key

/-- The operation ends, and in this tree. -/
abbrev Step (tree : BTree κ ν) (op : Op κ ν) (after : BTree κ ν) : Prop := step tree op = .ok after

/-- The way to the key is safe, and it ends in a leaf. -/
def SafeWay (tree : BTree κ ν) (key : κ) : Prop :=
  safe ((tree.order - 1) / 2 < ·) false tree.root.depth key none false tree.root = true

/-- An insertion brings a new key. -/
def InsertsNew (tree : BTree κ ν) : Op κ ν → Prop
  | .insert key _ => key ∉ tree.inOrder.map Prod.fst
  | .remove _ => True

/-- A removal goes a safe way if it finds its key. -/
def RemovesSafely (tree : BTree κ ν) : Op κ ν → Prop
  | .insert _ _ => True
  | .remove key => key ∈ tree.inOrder.map Prod.fst → SafeWay tree key

/-- A removal takes out the pair of its key, and a key that is not there changes nothing. -/
def RemovesPair (tree : BTree κ ν) : Op κ ν → Prop
  | .insert key value => ∃ after, tree.insert key value = .ok after
  | .remove key =>
      (key ∈ tree.inOrder.map Prod.fst → ∃ after, remove tree key = .ok (after, true)
        ∧ after.size + 1 = tree.size ∧ after.inOrder = tree.inOrder.filter fun pair => pair.1 ≠ key)
      ∧ (key ∉ tree.inOrder.map Prod.fst → remove tree key = .ok (tree, false))

instance (tree : BTree κ ν) (op : Op κ ν) : Decidable (InsertsNew tree op) :=
  match op with
  | .insert key _ => inferInstanceAs (Decidable (key ∉ tree.inOrder.map Prod.fst))
  | .remove _ => isTrue trivial

instance (tree : BTree κ ν) (key : κ) : Decidable (SafeWay tree key) :=
  inferInstanceAs (Decidable (_ = true))

instance (tree : BTree κ ν) (op : Op κ ν) : Decidable (RemovesSafely tree op) :=
  match op with
  | .insert _ _ => isTrue trivial
  | .remove key => inferInstanceAs (Decidable (key ∈ tree.inOrder.map Prod.fst → SafeWay tree key))

theorem removesPair_of_safely (horder : 3 ≤ order) (h : Ordered order tree) {op : Op κ ν}
    (hnew : InsertsNew tree op) (hsafely : RemovesSafely tree op) :
    RemovesPair tree op ∧ ∀ after, Step tree op after → Ordered order after := by
  cases op with
  | insert key value =>
      obtain ⟨after, hinsert, hordered, -⟩ := h.insert horder hnew value
      refine ⟨⟨after, hinsert⟩, ?_⟩
      intro other hstep
      have heq : Except.ok after = Except.ok other := hinsert.symm.trans hstep
      cases heq
      exact hordered
  | remove key =>
      by_cases hmem : key ∈ tree.inOrder.map Prod.fst
      · have hsafe := hsafely hmem
        rw [SafeWay, h.order_eq] at hsafe
        obtain ⟨after, hremove, hordered, hsize, hwalk⟩ := exists_remove h hmem hsafe
        refine ⟨⟨fun _ => ⟨after, hremove, hsize, hwalk⟩, fun habsent => absurd hmem habsent⟩, ?_⟩
        intro other hstep
        rw [Step, step, hremove] at hstep
        cases hstep
        exact hordered
      · have hremove := remove_of_absent h hmem
        refine ⟨⟨fun hpresent => absurd hpresent hmem, fun _ => hremove⟩, ?_⟩
        intro other hstep
        rw [Step, step, hremove] at hstep
        cases hstep
        exact h

/-- **In a run of safe removals every removal takes out the pair of its key.** -/
theorem removesPairs_along {order : Nat} (horder : 4 ≤ order) (ops : List (Op κ ν))
    (hrun : Runs.Along Step (fun tree op => InsertsNew tree op ∧ RemovesSafely tree op)
      { order := order } ops) :
    Runs.Along Step RemovesPair ({ order := order } : BTree κ ν) ops := by
  have hstep : ∀ (tree : BTree κ ν) (op : Op κ ν), Ordered order tree →
      InsertsNew tree op ∧ RemovesSafely tree op →
      RemovesPair tree op ∧ ∀ after, Step tree op after → Ordered order after :=
    fun _ _ h hop => removesPair_of_safely (by omega) h hop.1 hop.2
  exact Runs.along_of_invariant (Ordered order) (fun tree op h hop => (hstep tree op h hop).1)
    (fun tree op after h hop => (hstep tree op h hop).2 after) (ordered_new order) hrun

/-- The first key goes after the second one moved down to it, and a fifth one is not there. -/
theorem removesPairs_along_fourKeys : Runs.Along Step RemovesPair ({ order := 4 } : BTree Nat Nat)
    [.insert 1 10, .insert 2 20, .insert 3 30, .insert 4 40, .remove 1, .remove 5] :=
  removesPairs_along (by decide) _ (by decide +kernel)

/-- The tree of four keys. -/
def fourKeys : BTree Nat Nat :=
  { order := 4
    root := ofParts [(ofPairs [(1, 10)], 2, 20)] (ofPairs [(3, 30), (4, 40)]) []
    size := 4 }

/-- The removal of the last key goes outside, and that of the key in the root leaves its value. -/
theorem remove_wrong :
    ({ order := 4 } : BTree Nat Nat).insertAll [(1, 10), (2, 20), (3, 30), (4, 40)] = .ok fourKeys
      ∧ remove fourKeys 4 = .error .outOfBounds
      ∧ (remove fourKeys 2).map (fun result => (result.1.inOrder, result.2))
        = .ok ([(1, 20), (3, 30), (4, 40)], true) :=
  ⟨rfl, rfl, rfl⟩

end Index

end BTree

end NebulaFS
