import NebulaFS.IndexBTree
import NebulaFS.Proof.BTreeInsertion

/-!
# The iterator is the in-order walk

A stack stands for the pairs that are still to be visited. Below its back it holds the inner nodes whose
child is being visited (`Pending`), and at its back the pair the iterator is at (`At`). One increment takes
one pair off (`exists_advanceStack`). It comes to rest at a pair because no leaf is empty (`Filled`), which
takes an order of four: in a tree of order three a split leaves an empty leaf behind.
-/

namespace NebulaFS

namespace BTree

variable {κ ν : Type} {node child : Node κ ν} {n : Nat} {left : List (Node κ ν × κ × ν)}
  {right : List ((κ × ν) × Node κ ν)}

/-! ### Trees without empty leaves -/

/-- No leaf is empty. -/
def Filled : Nat → Node κ ν → Prop
  | 0, node => node.keys ≠ []
  | n + 1, node => ∀ child ∈ node.children, Filled n child

theorem Filled.of_child (h : Filled (n + 1) (ofParts left child right)) : Filled n child :=
  h child (List.mem_append_right _ List.mem_cons_self)

theorem Sized.filled {order : Nat} (horder : 4 ≤ order) (h : Sized order n node)
    (hleaf : n = 0 → node.keys ≠ []) : Filled n node := by
  induction n generalizing node with
  | zero => exact hleaf rfl
  | succ n ih =>
      intro child hmem
      obtain ⟨hmin, hsized⟩ := h.2 child hmem
      refine ih hsized fun _ => ?_
      exact List.ne_nil_of_length_pos (by omega)

theorem not_isLeaf_ofParts (left : List (Node κ ν × κ × ν)) (child : Node κ ν)
    (right : List ((κ × ν) × Node κ ν)) : ¬ (ofParts left child right).isLeaf = true :=
  Bool.false_ne_true

/-- The next child of a node becomes the one around which it is in parts. -/
theorem ofParts_next (left : List (Node κ ν × κ × ν)) (child : Node κ ν) (part : (κ × ν) × Node κ ν)
    (right : List ((κ × ν) × Node κ ν)) :
    ofParts left child (part :: right) = ofParts (left ++ [(child, part.1)]) part.2 right := by
  simp [ofParts]

namespace Iterator

variable {below stack : List (Node κ ν × Nat)} {pair : κ × ν} {rest pairs : List (κ × ν)}

/-! ### What a stack stands for -/

/-- The nodes of the stack wait for the child they are at, and `rest` comes after it. -/
inductive Pending : List (Node κ ν × Nat) → List (κ × ν) → Prop
  | nil : Pending [] []
  | frame {n : Nat} {left : List (Node κ ν × κ × ν)} {child : Node κ ν}
      {right : List ((κ × ν) × Node κ ν)} {below : List (Node κ ν × Nat)} {rest : List (κ × ν)}
      (hbalanced : Balanced (n + 1) (ofParts left child right))
      (hfilled : Filled (n + 1) (ofParts left child right)) (hbelow : Pending below rest) :
      Pending ((ofParts left child right, 2 * left.length) :: below) (after right ++ rest)

/-- The stack is at the first of the pairs, or at the end. -/
inductive At : List (Node κ ν × Nat) → List (κ × ν) → Prop
  | done : At [] []
  | leaf {first last : List (κ × ν)} {pair : κ × ν} {below : List (Node κ ν × Nat)}
      {rest : List (κ × ν)} (hbelow : Pending below rest) :
      At ((ofPairs (first ++ pair :: last), first.length) :: below) (pair :: (last ++ rest))
  | key {n : Nat} {left : List (Node κ ν × κ × ν)} {child : Node κ ν} {part : (κ × ν) × Node κ ν}
      {right : List ((κ × ν) × Node κ ν)} {below : List (Node κ ν × Nat)} {rest : List (κ × ν)}
      (hbalanced : Balanced (n + 1) (ofParts left child (part :: right)))
      (hfilled : Filled (n + 1) (ofParts left child (part :: right)))
      (hbelow : Pending below rest) :
      At ((ofParts left child (part :: right), 2 * left.length + 1) :: below)
        (part.1 :: (part.2.inOrder ++ (after right ++ rest)))

/-! ### Going down -/

theorem descend_ofPairs (fuel : Nat) (pairs : List (κ × ν)) (pos : Nat)
    (below : List (Node κ ν × Nat)) :
    descend (fuel + 1) ((ofPairs pairs, pos) :: below) = .ok ((ofPairs pairs, pos) :: below) := rfl

theorem descend_child (fuel : Nat) (left : List (Node κ ν × κ × ν)) (child : Node κ ν)
    (right : List ((κ × ν) × Node κ ν)) (below : List (Node κ ν × Nat)) :
    descend (fuel + 1) ((ofParts left child right, 2 * left.length) :: below)
      = descend fuel ((child, 0) :: (ofParts left child right, 2 * left.length) :: below) := by
  have hhalf : 2 * left.length / 2 = left.length := Nat.mul_div_cancel_left _ (by decide)
  have hinside : left.length < (ofParts left child right).children.length := by simp [ofParts]
  rw [descend, if_neg (not_isLeaf_ofParts left child right), hhalf,
    if_pos ⟨Nat.mul_mod_right 2 _, hinside⟩, get_children_ofParts, ok_bind]

theorem descend_key (fuel : Nat) (left : List (Node κ ν × κ × ν)) (child : Node κ ν)
    (right : List ((κ × ν) × Node κ ν)) (below : List (Node κ ν × Nat)) :
    descend (fuel + 1) ((ofParts left child right, 2 * left.length + 1) :: below)
      = .ok ((ofParts left child right, 2 * left.length + 1) :: below) := by
  have hodd : ¬ (2 * left.length + 1) % 2 = 0 := by omega
  rw [descend, if_neg (not_isLeaf_ofParts left child right), if_neg fun h => hodd h.1]

/-- The way down from a node ends at the first pair of its walk. -/
theorem exists_descend (h : Balanced n node) (hfilled : Filled n node) (hbelow : Pending below rest) :
    ∃ stack, descend (n + 1) ((node, 0) :: below) = .ok stack ∧ At stack (node.inOrder ++ rest) := by
  induction n generalizing node below rest with
  | zero =>
      obtain ⟨pairs, rfl⟩ := h.exists_pairs
      cases pairs with
      | nil => exact absurd rfl hfilled
      | cons pair pairs =>
          rw [inOrder_ofPairs]
          have hat : At ((ofPairs ([] ++ pair :: pairs), 0) :: below) (pair :: (pairs ++ rest)) :=
            .leaf hbelow
          exact ⟨_, descend_ofPairs 0 _ 0 below, hat⟩
  | succ n ih =>
      obtain ⟨first, right, rfl⟩ := h.exists_first
      have hfirst : Balanced n first := (balanced_ofParts_iff.mp h).2.1
      have hpending : Pending ((ofParts [] first right, 2 * 0) :: below) (after right ++ rest) :=
        .frame h hfilled hbelow
      obtain ⟨stack, hdescend, hat⟩ := ih hfirst hfilled.of_child hpending
      refine ⟨stack, ?_, ?_⟩
      · exact (descend_child (n + 1) [] first right below).trans hdescend
      · rw [inOrder_ofParts, List.append_assoc, List.append_assoc]
        exact hat

/-! ### One increment -/

theorem advanceStack_ofPairs (first last : List (κ × ν)) (pair : κ × ν)
    (below : List (Node κ ν × Nat)) :
    advanceStack ((ofPairs (first ++ pair :: last), first.length) :: below)
      = if last = [] then advanceStack below
        else .ok ((ofPairs (first ++ pair :: last), first.length + 1) :: below) := by
  have hlength : (ofPairs (first ++ pair :: last)).keys.length = first.length + 1 + last.length := by
    simp [ofPairs]
    omega
  have hdepth : (ofPairs (first ++ pair :: last)).depth = 0 + 1 :=
    (balanced_ofPairs _).depth_eq
  rw [advanceStack, if_pos (show (ofPairs (first ++ pair :: last)).isLeaf = true from rfl), hlength,
    hdepth, descend_ofPairs]
  cases last with
  | nil => rw [List.length_nil, Nat.add_zero, if_pos (Nat.le_refl _), if_pos rfl]
  | cons next last => rw [if_neg (by simp), if_neg (List.cons_ne_nil _ _)]

theorem advanceStack_ofParts (left : List (Node κ ν × κ × ν)) (child : Node κ ν)
    (right : List ((κ × ν) × Node κ ν)) (pos : Nat) (below : List (Node κ ν × Nat)) :
    advanceStack ((ofParts left child right, pos) :: below)
      = if 2 * left.length + 2 * right.length ≤ pos then advanceStack below
        else descend (ofParts left child right).depth ((ofParts left child right, pos + 1) :: below) := by
  have hmax : (ofParts left child right).children.length + (ofParts left child right).keys.length
      = 2 * left.length + 2 * right.length + 1 := by
    simp [ofParts]
    omega
  rw [advanceStack, if_neg (not_isLeaf_ofParts left child right), hmax]
  simp only [Nat.add_le_add_iff_right]

theorem exists_advanceStack_pending (h : Pending below rest) :
    ∃ stack, advanceStack below = .ok stack ∧ At stack rest := by
  induction h with
  | nil => exact ⟨[], rfl, .done⟩
  | @frame n left child right below rest hbalanced hfilled hbelow ih =>
      rw [advanceStack_ofParts]
      cases right with
      | nil =>
          rw [List.length_nil, Nat.mul_zero, Nat.add_zero, if_pos (Nat.le_refl _)]
          exact ih
      | cons part right =>
          rw [if_neg (by simp), hbalanced.depth_eq, descend_key, after_cons, List.cons_append,
            List.append_assoc]
          exact ⟨_, rfl, .key hbalanced hfilled hbelow⟩

/-- **An increment takes the pair off at which the iterator is.** -/
theorem exists_advanceStack (h : At stack (pair :: pairs)) :
    ∃ next, advanceStack stack = .ok next ∧ At next pairs := by
  cases h with
  | @leaf first last _ below rest hbelow =>
      rw [advanceStack_ofPairs]
      cases last with
      | nil =>
          rw [if_pos rfl]
          exact exists_advanceStack_pending hbelow
      | cons next last =>
          rw [if_neg (List.cons_ne_nil _ _)]
          refine ⟨_, rfl, ?_⟩
          have hat : At ((ofPairs ((first ++ [pair]) ++ next :: last), (first ++ [pair]).length)
              :: below) (next :: (last ++ rest)) :=
            .leaf hbelow
          rwa [List.length_append, List.append_assoc] at hat
  | @key n left child part right below rest hbalanced hfilled hbelow =>
      have hmore : ¬ 2 * left.length + 2 * (part :: right).length ≤ 2 * left.length + 1 := by
        rw [List.length_cons]
        omega
      have hpos : 2 * left.length + 1 + 1 = 2 * (left ++ [(child, part.1)]).length := by
        rw [List.length_append, List.length_singleton]
        omega
      rw [advanceStack_ofParts, if_neg hmore, hbalanced.depth_eq, hpos]
      rw [ofParts_next] at hbalanced hfilled ⊢
      rw [descend_child]
      have hpart : Balanced n part.2 := (balanced_ofParts_iff.mp hbalanced).2.1
      exact exists_descend hpart hfilled.of_child (.frame hbalanced hfilled hbelow)

/-! ### Many increments -/

theorem current_of_at (h : At stack (pair :: pairs)) :
    ({ stack := stack } : Iterator κ ν).atEnd = false
      ∧ ({ stack := stack } : Iterator κ ν).current = .ok pair := by
  cases h with
  | leaf hbelow => exact ⟨rfl, by simp [current, ofPairs, get]⟩
  | @key n left child part right below rest hbalanced hfilled hbelow =>
      have hhalf : (2 * left.length + 1) / 2 = left.length := by omega
      refine ⟨rfl, ?_⟩
      rw [current]
      simp only [if_neg (not_isLeaf_ofParts left child (part :: right)), hhalf, get_keys_ofParts,
        get_values_ofParts, ok_bind, pure_eq_ok]

theorem atEnd_of_at (h : At stack ([] : List (κ × ν))) :
    ({ stack := stack } : Iterator κ ν).atEnd = true := by
  cases h
  rfl

end Iterator

/-- The iterator from `begin()` on after this many increments. -/
def advanced (tree : BTree κ ν) : Nat → Access (Iterator κ ν)
  | 0 => tree.begin
  | count + 1 => do
      let it ← tree.advanced count
      it.advance

open Iterator

variable {tree : BTree κ ν}

theorem exists_begin (h : Balanced n tree.root) (hfilled : Filled n tree.root) :
    ∃ it, tree.begin = .ok it ∧ At it.stack tree.inOrder := by
  obtain ⟨stack, hdescend, hat⟩ := exists_descend h hfilled .nil
  rw [List.append_nil] at hat
  refine ⟨{ stack := stack }, ?_, hat⟩
  rw [begin, h.depth_eq, hdescend]
  rfl

theorem exists_advanced (h : Balanced n tree.root) (hfilled : Filled n tree.root) {count : Nat}
    (hcount : count ≤ tree.inOrder.length) :
    ∃ it, tree.advanced count = .ok it ∧ At it.stack (tree.inOrder.drop count) := by
  induction count with
  | zero => exact exists_begin h hfilled
  | succ count ih =>
      obtain ⟨it, hit, hat⟩ := ih (Nat.le_of_succ_le hcount)
      rw [List.drop_eq_getElem_cons hcount] at hat
      obtain ⟨stack, hadvance, hnext⟩ := exists_advanceStack hat
      refine ⟨{ stack := stack }, ?_, hnext⟩
      rw [advanced, hit, ok_bind, advance, hadvance]
      rfl

variable [LinearOrder κ] {order : Nat} {pairs : List (κ × ν)}

theorem Built.exists_filled (horder : 4 ≤ order) (h : Built order pairs tree) (hne : pairs ≠ []) :
    ∃ n, Balanced n tree.root ∧ Filled n tree.root := by
  obtain ⟨n, hbalanced, hsized⟩ := h.shape
  refine ⟨n, hbalanced, hsized.filled horder ?_⟩
  rintro rfl hempty
  obtain ⟨items, hroot⟩ := hbalanced.exists_pairs
  have hitems : tree.inOrder = items := by rw [inOrder, hroot, inOrder_ofPairs]
  rw [hroot, ofPairs, List.map_eq_nil_iff] at hempty
  exact hne (List.perm_nil.mp (hempty ▸ hitems ▸ h.perm).symm)

/-- **Iteration is the in-order walk.** -/
theorem iteration_isInOrder (horder : 4 ≤ order) (hne : pairs ≠ []) :
    ∃ tree : BTree κ ν, ({ order := order } : BTree κ ν).insertAll pairs = .ok tree
      ∧ tree.inOrder.length = tree.size
      ∧ (∀ (count : Nat) (hcount : count < tree.inOrder.length), ∃ it, tree.advanced count = .ok it
        ∧ it.atEnd = false ∧ it.current = .ok tree.inOrder[count])
      ∧ ∃ it, tree.advanced tree.size = .ok it ∧ it.atEnd = true := by
  obtain ⟨tree, hrun, hbuilt⟩ := (built_new order).insertAll (by omega) pairs
  rw [List.nil_append] at hbuilt
  obtain ⟨n, hbalanced, hfilled⟩ := hbuilt.exists_filled horder hne
  have hlength : tree.inOrder.length = tree.size :=
    hbuilt.perm.length_eq.trans hbuilt.size_eq.symm
  refine ⟨tree, hrun, hlength, ?_, ?_⟩
  · intro count hcount
    obtain ⟨it, hit, hat⟩ := exists_advanced hbalanced hfilled (Nat.le_of_lt hcount)
    rw [List.drop_eq_getElem_cons hcount] at hat
    exact ⟨it, hit, current_of_at hat⟩
  · obtain ⟨it, hit, hat⟩ := exists_advanced hbalanced hfilled (Nat.le_of_eq hlength.symm)
    rw [← hlength, List.drop_length] at hat
    exact ⟨it, hit, atEnd_of_at hat⟩

/-- A tree of two levels, whose root has one key. -/
theorem iteration_isInOrder_fourKeys : ∃ tree : BTree Nat Nat,
    ({ order := 4 } : BTree Nat Nat).insertAll [(2, 20), (1, 10), (4, 40), (3, 30)] = .ok tree
      ∧ tree.inOrder.length = tree.size
      ∧ (∀ (count : Nat) (hcount : count < tree.inOrder.length), ∃ it, tree.advanced count = .ok it
        ∧ it.atEnd = false ∧ it.current = .ok tree.inOrder[count])
      ∧ ∃ it, tree.advanced tree.size = .ok it ∧ it.atEnd = true :=
  iteration_isInOrder (by decide) (by decide)

end BTree

end NebulaFS
