import NebulaFS.BTree

/-!
# Nodes in parts

Every routine of the trees works around one index of a node. `ofParts` puts a node together from the
subtrees and pairs before the index, the child at it and the pairs and subtrees behind it, and every
node of a balanced tree is of this form (`Balanced.exists_parts`). Splitting, merging and borrowing then
are equations between nodes in parts, and none of them changes the walk.
-/

namespace NebulaFS

open SortedWalk

namespace BTree

variable {κ ν α : Type} {node child : Node κ ν} {n i : Nat}

/-! ### Vectors around an index -/

theorem get_append_cons {items rest : List α} {item : α} (h : i = items.length) :
    get (items ++ item :: rest) i = .ok item := by
  simp [get, h]

theorem getElem?_append_cons {items rest : List α} {item : α} (h : i = items.length) :
    (items ++ item :: rest)[i]? = some item := by
  simp [h]

theorem set_append_cons {items rest : List α} {item other : α} (h : i = items.length) :
    (items ++ item :: rest).set i other = items ++ other :: rest := by
  simp [h]

theorem insertIdx_append {items rest : List α} {item : α} (h : i = items.length) :
    (items ++ rest).insertIdx i item = items ++ item :: rest := by
  subst h
  induction items with
  | nil => rfl
  | cons head items ih => simp [ih]

theorem eraseIdx_append_cons {items rest : List α} {item : α} (h : i = items.length) :
    (items ++ item :: rest).eraseIdx i = items ++ rest := by
  simp [h, List.eraseIdx_append_of_length_le]

theorem get_of_getElem? {items : List α} {item : α} (h : items[i]? = some item) :
    get items i = .ok item := by
  rw [get, h]

theorem back_concat (items : List α) (item : α) : back (items ++ [item]) = .ok item := by
  simp [back]

/-! ### Balanced trees -/

/-- All leaves are at the same depth, every node has a value for every key, and every other node has
one child more than keys. -/
def Balanced : Nat → Node κ ν → Prop
  | 0, node => node.isLeaf = true ∧ node.children = [] ∧ node.values.length = node.keys.length
  | n + 1, node => node.isLeaf = false ∧ node.children.length = node.keys.length + 1
      ∧ node.values.length = node.keys.length ∧ ∀ child ∈ node.children, Balanced n child

/-- A leaf with these pairs. -/
def ofPairs (pairs : List (κ × ν)) : Node κ ν :=
  { keys := pairs.map Prod.fst, values := pairs.map Prod.snd }

/-- An inner node around one of its children. -/
def ofParts (left : List (Node κ ν × κ × ν)) (child : Node κ ν) (right : List ((κ × ν) × Node κ ν)) :
    Node κ ν :=
  { keys := left.map (fun part => part.2.1) ++ right.map (fun part => part.1.1)
    values := left.map (fun part => part.2.2) ++ right.map (fun part => part.1.2)
    children := left.map Prod.fst ++ child :: right.map Prod.snd
    isLeaf := false }

theorem balanced_ofPairs (pairs : List (κ × ν)) : Balanced 0 (ofPairs pairs) :=
  ⟨rfl, rfl, by simp [ofPairs]⟩

theorem Balanced.exists_pairs (h : Balanced 0 node) : ∃ pairs, node = ofPairs pairs := by
  obtain ⟨hleaf, hchildren, hvalues⟩ := h
  refine ⟨node.keys.zip node.values, ?_⟩
  rw [ofPairs, List.map_fst_zip (by omega), List.map_snd_zip (by omega)]
  cases node
  cases hleaf
  cases hchildren
  rfl

theorem balanced_ofParts_iff {left : List (Node κ ν × κ × ν)} {right : List ((κ × ν) × Node κ ν)} :
    Balanced (n + 1) (ofParts left child right) ↔ (∀ part ∈ left, Balanced n part.1)
      ∧ Balanced n child ∧ ∀ part ∈ right, Balanced n part.2 := by
  simp [Balanced, ofParts]
  constructor
  · rintro ⟨-, h⟩
    refine ⟨?_, h child (.inr (.inl rfl)), ?_⟩
    · intro first key value hmem
      exact h first (.inl ⟨key, value, hmem⟩)
    · intro key value last hmem
      exact h last (.inr (.inr ⟨key, value, hmem⟩))
  · rintro ⟨hleft, hchild, hright⟩
    refine ⟨by omega, ?_⟩
    rintro node (⟨key, value, hmem⟩ | rfl | ⟨key, value, hmem⟩)
    · exact hleft node key value hmem
    · exact hchild
    · exact hright key value node hmem

theorem exists_zip {β : Type} {items : List α} {others : List β} (h : items.length = others.length) :
    ∃ zipped : List (α × β), zipped.map Prod.fst = items ∧ zipped.map Prod.snd = others :=
  ⟨items.zip others, List.map_fst_zip (le_of_eq h), List.map_snd_zip (le_of_eq h.symm)⟩

/-- A node around any of its indices. -/
theorem Balanced.exists_parts (h : Balanced (n + 1) node) (hi : i ≤ node.keys.length) :
    ∃ left child right, node = ofParts left child right ∧ left.length = i := by
  obtain ⟨hleaf, hchildren, hvalues, -⟩ := h
  have hlt : i < node.children.length := by omega
  obtain ⟨first, hfirstKeys, hfirstValues⟩ := exists_zip
    (show (node.keys.take i).length = (node.values.take i).length by simp [hvalues])
  obtain ⟨last, hlastKeys, hlastValues⟩ := exists_zip
    (show (node.keys.drop i).length = (node.values.drop i).length by simp [hvalues])
  have hfirst := congrArg List.length hfirstKeys
  have hlast := congrArg List.length hlastKeys
  simp only [List.length_map, List.length_take, List.length_drop] at hfirst hlast
  obtain ⟨left, hleftChildren, hleft⟩ := exists_zip
    (show (node.children.take i).length = first.length by simp; omega)
  obtain ⟨right, hright, hrightChildren⟩ := exists_zip
    (show last.length = (node.children.drop (i + 1)).length by simp; omega)
  refine ⟨left, node.children[i], right, ?_, ?_⟩
  · have hkeys : node.keys
        = left.map (fun part => part.2.1) ++ right.map (fun part => part.1.1) := by
      rw [show left.map (fun part => part.2.1) = (left.map Prod.snd).map Prod.fst by simp,
        show right.map (fun part => part.1.1) = (right.map Prod.fst).map Prod.fst by simp,
        hleft, hright, hfirstKeys, hlastKeys, List.take_append_drop]
    have hvalues : node.values
        = left.map (fun part => part.2.2) ++ right.map (fun part => part.1.2) := by
      rw [show left.map (fun part => part.2.2) = (left.map Prod.snd).map Prod.snd by simp,
        show right.map (fun part => part.1.2) = (right.map Prod.fst).map Prod.snd by simp,
        hleft, hright, hfirstValues, hlastValues, List.take_append_drop]
    have hparts : node.children
        = left.map Prod.fst ++ node.children[i] :: right.map Prod.snd := by
      rw [hleftChildren, hrightChildren, List.getElem_cons_drop, List.take_append_drop]
    rw [ofParts, ← hkeys, ← hvalues, ← hparts]
    cases node
    cases hleaf
    rfl
  · have hlength := congrArg List.length hleftChildren
    simp only [List.length_map, List.length_take] at hlength
    omega

theorem depths_eq {nodes : List (Node κ ν)} (hne : nodes ≠ []) (h : ∀ node ∈ nodes, node.depth = i) :
    depths nodes = i := by
  induction nodes with
  | nil => exact absurd rfl hne
  | cons node nodes ih =>
      have hhead := h node List.mem_cons_self
      have htail := fun other hmem => h other (List.mem_cons_of_mem node hmem)
      rw [depths, hhead]
      cases nodes with
      | nil => rw [depths, Nat.max_zero]
      | cons next nodes => rw [ih (List.cons_ne_nil _ _) htail, Nat.max_self]

/-- The recursion of every routine ends at the leaves. -/
theorem Balanced.depth_eq (h : Balanced n node) : node.depth = n + 1 := by
  induction n generalizing node with
  | zero =>
      obtain ⟨pairs, rfl⟩ := h.exists_pairs
      simp [ofPairs, Node.depth, depths]
  | succ n ih =>
      obtain ⟨-, hchildren, -, hbalanced⟩ := h
      have hne : node.children ≠ [] := by
        intro hnil
        rw [hnil] at hchildren
        cases hchildren
      have hdepths := depths_eq hne fun child hmem => ih (hbalanced child hmem)
      cases node
      rw [Node.depth, hdepths]

/-! ### The walk -/

theorem inOrders_eq_map (nodes : List (Node κ ν)) : inOrders nodes = nodes.map Node.inOrder := by
  induction nodes with
  | nil => rfl
  | cons node nodes ih => rw [inOrders, ih, List.map_cons]

theorem inOrder_of_leaf (h : node.isLeaf = true) : node.inOrder = node.keys.zip node.values := by
  cases node
  cases h
  simp [Node.inOrder]

theorem inOrder_of_inner (h : node.isLeaf = false) :
    node.inOrder = interleave (node.children.map Node.inOrder) (node.keys.zip node.values) := by
  cases node
  cases h
  simp [Node.inOrder, inOrders_eq_map]

@[simp]
theorem inOrder_ofPairs (pairs : List (κ × ν)) : (ofPairs pairs).inOrder = pairs := by
  rw [inOrder_of_leaf rfl]
  exact (List.zip_of_prod rfl rfl).symm

/-- What the walk visits before the child. -/
def before (left : List (Node κ ν × κ × ν)) : List (κ × ν) :=
  left.flatMap fun part => part.1.inOrder ++ [part.2]

/-- What the walk visits after the child. -/
def after (right : List ((κ × ν) × Node κ ν)) : List (κ × ν) :=
  right.flatMap fun part => part.1 :: part.2.inOrder

theorem interleave_before (left : List (Node κ ν × κ × ν)) (rest : List (List (κ × ν)))
    (later : List (κ × ν)) :
    interleave (left.map (fun part => part.1.inOrder) ++ rest) (left.map Prod.snd ++ later)
      = before left ++ interleave rest later := by
  induction left with
  | nil => rfl
  | cons part left ih => simp [interleave, before, ih]

theorem interleave_after (items : List (κ × ν)) (right : List ((κ × ν) × Node κ ν)) :
    interleave (items :: right.map (fun part => part.2.inOrder)) (right.map Prod.fst)
      = items ++ after right := by
  induction right generalizing items with
  | nil => simp [interleave, after]
  | cons part right ih =>
      have hrest := ih part.2.inOrder
      simp only [List.map_cons, interleave, hrest]
      rfl

@[simp]
theorem inOrder_ofParts (left : List (Node κ ν × κ × ν)) (child : Node κ ν)
    (right : List ((κ × ν) × Node κ ν)) :
    (ofParts left child right).inOrder = before left ++ child.inOrder ++ after right := by
  have hpairs : (ofParts left child right).keys.zip (ofParts left child right).values
      = left.map Prod.snd ++ right.map Prod.fst := by
    rw [ofParts, List.zip_append (by simp)]
    congr 1
    · exact (List.zip_of_prod (by rw [List.map_map]; rfl) (by rw [List.map_map]; rfl)).symm
    · exact (List.zip_of_prod (by rw [List.map_map]; rfl) (by rw [List.map_map]; rfl)).symm
  have hchildren : (ofParts left child right).children.map Node.inOrder
      = left.map (fun part => part.1.inOrder)
        ++ child.inOrder :: right.map (fun part => part.2.inOrder) := by
    rw [ofParts, List.map_append, List.map_cons, List.map_map, List.map_map]
    rfl
  rw [inOrder_of_inner rfl, hpairs, hchildren, interleave_before, interleave_after, List.append_assoc]

theorem pairwise_child {order : κ × ν → κ × ν → Prop} {left : List (Node κ ν × κ × ν)}
    {right : List ((κ × ν) × Node κ ν)} (h : (ofParts left child right).inOrder.Pairwise order) :
    child.inOrder.Pairwise order := by
  rw [inOrder_ofParts, List.append_assoc] at h
  exact (List.pairwise_append.mp (List.pairwise_append.mp h).2.1).1

theorem before_concat (left : List (Node κ ν × κ × ν)) (part : Node κ ν × κ × ν) :
    before (left ++ [part]) = before left ++ (part.1.inOrder ++ [part.2]) := by
  simp [before]

theorem after_cons (part : (κ × ν) × Node κ ν) (right : List ((κ × ν) × Node κ ν)) :
    after (part :: right) = part.1 :: (part.2.inOrder ++ after right) := by
  simp [after]

/-- The walk around a pair of neighbours. -/
theorem inOrder_ofParts_cons (left : List (Node κ ν × κ × ν)) (child : Node κ ν) (pair : κ × ν)
    (next : Node κ ν) (right : List ((κ × ν) × Node κ ν)) :
    (ofParts left child ((pair, next) :: right)).inOrder
      = before left ++ (child.inOrder ++ pair :: next.inOrder) ++ after right := by
  rw [inOrder_ofParts, after_cons]
  simp

theorem inOrder_ofParts_concat (left : List (Node κ ν × κ × ν)) (prev : Node κ ν) (pair : κ × ν)
    (child : Node κ ν) (right : List ((κ × ν) × Node κ ν)) :
    (ofParts (left ++ [(prev, pair)]) child right).inOrder
      = before left ++ (prev.inOrder ++ pair :: child.inOrder) ++ after right := by
  rw [inOrder_ofParts, before_concat]
  simp

/-! ### Cutting a node in two -/

/-- What `splitChild` leaves of the child. -/
def Node.low (mid : Nat) (child : Node κ ν) : Node κ ν :=
  { child with
    keys := child.keys.take mid
    values := child.values.take mid
    children := if child.isLeaf then child.children else child.children.take (mid + 1) }

/-- The new child of `splitChild`. -/
def Node.high (mid : Nat) (child : Node κ ν) : Node κ ν :=
  { keys := child.keys.drop (mid + 1)
    values := child.values.drop (mid + 1)
    children := if child.isLeaf then [] else child.children.drop (mid + 1)
    isLeaf := child.isLeaf }

/-- The child falls into two around one of its pairs. -/
structure Cut (n mid : Nat) (child : Node κ ν) (pair : κ × ν) : Prop where
  key_eq : child.keys[mid]? = some pair.1
  value_eq : child.values[mid]? = some pair.2
  low : Balanced n (child.low mid)
  high : Balanced n (child.high mid)
  walk : (child.low mid).inOrder ++ pair :: (child.high mid).inOrder = child.inOrder

theorem exists_append_cons {items : List α} (h : i < items.length) :
    ∃ first item last, items = first ++ item :: last ∧ first.length = i :=
  ⟨items.take i, items[i], items.drop (i + 1), by simp, by simp; omega⟩

theorem Balanced.exists_cut {mid : Nat} (h : Balanced n child) (hmid : mid < child.keys.length) :
    ∃ pair, Cut n mid child pair := by
  cases n with
  | zero =>
      obtain ⟨pairs, rfl⟩ := h.exists_pairs
      rw [ofPairs, List.length_map] at hmid
      obtain ⟨first, pair, last, rfl, rfl⟩ := exists_append_cons hmid
      have hlow : (ofPairs (first ++ pair :: last)).low first.length = ofPairs first := by
        simp [Node.low, ofPairs]
      have hhigh : (ofPairs (first ++ pair :: last)).high first.length = ofPairs last := by
        simp [Node.high, ofPairs, List.drop_append]
      refine ⟨pair, by simp [ofPairs], by simp [ofPairs], ?_, ?_, ?_⟩
      · rw [hlow]
        exact balanced_ofPairs first
      · rw [hhigh]
        exact balanced_ofPairs last
      · rw [hlow, hhigh, inOrder_ofPairs, inOrder_ofPairs, inOrder_ofPairs]
  | succ n =>
      obtain ⟨left, middle, right, rfl, rfl⟩ := h.exists_parts (le_of_lt hmid)
      cases right with
      | nil => simp [ofParts] at hmid
      | cons part right =>
          obtain ⟨hleft, hmiddle, hright⟩ := balanced_ofParts_iff.mp h
          have hlow : (ofParts left middle (part :: right)).low left.length
              = ofParts left middle [] := by
            simp [Node.low, ofParts, List.take_append]
          have hhigh : (ofParts left middle (part :: right)).high left.length
              = ofParts [] part.2 right := by
            simp [Node.high, ofParts, List.drop_append]
          refine ⟨part.1, by simp [ofParts], by simp [ofParts], ?_, ?_, ?_⟩
          · rw [hlow, balanced_ofParts_iff]
            exact ⟨hleft, hmiddle, by simp⟩
          · rw [hhigh, balanced_ofParts_iff]
            exact ⟨by simp, hright part List.mem_cons_self,
              fun other hmem => hright other (List.mem_cons_of_mem _ hmem)⟩
          · simp [hlow, hhigh, before, after]

@[simp]
theorem ok_bind {β : Type} (item : α) (f : α → Access β) : (Except.ok item >>= f) = f item := rfl

@[simp]
theorem pure_eq_ok (item : α) : (pure item : Access α) = .ok item := rfl

theorem get_children_ofParts (left : List (Node κ ν × κ × ν)) (child : Node κ ν)
    (right : List ((κ × ν) × Node κ ν)) :
    get (ofParts left child right).children left.length = .ok child :=
  get_append_cons (by simp)

theorem get_keys_ofParts (left : List (Node κ ν × κ × ν)) (child : Node κ ν)
    (part : (κ × ν) × Node κ ν) (right : List ((κ × ν) × Node κ ν)) :
    get (ofParts left child (part :: right)).keys left.length = .ok part.1.1 :=
  get_append_cons (by simp)

theorem get_values_ofParts (left : List (Node κ ν × κ × ν)) (child : Node κ ν)
    (part : (κ × ν) × Node κ ν) (right : List ((κ × ν) × Node κ ν)) :
    get (ofParts left child (part :: right)).values left.length = .ok part.1.2 :=
  get_append_cons (by simp)

theorem get_sibling_ofParts (left : List (Node κ ν × κ × ν)) (child : Node κ ν)
    (part : (κ × ν) × Node κ ν) (right : List ((κ × ν) × Node κ ν)) :
    get (ofParts left child (part :: right)).children (left.length + 1) = .ok part.2 := by
  simp [get, ofParts]

/-- A routine puts the child that it has changed back. -/
theorem setChild_ofParts (left : List (Node κ ν × κ × ν)) (child other : Node κ ν)
    (right : List ((κ × ν) × Node κ ν)) :
    { ofParts left child right with
        children := (ofParts left child right).children.set left.length other }
      = ofParts left other right := by
  simp [ofParts]

/-- One part further. -/
theorem ofParts_cons (left : List (Node κ ν × κ × ν)) (child : Node κ ν) (pair : κ × ν)
    (next : Node κ ν) (right : List ((κ × ν) × Node κ ν)) :
    ofParts left child ((pair, next) :: right) = ofParts (left ++ [(child, pair)]) next right := by
  simp [ofParts]

/-- **A full child is split around its middle pair.** -/
theorem splitChild_ofParts (order : Nat) {left : List (Node κ ν × κ × ν)}
    {right : List ((κ × ν) × Node κ ν)} {pair : κ × ν} (h : Cut n ((order - 1) / 2) child pair) :
    splitChild order (ofParts left child right) left.length
      = .ok (ofParts left (child.low ((order - 1) / 2))
        ((pair, child.high ((order - 1) / 2)) :: right)) := by
  have hkeys : (ofParts left child right).keys.insertIdx left.length pair.1
      = left.map (fun part => part.2.1) ++ pair.1 :: right.map (fun part => part.1.1) :=
    insertIdx_append (by simp)
  have hvalues : (ofParts left child right).values.insertIdx left.length pair.2
      = left.map (fun part => part.2.2) ++ pair.2 :: right.map (fun part => part.1.2) :=
    insertIdx_append (by simp)
  have hchildren : ((ofParts left child right).children.set left.length
        (child.low ((order - 1) / 2))).insertIdx (left.length + 1) (child.high ((order - 1) / 2))
      = left.map Prod.fst ++ child.low ((order - 1) / 2) :: child.high ((order - 1) / 2)
        :: right.map Prod.snd := by
    have hset : (ofParts left child right).children.set left.length (child.low ((order - 1) / 2))
        = (left.map Prod.fst ++ [child.low ((order - 1) / 2)]) ++ right.map Prod.snd := by
      rw [ofParts, set_append_cons (by simp), List.append_assoc, List.singleton_append]
    rw [hset, insertIdx_append (by simp), List.append_assoc, List.singleton_append]
  rw [splitChild, get_children_ofParts, ok_bind, get_of_getElem? h.key_eq, ok_bind,
    get_of_getElem? h.value_eq, ok_bind]
  change Except.ok (Node.mk _ _ (((ofParts left child right).children.set left.length
    (child.low ((order - 1) / 2))).insertIdx (left.length + 1) (child.high ((order - 1) / 2))) _) = _
  rw [hkeys, hvalues, hchildren]
  rfl

/-! ### Bounds on the number of keys -/

/-- No node has more than `order - 1` keys, and below the top none has fewer than half of
`order - 2`. -/
def Sized (order : Nat) : Nat → Node κ ν → Prop
  | 0, node => node.keys.length ≤ order - 1
  | n + 1, node => node.keys.length ≤ order - 1
      ∧ ∀ child ∈ node.children, (order - 2) / 2 ≤ child.keys.length ∧ Sized order n child

variable {order : Nat}

theorem Sized.le (h : Sized order n node) : node.keys.length ≤ order - 1 := by
  cases n with
  | zero => exact h
  | succ n => exact h.1

theorem sized_ofParts_iff {left : List (Node κ ν × κ × ν)} {right : List ((κ × ν) × Node κ ν)} :
    Sized order (n + 1) (ofParts left child right) ↔ left.length + right.length ≤ order - 1
      ∧ (∀ part ∈ left, (order - 2) / 2 ≤ part.1.keys.length ∧ Sized order n part.1)
      ∧ ((order - 2) / 2 ≤ child.keys.length ∧ Sized order n child)
      ∧ ∀ part ∈ right, (order - 2) / 2 ≤ part.2.keys.length ∧ Sized order n part.2 := by
  simp only [Sized, ofParts, List.length_append, List.length_map, List.mem_append, List.mem_map,
    List.mem_cons]
  apply and_congr_right
  intro _
  constructor
  · intro h
    exact ⟨fun part hmem => h part.1 (.inl ⟨part, hmem, rfl⟩), h child (.inr (.inl rfl)),
      fun part hmem => h part.2 (.inr (.inr ⟨part, hmem, rfl⟩))⟩
  · rintro ⟨hleft, hchild, hright⟩ node (⟨part, hmem, rfl⟩ | rfl | ⟨part, hmem, rfl⟩)
    · exact hleft part hmem
    · exact hchild
    · exact hright part hmem

theorem Sized.of_subset {other : Node κ ν} (h : Sized order n node)
    (hlength : other.keys.length ≤ node.keys.length)
    (hsubset : ∀ child ∈ other.children, child ∈ node.children) : Sized order n other := by
  cases n with
  | zero => exact le_trans hlength h
  | succ n => exact ⟨le_trans hlength h.1, fun child hmem => h.2 child (hsubset child hmem)⟩

theorem Sized.low (h : Sized order n child) (mid : Nat) : Sized order n (child.low mid) := by
  apply h.of_subset
  · simp [Node.low]
  · intro node hmem
    simp only [Node.low] at hmem
    split at hmem
    · exact hmem
    · exact List.mem_of_mem_take hmem

theorem Sized.high (h : Sized order n child) (mid : Nat) : Sized order n (child.high mid) := by
  apply h.of_subset
  · simp [Node.high]
  · intro node hmem
    simp only [Node.high] at hmem
    split at hmem
    · cases hmem
    · exact List.mem_of_mem_drop hmem

theorem length_keys_ofParts (left : List (Node κ ν × κ × ν)) (child : Node κ ν)
    (right : List ((κ × ν) × Node κ ν)) :
    (ofParts left child right).keys.length = left.length + right.length := by
  simp [ofParts]

/-- The two halves of a full child have enough keys and room for one more. -/
theorem length_halves (horder : 3 ≤ order) (hfull : child.keys.length = order - 1) :
    (order - 2) / 2 ≤ (child.low ((order - 1) / 2)).keys.length
      ∧ (child.low ((order - 1) / 2)).keys.length < order - 1
      ∧ (order - 2) / 2 ≤ (child.high ((order - 1) / 2)).keys.length
      ∧ (child.high ((order - 1) / 2)).keys.length < order - 1 := by
  simp only [Node.low, Node.high, List.length_take, List.length_drop, hfull]
  omega

/-- A root with room for one more key. -/
theorem exists_splitRootIfFull {root : Node κ ν} (horder : 3 ≤ order) (h : Balanced n root) :
    ∃ m top, splitRootIfFull order root = .ok top ∧ Balanced m top ∧ top.inOrder = root.inOrder
      ∧ (Sized order n root → Sized order m top ∧ top.keys.length < order - 1) := by
  by_cases hfull : root.keys.length = order - 1
  · obtain ⟨pair, hcut⟩ := h.exists_cut (show (order - 1) / 2 < root.keys.length by omega)
    obtain ⟨hlowLe, -, hhighLe, -⟩ := length_halves horder hfull
    have hsplit : splitRootIfFull order root = .ok (ofParts [] (root.low ((order - 1) / 2))
        [(pair, root.high ((order - 1) / 2))]) := by
      have hnew : splitChild order (ofParts [] root []) ([] : List (Node κ ν × κ × ν)).length
          = .ok (ofParts [] (root.low ((order - 1) / 2)) [(pair, root.high ((order - 1) / 2))]) :=
        splitChild_ofParts order hcut
      rw [splitRootIfFull, if_pos hfull]
      exact hnew
    refine ⟨n + 1, _, hsplit, ?_, ?_, ?_⟩
    · rw [balanced_ofParts_iff]
      refine ⟨by simp, hcut.low, ?_⟩
      intro part hmem
      rw [List.mem_singleton.mp hmem]
      exact hcut.high
    · rw [inOrder_ofParts, ← hcut.walk]
      simp [before, after]
    · intro hsized
      rw [sized_ofParts_iff, length_keys_ofParts]
      refine ⟨⟨?_, by simp, ⟨hlowLe, hsized.low _⟩, ?_⟩, ?_⟩
      · simp only [List.length_nil, List.length_singleton]
        omega
      · intro part hmem
        rw [List.mem_singleton.mp hmem]
        exact ⟨hhighLe, hsized.high _⟩
      · simp only [List.length_nil, List.length_singleton]
        omega
  · refine ⟨n, root, ?_, h, rfl, ?_⟩
    · rw [splitRootIfFull, if_neg hfull]
      rfl
    · intro hsized
      have hle := hsized.le
      exact ⟨hsized, by omega⟩

/-! ### Every node of a tree -/

/-- A node below another one. -/
inductive Node.Under : Node κ ν → Node κ ν → Prop
  | child {node child : Node κ ν} (h : child ∈ node.children) : Under child node
  | step {node child lower : Node κ ν} (h : child ∈ node.children) (hlower : Under lower child) :
      Under lower node

/-- The walk through a child is part of the walk through the node. -/
theorem Balanced.sublist_child (h : Balanced n node) (hchild : child ∈ node.children) :
    ∃ m, n = m + 1 ∧ Balanced m child ∧ child.inOrder.Sublist node.inOrder := by
  cases n with
  | zero =>
      rw [h.2.1] at hchild
      cases hchild
  | succ m =>
      refine ⟨m, rfl, h.2.2.2 child hchild, ?_⟩
      rw [inOrder_of_inner h.1]
      exact sublist_interleave (List.mem_map_of_mem hchild) _

/-- The keys of a node are part of the walk. -/
theorem Balanced.sublist_keys (h : Balanced n node) :
    node.keys.Sublist (node.inOrder.map Prod.fst) := by
  have hlength : node.values.length = node.keys.length := by
    cases n with
    | zero => exact h.2.2
    | succ n => exact h.2.2.1
  have hpairs : (node.keys.zip node.values).Sublist node.inOrder := by
    cases hleaf : node.isLeaf with
    | true => rw [inOrder_of_leaf hleaf]
    | false =>
        rw [inOrder_of_inner hleaf]
        exact separators_sublist _ _
  have hkeys := hpairs.map Prod.fst
  rwa [List.map_fst_zip (by omega)] at hkeys

/-! ### Merging -/

/-- What `mergeChildren` makes of two neighbours and the pair between them. -/
def Node.join (child : Node κ ν) (pair : κ × ν) (sibling : Node κ ν) : Node κ ν :=
  { child with
    keys := child.keys ++ pair.1 :: sibling.keys
    values := child.values ++ pair.2 :: sibling.values
    children := if child.isLeaf then child.children else child.children ++ sibling.children }

/-- The last part of a node. -/
theorem Balanced.exists_last (h : Balanced (n + 1) node) :
    ∃ left child, node = ofParts left child [] := by
  obtain ⟨left, child, right, rfl, hlength⟩ := h.exists_parts (le_refl _)
  cases right with
  | nil => exact ⟨left, child, rfl⟩
  | cons part right => simp [ofParts] at hlength

/-- The first part of a node. -/
theorem Balanced.exists_first (h : Balanced (n + 1) node) :
    ∃ child right, node = ofParts [] child right := by
  obtain ⟨left, child, right, rfl, hlength⟩ := h.exists_parts (Nat.zero_le _)
  rw [List.length_eq_zero_iff] at hlength
  subst hlength
  exact ⟨child, right, rfl⟩

theorem join_ofParts (left : List (Node κ ν × κ × ν)) (last : Node κ ν) (pair : κ × ν)
    (first : Node κ ν) (right : List ((κ × ν) × Node κ ν)) :
    (ofParts left last []).join pair (ofParts [] first right)
      = ofParts (left ++ [(last, pair)]) first right := by
  simp [Node.join, ofParts]

theorem Balanced.join {sibling : Node κ ν} (h : Balanced n child) (pair : κ × ν)
    (hsibling : Balanced n sibling) : Balanced n (child.join pair sibling)
      ∧ (child.join pair sibling).inOrder = child.inOrder ++ pair :: sibling.inOrder := by
  cases n with
  | zero =>
      obtain ⟨pairs, rfl⟩ := h.exists_pairs
      obtain ⟨others, rfl⟩ := hsibling.exists_pairs
      have hjoin : (ofPairs pairs).join pair (ofPairs others) = ofPairs (pairs ++ pair :: others) := by
        simp [Node.join, ofPairs]
      rw [hjoin, inOrder_ofPairs, inOrder_ofPairs, inOrder_ofPairs]
      exact ⟨balanced_ofPairs _, rfl⟩
  | succ n =>
      obtain ⟨left, last, rfl⟩ := h.exists_last
      obtain ⟨first, right, rfl⟩ := hsibling.exists_first
      obtain ⟨hleft, hlast, -⟩ := balanced_ofParts_iff.mp h
      obtain ⟨-, hfirst, hright⟩ := balanced_ofParts_iff.mp hsibling
      rw [join_ofParts]
      constructor
      · rw [balanced_ofParts_iff]
        refine ⟨?_, hfirst, hright⟩
        intro part hmem
        rcases List.mem_append.mp hmem with hmem | hmem
        · exact hleft part hmem
        · rw [List.mem_singleton.mp hmem]
          exact hlast
      · simp [before, after]

theorem mergeChildren_ofParts (left : List (Node κ ν × κ × ν)) (child : Node κ ν) (pair : κ × ν)
    (sibling : Node κ ν) (right : List ((κ × ν) × Node κ ν)) :
    mergeChildren (ofParts left child ((pair, sibling) :: right)) left.length
      = .ok (ofParts left (child.join pair sibling) right) := by
  have hkeys : (ofParts left child ((pair, sibling) :: right)).keys.eraseIdx left.length
      = left.map (fun part => part.2.1) ++ right.map (fun part => part.1.1) :=
    eraseIdx_append_cons (by simp)
  have hvalues : (ofParts left child ((pair, sibling) :: right)).values.eraseIdx left.length
      = left.map (fun part => part.2.2) ++ right.map (fun part => part.1.2) :=
    eraseIdx_append_cons (by simp)
  have hchildren : ((ofParts left child ((pair, sibling) :: right)).children.set left.length
        (child.join pair sibling)).eraseIdx (left.length + 1)
      = left.map Prod.fst ++ child.join pair sibling :: right.map Prod.snd := by
    have hset : (ofParts left child ((pair, sibling) :: right)).children.set left.length
          (child.join pair sibling)
        = (left.map Prod.fst ++ [child.join pair sibling]) ++ sibling :: right.map Prod.snd := by
      rw [ofParts, set_append_cons (by simp), List.append_assoc, List.singleton_append]
      rfl
    rw [hset, eraseIdx_append_cons (by simp), List.append_assoc, List.singleton_append]
  rw [mergeChildren, get_children_ofParts, ok_bind, get_sibling_ofParts, ok_bind, get_keys_ofParts,
    ok_bind, get_values_ofParts, ok_bind]
  change Except.ok (Node.mk _ _ (((ofParts left child ((pair, sibling) :: right)).children.set
    left.length (child.join pair sibling)).eraseIdx (left.length + 1)) _) = _
  rw [hkeys, hvalues, hchildren]
  rfl

/-! ### Borrowing from the left -/

/-- What `borrowFromPrev` leaves of the sibling. -/
def Node.withoutLast (sibling : Node κ ν) (isLeaf : Bool) : Node κ ν :=
  { sibling with
    keys := sibling.keys.dropLast
    values := sibling.values.dropLast
    children := if isLeaf then sibling.children else sibling.children.dropLast }

/-- What `borrowFromPrev` makes of the child. -/
def Node.prepend (child : Node κ ν) (pair : κ × ν) (moved : List (Node κ ν)) : Node κ ν :=
  { child with
    keys := pair.1 :: child.keys
    values := pair.2 :: child.values
    children := moved ++ child.children }

/-- The last pair of the sibling goes up and its last child over. -/
structure LendsLast (n : Nat) (sibling : Node κ ν) (pair : κ × ν) (child : Node κ ν) (last : κ × ν)
    (moved : List (Node κ ν)) : Prop where
  key_eq : back sibling.keys = .ok last.1
  value_eq : back sibling.values = .ok last.2
  moved_eq : movedChild child.isLeaf (back sibling.children) = .ok moved
  sibling_balanced : Balanced n (sibling.withoutLast child.isLeaf)
  child_balanced : Balanced n (child.prepend pair moved)
  walk : (sibling.withoutLast child.isLeaf).inOrder ++ last :: (child.prepend pair moved).inOrder
    = sibling.inOrder ++ pair :: child.inOrder
  subset : ∀ other ∈ (sibling.withoutLast child.isLeaf).inOrder ++ [last], other ∈ sibling.inOrder

theorem exists_concat {items : List α} (h : items ≠ []) : ∃ start last, items = start ++ [last] :=
  ⟨_, _, (List.dropLast_append_getLast h).symm⟩

theorem Balanced.exists_lendsLast {sibling : Node κ ν} (h : Balanced n sibling)
    (hne : sibling.keys ≠ []) (pair : κ × ν) (hchild : Balanced n child) :
    ∃ last moved, LendsLast n sibling pair child last moved := by
  cases n with
  | zero =>
      obtain ⟨pairs, rfl⟩ := h.exists_pairs
      obtain ⟨others, rfl⟩ := hchild.exists_pairs
      have hpairs : pairs ≠ [] := fun heq => hne (by rw [heq]; rfl)
      obtain ⟨start, last, rfl⟩ := exists_concat hpairs
      have hsibling : (ofPairs (start ++ [last])).withoutLast true = ofPairs start := by
        simp [Node.withoutLast, ofPairs]
      have hprepend : (ofPairs others).prepend pair [] = ofPairs (pair :: others) := by
        simp [Node.prepend, ofPairs]
      refine ⟨last, [], by simp [ofPairs, back], by simp [ofPairs, back], rfl, ?_, ?_, ?_, ?_⟩
      · exact hsibling ▸ balanced_ofPairs start
      · exact hprepend ▸ balanced_ofPairs (pair :: others)
      · change ((ofPairs (start ++ [last])).withoutLast true).inOrder ++ _ = _
        rw [hsibling, hprepend, inOrder_ofPairs, inOrder_ofPairs, inOrder_ofPairs, inOrder_ofPairs,
          List.append_assoc, List.singleton_append]
      · intro other hmem
        change other ∈ ((ofPairs (start ++ [last])).withoutLast true).inOrder ++ [last] at hmem
        rw [hsibling, inOrder_ofPairs] at hmem
        rwa [inOrder_ofPairs]
  | succ n =>
      obtain ⟨left, moved, rfl⟩ := h.exists_last
      obtain ⟨first, right, rfl⟩ := hchild.exists_first
      have hleft : left ≠ [] := fun heq => hne (by rw [heq]; rfl)
      obtain ⟨start, part, rfl⟩ := exists_concat hleft
      obtain ⟨hleftBalanced, hmoved, -⟩ := balanced_ofParts_iff.mp h
      obtain ⟨-, hfirst, hright⟩ := balanced_ofParts_iff.mp hchild
      have hsibling : (ofParts (start ++ [part]) moved []).withoutLast false
          = ofParts start part.1 [] := by
        simp [Node.withoutLast, ofParts]
      have hprepend : (ofParts [] first right).prepend pair [moved]
          = ofParts [] moved ((pair, first) :: right) := by
        simp [Node.prepend, ofParts]
      refine ⟨part.2, [moved], by simp [ofParts, back], by simp [ofParts, back], ?_, ?_, ?_, ?_, ?_⟩
      · have hback : back (ofParts (start ++ [part]) moved []).children = .ok moved := by
          simp [ofParts, back]
        rw [hback]
        rfl
      · change Balanced (n + 1) ((ofParts (start ++ [part]) moved []).withoutLast false)
        rw [hsibling, balanced_ofParts_iff]
        exact ⟨fun other hmem => hleftBalanced other (List.mem_append_left _ hmem),
          hleftBalanced part (by simp), by simp⟩
      · rw [hprepend, balanced_ofParts_iff]
        refine ⟨by simp, hmoved, ?_⟩
        intro other hmem
        rcases List.mem_cons.mp hmem with rfl | hmem
        · exact hfirst
        · exact hright other hmem
      · change ((ofParts (start ++ [part]) moved []).withoutLast false).inOrder ++ _ = _
        simp [hsibling, hprepend, before, after]
      · intro other hmem
        change other ∈ ((ofParts (start ++ [part]) moved []).withoutLast false).inOrder ++ [part.2]
          at hmem
        rw [hsibling, inOrder_ofParts] at hmem
        rw [inOrder_ofParts, before_concat]
        simp [after] at hmem ⊢
        tauto

theorem borrowFromPrev_ofParts {left : List (Node κ ν × κ × ν)} {sibling : Node κ ν}
    {pair last : κ × ν} {right : List ((κ × ν) × Node κ ν)} {moved : List (Node κ ν)}
    (h : LendsLast n sibling pair child last moved) :
    borrowFromPrev (ofParts (left ++ [(sibling, pair)]) child right) (left.length + 1)
      = .ok (ofParts (left ++ [(sibling.withoutLast child.isLeaf, last)])
        (child.prepend pair moved) right) := by
  have hchild : get (ofParts (left ++ [(sibling, pair)]) child right).children (left.length + 1)
      = .ok child :=
    get_append_cons (by simp)
  have hsibling : get (ofParts (left ++ [(sibling, pair)]) child right).children left.length
      = .ok sibling := by
    simp [get, ofParts]
  have hkey : get (ofParts (left ++ [(sibling, pair)]) child right).keys left.length
      = .ok pair.1 := by
    simp [get, ofParts]
  have hvalue : get (ofParts (left ++ [(sibling, pair)]) child right).values left.length
      = .ok pair.2 := by
    simp [get, ofParts]
  rw [borrowFromPrev, Nat.add_sub_cancel, hchild, ok_bind, hsibling, ok_bind, hkey, ok_bind, hvalue,
    ok_bind]
  dsimp only
  rw [h.moved_eq, ok_bind, h.key_eq, ok_bind, h.value_eq, ok_bind]
  simp [ofParts, Node.withoutLast, Node.prepend]

/-! ### Borrowing from the right -/

/-- What `borrowFromNext` leaves of the sibling. -/
def Node.withoutFirst (sibling : Node κ ν) (isLeaf : Bool) : Node κ ν :=
  { sibling with
    keys := sibling.keys.tail
    values := sibling.values.tail
    children := if isLeaf then sibling.children else sibling.children.tail }

/-- What `borrowFromNext` makes of the child. -/
def Node.append (child : Node κ ν) (pair : κ × ν) (moved : List (Node κ ν)) : Node κ ν :=
  { child with
    keys := child.keys ++ [pair.1]
    values := child.values ++ [pair.2]
    children := child.children ++ moved }

/-- The first pair of the sibling goes up and its first child over. -/
structure LendsFirst (n : Nat) (child : Node κ ν) (pair : κ × ν) (sibling : Node κ ν) (first : κ × ν)
    (moved : List (Node κ ν)) : Prop where
  key_eq : get sibling.keys 0 = .ok first.1
  value_eq : get sibling.values 0 = .ok first.2
  moved_eq : movedChild child.isLeaf (get sibling.children 0) = .ok moved
  moved_ne : child.isLeaf = false → moved ≠ []
  child_balanced : Balanced n (child.append pair moved)
  sibling_balanced : Balanced n (sibling.withoutFirst child.isLeaf)
  walk : (child.append pair moved).inOrder ++ first :: (sibling.withoutFirst child.isLeaf).inOrder
    = child.inOrder ++ pair :: sibling.inOrder
  subset : ∀ other ∈ first :: (sibling.withoutFirst child.isLeaf).inOrder, other ∈ sibling.inOrder

theorem Balanced.exists_lendsFirst {sibling : Node κ ν} (hchild : Balanced n child) (pair : κ × ν)
    (h : Balanced n sibling) (hne : sibling.keys ≠ []) :
    ∃ first moved, LendsFirst n child pair sibling first moved := by
  cases n with
  | zero =>
      obtain ⟨others, rfl⟩ := hchild.exists_pairs
      obtain ⟨pairs, rfl⟩ := h.exists_pairs
      cases pairs with
      | nil => exact absurd rfl hne
      | cons first rest =>
          have hsibling : (ofPairs (first :: rest)).withoutFirst true = ofPairs rest := rfl
          have happend : (ofPairs others).append pair [] = ofPairs (others ++ [pair]) := by
            simp [Node.append, ofPairs]
          refine ⟨first, [], rfl, rfl, rfl, (fun hleaf => by cases hleaf), ?_, ?_, ?_, ?_⟩
          · exact happend ▸ balanced_ofPairs (others ++ [pair])
          · exact hsibling ▸ balanced_ofPairs rest
          · change _ ++ first :: ((ofPairs (first :: rest)).withoutFirst true).inOrder = _
            rw [hsibling, happend, inOrder_ofPairs, inOrder_ofPairs, inOrder_ofPairs, inOrder_ofPairs,
              List.append_assoc, List.singleton_append]
          · intro other hmem
            change other ∈ first :: ((ofPairs (first :: rest)).withoutFirst true).inOrder at hmem
            rw [hsibling, inOrder_ofPairs] at hmem
            rwa [inOrder_ofPairs]
  | succ n =>
      obtain ⟨left, last, rfl⟩ := hchild.exists_last
      obtain ⟨moved, right, rfl⟩ := h.exists_first
      obtain ⟨hleft, hlast, -⟩ := balanced_ofParts_iff.mp hchild
      obtain ⟨-, hmoved, hrightBalanced⟩ := balanced_ofParts_iff.mp h
      cases right with
      | nil => exact absurd rfl hne
      | cons part right =>
          have hsibling : (ofParts [] moved (part :: right)).withoutFirst false
              = ofParts [] part.2 right := rfl
          have happend : (ofParts left last []).append pair [moved]
              = ofParts (left ++ [(last, pair)]) moved [] := by
            simp [Node.append, ofParts]
          refine ⟨part.1, [moved], rfl, rfl, rfl, fun _ => List.cons_ne_nil _ _, ?_, ?_, ?_, ?_⟩
          · rw [happend, balanced_ofParts_iff]
            refine ⟨?_, hmoved, by simp⟩
            intro other hmem
            rcases List.mem_append.mp hmem with hmem | hmem
            · exact hleft other hmem
            · rw [List.mem_singleton.mp hmem]
              exact hlast
          · change Balanced (n + 1) ((ofParts [] moved (part :: right)).withoutFirst false)
            rw [hsibling, balanced_ofParts_iff]
            exact ⟨by simp, hrightBalanced part List.mem_cons_self,
              fun other hmem => hrightBalanced other (List.mem_cons_of_mem _ hmem)⟩
          · change _ ++ part.1 :: ((ofParts [] moved (part :: right)).withoutFirst false).inOrder = _
            simp [hsibling, happend, before, after]
          · intro other hmem
            change other ∈ part.1 :: ((ofParts [] moved (part :: right)).withoutFirst false).inOrder
              at hmem
            rw [hsibling, inOrder_ofParts] at hmem
            rw [inOrder_ofParts, after_cons]
            simp [before] at hmem ⊢
            tauto

theorem borrowFromNext_ofParts {left : List (Node κ ν × κ × ν)} {sibling : Node κ ν}
    {pair first : κ × ν} {right : List ((κ × ν) × Node κ ν)} {moved : List (Node κ ν)}
    (h : LendsFirst n child pair sibling first moved) :
    borrowFromNext (ofParts left child ((pair, sibling) :: right)) left.length
      = .ok (ofParts left (child.append pair moved)
        ((first, sibling.withoutFirst child.isLeaf) :: right)) := by
  rw [borrowFromNext, get_children_ofParts, ok_bind, get_sibling_ofParts, ok_bind, get_keys_ofParts,
    ok_bind, get_values_ofParts, ok_bind]
  dsimp only
  rw [h.moved_eq, ok_bind, h.key_eq, ok_bind, h.value_eq, ok_bind]
  simp [ofParts, Node.withoutFirst, Node.append]

/-! ### Both ends of a removal -/

/-- A root without keys has one child, and the same walk. -/
theorem exists_collapseRoot (h : Balanced n node) :
    ∃ m top, collapseRoot node = .ok top ∧ Balanced m top ∧ top.inOrder = node.inOrder := by
  by_cases hempty : (node.keys.isEmpty && !node.isLeaf) = true
  · obtain ⟨hkeys, hleaf⟩ := Bool.and_eq_true_iff.mp hempty
    cases n with
    | zero => simp [h.1] at hleaf
    | succ n =>
        obtain ⟨first, right, rfl⟩ := h.exists_first
        have hright : right = [] := by
          simpa [ofParts] using hkeys
        subst hright
        refine ⟨n, first, ?_, (balanced_ofParts_iff.mp h).2.1, ?_⟩
        · rw [collapseRoot, if_pos hempty]
          rfl
        · simp [before, after]
  · refine ⟨n, node, ?_, h, rfl⟩
    rw [collapseRoot, if_neg hempty]
    rfl

theorem exists_of_back {α : Type} {items : List α} {item : α} (h : back items = .ok item) :
    ∃ start, items = start ++ [item] := by
  rcases List.eq_nil_or_concat items with rfl | ⟨start, last, rfl⟩
  · cases h
  · rw [List.concat_eq_append] at h ⊢
    rw [back_concat] at h
    cases h
    exact ⟨start, rfl⟩

/-- The predecessor of the key behind a child ends the walk through it. -/
theorem exists_of_lastKey {pred : κ} (h : Balanced n node) (hlast : lastKey (n + 1) node = .ok pred) :
    ∃ start value, node.inOrder = start ++ [(pred, value)] := by
  induction n generalizing node with
  | zero =>
      obtain ⟨pairs, rfl⟩ := h.exists_pairs
      have hleaf : (ofPairs pairs).isLeaf = true := rfl
      rw [lastKey, if_pos hleaf] at hlast
      obtain ⟨start, hkeys⟩ := exists_of_back hlast
      obtain ⟨first, rest, rfl, hfirst, hrest⟩ := List.map_eq_append_iff.mp hkeys
      obtain ⟨pair, rfl, rfl⟩ := List.map_eq_singleton_iff.mp hrest
      exact ⟨first, pair.2, inOrder_ofPairs _⟩
  | succ n ih =>
      obtain ⟨left, last, rfl⟩ := h.exists_last
      have hback : back (ofParts left last []).children = .ok last := by
        simp [ofParts, back]
      have hleaf : ¬ (ofParts left last []).isLeaf = true := Bool.false_ne_true
      rw [lastKey, if_neg hleaf, hback, ok_bind] at hlast
      obtain ⟨start, value, hwalk⟩ := ih (balanced_ofParts_iff.mp h).2.1 hlast
      refine ⟨before left ++ start, value, ?_⟩
      rw [inOrder_ofParts, hwalk]
      simp [after]

end BTree

end NebulaFS
