import NebulaFS.Proof.BTreeFill

/-!
# Removing a key

On a safe way both trees take exactly the pair of the key out of the walk. They meet the key in a leaf;
or, in the tree of the file system, in an inner node, where the last pair of the child replaces it and
is removed in turn. The induction is on the height of the node.
-/

namespace NebulaFS

open SortedWalk

namespace BTree

variable {κ ν : Type} [LinearOrder κ] {node child : Node κ ν} {n : Nat} {key : κ}
  {left : List (Node κ ν × κ × ν)} {right : List ((κ × ν) × Node κ ν)}

/-- What a removal makes of a node. -/
structure Removes (n : Nat) (node : Node κ ν) (key : κ) (after : Node κ ν) (removed : Bool) : Prop where
  balanced : Balanced n after
  walk : after.inOrder = withoutKey key node.inOrder
  removed_iff : removed = true ↔ key ∈ node.inOrder.map Prod.fst

/-! ### Leaves -/

/-- What a removal makes of a leaf. -/
def Node.erase (node : Node κ ν) (key : κ) : Node κ ν × Bool :=
  let i := scan node.keys key
  if node.keys[i]? = some key then
    ({ node with keys := node.keys.eraseIdx i, values := node.values.eraseIdx i }, true)
  else (node, false)

theorem Index.removeInternal_of_leaf (order fuel : Nat) (key : κ) (hleaf : node.isLeaf = true) :
    Index.removeInternal order (fuel + 1) key node = .ok (node.erase key) := by
  simp only [Index.removeInternal, Node.erase, hleaf, if_true]
  split
  · rfl
  · rfl

theorem Filesystem.removeInternal_of_leaf (order fuel : Nat) (key : κ) (hleaf : node.isLeaf = true) :
    Filesystem.removeInternal order (fuel + 1) key node = .ok (node.erase key) := by
  simp only [Filesystem.removeInternal, Node.erase, hleaf, if_true]
  split
  · rfl
  · rfl

theorem removes_erase {pairs : List (κ × ν)} (hsorted : pairs.Pairwise ByKeyStrict) (key : κ) :
    Removes 0 (ofPairs pairs) key ((ofPairs pairs).erase key).1 ((ofPairs pairs).erase key).2 := by
  obtain ⟨first, last, rfl, hslice⟩ := exists_slice (pairwise_byKey hsorted) key
  rw [Node.erase, hslice.key_eq, hslice.scan_eq]
  by_cases hhit : last.head?.map Prod.fst = some key
  · cases last with
    | nil => cases hhit
    | cons pair last =>
        have hkey : pair.1 = key := Option.some.inj hhit
        subst hkey
        have herase : { ofPairs (first ++ pair :: last) with
              keys := (ofPairs (first ++ pair :: last)).keys.eraseIdx first.length
              values := (ofPairs (first ++ pair :: last)).values.eraseIdx first.length }
            = ofPairs (first ++ last) := by
          simp [ofPairs, eraseIdx_append_cons]
        rw [if_pos hhit]
        dsimp only
        rw [herase]
        refine ⟨balanced_ofPairs _, ?_, ?_⟩
        · rw [inOrder_ofPairs, inOrder_ofPairs, withoutKey_append_cons hsorted]
        · simp
  · have habsent := hslice.ne_of_miss (pairwise_byKey hsorted) hhit
    rw [if_neg hhit]
    refine ⟨balanced_ofPairs _, ?_, ?_⟩
    · rw [inOrder_ofPairs, withoutKey_eq_self habsent]
    · rw [inOrder_ofPairs]
      refine iff_of_false Bool.false_ne_true ?_
      intro hmem
      obtain ⟨pair, hpair, heq⟩ := List.mem_map.mp hmem
      exact habsent pair hpair heq

/-! ### Going on with a child -/

/-- Without a hit the pairs beside the child are of other keys. -/
theorem Routes.beside (h : Routes key left right)
    (hsorted : (ofParts left child right).inOrder.Pairwise ByKeyStrict)
    (hmiss : ∀ part ∈ right.head?, part.1.1 ≠ key) :
    (∀ pair ∈ before left, pair.1 < key) ∧ ∀ pair ∈ after right, key < pair.1 := by
  obtain ⟨hbefore, -⟩ := h.bounds (pairwise_byKey hsorted)
  refine ⟨hbefore, ?_⟩
  intro pair hmem
  cases right with
  | nil => cases hmem
  | cons part right =>
      have hlt : key < part.1.1 := lt_of_le_of_ne (h.2 part rfl) (hmiss part rfl).symm
      rw [inOrder_ofParts] at hsorted
      have hlast := (List.pairwise_append.mp hsorted).2.1
      rw [after_cons] at hlast hmem
      rcases List.mem_cons.mp hmem with rfl | hmem
      · exact hlt
      · exact lt_trans hlt ((List.pairwise_cons.mp hlast).1 pair hmem)

theorem removes_child {removed : Bool} {first : List (Node κ ν × κ × ν)} {filled after : Node κ ν}
    {last : List ((κ × ν) × Node κ ν)} (hfills : Fills n left child right first filled last)
    (hbefore : ∀ pair ∈ before left, pair.1 < key) (hafter : ∀ pair ∈ BTree.after right, key < pair.1)
    (h : Removes n filled key after removed) :
    Removes (n + 1) (ofParts left child right) key (ofParts first after last) removed := by
  obtain ⟨hfirst, -, hlast⟩ := balanced_ofParts_iff.mp hfills.balanced
  have hneBefore : ∀ pair ∈ before first, pair.1 ≠ key :=
    fun pair hmem => ne_of_lt (hbefore pair (hfills.before_subset pair hmem))
  have hneAfter : ∀ pair ∈ BTree.after last, pair.1 ≠ key :=
    fun pair hmem => ne_of_gt (hafter pair (hfills.after_subset pair hmem))
  refine ⟨balanced_ofParts_iff.mpr ⟨hfirst, h.balanced, hlast⟩, ?_, ?_⟩
  · rw [← hfills.walk, inOrder_ofParts, inOrder_ofParts, h.walk, withoutKey_between _ hneBefore hneAfter]
  · rw [← hfills.walk, inOrder_ofParts, mem_keys_between hneBefore hneAfter]
    exact h.removed_iff

/-! ### The index -/

/-- Behind the fill the key at the index is still larger, so that the second comparison of the index
changes nothing. -/
theorem Index.removeInternal_ofParts {order fuel : Nat} (hroutes : Routes key left right)
    (hmiss : ∀ part ∈ right.head?, part.1.1 ≠ key) {first : List (Node κ ν × κ × ν)}
    {filled after : Node κ ν} {last : List ((κ × ν) × Node κ ν)} {removed : Bool}
    (hfill : fillWith ((order - 1) / 2 < ·) (ofParts left child right) left.length
      = .ok (ofParts first filled last))
    (hlength : first.length = left.length) (hlast : ∀ pair ∈ BTree.after last, key < pair.1)
    (hremove : Index.removeInternal order fuel key filled = .ok (after, removed)) :
    Index.removeInternal order (fuel + 1) key (ofParts left child right)
      = .ok (ofParts first after last, removed) := by
  have hkey : ¬ (right.head?.map fun part => part.1.1) = some key := by
    intro hhit
    obtain ⟨part, hpart, heq⟩ := Option.map_eq_some_iff.mp hhit
    exact hmiss part hpart heq
  have hstay : ¬ ((ofParts first filled last).keys[first.length]?.any (· < key)) = true := by
    cases last with
    | nil => simp [ofParts]
    | cons part last =>
        have hlt : key < part.1.1 := hlast part.1 (by simp [after_cons])
        simp [ofParts, le_of_lt hlt]
  have hleaf : ¬ (ofParts left child right).isLeaf = true := Bool.false_ne_true
  rw [Index.removeInternal, hroutes.key_eq, hroutes.scan_eq, if_neg hkey, if_neg hleaf,
    Index.fillChild_eq, hfill, ok_bind, ← hlength, get_children_ofParts, ok_bind, if_neg hstay]
  dsimp only
  rw [get_children_ofParts, ok_bind, hremove, ok_bind]
  dsimp only
  rw [setChild_ofParts]
  rfl

/-- **On a safe way the index takes the pair out of the walk.** -/
theorem Index.removes_removeInternal {order : Nat} (h : Balanced n node)
    (hsorted : node.inOrder.Pairwise ByKeyStrict)
    (hsafe : safe ((order - 1) / 2 < ·) false (n + 1) key none false node = true) :
    ∃ after removed, Index.removeInternal order (n + 1) key node = .ok (after, removed)
      ∧ Removes n node key after removed := by
  induction n generalizing node with
  | zero =>
      obtain ⟨pairs, rfl⟩ := h.exists_pairs
      rw [inOrder_ofPairs] at hsorted
      exact ⟨_, _, Index.removeInternal_of_leaf order 0 key rfl, removes_erase hsorted key⟩
  | succ n ih =>
      obtain ⟨left, child, right, rfl, hroutes⟩ := h.exists_routes key
      have hmiss : ∀ part ∈ right.head?, part.1.1 ≠ key := by
        rintro part hmem rfl
        cases right with
        | nil => cases hmem
        | cons head right =>
            cases hmem
            cases (safe_ofParts_of_hit hroutes hsafe).1
      obtain ⟨first, filled, last, hfill, hfills, hfilledSafe⟩ :=
        exists_fills (fun count hcount => by simp at hcount; omega) h hroutes hmiss hsafe
      obtain ⟨hbefore, hafter⟩ := hroutes.beside hsorted hmiss
      have hsortedFilled : filled.inOrder.Pairwise ByKeyStrict := by
        rw [← hfills.walk] at hsorted
        exact pairwise_child hsorted
      obtain ⟨after, removed, hremove, hremoves⟩ :=
        ih (balanced_ofParts_iff.mp hfills.balanced).2.1 hsortedFilled hfilledSafe
      refine ⟨ofParts first after last, removed, ?_, removes_child hfills hbefore hafter hremoves⟩
      exact Index.removeInternal_ofParts hroutes hmiss hfill hfills.length_eq
        (fun pair hmem => hafter pair (hfills.after_subset pair hmem)) hremove

/-! ### The tree of the file system -/

/-- The last pair of the child takes the place of the pair behind it. -/
theorem removes_pred {part : (κ × ν) × Node κ ν} {start : List (κ × ν)} {last : κ × ν}
    {after : Node κ ν} (h : Balanced (n + 1) (ofParts left child (part :: right)))
    (hsorted : (ofParts left child (part :: right)).inOrder.Pairwise ByKeyStrict)
    (hwalk : child.inOrder = start ++ [last]) (hbalanced : Balanced n after)
    (hstart : after.inOrder = start) :
    Removes (n + 1) (ofParts left child (part :: right)) part.1.1
      (ofParts left after ((last, part.2) :: right)) true := by
  obtain ⟨hleft, -, hright⟩ := balanced_ofParts_iff.mp h
  have hnode : (ofParts left child (part :: right)).inOrder
      = (before left ++ (start ++ [last])) ++ part.1 :: (part.2.inOrder ++ BTree.after right) := by
    rw [inOrder_ofParts, after_cons, hwalk]
  rw [hnode] at hsorted
  refine ⟨?_, ?_, ?_⟩
  · rw [balanced_ofParts_iff]
    refine ⟨hleft, hbalanced, ?_⟩
    intro other hmem
    rcases List.mem_cons.mp hmem with rfl | hmem
    · exact hright part List.mem_cons_self
    · exact hright other (List.mem_cons_of_mem _ hmem)
  · rw [hnode, withoutKey_append_cons hsorted, inOrder_ofParts, after_cons, hstart]
    simp
  · rw [hnode]
    simp

theorem Filesystem.removeInternal_ofParts {order fuel : Nat} (hroutes : Routes key left right)
    (hmiss : ∀ part ∈ right.head?, part.1.1 ≠ key) {first : List (Node κ ν × κ × ν)}
    {filled after : Node κ ν} {last : List ((κ × ν) × Node κ ν)} {removed : Bool}
    (hfill : fillWith ((order - 1) / 2 ≤ ·) (ofParts left child right) left.length
      = .ok (ofParts first filled last))
    (hlength : first.length = left.length)
    (hremove : Filesystem.removeInternal order fuel key filled = .ok (after, removed)) :
    Filesystem.removeInternal order (fuel + 1) key (ofParts left child right)
      = .ok (ofParts first after last, removed) := by
  have hkey : ¬ (right.head?.map fun part => part.1.1) = some key := by
    intro hhit
    obtain ⟨part, hpart, heq⟩ := Option.map_eq_some_iff.mp hhit
    exact hmiss part hpart heq
  have hleaf : ¬ (ofParts left child right).isLeaf = true := Bool.false_ne_true
  rw [Filesystem.removeInternal, hroutes.key_eq, hroutes.scan_eq, if_neg hkey, if_neg hleaf,
    Filesystem.fillChild_eq, hfill, ok_bind, ← hlength, get_children_ofParts, ok_bind, hremove, ok_bind]
  dsimp only
  rw [setChild_ofParts]
  rfl

theorem Filesystem.removeInternal_of_hit {order : Nat} {part : (κ × ν) × Node κ ν}
    (hroutes : Routes part.1.1 left (part :: right)) (hchild : Balanced n child)
    (hsorted : child.inOrder.Pairwise ByKeyStrict) {start : List (κ × ν)} {last : κ × ν}
    {after : Node κ ν} {removed : Bool} (hlast : lastKey child.depth child = .ok last.1)
    (hwalk : child.inOrder = start ++ [last])
    (hremove : Filesystem.removeInternal order (n + 1) last.1 child = .ok (after, removed)) :
    Filesystem.removeInternal order (n + 2) part.1.1 (ofParts left child (part :: right))
      = .ok (ofParts left after ((last, part.2) :: right), removed) := by
  obtain ⟨answer, hanswer, hfound⟩ := found_findInternal hchild (pairwise_byKey hsorted) last.1
  have hvalue : answer = some last.2 := by
    cases answer with
    | none =>
        refine absurd ?_ (hfound.absent rfl last.2)
        simp [hwalk]
    | some value =>
        have hmem := hfound.mem value rfl
        rw [hwalk, List.mem_append, List.mem_singleton] at hmem
        rcases hmem with hmem | heq
        · rw [hwalk] at hsorted
          have hlt : last.1 < last.1 :=
            (List.pairwise_append.mp hsorted).2.2 _ hmem last (List.mem_singleton_self _)
          exact absurd hlt (lt_irrefl _)
        · rw [← heq]
  have hpred : getPredecessor (ofParts left child (part :: right)) left.length = .ok last.1 := by
    rw [getPredecessor, get_children_ofParts, ok_bind, hlast]
  have hkey : ((part :: right).head?.map fun part => part.1.1) = some part.1.1 := rfl
  have hleaf : ¬ (ofParts left child (part :: right)).isLeaf = true := Bool.false_ne_true
  have hset : { ofParts left child (part :: right) with
        keys := (ofParts left child (part :: right)).keys.set left.length last.1
        values := (ofParts left child (part :: right)).values.set left.length last.2
        children := (ofParts left child (part :: right)).children.set left.length after }
      = ofParts left after ((last, part.2) :: right) := by
    simp [ofParts]
  rw [Filesystem.removeInternal, hroutes.key_eq, hroutes.scan_eq, if_pos hkey, if_neg hleaf, hpred,
    ok_bind, get_children_ofParts, ok_bind, hchild.depth_eq, hanswer, ok_bind, hvalue]
  dsimp only
  rw [hremove, ok_bind]
  dsimp only
  rw [hset]
  rfl

/-- **On a safe way the tree of the file system takes the pair out of the walk.** -/
theorem Filesystem.removes_removeInternal {order : Nat} (horder : 3 ≤ order) (h : Balanced n node)
    (hsorted : node.inOrder.Pairwise ByKeyStrict)
    (hsafe : safe ((order - 1) / 2 ≤ ·) true (n + 1) key none false node = true) :
    ∃ after removed, Filesystem.removeInternal order (n + 1) key node = .ok (after, removed)
      ∧ Removes n node key after removed := by
  induction n generalizing node key with
  | zero =>
      obtain ⟨pairs, rfl⟩ := h.exists_pairs
      rw [inOrder_ofPairs] at hsorted
      exact ⟨_, _, Filesystem.removeInternal_of_leaf order 0 key rfl, removes_erase hsorted key⟩
  | succ n ih =>
      obtain ⟨left, child, right, rfl, hroutes⟩ := h.exists_routes key
      by_cases hmiss : ∀ part ∈ right.head?, part.1.1 ≠ key
      · have henough : ∀ count, decide ((order - 1) / 2 ≤ count) = true → 0 < count := by
          intro count hcount
          have hle := of_decide_eq_true hcount
          omega
        obtain ⟨first, filled, last, hfill, hfills, hfilledSafe⟩ :=
          exists_fills henough h hroutes hmiss hsafe
        obtain ⟨hbefore, hafter⟩ := hroutes.beside hsorted hmiss
        have hsortedFilled : filled.inOrder.Pairwise ByKeyStrict := by
          rw [← hfills.walk] at hsorted
          exact pairwise_child hsorted
        obtain ⟨after, removed, hremove, hremoves⟩ :=
          ih (balanced_ofParts_iff.mp hfills.balanced).2.1 hsortedFilled hfilledSafe
        refine ⟨ofParts first after last, removed, ?_, removes_child hfills hbefore hafter hremoves⟩
        exact Filesystem.removeInternal_ofParts hroutes hmiss hfill hfills.length_eq hremove
      · push Not at hmiss
        obtain ⟨part, hhead, rfl⟩ := hmiss
        obtain ⟨rest, rfl⟩ : ∃ rest, right = part :: rest := by
          cases right with
          | nil => cases hhead
          | cons head right =>
              cases hhead
              exact ⟨right, rfl⟩
        obtain ⟨-, pred, hlast, hchildSafe⟩ := safe_ofParts_of_hit hroutes hsafe
        have hchild := (balanced_ofParts_iff.mp h).2.1
        have hsortedChild := pairwise_child hsorted
        obtain ⟨start, value, hwalk⟩ := exists_of_lastKey hchild (hchild.depth_eq ▸ hlast)
        obtain ⟨after, removed, hremove, hremoves⟩ := ih hchild hsortedChild hchildSafe
        have hstart : after.inOrder = start := by
          have hpairs : (start ++ (pred, value) :: []).Pairwise ByKeyStrict := hwalk ▸ hsortedChild
          rw [hremoves.walk, hwalk, withoutKey_append_cons hpairs, List.append_nil]
        have hremoved : removed = true := hremoves.removed_iff.mpr (by simp [hwalk])
        subst hremoved
        refine ⟨ofParts left after (((pred, value), part.2) :: rest), true, ?_, ?_⟩
        · exact Filesystem.removeInternal_of_hit hroutes hchild hsortedChild hlast hwalk hremove
        · exact removes_pred h hsorted hwalk hremoves.balanced hstart

/-! ### Whole trees -/

/-- What insertions of new keys and removals keep. -/
structure Ordered (order : Nat) (tree : BTree κ ν) : Prop where
  order_eq : tree.order = order
  balanced : ∃ n, Balanced n tree.root
  sorted : tree.inOrder.Pairwise ByKeyStrict
  size_eq : tree.size = tree.inOrder.length

variable {order : Nat} {tree : BTree κ ν}

theorem ordered_new (order : Nat) : Ordered order ({ order := order } : BTree κ ν) := by
  have hinOrder : ({ order := order } : BTree κ ν).inOrder = [] := inOrder_ofPairs []
  refine ⟨rfl, ⟨0, balanced_ofPairs []⟩, ?_, ?_⟩
  · rw [hinOrder]
    exact List.Pairwise.nil
  · rw [hinOrder]
    rfl

theorem Ordered.insert (horder : 3 ≤ order) (h : Ordered order tree)
    (habsent : key ∉ tree.inOrder.map Prod.fst) (value : ν) :
    ∃ after, tree.insert key value = .ok after ∧ Ordered order after
      ∧ after.inOrder.Perm ((key, value) :: tree.inOrder) := by
  obtain ⟨n, hbalanced⟩ := h.balanced
  obtain ⟨hsorted, hnodup⟩ := pairwise_byKeyStrict_iff.mp h.sorted
  obtain ⟨m, after, hinsert, hextends⟩ :=
    exists_extends (h.order_eq.symm ▸ horder) hbalanced hsorted key value
  have hperm : after.inOrder.Perm ((key, value) :: tree.inOrder) := by
    rw [hextends.walk]
    exact List.perm_orderedInsert _ _ _
  refine ⟨after, hinsert, ⟨hextends.order_eq.trans h.order_eq, ⟨m, hextends.balanced⟩, ?_, ?_⟩, hperm⟩
  · rw [pairwise_byKeyStrict_iff]
    constructor
    · rw [hextends.walk]
      exact hsorted.orderedInsert (key, value) _
    · rw [(hperm.map Prod.fst).nodup_iff, List.map_cons]
      exact List.nodup_cons.mpr ⟨habsent, hnodup⟩
  · rw [hextends.size_eq, hperm.length_eq, h.size_eq, List.length_cons]

theorem Ordered.find (h : Ordered order tree) (key : κ) :
    ∃ answer, tree.find key = .ok answer ∧ tree.contains key = .ok answer.isSome
      ∧ Found key tree.inOrder answer := by
  obtain ⟨n, hbalanced⟩ := h.balanced
  exact exists_find hbalanced (pairwise_byKey h.sorted) key

theorem Ordered.of_removes {after : BTree κ ν} (h : Ordered order tree)
    (horder : after.order = tree.order) (hbalanced : Balanced n after.root)
    (hwalk : after.inOrder = withoutKey key tree.inOrder)
    (hsize : after.size = after.inOrder.length) : Ordered order after := by
  refine ⟨horder.trans h.order_eq, ⟨n, hbalanced⟩, ?_, hsize⟩
  rw [hwalk]
  exact h.sorted.filter _

theorem Index.remove_of_absent (h : Ordered order tree) (habsent : key ∉ tree.inOrder.map Prod.fst) :
    Index.remove tree key = .ok (tree, false) := by
  obtain ⟨answer, -, hcontains, hfound⟩ := h.find key
  have hanswer : answer.isSome = false := by
    rw [← Bool.not_eq_true, hfound.isSome_iff]
    exact habsent
  rw [Index.remove, hcontains, ok_bind, hanswer]
  rfl

theorem Index.exists_remove (h : Ordered order tree) (hmem : key ∈ tree.inOrder.map Prod.fst)
    (hsafe : safe ((order - 1) / 2 < ·) false tree.root.depth key none false tree.root = true) :
    ∃ after, Index.remove tree key = .ok (after, true) ∧ Ordered order after
      ∧ after.size + 1 = tree.size ∧ after.inOrder = withoutKey key tree.inOrder := by
  obtain ⟨n, hbalanced⟩ := h.balanced
  obtain ⟨answer, -, hcontains, hfound⟩ := h.find key
  have hanswer : answer.isSome = true := hfound.isSome_iff.mpr hmem
  rw [hbalanced.depth_eq] at hsafe
  obtain ⟨root, removed, hremove, hremoves⟩ := Index.removes_removeInternal hbalanced h.sorted hsafe
  obtain ⟨m, top, hcollapse, htop, hwalk⟩ := exists_collapseRoot hremoves.balanced
  have hlength := length_withoutKey h.sorted hmem
  have hinOrder : top.inOrder = withoutKey key tree.inOrder := hwalk.trans hremoves.walk
  have hsize : tree.size - 1 = top.inOrder.length := by
    rw [h.size_eq, hinOrder]
    omega
  refine ⟨{ tree with root := top, size := tree.size - 1 }, ?_, ?_, ?_, hinOrder⟩
  · rw [Index.remove, hcontains, ok_bind, hanswer, hbalanced.depth_eq, h.order_eq]
    simp only [Bool.not_true, Bool.false_eq_true, if_false]
    rw [hremove, ok_bind]
    dsimp only
    rw [hcollapse, ok_bind]
    rfl
  · exact h.of_removes rfl htop hinOrder hsize
  · have hsizeEq := h.size_eq
    dsimp only
    omega

theorem Filesystem.exists_remove (horder : 3 ≤ order) (h : Ordered order tree)
    (hsafe : tree.size ≠ 0 →
      safe ((order - 1) / 2 ≤ ·) true tree.root.depth key none false tree.root = true) :
    ∃ after, Filesystem.remove tree key = .ok (after, decide (key ∈ tree.inOrder.map Prod.fst))
      ∧ Ordered order after ∧ after.inOrder = withoutKey key tree.inOrder := by
  by_cases hempty : tree.size = 0
  · have hnil : tree.inOrder = [] := List.eq_nil_of_length_eq_zero (h.size_eq ▸ hempty)
    refine ⟨tree, ?_, h, by rw [hnil]; rfl⟩
    rw [Filesystem.remove, if_pos hempty, hnil]
    rfl
  · obtain ⟨n, hbalanced⟩ := h.balanced
    specialize hsafe hempty
    rw [hbalanced.depth_eq] at hsafe
    obtain ⟨root, removed, hremove, hremoves⟩ :=
      Filesystem.removes_removeInternal horder hbalanced h.sorted hsafe
    have hremove' : Filesystem.removeInternal tree.order tree.root.depth key tree.root
        = .ok (root, removed) := by
      rw [h.order_eq, hbalanced.depth_eq, hremove]
    have hpresent : removed = decide (key ∈ tree.inOrder.map Prod.fst) := by
      rw [Bool.eq_iff_iff, decide_eq_true_iff]
      exact hremoves.removed_iff
    rw [← hpresent, Filesystem.remove, if_neg hempty]
    simp only [hremove', ok_bind]
    cases hremoved : removed with
    | true =>
        obtain ⟨m, top, hcollapse, htop, hwalk⟩ := exists_collapseRoot hremoves.balanced
        have hinOrder : top.inOrder = withoutKey key tree.inOrder := hwalk.trans hremoves.walk
        have hlength := length_withoutKey h.sorted (hremoves.removed_iff.mp hremoved)
        have hsize : tree.size - 1 = top.inOrder.length := by
          rw [h.size_eq, hinOrder]
          omega
        refine ⟨{ tree with root := top, size := tree.size - 1 }, ?_, ?_, hinOrder⟩
        · rw [if_pos rfl, hcollapse, ok_bind]
          rfl
        · exact h.of_removes rfl htop hinOrder hsize
    | false =>
        have habsent : key ∉ tree.inOrder.map Prod.fst := by
          intro hmem
          rw [hremoves.removed_iff.mpr hmem] at hremoved
          cases hremoved
        have hsame : root.inOrder = tree.inOrder := by
          rw [hremoves.walk]
          exact withoutKey_eq_self fun pair hpair heq => habsent (heq ▸ List.mem_map_of_mem hpair)
        have hsize : tree.size = root.inOrder.length := by
          rw [hsame]
          exact h.size_eq
        refine ⟨{ tree with root := root }, rfl, ?_, hremoves.walk⟩
        exact h.of_removes rfl hremoves.balanced hremoves.walk hsize

end BTree

end NebulaFS
