import NebulaFS.Proof.BTreeInsertion

/-!
# Filling a child before the descent

On its way down a removal fills the child that it goes to, from the left neighbour if that has enough
keys and else from the right one. Both are missing for a last child whose left neighbour is poor: it is
merged into the neighbour, and the index then lies outside. `Safe` says of a tree before the removal
that this does not happen on the way of a key. A fill hands a subtree over from the left, or hands
something over from the right; `Safe` carries that along, and so is stated for the nodes as they are and
not for those that the removal makes.
-/

namespace NebulaFS

open SortedWalk

namespace BTree

variable {κ ν : Type} {node child : Node κ ν} {n i : Nat} {enough : Nat → Bool}
  {left : List (Node κ ν × κ × ν)} {right : List ((κ × ν) × Node κ ν)}

/-! ### The two rules -/

/-- `fillChild` with the rule by which a sibling lends. -/
def fillWith (enough : Nat → Bool) (node : Node κ ν) (index : Nat) : Access (Node κ ν) := do
  let prev ← lends enough node (index - 1) (0 < index)
  let next ← lends enough node (index + 1) (index + 1 < node.children.length)
  if prev then borrowFromPrev node index
  else if next then borrowFromNext node index
  else if index + 1 < node.children.length then mergeChildren node index
  else mergeWithPrev node index

theorem Index.fillChild_eq (order : Nat) (left : List (Node κ ν × κ × ν)) (child : Node κ ν)
    (right : List ((κ × ν) × Node κ ν)) :
    Index.fillChild order (ofParts left child right) left.length
      = fillWith ((order - 1) / 2 < ·) (ofParts left child right) left.length := by
  have hlength : (ofParts left child right).children.length = left.length + (right.length + 1) := by
    simp [ofParts]
  have hmerge : (if left.length + 1 = (ofParts left child right).children.length then
        mergeWithPrev (ofParts left child right) left.length
      else mergeChildren (ofParts left child right) left.length)
      = if left.length + 1 < (ofParts left child right).children.length then
        mergeChildren (ofParts left child right) left.length
      else mergeWithPrev (ofParts left child right) left.length := by
    rw [hlength]
    by_cases hright : right.length = 0
    · rw [if_pos (by omega), if_neg (by omega)]
    · rw [if_neg (by omega), if_pos (by omega)]
  unfold Index.fillChild fillWith
  rw [hmerge]

theorem Filesystem.fillChild_eq (order : Nat) (node : Node κ ν) (index : Nat) :
    Filesystem.fillChild order node index = fillWith ((order - 1) / 2 ≤ ·) node index := rfl

/-! ### The neighbours -/

theorem lends_prev (left : List (Node κ ν × κ × ν)) (child : Node κ ν)
    (right : List ((κ × ν) × Node κ ν)) :
    lends enough (ofParts left child right) (left.length - 1) (0 < left.length)
      = .ok (left.getLast?.any fun part => enough part.1.keys.length) := by
  rcases List.eq_nil_or_concat left with rfl | ⟨start, part, rfl⟩
  · rfl
  · have hget : get (ofParts (start.concat part) child right).children
        ((start.concat part).length - 1) = .ok part.1 := by
      simp [get, ofParts]
    have hpos : decide (0 < (start.concat part).length) = true := by simp
    rw [lends, hpos, if_pos rfl, hget]
    simp

theorem lends_next (left : List (Node κ ν × κ × ν)) (child : Node κ ν)
    (right : List ((κ × ν) × Node κ ν)) :
    lends enough (ofParts left child right) (left.length + 1)
        (left.length + 1 < (ofParts left child right).children.length)
      = .ok (right.head?.any fun part => enough part.2.keys.length) := by
  cases right with
  | nil => simp [lends, ofParts]
  | cons part right =>
      have hlt : decide (left.length + 1
          < (ofParts left child (part :: right)).children.length) = true := by
        simp [ofParts]
      rw [lends, hlt, if_pos rfl, get_sibling_ofParts]
      rfl

/-- A fill changes neither the walk nor the place of the child, and the pairs beside the child come
from those that were there. -/
structure Fills (n : Nat) (left : List (Node κ ν × κ × ν)) (child : Node κ ν)
    (right : List ((κ × ν) × Node κ ν)) (first : List (Node κ ν × κ × ν)) (filled : Node κ ν)
    (last : List ((κ × ν) × Node κ ν)) : Prop where
  length_eq : first.length = left.length
  balanced : Balanced (n + 1) (ofParts first filled last)
  walk : (ofParts first filled last).inOrder = (ofParts left child right).inOrder
  before_subset : ∀ pair ∈ before first, pair ∈ before left
  after_subset : ∀ pair ∈ after last, pair ∈ after right

theorem exists_fills_prev (henough : ∀ count, enough count = true → 0 < count) {sibling : Node κ ν}
    {pair : κ × ν} (h : Balanced (n + 1) (ofParts (left ++ [(sibling, pair)]) child right))
    (hlends : enough sibling.keys.length = true) :
    ∃ last moved, movedChild child.isLeaf (back sibling.children) = .ok moved
      ∧ fillWith enough (ofParts (left ++ [(sibling, pair)]) child right)
          (left ++ [(sibling, pair)]).length
        = .ok (ofParts (left ++ [(sibling.withoutLast child.isLeaf, last)])
          (child.prepend pair moved) right)
      ∧ Fills n (left ++ [(sibling, pair)]) child right
        (left ++ [(sibling.withoutLast child.isLeaf, last)]) (child.prepend pair moved) right := by
  obtain ⟨hleft, hchild, hright⟩ := balanced_ofParts_iff.mp h
  have hsibling : Balanced n sibling := hleft (sibling, pair) (by simp)
  have hne : sibling.keys ≠ [] := List.ne_nil_of_length_pos (henough _ hlends)
  obtain ⟨last, moved, hlast⟩ := hsibling.exists_lendsLast hne pair hchild
  refine ⟨last, moved, hlast.moved_eq, ?_, by simp, ?_, ?_, ?_, fun _ hmem => hmem⟩
  · have hprev : ((left ++ [(sibling, pair)]).getLast?.any fun part => enough part.1.keys.length)
        = true := by
      simp [hlends]
    rw [fillWith, lends_prev, ok_bind, lends_next, ok_bind, if_pos hprev, List.length_append,
      List.length_singleton]
    exact borrowFromPrev_ofParts hlast
  · rw [balanced_ofParts_iff]
    refine ⟨?_, hlast.child_balanced, hright⟩
    intro part hmem
    rcases List.mem_append.mp hmem with hmem | hmem
    · exact hleft part (List.mem_append_left _ hmem)
    · rw [List.mem_singleton.mp hmem]
      exact hlast.sibling_balanced
  · rw [inOrder_ofParts_concat, inOrder_ofParts_concat, hlast.walk]
  · intro other hmem
    rw [before_concat, List.mem_append] at hmem ⊢
    rcases hmem with hmem | hmem
    · exact .inl hmem
    · exact .inr (List.mem_append_left _ (hlast.subset other hmem))

/-- A node that got more on its right end, the first of it this key. -/
structure Widens (child : Node κ ν) (key : κ) (filled : Node κ ν) : Prop where
  isLeaf_eq : filled.isLeaf = child.isLeaf
  keys_eq : ∃ keys, filled.keys = child.keys ++ key :: keys
  children_eq : ∃ children, filled.children = child.children ++ children
    ∧ (child.isLeaf = false → children ≠ [])

theorem Balanced.isLeaf_congr {other : Node κ ν} (h : Balanced n node) (hother : Balanced n other) :
    node.isLeaf = other.isLeaf := by
  cases n with
  | zero => exact h.1.trans hother.1.symm
  | succ n => exact h.1.trans hother.1.symm

theorem Balanced.children_ne_nil (h : Balanced n node) (hleaf : node.isLeaf = false) :
    node.children ≠ [] := by
  cases n with
  | zero => cases h.1.symm.trans hleaf
  | succ n =>
      have hlength := h.2.1
      exact List.ne_nil_of_length_pos (by omega)

theorem widens_join {sibling : Node κ ν} (h : Balanced n child) (pair : κ × ν)
    (hsibling : Balanced n sibling) : Widens child pair.1 (child.join pair sibling) := by
  refine ⟨rfl, ⟨sibling.keys, rfl⟩, ?_⟩
  cases hleaf : child.isLeaf with
  | true => exact ⟨[], by simp [Node.join, hleaf], by simp⟩
  | false =>
      refine ⟨sibling.children, by simp [Node.join, hleaf], fun _ => ?_⟩
      apply hsibling.children_ne_nil
      exact (hsibling.isLeaf_congr h).trans hleaf

theorem exists_fills_next (henough : ∀ count, enough count = true → 0 < count) {sibling : Node κ ν}
    {pair : κ × ν} (h : Balanced (n + 1) (ofParts left child ((pair, sibling) :: right)))
    (hprev : (left.getLast?.any fun part => enough part.1.keys.length) = false) :
    ∃ filled last, fillWith enough (ofParts left child ((pair, sibling) :: right)) left.length
        = .ok (ofParts left filled last)
      ∧ Fills n left child ((pair, sibling) :: right) left filled last
      ∧ Widens child pair.1 filled := by
  obtain ⟨hleft, hchild, hright⟩ := balanced_ofParts_iff.mp h
  have hsibling : Balanced n sibling := hright (pair, sibling) List.mem_cons_self
  have hrest : ∀ part ∈ right, Balanced n part.2 :=
    fun part hmem => hright part (List.mem_cons_of_mem _ hmem)
  have hfill : fillWith enough (ofParts left child ((pair, sibling) :: right)) left.length
      = if enough sibling.keys.length = true then
          borrowFromNext (ofParts left child ((pair, sibling) :: right)) left.length
        else mergeChildren (ofParts left child ((pair, sibling) :: right)) left.length := by
    have hlt : left.length + 1
        < (ofParts left child ((pair, sibling) :: right)).children.length := by
      simp [ofParts]
    rw [fillWith, lends_prev, ok_bind, lends_next, ok_bind, hprev, if_neg Bool.false_ne_true,
      if_pos hlt]
    rfl
  by_cases hlends : enough sibling.keys.length = true
  · have hne : sibling.keys ≠ [] := List.ne_nil_of_length_pos (henough _ hlends)
    obtain ⟨first, moved, hfirst⟩ := hchild.exists_lendsFirst pair hsibling hne
    refine ⟨child.append pair moved, (first, sibling.withoutFirst child.isLeaf) :: right, ?_,
      ⟨rfl, ?_, ?_, fun _ hmem => hmem, ?_⟩, rfl, ⟨[], rfl⟩, moved, rfl, hfirst.moved_ne⟩
    · rw [hfill, if_pos hlends]
      exact borrowFromNext_ofParts hfirst
    · rw [balanced_ofParts_iff]
      refine ⟨hleft, hfirst.child_balanced, ?_⟩
      intro part hmem
      rcases List.mem_cons.mp hmem with rfl | hmem
      · exact hfirst.sibling_balanced
      · exact hrest part hmem
    · rw [inOrder_ofParts_cons, inOrder_ofParts_cons, hfirst.walk]
    · intro other hmem
      rw [after_cons, ← List.cons_append, List.mem_append] at hmem
      rw [after_cons, List.mem_cons, List.mem_append]
      rcases hmem with hmem | hmem
      · exact .inr (.inl (hfirst.subset other hmem))
      · exact .inr (.inr hmem)
  · obtain ⟨hjoin, hwalk⟩ := hchild.join pair hsibling
    refine ⟨child.join pair sibling, right, ?_, ⟨rfl, ?_, ?_, fun _ hmem => hmem, ?_⟩,
      widens_join hchild pair hsibling⟩
    · rw [hfill, if_neg hlends]
      exact mergeChildren_ofParts left child pair sibling right
    · exact balanced_ofParts_iff.mpr ⟨hleft, hjoin, hrest⟩
    · rw [inOrder_ofParts, inOrder_ofParts_cons, hwalk]
    · intro other hmem
      rw [after_cons]
      exact List.mem_cons_of_mem _ (List.mem_append_right _ hmem)

/-! ### The way of a key -/

/-- What stands to the left of the child: its neighbour, or the subtree that the fill of the node handed
over. -/
def prevOf (handed : Option (Node κ ν)) (node : Node κ ν) (i : Nat) : Option (Node κ ν) :=
  if i = 0 then handed else node.children[i - 1]?

/-- What the fill of the child hands over to it: the last subtree of the left neighbour, or something
from the right. Without either the fill goes wrong. -/
def handsOver (enough : Nat → Bool) (handed : Option (Node κ ν)) (more : Bool) (node : Node κ ν)
    (i : Nat) : Option (Option (Node κ ν) × Bool) :=
  if (prevOf handed node i).any fun prev => enough prev.keys.length then
    some ((prevOf handed node i).bind fun prev => prev.children.getLast?, false)
  else if more || i + 1 < node.children.length then some (none, true)
  else none

variable [LinearOrder κ] {key : κ} {copies : Bool} {fuel : Nat}

/-- The removal of the key from the node, which was handed a subtree on its left or something on its
right, stays inside. Where it meets the key in an inner node it goes on with the predecessor, which is
right only if it copies the value along. -/
def safe (enough : Nat → Bool) (copies : Bool) :
    (fuel : Nat) → (key : κ) → Option (Node κ ν) → Bool → Node κ ν → Bool
  | 0, _, _, _, _ => true
  | fuel + 1, key, handed, more, node =>
      let i := scan node.keys key
      node.isLeaf || match node.children[i]? with
        | none => false
        | some child =>
            if node.keys[i]? = some key then
              copies && match lastKey child.depth child with
                | .ok pred => safe enough copies fuel pred none false child
                | .error _ => false
            else
              match handsOver enough handed more node i with
              | some (handed, more) => safe enough copies fuel key handed more child
              | none => false

theorem safe_of_leaf (h : node.isLeaf = true) (handed : Option (Node κ ν)) (more : Bool) :
    safe enough copies fuel key handed more node = true := by
  cases fuel with
  | zero => rfl
  | succ fuel => simp [safe, h]

/-- The way depends on the child, the key that it meets and what is handed over. -/
theorem safe_congr {other : Node κ ν} {handed handedOther : Option (Node κ ν)} {more moreOther : Bool}
    (hleaf : node.isLeaf = other.isLeaf)
    (hchild : node.children[scan node.keys key]? = other.children[scan other.keys key]?)
    (hkey : node.keys[scan node.keys key]? = some key ↔ other.keys[scan other.keys key]? = some key)
    (hhands : handsOver enough handed more node (scan node.keys key)
      = handsOver enough handedOther moreOther other (scan other.keys key)) :
    safe enough copies fuel key handed more node
      = safe enough copies fuel key handedOther moreOther other := by
  cases fuel with
  | zero => rfl
  | succ fuel =>
      rw [safe, safe, hleaf, hchild, hhands]
      simp only [hkey]

theorem scan_cons_of_lt {first : κ} (h : first < key) (keys : List κ) :
    scan (first :: keys) key = scan keys key + 1 := by
  simp [scan, h]

/-- A subtree that was handed over from the left. -/
theorem safe_prepend {pair : κ × ν} (hlt : pair.1 < key) (moved : Node κ ν) :
    safe enough copies fuel key none false (child.prepend pair [moved])
      = safe enough copies fuel key (some moved) false child := by
  have hscan : scan (child.prepend pair [moved]).keys key = scan child.keys key + 1 :=
    scan_cons_of_lt hlt child.keys
  apply safe_congr
  · rfl
  · rw [hscan]
    rfl
  · rw [hscan]
    rfl
  · have hprev : prevOf none (child.prepend pair [moved]) (scan child.keys key + 1)
        = prevOf (some moved) child (scan child.keys key) := by
      cases hi : scan child.keys key with
      | zero => rfl
      | succ i => rfl
    have hlast : (scan child.keys key + 1 + 1 < (child.prepend pair [moved]).children.length)
        ↔ scan child.keys key + 1 < child.children.length := by
      simp [Node.prepend]
    rw [hscan, handsOver, handsOver, hprev]
    simp only [hlast]

theorem scan_append_of_le {next : κ} (hle : key ≤ next) (keys rest : List κ) :
    scan (keys ++ next :: rest) key = scan keys key := by
  obtain ⟨first, last, rfl, hfirst, hlast⟩ := exists_scan id keys key
  rw [scan_append hfirst hlast, List.append_assoc, scan_append hfirst]
  intro other hmem
  cases last with
  | nil =>
      cases hmem
      exact hle
  | cons head last =>
      cases hmem
      exact hlast _ rfl

/-- Something that was handed over from the right. -/
theorem safe_widens {next : κ} {filled : Node κ ν} (hlt : key < next) (h : Balanced n child)
    (hwidens : Widens child next filled) :
    safe enough copies fuel key none false filled = safe enough copies fuel key none true child := by
  cases hleaf : child.isLeaf with
  | true =>
      rw [safe_of_leaf hleaf, safe_of_leaf (hwidens.isLeaf_eq.trans hleaf)]
  | false =>
      obtain ⟨keys, hkeys⟩ := hwidens.keys_eq
      obtain ⟨children, hchildren, hne⟩ := hwidens.children_eq
      have hscan : scan filled.keys key = scan child.keys key := by
        rw [hkeys]
        exact scan_append_of_le (le_of_lt hlt) _ _
      have hle := scan_le child.keys key
      have hlength : child.children.length = child.keys.length + 1 := by
        cases n with
        | zero => cases h.1.symm.trans hleaf
        | succ n => exact h.2.1
      have hpos : 0 < children.length := List.length_pos_of_ne_nil (hne hleaf)
      have hinside : ∀ i < child.children.length, filled.children[i]? = child.children[i]? := by
        intro i hi
        rw [hchildren, List.getElem?_append_left hi]
      apply safe_congr hwidens.isLeaf_eq
      · rw [hscan]
        exact hinside _ (by omega)
      · rw [hscan, hkeys]
        rcases Nat.lt_or_eq_of_le hle with hinner | hend
        · rw [List.getElem?_append_left hinner]
        · rw [hend]
          simp [ne_of_gt hlt]
      · have hprev : prevOf none filled (scan child.keys key) = prevOf none child (scan child.keys key) := by
          unfold prevOf
          split
          · rfl
          · exact hinside _ (by omega)
        have hlast : scan child.keys key + 1 < filled.children.length := by
          rw [hchildren, List.length_append]
          omega
        rw [hscan, handsOver, handsOver, hprev]
        simp [hlast]

/-- The way at a node in parts. -/
theorem safe_ofParts_of_miss (hroutes : Routes key left right)
    (hmiss : ∀ part ∈ right.head?, part.1.1 ≠ key) {handed : Option (Node κ ν)} {more : Bool}
    (h : safe enough copies (fuel + 1) key handed more (ofParts left child right) = true) :
    ∃ next, handsOver enough handed more (ofParts left child right) left.length = some next
      ∧ safe enough copies fuel key next.1 next.2 child = true := by
  have hkey : ¬ (right.head?.map fun part => part.1.1) = some key := by
    intro hhit
    obtain ⟨part, hpart, heq⟩ := Option.map_eq_some_iff.mp hhit
    exact hmiss part hpart heq
  have hchild : (ofParts left child right).children[left.length]? = some child :=
    getElem?_append_cons (by simp)
  have hleaf : (ofParts left child right).isLeaf = false := rfl
  rw [safe, hroutes.key_eq, hroutes.scan_eq, hchild, hleaf, Bool.false_or] at h
  dsimp only at h
  rw [if_neg hkey] at h
  cases hhands : handsOver enough handed more (ofParts left child right) left.length with
  | none =>
      rw [hhands] at h
      cases h
  | some next =>
      rw [hhands] at h
      exact ⟨next, rfl, h⟩

theorem safe_ofParts_of_hit {part : (κ × ν) × Node κ ν} (hroutes : Routes part.1.1 left (part :: right))
    {handed : Option (Node κ ν)} {more : Bool}
    (h : safe enough copies (fuel + 1) part.1.1 handed more (ofParts left child (part :: right))
      = true) :
    copies = true ∧ ∃ pred, lastKey child.depth child = .ok pred
      ∧ safe enough copies fuel pred none false child = true := by
  have hchild : (ofParts left child (part :: right)).children[left.length]? = some child :=
    getElem?_append_cons (by simp)
  have hkey : ((part :: right).head?.map fun part => part.1.1) = some part.1.1 := rfl
  have hleaf : (ofParts left child (part :: right)).isLeaf = false := rfl
  rw [safe, hroutes.key_eq, hroutes.scan_eq, hchild, hleaf, Bool.false_or] at h
  dsimp only at h
  rw [if_pos hkey, Bool.and_eq_true] at h
  obtain ⟨hcopies, hpred⟩ := h
  cases hlast : lastKey child.depth child with
  | error fault =>
      rw [hlast] at hpred
      cases hpred
  | ok pred =>
      rw [hlast] at hpred
      exact ⟨hcopies, pred, rfl, hpred⟩

/-- **On a safe way the child is filled, and the way through it is safe.** -/
theorem exists_fills (henough : ∀ count, enough count = true → 0 < count)
    (h : Balanced (n + 1) (ofParts left child right)) (hroutes : Routes key left right)
    (hmiss : ∀ part ∈ right.head?, part.1.1 ≠ key)
    (hsafe : safe enough copies (fuel + 1) key none false (ofParts left child right) = true) :
    ∃ first filled last, fillWith enough (ofParts left child right) left.length
        = .ok (ofParts first filled last)
      ∧ Fills n left child right first filled last
      ∧ safe enough copies fuel key none false filled = true := by
  obtain ⟨next, hnext, hchildSafe⟩ := safe_ofParts_of_miss hroutes hmiss hsafe
  obtain ⟨hleft, hchild, hright⟩ := balanced_ofParts_iff.mp h
  have hprevOf : prevOf none (ofParts left child right) left.length
      = left.getLast?.map Prod.fst := by
    rcases List.eq_nil_or_concat left with rfl | ⟨start, part, rfl⟩
    · rfl
    · simp [prevOf, ofParts]
  rw [handsOver, hprevOf, Option.any_map] at hnext
  by_cases hprev : (left.getLast?.any fun part => enough part.1.keys.length) = true
  · rcases List.eq_nil_or_concat left with rfl | ⟨start, ⟨sibling, pair⟩, rfl⟩
    · cases hprev
    · rw [List.concat_eq_append] at *
      have hlends : enough sibling.keys.length = true := by
        simpa using hprev
      obtain ⟨last, moved, hmoved, hfill, hfills⟩ := exists_fills_prev henough h hlends
      refine ⟨_, _, right, hfill, hfills, ?_⟩
      have hlt : pair.1 < key := hroutes.1 (sibling, pair) (by simp)
      cases hleaf : child.isLeaf with
      | true =>
          apply safe_of_leaf
          exact hleaf
      | false =>
          have hsibling : Balanced n sibling := hleft (sibling, pair) (by simp)
          have hne : sibling.children ≠ [] := by
            apply hsibling.children_ne_nil
            exact (hsibling.isLeaf_congr hchild).trans hleaf
          obtain ⟨others, lastChild, hchildren⟩ := exists_concat hne
          rw [hleaf, hchildren, back_concat] at hmoved
          cases hmoved
          rw [safe_prepend hlt]
          simp [hlends, hchildren] at hnext
          rw [← hnext] at hchildSafe
          exact hchildSafe
  · cases right with
    | nil => simp [hprev, ofParts] at hnext
    | cons part right =>
        obtain ⟨filled, last, hfill, hfills, hwidens⟩ :=
          exists_fills_next henough h (Bool.eq_false_of_not_eq_true hprev)
        have hlt : key < part.1.1 := lt_of_le_of_ne (hroutes.2 part rfl) (hmiss part rfl).symm
        refine ⟨left, filled, last, hfill, hfills, ?_⟩
        rw [safe_widens hlt hchild hwidens]
        simp [hprev, ofParts] at hnext
        rw [← hnext] at hchildSafe
        exact hchildSafe

end BTree

end NebulaFS
