import Mathlib.Data.List.TakeWhile
import NebulaFS.Proof.BTreeNodes

/-!
# Looking up and inserting

The scan of the keys routes a key to one child: what the walk visits before the child is smaller and
what it visits after it is not (`Routes.bounds`). So a lookup finds the key if the walk has it, and an
insertion puts the pair into the walk in order. Splitting the full nodes on the way keeps the bounds on
the number of keys.
-/

namespace NebulaFS

open SortedWalk

namespace BTree

variable {κ ν : Type} [LinearOrder κ] {node child : Node κ ν} {n : Nat} {key : κ} {value : ν}
  {left : List (Node κ ν × κ × ν)} {right : List ((κ × ν) × Node κ ν)}

/-! ### Where the scan stops -/

theorem scan_le (keys : List κ) (key : κ) : scan keys key ≤ keys.length :=
  (List.takeWhile_sublist _).length_le

theorem scan_append {first last : List κ} (hfirst : ∀ other ∈ first, other < key)
    (hlast : ∀ other ∈ last.head?, key ≤ other) : scan (first ++ last) key = first.length := by
  have htake : (first ++ last).takeWhile (· < key) = first := by
    rw [List.takeWhile_append_of_pos (by simpa using hfirst)]
    cases last with
    | nil => simp
    | cons other last =>
        have hle : key ≤ other := hlast other rfl
        simp [hle]
  rw [scan, htake]

theorem exists_scan {α : Type} (f : α → κ) (items : List α) (key : κ) :
    ∃ first last, items = first ++ last ∧ (∀ item ∈ first, f item < key)
      ∧ ∀ item ∈ last.head?, key ≤ f item := by
  refine ⟨items.takeWhile (f · < key), items.dropWhile (f · < key),
    List.takeWhile_append_dropWhile.symm, ?_, ?_⟩
  · intro item hmem
    simpa using List.mem_takeWhile_imp hmem
  · intro item hmem
    have hnot := List.head?_dropWhile_not (f · < key) items
    rw [Option.mem_def.mp hmem] at hnot
    simpa using hnot

/-- The key is looked for between these parts. -/
def Routes (key : κ) (left : List (Node κ ν × κ × ν)) (right : List ((κ × ν) × Node κ ν)) : Prop :=
  (∀ part ∈ left, part.2.1 < key) ∧ ∀ part ∈ right.head?, key ≤ part.1.1

theorem Routes.scan_eq (h : Routes key left right) (child : Node κ ν) :
    scan (ofParts left child right).keys key = left.length := by
  rw [ofParts, scan_append, List.length_map]
  · intro other hmem
    obtain ⟨part, hpart, rfl⟩ := List.mem_map.mp hmem
    exact h.1 part hpart
  · intro other hmem
    rw [List.head?_map, Option.mem_map] at hmem
    obtain ⟨part, hpart, rfl⟩ := hmem
    exact h.2 part hpart

theorem Balanced.exists_routes (h : Balanced (n + 1) node) (key : κ) :
    ∃ left child right, node = ofParts left child right ∧ Routes key left right := by
  obtain ⟨first, last, hkeys, hfirst, hlast⟩ := exists_scan id node.keys key
  have hle : first.length ≤ node.keys.length := by simp [hkeys]
  obtain ⟨left, child, right, rfl, hlength⟩ := h.exists_parts hle
  have hsplit := List.append_inj (show left.map (fun part => part.2.1)
    ++ right.map (fun part => part.1.1) = first ++ last from hkeys) (by simp [hlength])
  refine ⟨left, child, right, rfl, ?_, ?_⟩
  · intro part hmem
    apply hfirst
    rw [← hsplit.1]
    exact List.mem_map_of_mem hmem
  · intro part hmem
    apply hlast
    rw [← hsplit.2, List.head?_map]
    exact Option.mem_map_of_mem _ hmem

theorem Routes.bounds (h : Routes key left right)
    (hsorted : (ofParts left child right).inOrder.Pairwise ByKey) :
    (∀ pair ∈ before left, pair.1 < key) ∧ ∀ pair ∈ after right, key ≤ pair.1 := by
  rw [inOrder_ofParts] at hsorted
  apply bounds_of_pairwise hsorted
  · intro pair hmem
    rcases List.eq_nil_or_concat left with rfl | ⟨start, part, rfl⟩
    · cases hmem
    · rw [List.concat_eq_append, before_concat, ← List.append_assoc, List.getLast?_concat] at hmem
      cases hmem
      exact h.1 part (by simp)
  · intro pair hmem
    cases right with
    | nil => cases hmem
    | cons part right =>
        rw [after_cons] at hmem
        cases hmem
        exact h.2 part rfl

/-! ### Looking up -/

/-- The key at which the scan stops. -/
theorem Routes.key_eq (h : Routes key left right) (child : Node κ ν) :
    (ofParts left child right).keys[scan (ofParts left child right).keys key]?
      = right.head?.map fun part => part.1.1 := by
  rw [h.scan_eq]
  cases right with
  | nil => simp [ofParts]
  | cons part right => simp [ofParts]

/-- Without a hit the key is looked for in the child only. -/
theorem Routes.mem_iff (h : Routes key left right)
    (hsorted : (ofParts left child right).inOrder.Pairwise ByKey)
    (hmiss : ∀ part ∈ right.head?, part.1.1 ≠ key) (value : ν) :
    (key, value) ∈ (ofParts left child right).inOrder ↔ (key, value) ∈ child.inOrder := by
  obtain ⟨hbefore, hafter⟩ := h.bounds hsorted
  have hright : ∀ pair ∈ after right, pair.1 ≠ key := by
    intro pair hmem
    cases right with
    | nil => cases hmem
    | cons part right =>
        have hlt : key < part.1.1 := lt_of_le_of_ne (h.2 part rfl) (hmiss part rfl).symm
        rw [inOrder_ofParts, List.pairwise_append] at hsorted
        have hlast := hsorted.2.1
        rw [after_cons] at hlast hmem
        rcases List.mem_cons.mp hmem with rfl | hmem
        · exact hmiss part rfl
        · have hle : part.1.1 ≤ pair.1 := (List.pairwise_cons.mp hlast).1 pair hmem
          exact ne_of_gt (lt_of_lt_of_le hlt hle)
  rw [inOrder_ofParts, List.mem_append, List.mem_append]
  constructor
  · rintro ((hmem | hmem) | hmem)
    · exact absurd (hbefore _ hmem) (lt_irrefl key)
    · exact hmem
    · exact absurd rfl (hright _ hmem)
  · intro hmem
    exact .inl (.inr hmem)

/-- What a lookup answers. -/
structure Found (key : κ) (pairs : List (κ × ν)) (answer : Option ν) : Prop where
  mem : ∀ value ∈ answer, (key, value) ∈ pairs
  absent : answer = none → ∀ value, (key, value) ∉ pairs

omit [LinearOrder κ] in
theorem Found.isSome_iff {pairs : List (κ × ν)} {answer : Option ν} (h : Found key pairs answer) :
    answer.isSome = true ↔ key ∈ pairs.map Prod.fst := by
  cases answer with
  | some value => exact iff_of_true rfl (List.mem_map_of_mem (h.mem value rfl))
  | none =>
      refine iff_of_false Bool.false_ne_true ?_
      intro hmem
      obtain ⟨pair, hpair, rfl⟩ := List.mem_map.mp hmem
      exact h.absent rfl pair.2 hpair

/-- The pairs of a leaf around the place of a key. -/
structure Slice (key : κ) (first last : List (κ × ν)) : Prop where
  scan_eq : scan (ofPairs (first ++ last)).keys key = first.length
  lt : ∀ pair ∈ first, pair.1 < key
  le : ∀ pair ∈ last, key ≤ pair.1

theorem exists_slice {pairs : List (κ × ν)} (hsorted : pairs.Pairwise ByKey) (key : κ) :
    ∃ first last, pairs = first ++ last ∧ Slice key first last := by
  obtain ⟨first, last, rfl, hfirst, hlast⟩ := exists_scan Prod.fst pairs key
  have hbounds := bounds_of_pairwise
    (show (first ++ [] ++ last).Pairwise ByKey by rwa [List.append_nil])
    (fun pair hmem => hfirst pair (List.mem_of_mem_getLast? hmem)) hlast
  refine ⟨first, last, rfl, ?_, hbounds.1, hbounds.2⟩
  rw [ofPairs, List.map_append, scan_append, List.length_map]
  · intro other hmem
    obtain ⟨pair, hpair, rfl⟩ := List.mem_map.mp hmem
    exact hfirst pair hpair
  · intro other hmem
    rw [List.head?_map, Option.mem_map] at hmem
    obtain ⟨pair, hpair, rfl⟩ := hmem
    exact hlast pair hpair

theorem Slice.key_eq {first last : List (κ × ν)} (h : Slice key first last) :
    (ofPairs (first ++ last)).keys[scan (ofPairs (first ++ last)).keys key]?
      = last.head?.map Prod.fst := by
  rw [h.scan_eq]
  cases last with
  | nil => simp [ofPairs]
  | cons pair last => simp [ofPairs]

/-- Without a hit the key is not in the leaf. -/
theorem Slice.ne_of_miss {first last : List (κ × ν)} (h : Slice key first last)
    (hsorted : (first ++ last).Pairwise ByKey) (hmiss : last.head?.map Prod.fst ≠ some key) :
    ∀ pair ∈ first ++ last, pair.1 ≠ key := by
  intro pair hmem
  rcases List.mem_append.mp hmem with hmem | hmem
  · exact ne_of_lt (h.lt pair hmem)
  · cases last with
    | nil => cases hmem
    | cons head last =>
        have hne : head.1 ≠ key := fun heq => hmiss (congrArg some heq)
        rcases List.mem_cons.mp hmem with rfl | hmem
        · exact hne
        · have hlt : key < head.1 := lt_of_le_of_ne (h.le head List.mem_cons_self) hne.symm
          have hle : head.1 ≤ pair.1 :=
            (List.pairwise_cons.mp (List.pairwise_append.mp hsorted).2.1).1 pair hmem
          exact ne_of_gt (lt_of_lt_of_le hlt hle)

theorem found_leaf {pairs : List (κ × ν)} (hsorted : pairs.Pairwise ByKey) :
    ∃ answer, findInternal key 1 (ofPairs pairs) = .ok answer ∧ Found key pairs answer := by
  obtain ⟨first, last, rfl, hslice⟩ := exists_slice hsorted key
  rw [findInternal, hslice.key_eq]
  by_cases hhit : last.head?.map Prod.fst = some key
  · rw [if_pos hhit]
    cases last with
    | nil => cases hhit
    | cons pair last =>
        cases hhit
        have hvalue : get (ofPairs (first ++ pair :: last)).values first.length = .ok pair.2 := by
          simp [get, ofPairs]
        rw [hslice.scan_eq, hvalue]
        refine ⟨some pair.2, rfl, ?_, fun hnone => by cases hnone⟩
        rintro value ⟨⟩
        simp
  · rw [if_neg hhit]
    refine ⟨none, rfl, by simp, ?_⟩
    intro _ value hmem
    exact hslice.ne_of_miss hsorted hhit _ hmem rfl

/-- **A lookup finds the key if the walk has it.** -/
theorem found_findInternal (h : Balanced n node) (hsorted : node.inOrder.Pairwise ByKey) (key : κ) :
    ∃ answer, findInternal key (n + 1) node = .ok answer ∧ Found key node.inOrder answer := by
  induction n generalizing node with
  | zero =>
      obtain ⟨pairs, rfl⟩ := h.exists_pairs
      rw [inOrder_ofPairs] at hsorted ⊢
      exact found_leaf hsorted
  | succ n ih =>
      obtain ⟨left, child, right, rfl, hroutes⟩ := h.exists_routes key
      obtain ⟨-, hchild, -⟩ := balanced_ofParts_iff.mp h
      rw [findInternal, hroutes.key_eq]
      by_cases hhit : (right.head?.map fun part => part.1.1) = some key
      · rw [if_pos hhit]
        cases right with
        | nil => cases hhit
        | cons part right =>
            cases hhit
            rw [hroutes.scan_eq, get_values_ofParts]
            refine ⟨some part.1.2, rfl, ?_, fun hnone => by cases hnone⟩
            rintro value ⟨⟩
            rw [inOrder_ofParts, after_cons]
            simp
      · have hmiss : ∀ part ∈ right.head?, part.1.1 ≠ key := by
          intro part hmem heq
          apply hhit
          rw [Option.mem_def.mp hmem, Option.map_some, heq]
        have hleaf : ¬ (ofParts left child right).isLeaf = true := Bool.false_ne_true
        obtain ⟨answer, hanswer, hfound⟩ := ih hchild (pairwise_child hsorted)
        rw [if_neg hhit, if_neg hleaf, hroutes.scan_eq, get_children_ofParts, ok_bind]
        refine ⟨answer, hanswer, ?_, ?_⟩
        · intro value hvalue
          exact (hroutes.mem_iff hsorted hmiss value).mpr (hfound.mem value hvalue)
        · intro hnone value hmem
          exact hfound.absent hnone value ((hroutes.mem_iff hsorted hmiss value).mp hmem)

/-! ### Inserting -/

variable {order : Nat}

/-- What an insertion makes of a node. -/
structure Inserts (order n : Nat) (node : Node κ ν) (key : κ) (value : ν) (after : Node κ ν) :
    Prop where
  balanced : Balanced n after
  walk : after.inOrder = node.inOrder.orderedInsert ByKey (key, value)
  sized : Sized order n node → node.keys.length < order - 1 → Sized order n after
  keys_le : node.keys.length ≤ after.keys.length

theorem inserts_leaf (order : Nat) {pairs : List (κ × ν)} (hsorted : pairs.Pairwise ByKey) (key : κ)
    (value : ν) :
    ∃ after, insertInternal order key value 1 (ofPairs pairs) = .ok after
      ∧ Inserts order 0 (ofPairs pairs) key value after := by
  obtain ⟨first, last, rfl, hslice⟩ := exists_slice hsorted key
  have hafter : insertInternal order key value 1 (ofPairs (first ++ last))
      = .ok (ofPairs (first ++ (key, value) :: last)) := by
    have hkeys : (ofPairs (first ++ last)).keys.insertIdx first.length key
        = first.map Prod.fst ++ key :: last.map Prod.fst := by
      change ((first ++ last).map Prod.fst).insertIdx _ _ = _
      rw [List.map_append, insertIdx_append (by simp)]
    have hvalues : (ofPairs (first ++ last)).values.insertIdx first.length value
        = first.map Prod.snd ++ value :: last.map Prod.snd := by
      change ((first ++ last).map Prod.snd).insertIdx _ _ = _
      rw [List.map_append, insertIdx_append (by simp)]
    have hleaf : (ofPairs (first ++ last)).isLeaf = true := rfl
    rw [insertInternal, hslice.scan_eq, if_pos hleaf, hkeys, hvalues]
    simp [ofPairs]
  refine ⟨_, hafter, balanced_ofPairs _, ?_, ?_, ?_⟩
  · have hbetween : (first ++ [] ++ last).orderedInsert ByKey (key, value)
        = first ++ [].orderedInsert ByKey (key, value) ++ last :=
      orderedInsert_between [] hslice.lt hslice.le
    rw [inOrder_ofPairs, inOrder_ofPairs]
    simpa using hbetween.symm
  · intro _ hlt
    simp only [Sized, ofPairs, List.length_map, List.length_append, List.length_cons] at hlt ⊢
    omega
  · simp [ofPairs]

/-- A child with room, to which the key goes on. -/
structure MakesRoom (order n : Nat) (node : Node κ ν) (key : κ) (left : List (Node κ ν × κ × ν))
    (child : Node κ ν) (right : List ((κ × ν) × Node κ ν)) : Prop where
  routes : Routes key left right
  balanced : Balanced (n + 1) (ofParts left child right)
  walk : (ofParts left child right).inOrder = node.inOrder
  sized : Sized order (n + 1) node → node.keys.length < order - 1 →
    Sized order (n + 1) (ofParts left child right) ∧ child.keys.length < order - 1
  keys_le : node.keys.length ≤ left.length + right.length

theorem splitIfFull_of_full (horder : 3 ≤ order) (hfull : child.keys.length = order - 1)
    (h : Balanced (n + 1) (ofParts left child right)) (hroutes : Routes key left right) :
    ∃ first middle last, splitIfFull order key (ofParts left child right) left.length
        = .ok (ofParts first middle last, first.length)
      ∧ MakesRoom order n (ofParts left child right) key first middle last := by
  obtain ⟨hleft, hchild, hright⟩ := balanced_ofParts_iff.mp h
  obtain ⟨pair, hcut⟩ := hchild.exists_cut (show (order - 1) / 2 < child.keys.length by omega)
  obtain ⟨hlowLe, hlowLt, hhighLe, hhighLt⟩ := length_halves horder hfull
  have hsplit : splitIfFull order key (ofParts left child right) left.length
      = .ok (ofParts left (child.low ((order - 1) / 2))
          ((pair, child.high ((order - 1) / 2)) :: right),
        if pair.1 < key then left.length + 1 else left.length) := by
    rw [splitIfFull, get_children_ofParts, ok_bind, if_pos hfull, splitChild_ofParts order hcut,
      ok_bind, get_keys_ofParts, ok_bind]
    rfl
  have hbalanced : Balanced (n + 1) (ofParts left (child.low ((order - 1) / 2))
      ((pair, child.high ((order - 1) / 2)) :: right)) := by
    rw [balanced_ofParts_iff]
    refine ⟨hleft, hcut.low, ?_⟩
    intro part hmem
    rcases List.mem_cons.mp hmem with rfl | hmem
    · exact hcut.high
    · exact hright part hmem
  have hwalk : (ofParts left (child.low ((order - 1) / 2))
      ((pair, child.high ((order - 1) / 2)) :: right)).inOrder
        = (ofParts left child right).inOrder := by
    rw [inOrder_ofParts, inOrder_ofParts, after_cons, ← hcut.walk]
    simp
  have hsized : Sized order (n + 1) (ofParts left child right) →
      (ofParts left child right).keys.length < order - 1 →
      Sized order (n + 1) (ofParts left (child.low ((order - 1) / 2))
        ((pair, child.high ((order - 1) / 2)) :: right)) := by
    intro hsized hlt
    rw [length_keys_ofParts] at hlt
    obtain ⟨-, hleftSized, ⟨-, hchildSized⟩, hrightSized⟩ := sized_ofParts_iff.mp hsized
    rw [sized_ofParts_iff, List.length_cons]
    refine ⟨by omega, hleftSized, ⟨hlowLe, hchildSized.low _⟩, ?_⟩
    intro part hmem
    rcases List.mem_cons.mp hmem with rfl | hmem
    · exact ⟨hhighLe, hchildSized.high _⟩
    · exact hrightSized part hmem
  by_cases hlt : pair.1 < key
  · rw [ofParts_cons] at hsplit hbalanced hwalk hsized
    refine ⟨left ++ [(child.low ((order - 1) / 2), pair)], child.high ((order - 1) / 2), right, ?_,
      ⟨?_, hroutes.2⟩, hbalanced, hwalk, fun hs hl => ⟨hsized hs hl, hhighLt⟩, ?_⟩
    · rw [hsplit, if_pos hlt, List.length_append, List.length_singleton]
    · intro part hmem
      rcases List.mem_append.mp hmem with hmem | hmem
      · exact hroutes.1 part hmem
      · rw [List.mem_singleton.mp hmem]
        exact hlt
    · rw [length_keys_ofParts, List.length_append, List.length_singleton]
      omega
  · refine ⟨left, child.low ((order - 1) / 2), (pair, child.high ((order - 1) / 2)) :: right, ?_,
      ⟨hroutes.1, ?_⟩, hbalanced, hwalk, fun hs hl => ⟨hsized hs hl, hlowLt⟩, ?_⟩
    · rw [hsplit, if_neg hlt]
    · rintro part ⟨⟩
      exact not_lt.mp hlt
    · rw [length_keys_ofParts, List.length_cons]
      omega

theorem exists_makesRoom (horder : 3 ≤ order) (h : Balanced (n + 1) (ofParts left child right))
    (hroutes : Routes key left right) :
    ∃ first middle last, splitIfFull order key (ofParts left child right) left.length
        = .ok (ofParts first middle last, first.length)
      ∧ MakesRoom order n (ofParts left child right) key first middle last := by
  by_cases hfull : child.keys.length = order - 1
  · exact splitIfFull_of_full horder hfull h hroutes
  · refine ⟨left, child, right, ?_, hroutes, h, rfl, ?_, le_of_eq (length_keys_ofParts _ _ _)⟩
    · rw [splitIfFull, get_children_ofParts, ok_bind, if_neg hfull]
      rfl
    · intro hsized _
      have hle := (sized_ofParts_iff.mp hsized).2.2.1.2.le
      exact ⟨hsized, by omega⟩

/-- **An insertion puts the pair into the walk in order.** -/
theorem inserts_insertInternal (horder : 3 ≤ order) (h : Balanced n node)
    (hsorted : node.inOrder.Pairwise ByKey) (key : κ) (value : ν) :
    ∃ after, insertInternal order key value (n + 1) node = .ok after
      ∧ Inserts order n node key value after := by
  induction n generalizing node with
  | zero =>
      obtain ⟨pairs, rfl⟩ := h.exists_pairs
      rw [inOrder_ofPairs] at hsorted
      exact inserts_leaf order hsorted key value
  | succ n ih =>
      obtain ⟨left, child, right, rfl, hroutes⟩ := h.exists_routes key
      obtain ⟨first, middle, last, hsplit, hroom⟩ := exists_makesRoom horder h hroutes
      obtain ⟨hfirst, hmiddle, hlast⟩ := balanced_ofParts_iff.mp hroom.balanced
      have hsortedRoom : (ofParts first middle last).inOrder.Pairwise ByKey := by
        rw [hroom.walk]
        exact hsorted
      obtain ⟨hbefore, hafter⟩ := hroom.routes.bounds hsortedRoom
      obtain ⟨after, hinsert, hinserts⟩ := ih hmiddle (pairwise_child hsortedRoom)
      have hleaf : ¬ (ofParts left child right).isLeaf = true := Bool.false_ne_true
      refine ⟨ofParts first after last, ?_, ?_, ?_, ?_, ?_⟩
      · rw [insertInternal, hroutes.scan_eq, if_neg hleaf, hsplit, ok_bind]
        dsimp only
        rw [get_children_ofParts, ok_bind, hinsert, ok_bind, setChild_ofParts]
        rfl
      · exact balanced_ofParts_iff.mpr ⟨hfirst, hinserts.balanced, hlast⟩
      · rw [← hroom.walk, inOrder_ofParts, inOrder_ofParts, hinserts.walk,
          orderedInsert_between middle.inOrder hbefore hafter]
      · intro hsized hlt
        obtain ⟨hsizedRoom, hmiddleLt⟩ := hroom.sized hsized hlt
        obtain ⟨hle, hfirstSized, ⟨hmin, hmiddleSized⟩, hlastSized⟩ := sized_ofParts_iff.mp hsizedRoom
        exact sized_ofParts_iff.mpr ⟨hle, hfirstSized,
          ⟨le_trans hmin hinserts.keys_le, hinserts.sized hmiddleSized hmiddleLt⟩, hlastSized⟩
      · rw [length_keys_ofParts first]
        exact hroom.keys_le

/-! ### Whole trees -/

variable {tree : BTree κ ν}

theorem exists_find (h : Balanced n tree.root) (hsorted : tree.inOrder.Pairwise ByKey) (key : κ) :
    ∃ answer, tree.find key = .ok answer ∧ tree.contains key = .ok answer.isSome
      ∧ Found key tree.inOrder answer := by
  obtain ⟨answer, hanswer, hfound⟩ := found_findInternal h hsorted key
  have hfind : tree.find key = .ok answer := by
    rw [find, h.depth_eq, hanswer]
  refine ⟨answer, hfind, ?_, hfound⟩
  rw [contains, hfind]
  rfl

/-- What an insertion makes of a tree. -/
structure Extends (n : Nat) (tree : BTree κ ν) (key : κ) (value : ν) (m : Nat) (after : BTree κ ν) :
    Prop where
  balanced : Balanced m after.root
  walk : after.inOrder = tree.inOrder.orderedInsert ByKey (key, value)
  order_eq : after.order = tree.order
  size_eq : after.size = tree.size + 1
  sized : Sized tree.order n tree.root → Sized tree.order m after.root

theorem exists_extends (horder : 3 ≤ tree.order) (h : Balanced n tree.root)
    (hsorted : tree.inOrder.Pairwise ByKey) (key : κ) (value : ν) :
    ∃ m after, tree.insert key value = .ok after ∧ Extends n tree key value m after := by
  obtain ⟨m, top, hsplit, hbalanced, hwalk, hsized⟩ := exists_splitRootIfFull horder h
  have hsortedTop : top.inOrder.Pairwise ByKey := by
    rw [hwalk]
    exact hsorted
  obtain ⟨root, hinsert, hinserts⟩ := inserts_insertInternal horder hbalanced hsortedTop key value
  refine ⟨m, { tree with root := root, size := tree.size + 1 }, ?_, hinserts.balanced, ?_, rfl, rfl, ?_⟩
  · rw [insert, hsplit, ok_bind, hbalanced.depth_eq, hinsert, ok_bind]
    rfl
  · rw [inOrder, inOrder, ← hwalk]
    exact hinserts.walk
  · intro hroot
    obtain ⟨htop, hlt⟩ := hsized hroot
    exact hinserts.sized htop hlt

/-- What a run of insertions keeps. -/
structure Built (order : Nat) (pairs : List (κ × ν)) (tree : BTree κ ν) : Prop where
  order_eq : tree.order = order
  shape : ∃ n, Balanced n tree.root ∧ Sized order n tree.root
  sorted : tree.inOrder.Pairwise ByKey
  perm : tree.inOrder.Perm pairs
  size_eq : tree.size = pairs.length

theorem Built.insert {pairs : List (κ × ν)} (horder : 3 ≤ order) (h : Built order pairs tree) (key : κ)
    (value : ν) :
    ∃ after, tree.insert key value = .ok after ∧ Built order (pairs ++ [(key, value)]) after := by
  obtain ⟨n, hbalanced, hsized⟩ := h.shape
  obtain ⟨m, after, hinsert, hextends⟩ :=
    exists_extends (h.order_eq.symm ▸ horder) hbalanced h.sorted key value
  refine ⟨after, hinsert, hextends.order_eq.trans h.order_eq, ⟨m, hextends.balanced, ?_⟩, ?_, ?_, ?_⟩
  · rw [← h.order_eq] at hsized ⊢
    exact hextends.sized hsized
  · rw [hextends.walk]
    exact h.sorted.orderedInsert (key, value) _
  · rw [hextends.walk]
    apply (List.perm_orderedInsert _ _ _).trans
    apply (h.perm.cons (key, value)).trans
    exact (List.perm_append_singleton _ _).symm
  · rw [hextends.size_eq, h.size_eq, List.length_append, List.length_singleton]

theorem Built.insertAll {done : List (κ × ν)} (horder : 3 ≤ order) (h : Built order done tree)
    (pairs : List (κ × ν)) :
    ∃ after, tree.insertAll pairs = .ok after ∧ Built order (done ++ pairs) after := by
  induction pairs generalizing done tree with
  | nil => exact ⟨tree, rfl, by rwa [List.append_nil]⟩
  | cons pair pairs ih =>
      obtain ⟨next, hinsert, hnext⟩ := h.insert horder pair.1 pair.2
      obtain ⟨after, hrest, hafter⟩ := ih hnext
      rw [List.append_assoc] at hafter
      refine ⟨after, ?_, hafter⟩
      rw [BTree.insertAll, hinsert, ok_bind, hrest]

theorem built_new (order : Nat) : Built order [] ({ order := order } : BTree κ ν) := by
  have hinOrder : ({ order := order } : BTree κ ν).inOrder = [] := inOrder_ofPairs []
  refine ⟨rfl, ⟨0, balanced_ofPairs [], Nat.zero_le _⟩, ?_, ?_, rfl⟩
  · rw [hinOrder]
    exact List.Pairwise.nil
  · rw [hinOrder]

/-! ### Every node of a tree -/

theorem pairwise_keys (h : Balanced n node) (hsorted : node.inOrder.Pairwise ByKey) :
    node.keys.Pairwise (· ≤ ·) := by
  have hwalk : (node.inOrder.map Prod.fst).Pairwise (· ≤ ·) := List.pairwise_map.mpr hsorted
  exact hwalk.sublist h.sublist_keys

theorem Node.Under.sized {lower : Node κ ν} (hunder : lower.Under node) (h : Balanced n node)
    (hsorted : node.inOrder.Pairwise ByKey) (hsized : Sized order n node) :
    lower.keys.Pairwise (· ≤ ·) ∧ lower.keys.length ≤ order - 1
      ∧ (order - 2) / 2 ≤ lower.keys.length := by
  induction hunder generalizing n with
  | child hmem =>
      obtain ⟨m, rfl, hbalanced, hsublist⟩ := h.sublist_child hmem
      obtain ⟨hmin, hchild⟩ := hsized.2 _ hmem
      exact ⟨pairwise_keys hbalanced (hsorted.sublist hsublist), hchild.le, hmin⟩
  | step hmem _ ih =>
      obtain ⟨m, rfl, hbalanced, hsublist⟩ := h.sublist_child hmem
      exact ih hbalanced (hsorted.sublist hsublist) (hsized.2 _ hmem).2

/-- **Insertions build a B-tree.** -/
theorem insertAll_isBTree {order : Nat} (horder : 3 ≤ order) (pairs : List (κ × ν)) :
    ∃ tree : BTree κ ν, ({ order := order } : BTree κ ν).insertAll pairs = .ok tree
      ∧ (∃ n, Balanced n tree.root)
      ∧ (∀ node : Node κ ν, node = tree.root ∨ node.Under tree.root →
        node.keys.Pairwise (· ≤ ·) ∧ node.keys.length ≤ order - 1)
      ∧ (∀ node : Node κ ν, node.Under tree.root → (order - 2) / 2 ≤ node.keys.length)
      ∧ (tree.inOrder.map Prod.fst).Pairwise (· ≤ ·)
      ∧ tree.inOrder.Perm pairs ∧ tree.size = pairs.length
      ∧ (∀ key, tree.contains key = .ok (decide (key ∈ pairs.map Prod.fst)))
      ∧ ∀ key ∈ pairs.map Prod.fst, ∃ value, tree.find key = .ok (some value)
        ∧ (key, value) ∈ pairs := by
  obtain ⟨tree, hrun, hbuilt⟩ := (built_new order).insertAll horder pairs
  rw [List.nil_append] at hbuilt
  obtain ⟨n, hbalanced, hsized⟩ := hbuilt.shape
  refine ⟨tree, hrun, ⟨n, hbalanced⟩, ?_, ?_, List.pairwise_map.mpr hbuilt.sorted, hbuilt.perm,
    hbuilt.size_eq, ?_, ?_⟩
  · rintro node (rfl | hunder)
    · exact ⟨pairwise_keys hbalanced hbuilt.sorted, hsized.le⟩
    · have hnode := hunder.sized hbalanced hbuilt.sorted hsized
      exact ⟨hnode.1, hnode.2.1⟩
  · intro node hunder
    exact (hunder.sized hbalanced hbuilt.sorted hsized).2.2
  · intro key
    obtain ⟨answer, -, hcontains, hfound⟩ := exists_find hbalanced hbuilt.sorted key
    have hanswer : answer.isSome = decide (key ∈ pairs.map Prod.fst) := by
      rw [Bool.eq_iff_iff, decide_eq_true_iff, hfound.isSome_iff]
      exact (hbuilt.perm.map Prod.fst).mem_iff
    rw [hcontains, hanswer]
  · intro key hmem
    obtain ⟨answer, hfind, -, hfound⟩ := exists_find hbalanced hbuilt.sorted key
    cases answer with
    | some value => exact ⟨value, hfind, hbuilt.perm.mem_iff.mp (hfound.mem value rfl)⟩
    | none =>
        obtain ⟨pair, hpair, rfl⟩ := List.mem_map.mp hmem
        exact absurd (hbuilt.perm.mem_iff.mpr hpair) (hfound.absent rfl pair.2)

/-- A tree of the smallest order, with a key that is inserted twice. -/
theorem insertAll_isBTree_threeKeys : ∃ tree : BTree Nat Nat,
    ({ order := 3 } : BTree Nat Nat).insertAll [(2, 20), (1, 10), (2, 21), (3, 30)] = .ok tree
      ∧ tree.size = 4 ∧ tree.contains 2 = .ok true ∧ tree.contains 4 = .ok false := by
  obtain ⟨tree, hrun, -, -, -, -, -, hsize, hcontains, -⟩ :=
    insertAll_isBTree (show 3 ≤ 3 by decide) [(2, 20), (1, 10), (2, 21), (3, 30)]
  exact ⟨tree, hrun, hsize, hcontains 2, hcontains 4⟩

end BTree

end NebulaFS
