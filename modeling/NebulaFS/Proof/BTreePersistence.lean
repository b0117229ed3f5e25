import NebulaFS.IndexBTree
import NebulaFS.Proof.BTreeInsertion
import NebulaFS.Proof.VarIntLemmas

/-!
# The persistence of `index::BTree`

A node is written as its pairs and, below them, its children one after the other; how many children there
are is not written, it follows from the number of keys. A balanced tree is read back from that whatever
comes after it (`Balanced.codes`), by induction on its height.
-/

namespace NebulaFS

open Cursor

namespace BTree

variable {reserves : Nat → Bool} {order n fuel offset : Nat} {node : Node UInt64 IndexEntry}
  {pairs : List (UInt64 × IndexEntry)} {children : List (Node UInt64 IndexEntry)}
  {data below rest : Bytes} {isLeaf : Bool}

/-! ### Pairs -/

def pairBytes : UInt64 × IndexEntry → Bytes
  | (key, value) => VarInt.encode key ++ (VarInt.encode value.entryId ++ (VarInt.encode value.offset
      ++ (VarInt.encode value.size ++ value.checksum.toList)))

theorem serializePairs_eq (pairs : List (UInt64 × IndexEntry)) :
    serializePairs (pairs.map Prod.fst) (pairs.map Prod.snd) = .ok (pairs.flatMap pairBytes) := by
  induction pairs with
  | nil => rfl
  | cons pair pairs ih =>
      rw [List.map_cons, List.map_cons, serializePairs, ih, ok_bind, pure_eq_ok, List.flatMap_cons]
      simp only [pairBytes, List.append_assoc]

theorem readPair_of_remaining {pair : UInt64 × IndexEntry}
    (h : Remaining data offset (pairBytes pair ++ rest)) :
    readPair data offset = .ok (pair, offset + (pairBytes pair).length) := by
  obtain ⟨key, value⟩ := pair
  simp only [pairBytes, List.append_assoc] at h
  have hentryId := h.advance
  have hoffset := hentryId.advance
  have hsize := hoffset.advance
  have hchecksum := hsize.advance
  have hinside := hchecksum.length_eq
  rw [List.length_append, List.Vector.toList_length] at hinside
  rw [readPair, readVarInt_of_remaining _ h]
  simp only [bind, Except.bind]
  rw [readVarInt_of_remaining _ hentryId]
  simp only
  rw [readVarInt_of_remaining _ hoffset]
  simp only
  rw [readVarInt_of_remaining _ hsize]
  simp only
  rw [readChecksum, if_pos (by omega), readArr_of_remaining hchecksum]
  simp only [pure, Except.pure, pairBytes, List.length_append, List.Vector.toList_length]
  congr 2
  omega

/-! ### Nodes -/

/-- A node with these pairs and children. -/
def ofRead (isLeaf : Bool) (pairs : List (UInt64 × IndexEntry))
    (children : List (Node UInt64 IndexEntry)) : Node UInt64 IndexEntry :=
  { keys := pairs.map Prod.fst, values := pairs.map Prod.snd, children := children, isLeaf := isLeaf }

theorem Balanced.exists_children (h : Balanced (n + 1) node) :
    ∃ pairs children, node = ofRead false pairs children ∧ children.length = pairs.length + 1
      ∧ ∀ child ∈ children, Balanced n child := by
  obtain ⟨hleaf, hchildren, hvalues, hbalanced⟩ := h
  obtain ⟨pairs, hkeys, hpairs⟩ := exists_zip hvalues.symm
  refine ⟨pairs, node.children, ?_, ?_, hbalanced⟩
  · rw [ofRead, hkeys, hpairs]
    cases node
    cases hleaf
    rfl
  · rw [hchildren, ← hkeys, List.length_map]

/-- What is written of a node with these pairs, and `below` of its children. -/
def nodeBytes (isLeaf : Bool) (pairs : List (UInt64 × IndexEntry)) (below : Bytes) : Bytes :=
  VarInt.encode (UInt64.ofNat pairs.length) ++ (VarInt.encode (if isLeaf then 1 else 0)
    ++ (pairs.flatMap pairBytes ++ below))

theorem length_lt_nodeBytes (isLeaf : Bool) (pairs : List (UInt64 × IndexEntry)) (below : Bytes) :
    below.length < (nodeBytes isLeaf pairs below).length := by
  have hcount := VarInt.length_encode_pos (UInt64.ofNat pairs.length)
  simp only [nodeBytes, List.length_append]
  omega

/-- The bytes of a node, if it can be written. -/
def encoded (node : Node UInt64 IndexEntry) : Bytes :=
  match serializeNode node with
  | .ok bytes => bytes
  | .error _ => []

theorem serializeNodes_eq (h : ∀ child ∈ children, serializeNode child = .ok (encoded child)) :
    serializeNodes children = .ok (children.flatMap encoded) := by
  induction children with
  | nil => rfl
  | cons child children ih =>
      have hrest := ih fun other hmem => h other (List.mem_cons_of_mem child hmem)
      rw [serializeNodes, h child List.mem_cons_self, ok_bind, hrest, ok_bind, pure_eq_ok,
        List.flatMap_cons]

theorem serializeNode_leaf (pairs : List (UInt64 × IndexEntry)) :
    serializeNode (ofRead true pairs []) = .ok (nodeBytes true pairs []) := by
  rw [ofRead, serializeNode, serializePairs_eq, ok_bind, if_pos rfl, pure_eq_ok, ok_bind,
    List.length_map]
  rfl

theorem serializeNode_inner (pairs : List (UInt64 × IndexEntry))
    (h : ∀ child ∈ children, serializeNode child = .ok (encoded child)) :
    serializeNode (ofRead false pairs children)
      = .ok (nodeBytes false pairs (children.flatMap encoded)) := by
  rw [ofRead, serializeNode, serializePairs_eq, ok_bind, if_neg Bool.false_ne_true,
    serializeNodes_eq h, ok_bind, List.length_map]
  rfl

/-- A node is read as its pairs and, unless it is a leaf, its children. -/
theorem deserializeNode_succ {numKeys flag : UInt64} {flagAt start next : Nat}
    (hreserves : reserves order = true)
    (hkeys : readVarInt .corruptIndex data offset = .ok (numKeys, flagAt))
    (hflag : readVarInt .corruptIndex data flagAt = .ok (flag, start))
    (hpairs : readMany (readPair data) numKeys.toNat start = .ok (pairs, next)) :
    deserializeNode reserves order data (fuel + 1) offset
      = if flag ≠ 0 then .ok (ofRead true pairs [], next)
        else match readMany (deserializeNode reserves order data fuel) (numKeys.toNat + 1) next with
          | .ok (children, last) => .ok (ofRead false pairs children, last)
          | .error (_, e) => .error e := by
  rw [deserializeNode, hkeys]
  simp only [bind, Except.bind]
  rw [hflag]
  simp only
  rw [require, if_pos hreserves, hpairs]
  simp only [Except.mapError]
  by_cases hleaf : flag ≠ 0
  · rw [if_pos hleaf, decide_eq_true hleaf]
    rfl
  · rw [if_neg hleaf, decide_eq_false hleaf]
    simp only [Bool.false_eq_true, if_false]
    cases readMany (deserializeNode reserves order data fuel) (numKeys.toNat + 1) next with
    | ok found => rfl
    | error failed => rfl

/-- The pairs of a written node are read back, and its children are ahead. -/
theorem exists_readMany_of_remaining (hcount : pairs.length < 2 ^ 64)
    (h : Remaining data offset (nodeBytes isLeaf pairs below ++ rest)) :
    ∃ numKeys flagAt start next, readVarInt .corruptIndex data offset = .ok (numKeys, flagAt)
      ∧ readVarInt .corruptIndex data flagAt = .ok (if isLeaf then 1 else 0, start)
      ∧ readMany (readPair data) numKeys.toNat start = .ok (pairs, next)
      ∧ numKeys.toNat = pairs.length ∧ Remaining data next (below ++ rest)
      ∧ next + below.length = offset + (nodeBytes isLeaf pairs below).length := by
  simp only [nodeBytes, List.append_assoc] at h
  have hflag := h.advance
  have hpairs := hflag.advance
  have hnumber : (UInt64.ofNat pairs.length).toNat = pairs.length := toNat_ofNat_of_lt hcount
  have hread := readMany_flatMap (fun pair _ pos rest hpair => readPair_of_remaining hpair) hpairs
  rw [List.map_id'] at hread
  refine ⟨_, _, _, _, readVarInt_of_remaining _ h, readVarInt_of_remaining _ hflag, ?_, hnumber,
    hpairs.advance, ?_⟩
  · rw [hnumber]
    exact hread
  · simp only [nodeBytes, List.length_append]
    omega

/-- The node can be written, and it is read back from what that gives. -/
structure Codes (reserves : Nat → Bool) (order n : Nat) (node : Node UInt64 IndexEntry) : Prop where
  serialize_eq : serializeNode node = .ok (encoded node)
  lt_length : n < (encoded node).length
  deserialize_eq : ∀ fuel data offset rest, n < fuel → Remaining data offset (encoded node ++ rest) →
    deserializeNode reserves order data fuel offset = .ok (node, offset + (encoded node).length)

theorem encoded_eq {bytes : Bytes} (h : serializeNode node = .ok bytes) : encoded node = bytes := by
  rw [encoded, h]

theorem codes_leaf (hreserves : reserves order = true) (hcount : pairs.length < 2 ^ 64) :
    Codes reserves order 0 (ofRead true pairs []) := by
  have hserialize := serializeNode_leaf pairs
  have hencoded := encoded_eq hserialize
  refine ⟨hencoded ▸ hserialize, ?_, ?_⟩
  · rw [hencoded]
    exact length_lt_nodeBytes true pairs []
  · intro fuel data offset rest hfuel h
    obtain ⟨fuel, rfl⟩ := Nat.exists_eq_succ_of_ne_zero (Nat.ne_of_gt hfuel)
    rw [hencoded] at h ⊢
    obtain ⟨numKeys, flagAt, start, next, hkeys, hflag, hpairs, -, -, hnext⟩ :=
      exists_readMany_of_remaining hcount h
    rw [deserializeNode_succ hreserves hkeys hflag hpairs, if_pos (by decide), ← hnext]
    rfl

theorem codes_inner (hreserves : reserves order = true) (hcount : pairs.length < 2 ^ 64)
    (hlength : children.length = pairs.length + 1)
    (hchildren : ∀ child ∈ children, Codes reserves order n child) :
    Codes reserves order (n + 1) (ofRead false pairs children) := by
  have hserialize := serializeNode_inner pairs fun child hmem => (hchildren child hmem).serialize_eq
  have hencoded := encoded_eq hserialize
  refine ⟨hencoded ▸ hserialize, ?_, ?_⟩
  · obtain ⟨child, hmem⟩ := List.exists_mem_of_length_pos (show 0 < children.length by omega)
    have hchild : n < (encoded child).length := (hchildren child hmem).lt_length
    have hle : (encoded child).length ≤ (children.flatMap encoded).length :=
      length_encode_le_length_flatMap hmem
    have hlt := length_lt_nodeBytes false pairs (children.flatMap encoded)
    rw [hencoded]
    omega
  · intro fuel data offset rest hfuel h
    obtain ⟨fuel, rfl⟩ := Nat.exists_eq_succ_of_ne_zero (Nat.ne_of_gt (Nat.zero_lt_of_lt hfuel))
    rw [hencoded] at h ⊢
    obtain ⟨numKeys, flagAt, start, next, hkeys, hflag, hpairs, hnumber, hbelow, hnext⟩ :=
      exists_readMany_of_remaining hcount h
    have hmany := readMany_flatMap (fun child hmem pos rest hchild =>
      (hchildren child hmem).deserialize_eq fuel data pos rest (Nat.lt_of_succ_lt_succ hfuel) hchild)
      hbelow
    rw [List.map_id'] at hmany
    rw [deserializeNode_succ hreserves hkeys hflag hpairs, if_neg (by decide), hnumber, ← hlength,
      hmany, hnext]

/-- **A balanced tree is read back.** -/
theorem Balanced.codes (hreserves : reserves order = true) (h : Balanced n node)
    (hcount : node.inOrder.length < 2 ^ 64) : Codes reserves order n node := by
  induction n generalizing node with
  | zero =>
      obtain ⟨pairs, rfl⟩ := h.exists_pairs
      rw [inOrder_ofPairs] at hcount
      exact codes_leaf hreserves hcount
  | succ n ih =>
      have hkeys := h.sublist_keys.length_le
      obtain ⟨pairs, children, rfl, hlength, hbalanced⟩ := h.exists_children
      have hpairs : (ofRead false pairs children).keys.length = pairs.length := List.length_map _
      rw [hpairs, List.length_map] at hkeys
      refine codes_inner hreserves (Nat.lt_of_le_of_lt hkeys hcount) hlength fun child hmem => ?_
      obtain ⟨m, hm, -, hsublist⟩ := h.sublist_child hmem
      exact ih (hbalanced child hmem) (Nat.lt_of_le_of_lt hsublist.length_le hcount)

/-! ### Trees -/

def treeBytes (tree : BTree UInt64 IndexEntry) : Bytes :=
  VarInt.encode (UInt64.ofNat tree.order) ++ (VarInt.encode (UInt64.ofNat tree.size)
    ++ encoded tree.root)

/-- **The index tree survives `serialize` and `deserialize`.** -/
theorem serialize_restores {reserves : Nat → Bool} {order : UInt64} (horder : 3 ≤ order.toNat)
    (hreserves : reserves order.toNat = true) {pairs : List (UInt64 × IndexEntry)}
    (hcount : pairs.length < 2 ^ 64) :
    ∃ (tree : BTree UInt64 IndexEntry) (bytes : Bytes),
      ({ order := order.toNat } : BTree UInt64 IndexEntry).insertAll pairs = .ok tree
      ∧ tree.serialize = .ok bytes
      ∧ ∀ receiver : LoadedBTree, ∃ loaded : LoadedBTree,
        receiver.deserialize reserves bytes = some (loaded, none) ∧ loaded.order = tree.order
        ∧ loaded.size = tree.size ∧ loaded.root = some tree.root
        ∧ ∀ key, loaded.find key = tree.find key := by
  obtain ⟨tree, hrun, hbuilt⟩ := (built_new order.toNat).insertAll horder pairs
  rw [List.nil_append] at hbuilt
  obtain ⟨n, hbalanced, -⟩ := hbuilt.shape
  have hwalk : tree.root.inOrder.length < 2 ^ 64 := hbuilt.perm.length_eq ▸ hcount
  have hcodes : Codes reserves order.toNat n tree.root := hbalanced.codes hreserves hwalk
  have hbytes : tree.serialize = .ok (treeBytes tree) := by
    rw [serialize, hcodes.serialize_eq, ok_bind]
    rfl
  refine ⟨tree, treeBytes tree, hrun, hbytes, ?_⟩
  intro receiver
  refine ⟨{ order := tree.order, size := tree.size, root := some tree.root }, ?_, rfl, rfl, rfl,
    fun _ => rfl⟩
  have hword : (UInt64.ofNat tree.order).toNat = order.toNat := by
    rw [hbuilt.order_eq, UInt64.ofNat_toNat]
  have hsize : (UInt64.ofNat tree.size).toNat = tree.size :=
    toNat_ofNat_of_lt (hbuilt.size_eq ▸ hcount)
  have hstart := remaining_start (treeBytes tree)
  nth_rewrite 2 [treeBytes] at hstart
  have hmiddle := hstart.advance
  have hroot := hmiddle.advance
  rw [← List.append_nil (encoded tree.root)] at hroot
  have hfuel : n < (treeBytes tree).length + 1 := by
    have hlength := hcodes.lt_length
    rw [treeBytes, List.length_append, List.length_append]
    omega
  rw [LoadedBTree.deserialize, readVarInt_of_remaining _ hstart]
  simp only
  rw [readVarInt_of_remaining _ hmiddle]
  simp only
  rw [hword, hcodes.deserialize_eq _ _ _ _ hfuel hroot, hsize, hbuilt.order_eq, LoadedBTree.setRoot]

/-- A root with two children, read over an empty tree. -/
theorem serialize_restores_threeKeys : ∃ (tree : BTree UInt64 IndexEntry) (bytes : Bytes),
    ({ order := 3 } : BTree UInt64 IndexEntry).insertAll
      [(2, { entryId := 2 }), (1, { entryId := 1 }), (3, { entryId := 3 })] = .ok tree
    ∧ tree.serialize = .ok bytes
    ∧ ∀ receiver : LoadedBTree, ∃ loaded : LoadedBTree,
      receiver.deserialize (fun order => decide (0 < order)) bytes = some (loaded, none)
      ∧ loaded.order = tree.order ∧ loaded.size = tree.size ∧ loaded.root = some tree.root
      ∧ ∀ key, loaded.find key = tree.find key :=
  serialize_restores (show 3 ≤ (3 : UInt64).toNat by decide) (by decide) (by decide)

end BTree

end NebulaFS
