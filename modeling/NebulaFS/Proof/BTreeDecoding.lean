import NebulaFS.Proof.BTreePersistence

/-!
# Which bytes decode to a usable tree

`Forest` says of the bytes what they have to hold: nodes one after the other, each followed by its own
children, with a number of keys in all. `deserializeNode` finds out whether they do (`settles_node`), and
what it makes of them has the shape a look-up relies on. `deserialize` takes a null pointer for a root and
does not compare the keys with the size, so a tree it loads is usable just where the bytes are right.
-/

namespace NebulaFS

open Cursor

namespace BTree

/-! ### Looking up in a node of the right shape -/

section

variable {κ ν : Type} {node child : Node κ ν} {fuel : Nat}

/-- Every node has a value for every key, and every inner node one child more than keys. -/
def Shaped (root : Node κ ν) : Prop :=
  ∀ node, node = root ∨ node.Under root → node.values.length = node.keys.length
    ∧ (node.isLeaf = false → node.children.length = node.keys.length + 1)

theorem Shaped.of_mem (h : Shaped node) (hmem : child ∈ node.children) : Shaped child := by
  rintro lower (rfl | hunder)
  · exact h lower (.inr (.child hmem))
  · exact h lower (.inr (.step hmem hunder))

theorem shaped_of_children (hvalues : node.values.length = node.keys.length)
    (hlength : node.isLeaf = false → node.children.length = node.keys.length + 1)
    (h : ∀ child ∈ node.children, Shaped child) : Shaped node := by
  rintro lower (rfl | hunder)
  · exact ⟨hvalues, hlength⟩
  · cases hunder with
    | child hmem => exact h lower hmem lower (.inl rfl)
    | step hmem hlower => exact h _ hmem lower (.inr hlower)

theorem depth_le_depths {nodes : List (Node κ ν)} (h : child ∈ nodes) : child.depth ≤ depths nodes := by
  induction nodes with
  | nil => cases h
  | cons node nodes ih =>
      rw [depths]
      rcases List.mem_cons.mp h with rfl | hmem
      · exact Nat.le_max_left _ _
      · exact Nat.le_trans (ih hmem) (Nat.le_max_right _ _)

theorem depth_lt_of_mem (h : child ∈ node.children) : child.depth < node.depth := by
  cases node
  rw [Node.depth]
  exact Nat.lt_succ_of_le (depth_le_depths h)

theorem exists_get {α : Type} {items : List α} {i : Nat} (h : i < items.length) :
    ∃ item ∈ items, get items i = .ok item :=
  ⟨items[i], List.getElem_mem h, get_of_getElem? (List.getElem?_eq_getElem h)⟩

theorem Shaped.exists_findInternal [LinearOrder κ] (h : Shaped node) (hfuel : node.depth ≤ fuel)
    (key : κ) : ∃ answer, findInternal key fuel node = .ok answer := by
  induction fuel generalizing node with
  | zero =>
      cases node
      rw [Node.depth] at hfuel
      exact absurd hfuel (Nat.not_succ_le_zero _)
  | succ fuel ih =>
      obtain ⟨hvalues, hchildren⟩ := h node (.inl rfl)
      rw [findInternal]
      by_cases hhit : node.keys[scan node.keys key]? = some key
      · have hlt : scan node.keys key < node.values.length := by
          rw [hvalues]
          exact (List.getElem?_eq_some_iff.mp hhit).1
        obtain ⟨value, -, hvalue⟩ := exists_get hlt
        exact ⟨some value, by rw [if_pos hhit, hvalue]; rfl⟩
      · rw [if_neg hhit]
        cases hleaf : node.isLeaf with
        | true => exact ⟨none, rfl⟩
        | false =>
            have hlt : scan node.keys key < node.children.length := by
              rw [hchildren hleaf]
              exact Nat.lt_succ_of_le (scan_le node.keys key)
            obtain ⟨child, hmem, hget⟩ := exists_get hlt
            have hdepth := depth_lt_of_mem hmem
            rw [if_neg Bool.false_ne_true, hget, ok_bind]
            exact ih (h.of_mem hmem) (by omega)

mutual

/-- The number of keys in the tree. -/
def Node.keyCount : Node κ ν → Nat
  | ⟨keys, _, children, _⟩ => keys.length + keyCounts children

def keyCounts : List (Node κ ν) → Nat
  | [] => 0
  | node :: nodes => node.keyCount + keyCounts nodes

end

end

variable {reserves : Nat → Bool} {order fuel offset next : Nat} {data : Bytes}

/-! ### What the bytes hold -/

/-- Two varints one after the other. -/
def TwoVarInts (data : Bytes) (offset : Nat) (first second : UInt64) (next : Nat) : Prop :=
  ∃ mid, readVarInt .corruptIndex data offset = .ok (first, mid)
    ∧ readVarInt .corruptIndex data mid = .ok (second, next)

/-- Four varints, and a checksum if there are bytes enough for one. -/
def PairAt (data : Bytes) (offset next : Nat) : Prop :=
  ∃ key entryId mid entryOffset size last, TwoVarInts data offset key entryId mid
    ∧ TwoVarInts data mid entryOffset size last
    ∧ next = if last + 32 ≤ data.length then last + 32 else last

/-- `nodes` encoded nodes, each with its children behind it, and the number of keys in them. -/
inductive Forest (data : Bytes) : (nodes offset last keys : Nat) → Prop
  | nil {offset : Nat} : Forest data 0 offset offset 0
  | node {nodes offset start next last keys : Nat} {numKeys flag : UInt64}
      (hhead : TwoVarInts data offset numKeys flag start)
      (hpairs : Chain (PairAt data) numKeys.toNat start next)
      (hrest : Forest data ((if flag = 0 then numKeys.toNat + 1 else 0) + nodes) next last keys) :
      Forest data (nodes + 1) offset last (numKeys.toNat + keys)

theorem TwoVarInts.unique {first second first' second' : UInt64} {next' : Nat}
    (h : TwoVarInts data offset first second next) (h' : TwoVarInts data offset first' second' next') :
    first = first' ∧ second = second' ∧ next = next' := by
  obtain ⟨mid, hfirst, hsecond⟩ := h
  obtain ⟨mid', hfirst', hsecond'⟩ := h'
  cases hfirst.symm.trans hfirst'
  cases hsecond.symm.trans hsecond'
  exact ⟨rfl, rfl, rfl⟩

theorem exists_readChecksum (data : Bytes) (offset : Nat) :
    ∃ checksum, readChecksum data offset
      = .ok (checksum, if offset + 32 ≤ data.length then offset + 32 else offset) := by
  by_cases h : offset + 32 ≤ data.length
  · rw [readChecksum, if_pos h, if_pos h, readArr, dif_pos h]
    exact ⟨_, rfl⟩
  · rw [readChecksum, if_neg h, if_neg h]
    exact ⟨_, rfl⟩

theorem pairAt_iff (data : Bytes) (offset next : Nat) :
    PairAt data offset next ↔ ∃ pair, readPair data offset = .ok (pair, next) := by
  constructor
  · rintro ⟨key, entryId, mid, entryOffset, size, last, ⟨_, hkey, hentryId⟩, ⟨_, hoffset, hsize⟩, rfl⟩
    obtain ⟨checksum, hchecksum⟩ := exists_readChecksum data last
    refine ⟨(key, ⟨entryId, entryOffset, size, checksum⟩), ?_⟩
    refine bind_eq_ok_iff.mpr ⟨_, hkey, bind_eq_ok_iff.mpr ⟨_, hentryId, ?_⟩⟩
    refine bind_eq_ok_iff.mpr ⟨_, hoffset, bind_eq_ok_iff.mpr ⟨_, hsize, ?_⟩⟩
    exact bind_eq_ok_iff.mpr ⟨_, hchecksum, rfl⟩
  · rintro ⟨pair, h⟩
    obtain ⟨⟨key, keyEnd⟩, hkey, h⟩ := bind_eq_ok_iff.mp h
    obtain ⟨⟨entryId, mid⟩, hentryId, h⟩ := bind_eq_ok_iff.mp h
    obtain ⟨⟨entryOffset, offsetEnd⟩, hoffset, h⟩ := bind_eq_ok_iff.mp h
    obtain ⟨⟨size, last⟩, hsize, h⟩ := bind_eq_ok_iff.mp h
    obtain ⟨found, hfound, h⟩ := bind_eq_ok_iff.mp h
    obtain ⟨checksum, hchecksum⟩ := exists_readChecksum data last
    cases hchecksum.symm.trans hfound
    cases h
    exact ⟨key, entryId, mid, entryOffset, size, last, ⟨keyEnd, hkey, hentryId⟩,
      ⟨offsetEnd, hoffset, hsize⟩, rfl⟩

theorem readChecksum_inside (h : offset ≤ data.length) :
    Yields (· = .returned .corruptIndex) (fun found => offset ≤ found.2 ∧ found.2 ≤ data.length)
      (readChecksum data offset) := by
  obtain ⟨checksum, hchecksum⟩ := exists_readChecksum data offset
  rw [hchecksum]
  simp only [Yields]
  split <;> omega

theorem readPair_inside (h : offset ≤ data.length) :
    Yields (· = .returned .corruptIndex) (fun found => offset ≤ found.2 ∧ found.2 ≤ data.length)
      (readPair data offset) := by
  refine (readVarInt_inside .corruptIndex h).bind fun key hkey => ?_
  refine (readVarInt_inside .corruptIndex hkey.2).bind fun entryId hentryId => ?_
  refine (readVarInt_inside .corruptIndex hentryId.2).bind fun entryOffset hoffset => ?_
  refine (readVarInt_inside .corruptIndex hoffset.2).bind fun size hsize => ?_
  refine (readChecksum_inside hsize.2).bind fun checksum hchecksum => ?_
  exact ⟨by omega, hchecksum.2⟩

/-- A head and its pairs are followed by the children and what comes after the node. -/
theorem forest_succ_iff {numKeys flag : UInt64} {start : Nat} {pairs : List (UInt64 × IndexEntry)}
    (hhead : TwoVarInts data offset numKeys flag start)
    (hpairs : readMany (readPair data) numKeys.toNat start = .ok (pairs, next)) (nodes last keys : Nat) :
    Forest data (nodes + 1) offset last keys ↔ ∃ rest, keys = numKeys.toNat + rest
      ∧ Forest data ((if flag = 0 then numKeys.toNat + 1 else 0) + nodes) next last rest := by
  constructor
  · intro h
    cases h with
    | node hhead' hpairs' hrest =>
        obtain ⟨rfl, rfl, rfl⟩ := hhead.unique hhead'
        obtain ⟨pairs', hread⟩ := (chain_iff (pairAt_iff data) _ _ _).mp hpairs'
        cases hpairs.symm.trans hread
        exact ⟨_, rfl, hrest⟩
  · rintro ⟨rest, rfl, hrest⟩
    exact .node hhead ((chain_iff (pairAt_iff data) _ _ _).mpr ⟨pairs, hpairs⟩) hrest

/-! ### What a node is read as -/

theorem keyCount_ofRead (isLeaf : Bool) (pairs : List (UInt64 × IndexEntry))
    (children : List (Node UInt64 IndexEntry)) :
    (ofRead isLeaf pairs children).keyCount = pairs.length + keyCounts children := by
  rw [ofRead, Node.keyCount, List.length_map]

theorem shaped_ofRead_leaf (pairs : List (UInt64 × IndexEntry)) : Shaped (ofRead true pairs []) :=
  shaped_of_children (by simp [ofRead]) (fun h => by cases h) (fun _ hmem => by cases hmem)

theorem shaped_ofRead_inner {pairs : List (UInt64 × IndexEntry)}
    {children : List (Node UInt64 IndexEntry)} (hlength : children.length = pairs.length + 1)
    (h : ∀ child ∈ children, Shaped child) : Shaped (ofRead false pairs children) :=
  shaped_of_children (by simp [ofRead]) (fun _ => by simp [ofRead, hlength]) h

/-- There is no encoded node. -/
structure Refuses (data : Bytes) (offset : Nat) (e : Fault ErrorCode) : Prop where
  error_eq : e = .returned .corruptIndex
  not_forest : ∀ nodes last keys, ¬ Forest data (nodes + 1) offset last keys

/-- There is an encoded node up to `next`. -/
structure Decodes (data : Bytes) (offset : Nat) (node : Node UInt64 IndexEntry) (next : Nat) : Prop where
  offset_lt : offset < next
  le_length : next ≤ data.length
  shaped : Shaped node
  forest_iff : ∀ nodes last keys, Forest data (nodes + 1) offset last keys
    ↔ ∃ rest, keys = node.keyCount + rest ∧ Forest data nodes next last rest

/-- The children of a node are read one after the other. -/
theorem settles_nodes {read : Nat → Except (Fault ErrorCode) (Node UInt64 IndexEntry × Nat)}
    {start : Nat} (hread : ∀ pos, start ≤ pos → pos ≤ data.length →
      Yields (Refuses data pos) (fun found => Decodes data pos found.1 found.2) (read pos))
    (count : Nat) {pos : Nat} (hstart : start ≤ pos) (hpos : pos ≤ data.length) :
    Yields (fun failed => failed.2 = .returned .corruptIndex
        ∧ ∀ nodes last keys, ¬ Forest data (count + nodes) pos last keys)
      (fun found => pos ≤ found.2 ∧ found.2 ≤ data.length ∧ (∀ child ∈ found.1, Shaped child)
        ∧ ∀ nodes last keys, Forest data (count + nodes) pos last keys
          ↔ ∃ rest, keys = keyCounts found.1 + rest ∧ Forest data nodes found.2 last rest)
      (readMany read count pos) := by
  induction count generalizing pos with
  | zero =>
      refine ⟨Nat.le_refl _, hpos, by simp, ?_⟩
      intro nodes last keys
      simp [keyCounts]
  | succ count ih =>
      have hhead := hread pos hstart hpos
      rw [readMany]
      cases hnode : read pos with
      | error e =>
          rw [hnode] at hhead
          refine ⟨hhead.error_eq, ?_⟩
          intro nodes last keys
          rw [Nat.add_right_comm]
          exact hhead.not_forest _ _ _
      | ok found =>
          obtain ⟨node, mid⟩ := found
          rw [hnode] at hhead
          have hdecodes : Decodes data pos node mid := hhead
          have htail := ih (Nat.le_trans hstart (Nat.le_of_lt hdecodes.offset_lt)) hdecodes.le_length
          simp only
          cases hrest : readMany read count mid with
          | error failed =>
              rw [hrest] at htail
              obtain ⟨herror, hnone⟩ := htail
              refine ⟨herror, ?_⟩
              intro nodes last keys hforest
              rw [Nat.add_right_comm, hdecodes.forest_iff] at hforest
              obtain ⟨rest, -, hbehind⟩ := hforest
              exact hnone _ _ _ hbehind
          | ok found =>
              obtain ⟨children, next⟩ := found
              rw [hrest] at htail
              obtain ⟨hle, hinside, hshaped, hforest⟩ := htail
              refine ⟨Nat.le_trans (Nat.le_of_lt hdecodes.offset_lt) hle, hinside, ?_, ?_⟩
              · intro child hmem
                rcases List.mem_cons.mp hmem with rfl | hmem
                · exact hdecodes.shaped
                · exact hshaped child hmem
              · intro nodes last keys
                rw [Nat.add_right_comm, hdecodes.forest_iff]
                simp only [hforest, keyCounts]
                constructor
                · rintro ⟨_, rfl, rest, rfl, hbehind⟩
                  exact ⟨rest, by omega, hbehind⟩
                · rintro ⟨rest, rfl, hbehind⟩
                  exact ⟨_, by rw [Nat.add_assoc], rest, rfl, hbehind⟩

theorem pairs_inside (h : offset ≤ data.length) (count : Nat) :
    Yields (fun failed => failed.2 = .returned .corruptIndex)
      (fun found => offset ≤ found.2 ∧ found.2 ≤ data.length)
      (readMany (readPair data) count offset) :=
  readMany_advances (fun _ _ hpos => readPair_inside hpos) count (Nat.le_refl offset) h

theorem twoVarInts_cases (h : offset ≤ data.length) :
    (∃ first second next, TwoVarInts data offset first second next ∧ offset < next
      ∧ next ≤ data.length)
    ∨ ((∀ first second next, ¬ TwoVarInts data offset first second next)
      ∧ (readVarInt .corruptIndex data offset = .error (.returned .corruptIndex)
        ∨ ∃ first mid, readVarInt .corruptIndex data offset = .ok (first, mid)
          ∧ readVarInt .corruptIndex data mid = .error (.returned .corruptIndex))) := by
  have hfirst := readVarInt_inside .corruptIndex h
  cases hread : readVarInt .corruptIndex data offset with
  | error e =>
      rw [hread] at hfirst
      obtain rfl : e = .returned .corruptIndex := hfirst
      refine .inr ⟨?_, .inl rfl⟩
      rintro first second next ⟨mid, hok, -⟩
      cases hread.symm.trans hok
  | ok found =>
      obtain ⟨first, mid⟩ := found
      rw [hread] at hfirst
      have hsecond := readVarInt_inside .corruptIndex hfirst.2
      cases hread' : readVarInt .corruptIndex data mid with
      | error e =>
          rw [hread'] at hsecond
          obtain rfl : e = .returned .corruptIndex := hsecond
          refine .inr ⟨?_, .inr ⟨first, mid, rfl, hread'⟩⟩
          rintro first' second next ⟨mid', hok, hok'⟩
          cases hread.symm.trans hok
          cases hread'.symm.trans hok'
      | ok found =>
          rw [hread'] at hsecond
          exact .inl ⟨first, found.1, found.2, ⟨mid, hread, hread'⟩,
            Nat.lt_trans hfirst.1 hsecond.1, hsecond.2⟩

/-- Without its two head varints a node is a null pointer. -/
theorem deserializeNode_of_headless
    (h : readVarInt .corruptIndex data offset = .error (.returned .corruptIndex)
      ∨ ∃ first mid, readVarInt .corruptIndex data offset = .ok (first, mid)
        ∧ readVarInt .corruptIndex data mid = .error (.returned .corruptIndex)) :
    deserializeNode reserves order data (fuel + 1) offset = .error (.returned .corruptIndex) := by
  rcases h with hfirst | ⟨first, mid, hfirst, hsecond⟩
  · rw [deserializeNode, hfirst]
    rfl
  · rw [deserializeNode, hfirst]
    simp only [bind, Except.bind]
    rw [hsecond]

theorem deserializeNode_of_not_reserves {numKeys flag : UInt64} (hreserves : reserves order = false)
    (h : TwoVarInts data offset numKeys flag next) :
    deserializeNode reserves order data (fuel + 1) offset = .error (.returned .outOfMemory) := by
  obtain ⟨mid, hfirst, hsecond⟩ := h
  rw [deserializeNode, hfirst]
  simp only [bind, Except.bind]
  rw [hsecond]
  simp only
  rw [require, hreserves, if_neg Bool.false_ne_true]

theorem deserializeNode_of_no_pairs {numKeys flag : UInt64} {start : Nat}
    {failed : List (UInt64 × IndexEntry) × Fault ErrorCode} (hreserves : reserves order = true)
    (h : TwoVarInts data offset numKeys flag start)
    (hpairs : readMany (readPair data) numKeys.toNat start = .error failed) :
    deserializeNode reserves order data (fuel + 1) offset = .error failed.2 := by
  obtain ⟨mid, hfirst, hsecond⟩ := h
  rw [deserializeNode, hfirst]
  simp only [bind, Except.bind]
  rw [hsecond]
  simp only
  rw [require, if_pos hreserves, hpairs]
  rfl

theorem not_forest_of_headless (h : ∀ numKeys flag start, ¬ TwoVarInts data offset numKeys flag start)
    (nodes last keys : Nat) : ¬ Forest data (nodes + 1) offset last keys := by
  intro hforest
  cases hforest with
  | node hhead hpairs hrest => exact h _ _ _ hhead

theorem not_forest_of_no_pairs {numKeys flag : UInt64} {start : Nat}
    {failed : List (UInt64 × IndexEntry) × Fault ErrorCode}
    (h : TwoVarInts data offset numKeys flag start)
    (hpairs : readMany (readPair data) numKeys.toNat start = .error failed) (nodes last keys : Nat) :
    ¬ Forest data (nodes + 1) offset last keys := by
  intro hforest
  cases hforest with
  | node hhead hchain hrest =>
      obtain ⟨rfl, rfl, rfl⟩ := h.unique hhead
      obtain ⟨pairs, hread⟩ := (chain_iff (pairAt_iff data) _ _ _).mp hchain
      cases hpairs.symm.trans hread

theorem decodes_leaf {numKeys flag : UInt64} {start : Nat} {pairs : List (UInt64 × IndexEntry)}
    (hhead : TwoVarInts data offset numKeys flag start) (hleaf : flag ≠ 0)
    (hpairs : readMany (readPair data) numKeys.toNat start = .ok (pairs, next))
    (hlt : offset < next) (hinside : next ≤ data.length) :
    Decodes data offset (ofRead true pairs []) next := by
  refine ⟨hlt, hinside, shaped_ofRead_leaf pairs, ?_⟩
  intro nodes last keys
  rw [forest_succ_iff hhead hpairs, if_neg hleaf, Nat.zero_add, keyCount_ofRead,
    length_of_readMany hpairs, keyCounts, Nat.add_zero]

/-- An inner node is settled by the loop over its children. -/
theorem settles_inner {numKeys : UInt64} {start : Nat} {pairs : List (UInt64 × IndexEntry)}
    {read : Nat → Except (Fault ErrorCode) (Node UInt64 IndexEntry × Nat)}
    (hhead : TwoVarInts data offset numKeys 0 start)
    (hpairs : readMany (readPair data) numKeys.toNat start = .ok (pairs, next))
    (hlt : offset < next) (hinside : next ≤ data.length)
    (hread : ∀ pos, next ≤ pos → pos ≤ data.length →
      Yields (Refuses data pos) (fun found => Decodes data pos found.1 found.2) (read pos)) :
    Yields (Refuses data offset) (fun found => Decodes data offset found.1 found.2)
      (match readMany read (numKeys.toNat + 1) next with
        | .ok (children, last) => .ok (ofRead false pairs children, last)
        | .error (_, e) => .error e) := by
  have hlength := length_of_readMany hpairs
  have hforest := forest_succ_iff hhead hpairs
  rw [if_pos rfl] at hforest
  have hchildren := settles_nodes hread (numKeys.toNat + 1) (Nat.le_refl _) hinside
  cases hmany : readMany read (numKeys.toNat + 1) next with
  | error failed =>
      rw [hmany] at hchildren
      refine ⟨hchildren.1, ?_⟩
      intro nodes last keys h
      obtain ⟨rest, -, hbelow⟩ := (hforest nodes last keys).mp h
      exact hchildren.2 _ _ _ hbelow
  | ok found =>
      obtain ⟨children, last⟩ := found
      rw [hmany] at hchildren
      obtain ⟨hbehind, hinside, hshaped, hbelow⟩ := hchildren
      have hcount : children.length = pairs.length + 1 := by
        rw [length_of_readMany hmany, hlength]
      refine ⟨Nat.lt_of_lt_of_le hlt hbehind, hinside, shaped_ofRead_inner hcount hshaped, ?_⟩
      intro nodes last keys
      rw [hforest, keyCount_ofRead, hlength]
      simp only [hbelow]
      constructor
      · rintro ⟨_, rfl, rest, rfl, hafter⟩
        exact ⟨rest, by rw [Nat.add_assoc], hafter⟩
      · rintro ⟨rest, rfl, hafter⟩
        exact ⟨_, by rw [Nat.add_assoc], rest, rfl, hafter⟩

/-- **A node is read just where the bytes hold one.** -/
theorem settles_node (hreserves : reserves order = true) (hoffset : offset ≤ data.length)
    (hfuel : data.length - offset < fuel) :
    Yields (Refuses data offset) (fun found => Decodes data offset found.1 found.2)
      (deserializeNode reserves order data fuel offset) := by
  induction fuel generalizing offset with
  | zero => exact absurd hfuel (Nat.not_lt_zero _)
  | succ fuel ih =>
      rcases twoVarInts_cases hoffset with
        ⟨numKeys, flag, start, hhead, hstart, hinside⟩ | ⟨hnone, hread⟩
      · have hbounds := pairs_inside hinside numKeys.toNat
        cases hpairs : readMany (readPair data) numKeys.toNat start with
        | error failed =>
            rw [hpairs] at hbounds
            rw [deserializeNode_of_no_pairs hreserves hhead hpairs]
            exact ⟨hbounds, not_forest_of_no_pairs hhead hpairs⟩
        | ok found =>
            obtain ⟨pairs, next⟩ := found
            rw [hpairs] at hbounds
            obtain ⟨hle, hinside⟩ := hbounds
            have hlt : offset < next := Nat.lt_of_lt_of_le hstart hle
            have hchildren : ∀ pos, next ≤ pos → pos ≤ data.length → Yields (Refuses data pos)
                (fun found => Decodes data pos found.1 found.2)
                (deserializeNode reserves order data fuel pos) :=
              fun pos hpos hinside => ih hinside (by omega)
            have ⟨mid, hkeys, hflag⟩ := hhead
            rw [deserializeNode_succ hreserves hkeys hflag hpairs]
            by_cases hleaf : flag ≠ 0
            · rw [if_pos hleaf]
              exact decodes_leaf hhead hleaf hpairs hlt hinside
            · rw [if_neg hleaf]
              rw [not_not.mp hleaf] at hhead
              exact settles_inner hhead hpairs hlt hinside hchildren
      · rw [deserializeNode_of_headless hread]
        exact ⟨rfl, not_forest_of_headless hnone⟩

end BTree

namespace LoadedBTree

open BTree

variable {reserves : Nat → Bool} {receiver loaded : LoadedBTree} {order size : UInt64} {start : Nat}
  {data : Bytes}

/-- There is a root, every node has the right shape, there are as many keys as the size says, and no
look-up goes outside. -/
def Usable (tree : LoadedBTree) : Prop :=
  ∃ root, tree.root = some root ∧ Shaped root ∧ root.keyCount = tree.size
    ∧ ∀ key, ∃ answer, tree.find key = .ok answer

/-- Behind an order and a size there is a tree with that many keys. Where there is no memory for a node
of that order, it takes the head of one for the exception to come. -/
def HoldsTree (reserves : Nat → Bool) (data : Bytes) : Prop :=
  ∀ order size start, TwoVarInts data 0 order size start →
    (reserves order.toNat = true → ∃ last, Forest data 1 start last size.toNat)
    ∧ (reserves order.toNat = false → ∃ numKeys flag next, TwoVarInts data start numKeys flag next)

theorem deserialize_of_headless (h : ∀ order size start, ¬ TwoVarInts data 0 order size start) :
    receiver.deserialize reserves data ≠ some (loaded, none) := by
  intro hloads
  rw [deserialize] at hloads
  split at hloads
  · cases hloads
  · rename_i order mid horder
    split at hloads
    · cases hloads
    · rename_i size start hsize
      exact h order size start ⟨mid, horder, hsize⟩

theorem deserialize_of_head (h : TwoVarInts data 0 order size start) :
    receiver.deserialize reserves data
      = setRoot { receiver with order := order.toNat, size := size.toNat }
        (deserializeNode reserves order.toNat data (data.length + 1) start) := by
  obtain ⟨mid, horder, hsize⟩ := h
  rw [deserialize, horder]
  simp only [hsize]

theorem usable_iff (order size : Nat) {root : Node UInt64 IndexEntry} (h : Shaped root) :
    Usable { order := order, size := size, root := some root } ↔ root.keyCount = size := by
  constructor
  · rintro ⟨root', hroot, -, hcount, -⟩
    cases hroot
    exact hcount
  · intro hcount
    exact ⟨root, rfl, h, hcount, fun key => h.exists_findInternal (Nat.le_refl _) key⟩

theorem not_usable_null (order size : Nat) :
    ¬ Usable { order := order, size := size, root := none } := by
  rintro ⟨root, hroot, -⟩
  cases hroot

theorem exists_forest_zero_iff {offset keys : Nat} :
    (∃ last, Forest data 0 offset last keys) ↔ keys = 0 := by
  constructor
  · rintro ⟨last, h⟩
    cases h
    rfl
  · rintro rfl
    exact ⟨offset, .nil⟩

/-- **When a decoded tree is usable.** -/
theorem usable_of_deserialize_iff (reserves : Nat → Bool) (receiver : LoadedBTree) (data : Bytes) :
    (∀ loaded, receiver.deserialize reserves data = some (loaded, none) → loaded.Usable)
      ↔ HoldsTree reserves data := by
  rcases twoVarInts_cases (Nat.zero_le data.length) with
    ⟨order, size, start, hhead, -, hinside⟩ | ⟨hnone, -⟩
  · have hholds : HoldsTree reserves data
        ↔ (reserves order.toNat = true → ∃ last, Forest data 1 start last size.toNat)
          ∧ (reserves order.toNat = false →
            ∃ numKeys flag next, TwoVarInts data start numKeys flag next) := by
      constructor
      · intro h
        exact h order size start hhead
      · intro h order' size' start' hhead'
        obtain ⟨rfl, rfl, rfl⟩ := hhead.unique hhead'
        exact h
    rw [hholds, deserialize_of_head hhead]
    cases hreserves : reserves order.toNat with
    | true =>
        have hfuel : data.length - start < data.length + 1 := by omega
        have hroot := settles_node hreserves hinside hfuel
        cases hread : deserializeNode reserves order.toNat data (data.length + 1) start with
        | error e =>
            rw [hread] at hroot
            obtain rfl : e = .returned .corruptIndex := hroot.error_eq
            constructor
            · intro h
              exact absurd (h _ rfl) (not_usable_null _ _)
            · rintro ⟨hforest, -⟩
              obtain ⟨last, htree⟩ := hforest rfl
              exact absurd htree (hroot.not_forest _ _ _)
        | ok found =>
            obtain ⟨root, next⟩ := found
            rw [hread] at hroot
            have hdecodes : Decodes data start root next := hroot
            constructor
            · intro h
              have hcount := (usable_iff _ _ hdecodes.shaped).mp (h _ rfl)
              refine ⟨fun _ => ⟨next, ?_⟩, fun hfalse => absurd hfalse.symm Bool.false_ne_true⟩
              exact (hdecodes.forest_iff 0 next _).mpr ⟨0, hcount.symm, .nil⟩
            · rintro ⟨hforest, -⟩ loaded hloads
              obtain ⟨last, htree⟩ := hforest rfl
              obtain ⟨rest, hsize, hrest⟩ := (hdecodes.forest_iff 0 last _).mp htree
              obtain rfl := exists_forest_zero_iff.mp ⟨last, hrest⟩
              cases hloads
              exact (usable_iff _ _ hdecodes.shaped).mpr hsize.symm
    | false =>
        rcases twoVarInts_cases hinside with ⟨numKeys, flag, next, hnode, -⟩ | ⟨hnone, hread⟩
        · rw [deserializeNode_of_not_reserves hreserves hnode]
          constructor
          · intro _
            exact ⟨fun htrue => absurd htrue Bool.false_ne_true, fun _ => ⟨numKeys, flag, next, hnode⟩⟩
          · intro _ loaded hloads
            cases hloads
        · rw [deserializeNode_of_headless hread]
          constructor
          · intro h
            exact absurd (h _ rfl) (not_usable_null _ _)
          · rintro ⟨-, hexists⟩
            obtain ⟨numKeys, flag, next, hnode⟩ := hexists rfl
            exact absurd hnode (hnone _ _ _)
  · constructor
    · intro _ order size start hhead
      exact absurd hhead (hnone _ _ _)
    · intro _ loaded hloads
      exact absurd hloads (deserialize_of_headless hnone)

/-- An order of four and a size of zero, and no node: a success, and a look-up in what it loads
dereferences a null pointer. -/
theorem not_usable_rootless : ∃ loaded : LoadedBTree,
    LoadedBTree.deserialize (fun order => decide (0 < order)) { order := 128 } [4, 0]
      = some (loaded, none)
    ∧ ¬ loaded.Usable ∧ loaded.find 7 = .error .outOfBounds :=
  ⟨{ order := 4, size := 0, root := none }, by rfl, not_usable_null 4 0, rfl⟩

end LoadedBTree

end NebulaFS
