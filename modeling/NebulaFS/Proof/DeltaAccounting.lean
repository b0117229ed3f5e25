import Mathlib.Data.UInt
import Mathlib.Tactic.Abel
import NebulaFS.Lib.Association
import NebulaFS.Proof.DeltaCodec

/-!
# What the counts of a delta say

The nodes of the target are those of the base at paths that both have, changed or not, and the added
ones, while the deleted ones are left out. So a weight of nodes that only depends on what the comparison
looks at adds up to the same on both sides of a delta (`total_add_sum`), and the sizes and the number of
nodes are such weights (`delta_accounts`). A stored delta has no old nodes and no lists of new blocks.
Of the questions that read those it answers just the ones whose answer was nothing
(`answers_of_restored`).
-/

namespace NebulaFS

open SnapshotManifest SnapshotDelta PatchApplier

variable {base target : SnapshotManifest} {path : Bytes}

namespace DeltaEngine

variable {entry : DeltaEntry} {node : SnapshotNode}

/-- The entries of a delta, by where their path has a node. -/
theorem computeDelta_cases (h : entry ∈ (computeDelta base target).entries) :
    (∃ node, base.findNode entry.path = none ∧ target.findNode entry.path = some node
      ∧ entry = { path := entry.path, action := .added, newNode := some node
                  newBlockIds := node.blockIds })
    ∨ (∃ baseNode node, base.findNode entry.path = some baseNode
      ∧ target.findNode entry.path = some node
      ∧ (baseNode.checksum ≠ node.checksum ∨ baseNode.size ≠ node.size)
      ∧ entry = { path := entry.path, action := .modified, oldNode := some baseNode
                  newNode := some node
                  newBlockIds := node.blockIds.filter fun bId => bId ∉ baseNode.blockIds })
    ∨ ∃ baseNode, base.findNode entry.path = some baseNode ∧ target.findNode entry.path = none
      ∧ entry = { path := entry.path, action := .deleted, oldNode := some baseNode } := by
  rcases mem_computeDelta_iff.mp h with ⟨node, hnode, hentry⟩ | ⟨node, hnode, hentry⟩
  · unfold targetEntry at hentry
    cases hbase : base.findNode entry.path with
    | none =>
        rw [hbase] at hentry
        exact .inl ⟨node, rfl, hnode, (Option.some.inj hentry).symm⟩
    | some baseNode =>
        rw [hbase] at hentry
        dsimp only at hentry
        split_ifs at hentry with hchanged
        exact .inr (.inl ⟨baseNode, node, rfl, hnode, hchanged, (Option.some.inj hentry).symm⟩)
  · have habsent := (baseEntry_spec hentry).2.2.1
    rw [baseEntry] at hentry
    split_ifs at hentry
    exact .inr (.inr ⟨node, hnode, habsent, (Option.some.inj hentry).symm⟩)

theorem nodes_of_mem (h : entry ∈ (computeDelta base target).entries) :
    entry.oldNode = base.findNode entry.path ∧ entry.newNode = target.findNode entry.path := by
  rcases computeDelta_cases h with ⟨node, hbase, htarget, hentry⟩
    | ⟨baseNode, node, hbase, htarget, -, hentry⟩ | ⟨baseNode, hbase, htarget, hentry⟩
  all_goals
    rw [hbase, htarget, hentry]
    exact ⟨rfl, rfl⟩

section

variable {M : Type*} [AddCommMonoid M] {weight : SnapshotNode → M} {plus minus : DeltaEntry → M}

/-- A weight of nodes that is balanced at every entry. -/
structure Balanced (base target : SnapshotManifest) (weight : SnapshotNode → M)
    (plus minus : DeltaEntry → M) : Prop where
  unchanged : ∀ baseNode node : SnapshotNode, baseNode.checksum = node.checksum →
    baseNode.size = node.size → weight baseNode = weight node
  entry : ∀ entry ∈ (computeDelta base target).entries,
    entry.newNode.elim 0 weight + minus entry = entry.oldNode.elim 0 weight + plus entry

theorem Balanced.total_target (h : Balanced base target weight plus minus) :
    target.nodes.total weight
        + (target.nodes.entries.map fun pair =>
            (targetEntry base pair.1 pair.2).elim 0 minus).sum
      = (target.nodes.entries.map fun pair => (base.nodes.lookup pair.1).elim 0 weight).sum
        + (target.nodes.entries.map fun pair =>
            (targetEntry base pair.1 pair.2).elim 0 plus).sum := by
  rw [AList.total, ← List.sum_map_add, ← List.sum_map_add]
  apply congrArg List.sum
  apply List.map_congr_left
  intro pair hmem
  cases hspec : targetEntry base pair.1 pair.2 with
  | none =>
      obtain ⟨baseNode, hbase, hchecksum, hsize⟩ := targetEntry_eq_none_iff.mp hspec
      rw [findNode] at hbase
      rw [hbase, Option.elim_some, h.unchanged baseNode pair.2 hchecksum hsize]
      rfl
  | some entry =>
      obtain ⟨hpath, hnew, -⟩ := targetEntry_spec hspec
      have hentry : entry ∈ (computeDelta base target).entries := by
        refine mem_computeDelta_iff.mpr (.inl ⟨pair.2, ?_, ?_⟩)
        · rw [hpath]
          exact mem_nodes_iff.mp hmem
        · rw [hpath]
          exact hspec
      have hbalance := h.entry entry hentry
      rw [hnew, (nodes_of_mem hentry).1, hpath] at hbalance
      exact hbalance

theorem Balanced.total_base (h : Balanced base target weight plus minus) :
    base.nodes.total weight
        + (base.nodes.entries.map fun pair => (baseEntry target pair.1 pair.2).elim 0 plus).sum
      = (base.nodes.entries.map fun pair =>
            if (target.nodes.lookup pair.1).isSome then weight pair.2 else 0).sum
        + (base.nodes.entries.map fun pair =>
            (baseEntry target pair.1 pair.2).elim 0 minus).sum := by
  rw [AList.total, ← List.sum_map_add, ← List.sum_map_add]
  apply congrArg List.sum
  apply List.map_congr_left
  intro pair hmem
  by_cases hkept : (target.nodes.lookup pair.1).isSome
  · rw [if_pos hkept, baseEntry, if_pos (show target.hasNode pair.1 = true from hkept)]
    rfl
  · have hspec : baseEntry target pair.1 pair.2
        = some { path := pair.1, action := .deleted, oldNode := some pair.2 } := by
      rw [baseEntry, if_neg (show ¬ target.hasNode pair.1 = true from hkept)]
    have hentry : ({ path := pair.1, action := .deleted, oldNode := some pair.2 } : DeltaEntry)
        ∈ (computeDelta base target).entries :=
      mem_computeDelta_iff.mpr (.inr ⟨pair.2, mem_nodes_iff.mp hmem, hspec⟩)
    rw [if_neg hkept, hspec]
    exact (h.entry _ hentry).symm

theorem sum_computeDelta (base target : SnapshotManifest) (f : DeltaEntry → M) :
    ((computeDelta base target).entries.map f).sum
      = (target.nodes.entries.map fun pair => (targetEntry base pair.1 pair.2).elim 0 f).sum
        + (base.nodes.entries.map fun pair => (baseEntry target pair.1 pair.2).elim 0 f).sum := by
  rw [computeDelta, List.map_append, List.sum_append, AList.sum_filterMap, AList.sum_filterMap]

/-- The nodes that the target has of the base are in both totals. -/
theorem Balanced.total_add_sum (h : Balanced base target weight plus minus) :
    target.nodes.total weight + ((computeDelta base target).entries.map minus).sum
      = base.nodes.total weight + ((computeDelta base target).entries.map plus).sum := by
  rw [sum_computeDelta, sum_computeDelta]
  calc
    target.nodes.total weight
        + ((target.nodes.entries.map fun pair => (targetEntry base pair.1 pair.2).elim 0 minus).sum
          + (base.nodes.entries.map fun pair => (baseEntry target pair.1 pair.2).elim 0 minus).sum)
      = (target.nodes.entries.map fun pair => (base.nodes.lookup pair.1).elim 0 weight).sum
          + (target.nodes.entries.map fun pair => (targetEntry base pair.1 pair.2).elim 0 plus).sum
          + (base.nodes.entries.map fun pair => (baseEntry target pair.1 pair.2).elim 0 minus).sum := by
        rw [← add_assoc, h.total_target]
    _ = (base.nodes.entries.map fun pair =>
            if (target.nodes.lookup pair.1).isSome then weight pair.2 else 0).sum
          + (base.nodes.entries.map fun pair => (baseEntry target pair.1 pair.2).elim 0 minus).sum
          + (target.nodes.entries.map fun pair =>
            (targetEntry base pair.1 pair.2).elim 0 plus).sum := by
        rw [AList.sum_common, add_right_comm]
    _ = base.nodes.total weight
          + (base.nodes.entries.map fun pair => (baseEntry target pair.1 pair.2).elim 0 plus).sum
          + (target.nodes.entries.map fun pair =>
            (targetEntry base pair.1 pair.2).elim 0 plus).sum := by
        rw [← h.total_base]
    _ = base.nodes.total weight
          + ((target.nodes.entries.map fun pair => (targetEntry base pair.1 pair.2).elim 0 plus).sum
            + (base.nodes.entries.map fun pair =>
              (baseEntry target pair.1 pair.2).elim 0 plus).sum) := by
        rw [add_assoc, add_comm (base.nodes.entries.map _).sum]

end

theorem balanced_sizes (base target : SnapshotManifest) :
    Balanced base target SnapshotNode.size entryAddedBytes entryDeletedBytes where
  unchanged := fun _ _ _ hsize => hsize
  entry := by
    intro entry hmem
    rcases computeDelta_cases hmem with ⟨node, -, -, hentry⟩ | ⟨baseNode, node, -, -, -, hentry⟩
      | ⟨baseNode, -, -, hentry⟩
    · rw [hentry]
      exact add_comm _ _
    · rw [hentry]
      change node.size + (if node.size < baseNode.size then baseNode.size - node.size else 0)
        = baseNode.size + (if baseNode.size < node.size then node.size - baseNode.size else 0)
      by_cases hshrinks : node.size < baseNode.size
      · have hgrows : ¬ baseNode.size < node.size := UInt64.not_lt.mpr (UInt64.le_of_lt hshrinks)
        rw [if_pos hshrinks, if_neg hgrows]
        abel
      · by_cases hgrows : baseNode.size < node.size
        · rw [if_neg hshrinks, if_pos hgrows]
          abel
        · rw [if_neg hshrinks, if_neg hgrows,
            UInt64.le_antisymm (UInt64.not_lt.mp hgrows) (UInt64.not_lt.mp hshrinks)]
    · rw [hentry]
      exact add_comm _ _

theorem balanced_count (base target : SnapshotManifest) :
    Balanced base target (fun _ => 1) (fun entry => if entry.action == .added then 1 else 0)
      (fun entry => if entry.action == .deleted then 1 else 0) where
  unchanged := fun _ _ _ _ => rfl
  entry := by
    intro entry hmem
    rcases computeDelta_cases hmem with ⟨node, -, -, hentry⟩ | ⟨baseNode, node, -, -, -, hentry⟩
      | ⟨baseNode, -, -, hentry⟩
    all_goals
      rw [hentry]
      rfl

theorem countP_eq_sum (p : DeltaEntry → Bool) (entries : List DeltaEntry) :
    entries.countP p = (entries.map fun entry => if p entry then 1 else 0).sum := by
  induction entries with
  | nil => rfl
  | cons entry entries ih => rw [List.countP_cons, ih, List.map_cons, List.sum_cons, add_comm]

theorem foldl_add_eq_sum {α : Type*} (f : α → UInt64) (items : List α) :
    items.foldl (fun total item => total + f item) 0 = (items.map f).sum := by
  rw [List.sum_eq_foldl, List.foldl_map]

/-- **What a delta adds and takes away is the difference.** -/
theorem delta_accounts (base target : SnapshotManifest) :
    target.totalSize = base.totalSize + (computeDelta base target).addedBytes
        - (computeDelta base target).deletedBytes
      ∧ target.nodes.entries.length + (computeDelta base target).deletedCount
        = base.nodes.entries.length + (computeDelta base target).addedCount
      ∧ ((computeDelta base target).entries.map DeltaEntry.path).Nodup := by
  refine ⟨?_, ?_, (keyed_computeDelta base target).nodup⟩
  · have hsizes := (balanced_sizes base target).total_add_sum
    rw [totalSize, totalSize, addedBytes, deletedBytes, foldl_add_eq_sum, foldl_add_eq_sum,
      foldl_add_eq_sum, foldl_add_eq_sum]
    exact eq_sub_of_add_eq hsizes
  · have hcounts := (balanced_count base target).total_add_sum
    rw [AList.total, AList.total, List.map_const', List.map_const', List.sum_replicate,
      List.sum_replicate, ← countP_eq_sum, ← countP_eq_sum] at hcounts
    rw [deletedCount, addedCount]
    simpa using hcounts

/-! ### What a stored delta still answers -/

/-- The path has a node in both manifests, and the delta lists them. -/
structure Changed (base target : SnapshotManifest) (path : Bytes) (baseNode node : SnapshotNode) :
    Prop where
  base : base.findNode path = some baseNode
  target : target.findNode path = some node
  differ : baseNode.checksum ≠ node.checksum ∨ baseNode.size ≠ node.size

/-- What the encoding has of an entry. -/
def carried (entry : DeltaEntry) : DeltaEntry :=
  { path := entry.path, action := entry.action, newNode := entry.newNode }

/-- The part of `addedBytes` that is the growth of a node. -/
def entryGrownBytes (entry : DeltaEntry) : UInt64 :=
  match entry.action, entry.newNode, entry.oldNode with
  | .modified, some newNode, some oldNode =>
      if oldNode.size < newNode.size then newNode.size - oldNode.size else 0
  | _, _, _ => 0

/-- What a stored delta answers, and when these are the answers of the delta itself. -/
structure Restored (base target : SnapshotManifest) (restored : SnapshotDelta) : Prop where
  baseSnapshotId : restored.baseSnapshotId = base.id
  targetSnapshotId : restored.targetSnapshotId = target.id
  entries : restored.entries = (computeDelta base target).entries.map carried
  reused : computeReusedBlocks restored = []
  reused_iff : computeReusedBlocks restored = computeReusedBlocks (computeDelta base target)
    ↔ ∀ path baseNode node, Changed base target path baseNode node →
      ∀ bId ∈ node.blockIds, bId ∉ baseNode.blockIds
  addedBytes : (computeDelta base target).addedBytes
    = restored.addedBytes + ((computeDelta base target).entries.map entryGrownBytes).sum
  deletedBytes : restored.deletedBytes = 0
  newBlockIds_iff : restored.entries.map DeltaEntry.newBlockIds
      = (computeDelta base target).entries.map DeltaEntry.newBlockIds
    ↔ (∀ path node, base.findNode path = none → target.findNode path = some node →
        node.blockIds = [])
      ∧ ∀ path baseNode node, Changed base target path baseNode node →
        ∀ bId ∈ node.blockIds, bId ∈ baseNode.blockIds

theorem entryAddedBytes_carried (entry : DeltaEntry) :
    entryAddedBytes entry = entryAddedBytes (carried entry) + entryGrownBytes entry := by
  obtain ⟨path, action, oldNode, newNode, newBlockIds⟩ := entry
  cases action with
  | added =>
      cases newNode with
      | none => rfl
      | some node => exact (add_zero node.size).symm
  | modified =>
      cases newNode with
      | none => rfl
      | some node =>
          cases oldNode with
          | none => rfl
          | some baseNode => exact (zero_add _).symm
  | unchanged => rfl
  | deleted => rfl
  | unnamed raw => rfl

theorem entryDeletedBytes_carried (entry : DeltaEntry) : entryDeletedBytes (carried entry) = 0 := by
  obtain ⟨path, action, oldNode, newNode, newBlockIds⟩ := entry
  cases action with
  | modified =>
      cases newNode with
      | none => rfl
      | some node => rfl
  | _ => rfl

theorem entryReusedBlocks_carried (entry : DeltaEntry) : entryReusedBlocks (carried entry) = [] := by
  obtain ⟨path, action, oldNode, newNode, newBlockIds⟩ := entry
  cases action with
  | _ => rfl

theorem mem_of_added (hbase : base.findNode path = none) (htarget : target.findNode path = some node) :
    ({ path := path, action := .added, newNode := some node
       newBlockIds := node.blockIds } : DeltaEntry)
      ∈ (computeDelta base target).entries := by
  refine mem_computeDelta_iff.mpr (.inl ⟨node, htarget, ?_⟩)
  rw [targetEntry, hbase]

theorem Changed.mem {baseNode : SnapshotNode} (h : Changed base target path baseNode node) :
    ({ path := path, action := .modified, oldNode := some baseNode, newNode := some node
       newBlockIds := node.blockIds.filter fun bId => bId ∉ baseNode.blockIds } : DeltaEntry)
      ∈ (computeDelta base target).entries := by
  refine mem_computeDelta_iff.mpr (.inl ⟨node, h.target, ?_⟩)
  rw [targetEntry, h.base]
  exact if_pos h.differ

theorem computeReusedBlocks_eq_nil_iff : computeReusedBlocks (computeDelta base target) = []
    ↔ ∀ path baseNode node, Changed base target path baseNode node →
      ∀ bId ∈ node.blockIds, bId ∉ baseNode.blockIds := by
  rw [computeReusedBlocks, List.flatMap_eq_nil_iff]
  constructor
  · intro hnone path baseNode node hchanged bId hnew hold
    have hreused : (node.blockIds.filter fun bId => bId ∈ baseNode.blockIds) = [] :=
      hnone _ hchanged.mem
    exact List.filter_eq_nil_iff.mp hreused bId hnew (decide_eq_true hold)
  · intro hdisjoint entry hmem
    rcases computeDelta_cases hmem with ⟨node, -, -, hentry⟩
      | ⟨baseNode, node, hbase, htarget, hdiffer, hentry⟩ | ⟨baseNode, -, -, hentry⟩
    · rw [hentry]
      rfl
    · rw [hentry]
      apply List.filter_eq_nil_iff.mpr
      intro bId hnew hold
      exact hdisjoint _ _ _ ⟨hbase, htarget, hdiffer⟩ bId hnew (of_decide_eq_true hold)
    · rw [hentry]
      rfl

theorem newBlockIds_eq_nil_iff :
    (∀ entry ∈ (computeDelta base target).entries, entry.newBlockIds = [])
      ↔ (∀ path node, base.findNode path = none → target.findNode path = some node →
          node.blockIds = [])
        ∧ ∀ path baseNode node, Changed base target path baseNode node →
          ∀ bId ∈ node.blockIds, bId ∈ baseNode.blockIds := by
  constructor
  · intro hnone
    refine ⟨fun path node hbase htarget => hnone _ (mem_of_added hbase htarget), ?_⟩
    intro path baseNode node hchanged bId hnew
    have hkept : (node.blockIds.filter fun bId => bId ∉ baseNode.blockIds) = [] :=
      hnone _ hchanged.mem
    by_contra hold
    exact List.filter_eq_nil_iff.mp hkept bId hnew (decide_eq_true hold)
  · rintro ⟨hadded, hchanged⟩ entry hmem
    rcases computeDelta_cases hmem with ⟨node, hbase, htarget, hentry⟩
      | ⟨baseNode, node, hbase, htarget, hdiffer, hentry⟩ | ⟨baseNode, -, -, hentry⟩
    · rw [hentry]
      exact hadded _ _ hbase htarget
    · rw [hentry]
      apply List.filter_eq_nil_iff.mpr
      intro bId hnew hold
      exact of_decide_eq_true hold (hchanged _ _ _ ⟨hbase, htarget, hdiffer⟩ bId hnew)
    · rw [hentry]

/-- The new nodes of a delta lie under the paths of their entries. -/
theorem entries_stripped : (computeDelta base target).stripped.entries
    = (computeDelta base target).entries.map carried := by
  apply List.map_congr_left
  intro entry hmem
  have hpath := (keyed_computeDelta base target).path_eq entry hmem
  rw [stripEntry, carried]
  cases hnode : entry.newNode with
  | none => rfl
  | some node =>
      rw [Option.map_some, ← hpath node hnode]

/-- **A stored delta answers what it carries.** It has the ids, and of each entry the path, the action
and the new node. So it lists no reused and no new blocks, counts no deleted bytes, and of the added
ones only those of added nodes. -/
theorem answers_of_restored (base target : SnapshotManifest)
    (hfits : (computeDelta base target).serialize.length < 2 ^ 64) :
    ∃ restored, deserialize (computeDelta base target).serialize = .ok restored
      ∧ Restored base target restored := by
  refine ⟨(computeDelta base target).stripped, deserialize_serialize _ hfits, ?_⟩
  have hreused : computeReusedBlocks (computeDelta base target).stripped = [] := by
    rw [computeReusedBlocks, entries_stripped, List.flatMap_map, List.flatMap_eq_nil_iff]
    exact fun entry _ => entryReusedBlocks_carried entry
  refine ⟨rfl, rfl, entries_stripped, hreused, ?_, ?_, ?_, ?_⟩
  · rw [hreused, eq_comm, computeReusedBlocks_eq_nil_iff]
  · rw [SnapshotDelta.addedBytes, SnapshotDelta.addedBytes, foldl_add_eq_sum, foldl_add_eq_sum,
      entries_stripped, List.map_map, ← List.sum_map_add]
    apply congrArg List.sum
    exact List.map_congr_left fun entry _ => entryAddedBytes_carried entry
  · rw [SnapshotDelta.deletedBytes, foldl_add_eq_sum, entries_stripped, List.map_map]
    apply List.sum_eq_zero
    intro bytes hmem
    obtain ⟨entry, -, rfl⟩ := List.mem_map.mp hmem
    exact entryDeletedBytes_carried entry
  · rw [entries_stripped, List.map_map, List.map_inj_left, ← newBlockIds_eq_nil_iff]
    exact forall₂_congr fun entry _ => eq_comm

/-- A file that shrinks. -/
theorem answers_of_restored_oneFile :
    let base := (SnapshotManifest.new 1 0 [] 1 1).addNode { path := [97], size := 5, blockIds := [1] }
    let target := (SnapshotManifest.new 2 1 [] 1 1).addNode { path := [97], size := 2, blockIds := [1] }
    ∃ restored, deserialize (computeDelta base target).serialize = .ok restored
      ∧ Restored base target restored :=
  answers_of_restored _ _ (by decide +kernel)

/-- A file that grows by a block, and one that goes. -/
theorem answers_lost :
    let base := ((SnapshotManifest.new 1 0 [] 1 1).addNode
      { path := [97], size := 1, blockIds := [1] }).addNode { path := [98], size := 4 }
    let target := (SnapshotManifest.new 2 1 [] 1 1).addNode
      { path := [97], size := 3, blockIds := [1, 2] }
    let delta := computeDelta base target
    computeReusedBlocks delta = [1] ∧ delta.addedBytes = 2 ∧ delta.deletedBytes = 4
      ∧ delta.entries.map DeltaEntry.newBlockIds = [[2], []]
      ∧ ∃ restored, deserialize delta.serialize = .ok restored
        ∧ computeReusedBlocks restored = [] ∧ restored.addedBytes = 0 ∧ restored.deletedBytes = 0
        ∧ restored.entries.map DeltaEntry.newBlockIds = [[], []] := by
  intro base target delta
  refine ⟨by decide +kernel, by decide +kernel, by decide +kernel, by decide +kernel, delta.stripped,
    ?_, by decide +kernel, by decide +kernel, by decide +kernel, by decide +kernel⟩
  exact deserialize_serialize delta (by decide +kernel)

end DeltaEngine

end NebulaFS
