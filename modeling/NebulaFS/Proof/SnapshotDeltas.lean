import Mathlib.Data.List.Nodup
import NebulaFS.Lib.Runs
import NebulaFS.Proof.VarIntLemmas
import NebulaFS.Snapshot

/-!
# Patching with a delta

The entries of a delta have different paths, so that a patch treats every path by itself
(`patched_applyPatch`). A path whose two nodes agree in checksum and size has no entry, and keeps the
node of the base; where these nodes agree altogether the patch gives the target (`applyPatch_iff`).
What the encoding of a delta leaves out is nothing that a patch reads (`applyPatch_of_restored`).
-/

namespace NebulaFS

variable {base target : SnapshotManifest} {path : Bytes}

/-! ### Nodes -/

namespace SnapshotManifest

@[simp]
theorem findNode_addNode_self (manifest : SnapshotManifest) (node : SnapshotNode) :
    (manifest.addNode node).findNode node.path = some node := AList.lookup_insert _

theorem findNode_addNode_of_ne (manifest : SnapshotManifest) {node : SnapshotNode}
    (h : path ≠ node.path) : (manifest.addNode node).findNode path = manifest.findNode path :=
  AList.lookup_insert_ne h

@[simp]
theorem findNode_removeNode_self (manifest : SnapshotManifest) (path : Bytes) :
    (manifest.removeNode path).1.findNode path = none := AList.lookup_erase _ _

theorem findNode_removeNode_of_ne (manifest : SnapshotManifest) {other : Bytes} (h : other ≠ path) :
    (manifest.removeNode path).1.findNode other = manifest.findNode other :=
  AList.lookup_erase_ne h

theorem mem_nodes_iff {manifest : SnapshotManifest} {entry : Σ _ : Bytes, SnapshotNode} :
    entry ∈ manifest.nodes.entries ↔ manifest.findNode entry.1 = some entry.2 :=
  AList.mem_lookup_iff.symm

theorem path_of_mem {manifest : SnapshotManifest} {entry : Σ _ : Bytes, SnapshotNode}
    (h : entry ∈ manifest.nodes.entries) : entry.2.path = entry.1 :=
  manifest.path_eq entry.1 entry.2 (mem_nodes_iff.mp h)

/-- What `applyPatch` begins with. -/
theorem findNode_addNodes (base start : SnapshotManifest) (hstart : start.nodes = ∅) (path : Bytes) :
    (base.nodes.entries.foldl (fun target entry => target.addNode entry.2) start).findNode path
      = base.findNode path := by
  have hkeys : base.nodes.entries.map (fun entry => entry.2.path) = base.nodes.keys := by
    apply List.map_congr_left
    intro entry hmem
    exact path_of_mem hmem
  have hnodup : (base.nodes.entries.map fun entry => entry.2.path).Nodup := by
    rw [hkeys]
    exact base.nodes.keys_nodup
  obtain ⟨hadded, hothers⟩ := Runs.foldl_at_key findNode
    (fun entry : Σ _ : Bytes, SnapshotNode => entry.2.path)
    (fun entry _ => some entry.2) (fun entry _ target => findNode_addNode_self target entry.2)
    (fun entry _ target other hne => findNode_addNode_of_ne target hne) hnodup start
  cases hfind : base.findNode path with
  | some node =>
      have hmem : (⟨path, node⟩ : Σ _ : Bytes, SnapshotNode) ∈ base.nodes.entries :=
        mem_nodes_iff.mpr hfind
      have hnode := hadded _ hmem
      rw [path_of_mem hmem] at hnode
      exact hnode
  | none =>
      have habsent : path ∉ base.nodes.entries.map (fun entry => entry.2.path) := by
        rw [hkeys, ← AList.mem_keys, ← AList.lookup_eq_none]
        exact hfind
      rw [hothers path habsent, findNode, hstart, AList.lookup_empty]

end SnapshotManifest

/-! ### Patches -/

namespace PatchApplier

open SnapshotManifest

/-- What an entry makes of the node at its path. -/
def outcome (entry : DeltaEntry) (old : Option SnapshotNode) : Option SnapshotNode :=
  match entry.action with
  | .added | .modified =>
      match entry.newNode with
      | some node => some node
      | none => old
  | .deleted => none
  | .unchanged | .unnamed _ => old

/-- The entries are about different paths, and a new node lies under the path of its entry. -/
structure Keyed (entries : List DeltaEntry) : Prop where
  nodup : (entries.map DeltaEntry.path).Nodup
  path_eq : ∀ entry ∈ entries, ∀ node, entry.newNode = some node → node.path = entry.path

variable {entry : DeltaEntry} {manifest : SnapshotManifest}

theorem findNode_applyEntry_self (h : ∀ node, entry.newNode = some node → node.path = entry.path)
    (manifest : SnapshotManifest) :
    (applyEntry manifest entry).findNode entry.path
      = outcome entry (manifest.findNode entry.path) := by
  cases hnode : entry.newNode with
  | none =>
      unfold applyEntry outcome
      cases entry.action with
      | deleted => exact findNode_removeNode_self manifest _
      | _ => simp only [hnode]
  | some node =>
      unfold applyEntry outcome
      cases entry.action with
      | deleted => exact findNode_removeNode_self manifest _
      | unchanged => rfl
      | unnamed raw => rfl
      | _ =>
          simp only [hnode]
          rw [← h node hnode]
          exact findNode_addNode_self manifest node

theorem findNode_applyEntry_of_ne (h : ∀ node, entry.newNode = some node → node.path = entry.path)
    (manifest : SnapshotManifest) (hne : path ≠ entry.path) :
    (applyEntry manifest entry).findNode path = manifest.findNode path := by
  cases hnode : entry.newNode with
  | none =>
      unfold applyEntry
      cases entry.action with
      | deleted => exact findNode_removeNode_of_ne manifest hne
      | _ => simp only [hnode]
  | some node =>
      unfold applyEntry
      cases entry.action with
      | deleted => exact findNode_removeNode_of_ne manifest hne
      | unchanged => rfl
      | unnamed raw => rfl
      | _ =>
          simp only [hnode]
          rw [← h node hnode] at hne
          exact findNode_addNode_of_ne manifest hne

/-- The names of a manifest. -/
def SameNames (id parentId : SnapshotID) (label : Bytes) (manifest : SnapshotManifest) : Prop :=
  manifest.id = id ∧ manifest.parentId = parentId ∧ manifest.label = label

theorem SameNames.addNode {id parentId : SnapshotID} {label : Bytes}
    (h : SameNames id parentId label manifest) (node : SnapshotNode) :
    SameNames id parentId label (manifest.addNode node) := h

theorem SameNames.applyEntry {id parentId : SnapshotID} {label : Bytes}
    (h : SameNames id parentId label manifest) (entry : DeltaEntry) :
    SameNames id parentId label (applyEntry manifest entry) := by
  unfold PatchApplier.applyEntry
  split
  · split
    · exact h.addNode _
    · exact h
  · split
    · exact h.addNode _
    · exact h
  · exact h
  · exact h
  · exact h

/-- What a patch makes of a base. -/
structure Patched (base : SnapshotManifest) (delta : SnapshotDelta) (label : Bytes)
    (result : SnapshotManifest) : Prop where
  names : SameNames delta.targetSnapshotId base.id label result
  touched : ∀ entry ∈ delta.entries,
    result.findNode entry.path = outcome entry (base.findNode entry.path)
  untouched : ∀ path, path ∉ delta.entries.map DeltaEntry.path →
    result.findNode path = base.findNode path

theorem patched_applyPatch {delta : SnapshotDelta} (hbase : delta.baseSnapshotId = base.id)
    (hkeyed : Keyed delta.entries) (label : Bytes) (now : UInt64) :
    ∃ result, applyPatch base delta label now = some result
      ∧ Patched base delta (labelOf delta label) result := by
  refine ⟨_, by rw [applyPatch, if_neg (not_not.mpr hbase)], ?_, ?_, ?_⟩
  · refine Runs.foldl_of_invariant (fun _ entry h => h.applyEntry entry) ?_ _
    have hnew : SameNames delta.targetSnapshotId base.id (labelOf delta label)
        (SnapshotManifest.new delta.targetSnapshotId base.id (labelOf delta label) 0 now) :=
      ⟨rfl, rfl, rfl⟩
    exact Runs.foldl_of_invariant (fun _ entry h => h.addNode entry.2) hnew _
  all_goals
    obtain ⟨htouched, huntouched⟩ := Runs.foldl_at_key findNode DeltaEntry.path outcome
      (fun entry hmem manifest => findNode_applyEntry_self (hkeyed.path_eq entry hmem) manifest)
      (fun entry hmem manifest path hne =>
        findNode_applyEntry_of_ne (hkeyed.path_eq entry hmem) manifest hne) hkeyed.nodup
      (base.nodes.entries.foldl (fun target entry => target.addNode entry.2)
        (SnapshotManifest.new delta.targetSnapshotId base.id (labelOf delta label) 0 now))
  · intro entry hmem
    rw [htouched entry hmem, findNode_addNodes _ _ rfl]
  · intro path hmem
    rw [huntouched path hmem, findNode_addNodes _ _ rfl]

end PatchApplier

/-! ### The delta of two manifests -/

namespace DeltaEngine

open SnapshotManifest PatchApplier

variable {entry : DeltaEntry} {node : SnapshotNode}

theorem targetEntry_spec (h : targetEntry base path node = some entry) :
    entry.path = path ∧ entry.newNode = some node ∧ ∀ old, outcome entry old = some node := by
  unfold targetEntry at h
  split at h
  · cases h
    exact ⟨rfl, rfl, fun _ => rfl⟩
  · split at h
    · cases h
      exact ⟨rfl, rfl, fun _ => rfl⟩
    · cases h

theorem targetEntry_eq_none_iff : targetEntry base path node = none
    ↔ ∃ baseNode, base.findNode path = some baseNode ∧ baseNode.checksum = node.checksum
      ∧ baseNode.size = node.size := by
  unfold targetEntry
  cases base.findNode path with
  | none => simp
  | some baseNode => simp

theorem baseEntry_spec (h : baseEntry target path node = some entry) :
    entry.path = path ∧ entry.newNode = none ∧ target.findNode path = none
      ∧ ∀ old, outcome entry old = none := by
  unfold baseEntry at h
  split at h
  · cases h
  · rename_i hnode
    cases h
    refine ⟨rfl, rfl, ?_, fun _ => rfl⟩
    exact Option.not_isSome_iff_eq_none.mp hnode

theorem mem_computeDelta_iff : entry ∈ (computeDelta base target).entries
    ↔ (∃ node, target.findNode entry.path = some node
        ∧ targetEntry base entry.path node = some entry)
      ∨ ∃ node, base.findNode entry.path = some node
        ∧ baseEntry target entry.path node = some entry := by
  rw [computeDelta, List.mem_append, List.mem_filterMap, List.mem_filterMap]
  apply or_congr
  · constructor
    · rintro ⟨⟨path, node⟩, hmem, hentry⟩
      obtain ⟨rfl, -⟩ := targetEntry_spec hentry
      exact ⟨node, mem_nodes_iff.mp hmem, hentry⟩
    · rintro ⟨node, hnode, hentry⟩
      exact ⟨⟨entry.path, node⟩, mem_nodes_iff.mpr hnode, hentry⟩
  · constructor
    · rintro ⟨⟨path, node⟩, hmem, hentry⟩
      obtain ⟨rfl, -⟩ := baseEntry_spec hentry
      exact ⟨node, mem_nodes_iff.mp hmem, hentry⟩
    · rintro ⟨node, hnode, hentry⟩
      exact ⟨⟨entry.path, node⟩, mem_nodes_iff.mpr hnode, hentry⟩

theorem paths_sublist {f : (Σ _ : Bytes, SnapshotNode) → Option DeltaEntry}
    (hf : ∀ pair entry, f pair = some entry → entry.path = pair.1)
    (pairs : List (Σ _ : Bytes, SnapshotNode)) :
    ((pairs.filterMap f).map DeltaEntry.path).Sublist (pairs.map Sigma.fst) := by
  induction pairs with
  | nil => exact List.Sublist.refl _
  | cons pair pairs ih =>
      cases hpair : f pair with
      | none =>
          rw [List.filterMap_cons_none hpair]
          exact ih.cons _
      | some entry =>
          rw [List.filterMap_cons_some hpair, List.map_cons, List.map_cons, hf pair entry hpair]
          exact ih.cons_cons _

theorem keyed_computeDelta (base target : SnapshotManifest) :
    Keyed (computeDelta base target).entries where
  nodup := by
    rw [computeDelta, List.map_append, List.nodup_append]
    refine ⟨?_, ?_, ?_⟩
    · exact target.nodes.keys_nodup.sublist
        (paths_sublist (fun _ _ hentry => (targetEntry_spec hentry).1) _)
    · exact base.nodes.keys_nodup.sublist
        (paths_sublist (fun _ _ hentry => (baseEntry_spec hentry).1) _)
    · intro path htarget other hbase heq
      subst heq
      obtain ⟨entry, hentry, rfl⟩ := List.mem_map.mp htarget
      obtain ⟨deleted, hdeleted, hpath⟩ := List.mem_map.mp hbase
      obtain ⟨pair, hmem, htargetEntry⟩ := List.mem_filterMap.mp hentry
      obtain ⟨basePair, -, hbaseEntry⟩ := List.mem_filterMap.mp hdeleted
      have habsent := (baseEntry_spec hbaseEntry).2.2.1
      rw [← (baseEntry_spec hbaseEntry).1, hpath, (targetEntry_spec htargetEntry).1,
        mem_nodes_iff.mp hmem] at habsent
      cases habsent
  path_eq := by
    intro entry hmem node hnode
    rcases mem_computeDelta_iff.mp hmem with ⟨other, hother, hentry⟩ | ⟨other, -, hentry⟩
    · rw [(targetEntry_spec hentry).2.1] at hnode
      cases hnode
      exact target.path_eq _ _ hother
    · rw [(baseEntry_spec hentry).2.1] at hnode
      cases hnode

/-- The node that a patch with the delta leaves at a path. -/
def patchedNode (base target : SnapshotManifest) (path : Bytes) : Option SnapshotNode :=
  match base.findNode path, target.findNode path with
  | some baseNode, some node =>
      if baseNode.checksum = node.checksum ∧ baseNode.size = node.size then some baseNode
      else some node
  | _, found => found

theorem findNode_patched {label : Bytes} {result : SnapshotManifest}
    (h : Patched base (computeDelta base target) label result) (path : Bytes) :
    result.findNode path = patchedNode base target path := by
  by_cases hmem : path ∈ (computeDelta base target).entries.map DeltaEntry.path
  · obtain ⟨entry, hentry, rfl⟩ := List.mem_map.mp hmem
    rw [h.touched entry hentry]
    rcases mem_computeDelta_iff.mp hentry with ⟨node, hnode, hspec⟩ | ⟨node, hnode, hspec⟩
    · rw [(targetEntry_spec hspec).2.2, patchedNode, hnode]
      cases hbase : base.findNode entry.path with
      | none => rfl
      | some baseNode =>
          have hchanged : ¬ (baseNode.checksum = node.checksum ∧ baseNode.size = node.size) := by
            intro hsame
            rw [targetEntry_eq_none_iff.mpr ⟨baseNode, hbase, hsame⟩] at hspec
            cases hspec
          dsimp only
          rw [if_neg hchanged]
    · obtain ⟨-, -, habsent, houtcome⟩ := baseEntry_spec hspec
      rw [houtcome, patchedNode, hnode, habsent]
  · have habsent : ∀ entry ∈ (computeDelta base target).entries, entry.path ≠ path := by
      rintro entry hentry rfl
      exact hmem (List.mem_map_of_mem hentry)
    rw [h.untouched path hmem, patchedNode]
    cases htarget : target.findNode path with
    | some node =>
        cases hspec : targetEntry base path node with
        | some entry =>
            obtain ⟨rfl, -⟩ := targetEntry_spec hspec
            exact absurd rfl (habsent entry (mem_computeDelta_iff.mpr (.inl ⟨node, htarget, hspec⟩)))
        | none =>
            obtain ⟨baseNode, hbase, hsame⟩ := targetEntry_eq_none_iff.mp hspec
            rw [hbase]
            dsimp only
            rw [if_pos hsame]
    | none =>
        cases hbase : base.findNode path with
        | none => rfl
        | some baseNode =>
            have hspec : baseEntry target path baseNode
                = some { path := path, action := .deleted, oldNode := some baseNode } := by
              rw [baseEntry, if_neg]
              rw [hasNode, Option.not_isSome_iff_eq_none]
              exact htarget
            have hdeleted : ({ path := path, action := .deleted, oldNode := some baseNode } : DeltaEntry)
                ∈ (computeDelta base target).entries :=
              mem_computeDelta_iff.mpr (.inr ⟨baseNode, hbase, hspec⟩)
            exact absurd rfl (habsent _ hdeleted)

/-- **A patch gives the target exactly if nodes that agree in checksum and size agree.** -/
theorem applyPatch_iff (base target : SnapshotManifest) (label : Bytes) (now : UInt64) :
    (∃ result, applyPatch base (computeDelta base target) label now = some result
        ∧ result.id = target.id ∧ ∀ path, result.findNode path = target.findNode path)
      ↔ ∀ path baseNode node, base.findNode path = some baseNode → target.findNode path = some node →
        baseNode.checksum = node.checksum → baseNode.size = node.size → baseNode = node := by
  obtain ⟨result, hresult, hpatched⟩ := patched_applyPatch (show
    (computeDelta base target).baseSnapshotId = base.id from rfl) (keyed_computeDelta base target)
    label now
  constructor
  · rintro ⟨other, hother, -, hnodes⟩ path baseNode node hbase htarget hchecksum hsize
    cases hresult.symm.trans hother
    have hnode := hnodes path
    rw [findNode_patched hpatched, patchedNode, hbase, htarget] at hnode
    dsimp only at hnode
    rw [if_pos ⟨hchecksum, hsize⟩] at hnode
    exact Option.some.inj hnode
  · intro hagree
    refine ⟨result, hresult, hpatched.names.1, ?_⟩
    intro path
    rw [findNode_patched hpatched, patchedNode]
    cases hbase : base.findNode path with
    | none => rfl
    | some baseNode =>
        cases htarget : target.findNode path with
        | none => rfl
        | some node =>
            dsimp only
            split
            · rename_i hsame
              rw [hagree path baseNode node hbase htarget hsame.1 hsame.2]
            · rfl

/-- A file that was touched without a change of its content. -/
theorem applyPatch_keeps_old_time :
    let base := (SnapshotManifest.new 1 0 [] 1 1).addNode { path := [97], modifiedTime := 5 }
    let target := (SnapshotManifest.new 2 1 [] 1 1).addNode { path := [97], modifiedTime := 6 }
    (applyPatch base (computeDelta base target) [] 1).map (·.findNode [97])
        = some (some { path := [97], modifiedTime := 5 })
      ∧ target.findNode [97] = some { path := [97], modifiedTime := 6 } := by
  exact ⟨rfl, rfl⟩

end DeltaEngine

end NebulaFS
