import NebulaFS.Lib.MaximalRuns
import NebulaFS.Proof.DeltaCodec
import NebulaFS.SnapshotManager

/-!
# Chains of deltas

A copy of one snapshot can be brought to another with the delta between the two, and on from there. A
delta passes over a file whose size and checksum are the same in both, so the copy comes to have the
files of the snapshot with their sizes and checksums, and of each file the oldest node of those that
agreed in both ever since (`Follows`).
-/

namespace NebulaFS

open MaximalRuns

/-- What a delta compares of two nodes at a path. -/
def sizeAndSum (found : Option SnapshotNode) : Option (UInt64 × UInt32) :=
  found.map fun node => (node.size, node.checksum)

/-! ### One delta, for any copy of its base -/

namespace DeltaEngine

open SnapshotManifest PatchApplier

variable {base target copy result : SnapshotManifest} {path : Bytes}

theorem outcome_of_mem {entry : DeltaEntry} (h : entry ∈ (computeDelta base target).entries) :
    (∀ old, outcome entry old = target.findNode entry.path)
      ∧ sizeAndSum (base.findNode entry.path) ≠ sizeAndSum (target.findNode entry.path) := by
  rcases mem_computeDelta_iff.mp h with ⟨node, hnode, hentry⟩ | ⟨node, hnode, hentry⟩
  · refine ⟨fun old => ((targetEntry_spec hentry).2.2 old).trans hnode.symm, ?_⟩
    intro hsame
    rw [hnode] at hsame
    obtain ⟨baseNode, hbase, heq⟩ := Option.map_eq_some_iff.mp hsame
    obtain ⟨hsize, hsum⟩ := Prod.mk.inj heq
    rw [targetEntry_eq_none_iff.mpr ⟨baseNode, hbase, hsum, hsize⟩] at hentry
    cases hentry
  · obtain ⟨-, -, habsent, houtcome⟩ := baseEntry_spec hentry
    refine ⟨fun old => (houtcome old).trans habsent.symm, ?_⟩
    rw [hnode, habsent]
    exact Option.some_ne_none _

theorem sizeAndSum_of_not_mem
    (h : path ∉ (computeDelta base target).entries.map DeltaEntry.path) :
    sizeAndSum (base.findNode path) = sizeAndSum (target.findNode path) := by
  have habsent {entry : DeltaEntry} (hentry : entry ∈ (computeDelta base target).entries) :
      entry.path ≠ path := fun hpath => h (hpath ▸ List.mem_map_of_mem hentry)
  cases htarget : target.findNode path with
  | some node =>
      cases hentry : targetEntry base path node with
      | none =>
          obtain ⟨baseNode, hbase, hsum, hsize⟩ := targetEntry_eq_none_iff.mp hentry
          rw [hbase, sizeAndSum, sizeAndSum, Option.map_some, Option.map_some, hsum, hsize]
      | some entry =>
          obtain rfl := (targetEntry_spec hentry).1
          exact (habsent (mem_computeDelta_iff.mpr (.inl ⟨node, htarget, hentry⟩)) rfl).elim
  | none =>
      cases hbase : base.findNode path with
      | none => rfl
      | some node =>
          cases hentry : baseEntry target path node with
          | none =>
              rw [baseEntry, hasNode, show target.nodes.lookup path = none from htarget] at hentry
              cases hentry
          | some entry =>
              obtain rfl := (baseEntry_spec hentry).1
              exact (habsent (mem_computeDelta_iff.mpr (.inr ⟨node, hbase, hentry⟩)) rfl).elim

/-- A patch of a copy that agrees with the base in what the delta compares. -/
theorem findNode_patched_copy {label : Bytes}
    (h : Patched copy (computeDelta base target).stripped label result)
    (hsame : ∀ path, sizeAndSum (copy.findNode path) = sizeAndSum (base.findNode path))
    (path : Bytes) :
    result.findNode path
      = if sizeAndSum (copy.findNode path) = sizeAndSum (target.findNode path) then
          copy.findNode path
        else target.findNode path := by
  by_cases hmem : path ∈ (computeDelta base target).entries.map DeltaEntry.path
  · obtain ⟨entry, hentry, rfl⟩ := List.mem_map.mp hmem
    obtain ⟨houtcome, hchanged⟩ := outcome_of_mem hentry
    have htouched := h.touched _ (List.mem_map_of_mem hentry)
    rw [SnapshotDelta.outcome_stripEntry ((keyed_computeDelta base target).path_eq entry hentry),
      houtcome] at htouched
    rw [if_neg (hsame entry.path ▸ hchanged)]
    exact htouched
  · have hpaths : (computeDelta base target).stripped.entries.map DeltaEntry.path
        = (computeDelta base target).entries.map DeltaEntry.path := by
      rw [SnapshotDelta.stripped, List.map_map]
      rfl
    rw [h.untouched path (hpaths ▸ hmem), if_pos ((hsame path).trans (sizeAndSum_of_not_mem hmem))]

end DeltaEngine

/-! ### Copies -/

namespace SnapshotManager

open SnapshotManifest PatchApplier DeltaEngine

variable {manager : SnapshotManager} {ids : List SnapshotID} {copy : SnapshotManifest}

structure Hop where
  id : SnapshotID
  label : Bytes := []
  now : UInt64 := 0

/-- The delta from the snapshot that the copy is of to another is encoded, decoded and applied. -/
def catchUp (manager : SnapshotManager) (copy : SnapshotManifest) (hop : Hop) :
    Option SnapshotManifest :=
  match manager.createDelta copy.id hop.id with
  | none => none
  | some delta =>
      match SnapshotDelta.deserialize delta.serialize with
      | .ok decoded => applyPatch copy decoded hop.label hop.now
      | .error _ => none

/-- What the snapshots have at a path. -/
def versions (manager : SnapshotManager) (ids : List SnapshotID) (path : Bytes) :
    List (Option SnapshotNode) :=
  ids.map fun id => (manager.getSnapshot id).bind (·.findNode path)

/-- A copy that was brought through these snapshots. -/
structure Follows (manager : SnapshotManager) (ids : List SnapshotID) (copy : SnapshotManifest) :
    Prop where
  current : ids.getLast? = some copy.id
  stored : copy.id ∈ manager.manifests
  nodes : ∀ path,
    firstOfLastRun sizeAndSum (manager.versions ids path) = some (copy.findNode path)

/-- Every manifest is stored under its own id. -/
def OwnIds (manager : SnapshotManager) : Prop :=
  ∀ id manifest, manager.getSnapshot id = some manifest → manifest.id = id

theorem OwnIds.insert (h : OwnIds manager) (added : SnapshotManifest) {after : SnapshotManager}
    (hafter : after.manifests = manager.manifests.insert added.id added) : OwnIds after := by
  intro id manifest hfound
  rw [getSnapshot, hafter] at hfound
  by_cases hid : id = added.id
  · rw [hid, AList.lookup_insert] at hfound
    obtain rfl := Option.some.inj hfound
    exact hid.symm
  · rw [AList.lookup_insert_ne hid] at hfound
    exact h id manifest hfound

theorem OwnIds.step (h : OwnIds manager) (call : Call) : OwnIds (manager.step call) := by
  cases call with
  | createSnapshot label currentNodes now =>
      let manifest := currentNodes.foldl SnapshotManifest.addNode
        (.new manager.nextSnapshotId manager.currentSnapshotId label 0 now)
      have hnames : SameNames manager.nextSnapshotId manager.currentSnapshotId label manifest :=
        Runs.foldl_of_invariant (fun _ node h => h.addNode node) ⟨rfl, rfl, rfl⟩ _
      refine h.insert manifest ?_
      rw [hnames.1]
      rfl
  | registerSnapshot manifest =>
      change OwnIds (manager.registerSnapshot manifest).2
      simp only [registerSnapshot]
      split
      · exact h
      · exact h.insert manifest rfl
  | checkoutSnapshot id =>
      change OwnIds (manager.checkoutSnapshot id).2
      unfold checkoutSnapshot
      split
      · exact h
      · exact h
  | deleteSnapshot id first =>
      change OwnIds (manager.deleteSnapshot id first).2
      unfold deleteSnapshot
      split
      · intro other manifest hfound
        rw [getSnapshot] at hfound
        by_cases hid : other = id
        · rw [hid, AList.lookup_erase] at hfound
          cases hfound
        · rw [AList.lookup_erase_ne hid] at hfound
          exact h other manifest hfound
      · exact h

theorem ownIds_run (calls : List Call) : OwnIds (run {} calls) :=
  Runs.foldl_of_invariant (fun _ call h => h.step call) (fun id manifest hfound => by cases hfound)
    calls

theorem exists_getSnapshot {id : SnapshotID} (h : id ∈ manager.manifests) :
    ∃ manifest, manager.getSnapshot id = some manifest :=
  Option.isSome_iff_exists.mp (AList.lookup_isSome.mpr h)

theorem createDelta_eq {i j : SnapshotID} {source target : SnapshotManifest}
    (hsource : manager.getSnapshot i = some source) (htarget : manager.getSnapshot j = some target) :
    manager.createDelta i j = some (computeDelta source target) := by
  rw [getSnapshot] at hsource htarget
  rw [createDelta, hsource, htarget]

theorem follows_start {id : SnapshotID} (hown : OwnIds manager)
    (hfound : manager.getSnapshot id = some copy) : Follows manager [id] copy := by
  have hid := hown id copy hfound
  refine ⟨by rw [hid]; rfl, ?_, fun path => ?_⟩
  · rw [hid]
    exact AList.lookup_isSome.mp (Option.isSome_iff_exists.mpr ⟨copy, hfound⟩)
  · rw [versions, List.map_singleton, hfound]
    exact firstOfLastRun_singleton _ _

theorem Follows.sizeAndSum_eq (h : Follows manager ids copy) {snapshot : SnapshotManifest}
    (hfound : manager.getSnapshot copy.id = some snapshot) (path : Bytes) :
    sizeAndSum (copy.findNode path) = sizeAndSum (snapshot.findNode path) := by
  obtain ⟨last, hlast, hkey⟩ := exists_last_of_firstOfLastRun (h.nodes path)
  rw [versions, List.getLast?_map, h.current, Option.map_some, hfound] at hlast
  obtain rfl := Option.some.inj hlast
  exact hkey

theorem Follows.catchUp (h : Follows manager ids copy) (hown : OwnIds manager) {hop : Hop}
    (hstored : hop.id ∈ manager.manifests)
    (hfits : ∀ delta ∈ manager.createDelta copy.id hop.id, delta.serialize.length < 2 ^ 64) :
    ∃ next, manager.catchUp copy hop = some next ∧ Follows manager (ids ++ [hop.id]) next := by
  obtain ⟨source, hsource⟩ := exists_getSnapshot h.stored
  obtain ⟨target, htarget⟩ := exists_getSnapshot hstored
  have hdelta := createDelta_eq hsource htarget
  have hdecoded := SnapshotDelta.deserialize_serialize _ (hfits _ hdelta)
  have hbase : (computeDelta source target).stripped.baseSnapshotId = copy.id :=
    hown _ _ hsource
  obtain ⟨next, hnext, hpatched⟩ := patched_applyPatch hbase
    (SnapshotDelta.Keyed.stripped (keyed_computeDelta source target)) hop.label hop.now
  have hid : next.id = hop.id := hpatched.names.1.trans (hown _ _ htarget)
  refine ⟨next, ?_, ?_, ?_, fun path => ?_⟩
  · rw [SnapshotManager.catchUp, hdelta]
    simp only
    rw [hdecoded]
    exact hnext
  · rw [List.getLast?_concat, hid]
  · rw [hid]
    exact hstored
  · rw [findNode_patched_copy hpatched (h.sizeAndSum_eq hsource) path, versions, List.map_append,
      List.map_singleton, htarget]
    exact firstOfLastRun_concat (h.nodes path) _

theorem Follows.run (h : Follows manager ids copy) (hown : OwnIds manager) {chain : List SnapshotID}
    (hcopy : copy.id ∈ chain) {hops : List Hop}
    (hhops : ∀ hop ∈ hops, hop.id ∈ chain ∧ hop.id ∈ manager.manifests)
    (hfits : ∀ i ∈ chain, ∀ j ∈ chain, ∀ delta ∈ manager.createDelta i j,
      delta.serialize.length < 2 ^ 64) :
    ∃ last, hops.foldlM manager.catchUp copy = some last
      ∧ Follows manager (ids ++ hops.map Hop.id) last := by
  induction hops generalizing ids copy with
  | nil => exact ⟨copy, rfl, by rwa [List.map_nil, List.append_nil]⟩
  | cons hop hops ih =>
      obtain ⟨hin, hstored⟩ := hhops hop List.mem_cons_self
      obtain ⟨next, hnext, hfollows⟩ := h.catchUp hown hstored (hfits _ hcopy _ hin)
      have hid : next.id = hop.id := by
        have hcurrent := hfollows.current
        rw [List.getLast?_concat] at hcurrent
        exact (Option.some.inj hcurrent).symm
      obtain ⟨last, hrun, hlast⟩ := ih hfollows (hid ▸ hin)
        fun other hother => hhops other (List.mem_cons_of_mem _ hother)
      refine ⟨last, ?_, ?_⟩
      · rw [List.foldlM_cons, hnext]
        exact hrun
      · rwa [List.map_cons, List.append_cons]

/-- **Catching up.** Whatever the manager did before, a copy that is brought from one snapshot through
any others ends with the files of the last, their sizes and checksums; the rest of a node is from the
first snapshot since when neither changed. -/
theorem catchUps_follow {calls : List Call} {id : SnapshotID} {first : SnapshotManifest}
    {hops : List Hop} (hfirst : (run {} calls).getSnapshot id = some first)
    (hstored : ∀ hop ∈ hops, hop.id ∈ (run {} calls).manifests)
    (hfits : ∀ i ∈ id :: hops.map Hop.id, ∀ j ∈ id :: hops.map Hop.id,
      ∀ delta ∈ (run {} calls).createDelta i j, delta.serialize.length < 2 ^ 64) :
    ∃ copy last, hops.foldlM (run {} calls).catchUp first = some copy
      ∧ (id :: hops.map Hop.id).getLast? = some copy.id
      ∧ (run {} calls).getSnapshot copy.id = some last
      ∧ ∀ path, sizeAndSum (copy.findNode path) = sizeAndSum (last.findNode path)
        ∧ firstOfLastRun sizeAndSum ((run {} calls).versions (id :: hops.map Hop.id) path)
          = some (copy.findNode path) := by
  have hown := ownIds_run calls
  have hid := hown id first hfirst
  have hin : first.id ∈ id :: hops.map Hop.id := hid ▸ List.mem_cons_self
  obtain ⟨copy, hrun, hfollows⟩ := (follows_start hown hfirst).run hown hin
    (fun hop hhop => ⟨List.mem_cons_of_mem _ (List.mem_map_of_mem hhop), hstored hop hhop⟩) hfits
  obtain ⟨last, hlast⟩ := exists_getSnapshot hfollows.stored
  exact ⟨copy, last, hrun, hfollows.current, hlast,
    fun path => ⟨hfollows.sizeAndSum_eq hlast path, hfollows.nodes path⟩⟩

/-- Of two files, one is written again with the same bytes, and one goes and comes back. -/
def threeSnapshots : List Call :=
  [.createSnapshot [] [{ path := [97], size := 5, modifiedTime := 1 }, { path := [98], size := 2 }] 1,
    .createSnapshot [] [{ path := [97], size := 5, modifiedTime := 2 }] 1,
    .createSnapshot []
      [{ path := [97], size := 5, modifiedTime := 3 }, { path := [98], size := 2, modifiedTime := 3 }] 1]

theorem catchUps_follow_threeSnapshots : ∃ first copy,
    (run {} threeSnapshots).getSnapshot 1 = some first
      ∧ [⟨2, [], 9⟩, ⟨3, [], 9⟩].foldlM (run {} threeSnapshots).catchUp first = some copy
      ∧ copy.id = 3
      ∧ copy.findNode [97] = some { path := [97], size := 5, modifiedTime := 1 }
      ∧ copy.findNode [98] = some { path := [98], size := 2, modifiedTime := 3 } := by
  have hstored : (1 : SnapshotID) ∈ (run {} threeSnapshots).manifests := by decide +kernel
  obtain ⟨first, hfirst⟩ := exists_getSnapshot hstored
  have hfits : ∀ i ∈ [1, 2, 3], ∀ j ∈ [1, 2, 3],
      ∀ delta ∈ (run {} threeSnapshots).createDelta i j, delta.serialize.length < 2 ^ 64 := by
    intro i hi j hj
    simp only [List.mem_cons, List.not_mem_nil, or_false] at hi hj
    obtain rfl | rfl | rfl := hi <;> obtain rfl | rfl | rfl := hj <;> decide +kernel
  obtain ⟨copy, last, hrun, hid, -, hnodes⟩ :=
    @catchUps_follow threeSnapshots 1 first [⟨2, [], 9⟩, ⟨3, [], 9⟩] hfirst (by decide +kernel) hfits
  have hone := (hnodes [97]).2
  have htwo := (hnodes [98]).2
  exact ⟨first, copy, hfirst, hrun, (Option.some.inj hid).symm,
    Option.some.inj (hone.symm.trans (by decide +kernel)),
    Option.some.inj (htwo.symm.trans (by decide +kernel))⟩

end SnapshotManager

end NebulaFS
