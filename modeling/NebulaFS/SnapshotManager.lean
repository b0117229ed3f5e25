import NebulaFS.Snapshot

/-!
# The snapshot manager

`snapshot/SnapshotManager.cpp`. Ids come from a counter, which a registered manifest can push on. The
counter is a word: behind the last id comes zero.
-/

namespace NebulaFS

structure SnapshotManager where
  currentSnapshotId : SnapshotID := 0
  nextSnapshotId : SnapshotID := 1
  manifests : UnorderedMap SnapshotID SnapshotManifest := ∅

namespace SnapshotManager

/-- The new id and the manager after the call; `now` is the reading of the clock. -/
def createSnapshot (manager : SnapshotManager) (label : Bytes) (currentNodes : List SnapshotNode)
    (now : UInt64) : SnapshotID × SnapshotManager :=
  let newId := manager.nextSnapshotId
  let manifest := SnapshotManifest.new newId manager.currentSnapshotId label 0 now
  let manifest := currentNodes.foldl SnapshotManifest.addNode manifest
  (newId,
    { nextSnapshotId := manager.nextSnapshotId + 1
      manifests := manager.manifests.insert newId manifest
      currentSnapshotId := newId })

def registerSnapshot (manager : SnapshotManager) (manifest : SnapshotManifest) :
    Bool × SnapshotManager :=
  let id := manifest.id
  if id ∈ manager.manifests then (false, manager)
  else
    (true,
      { nextSnapshotId :=
          if manager.nextSnapshotId ≤ id then id + 1 else manager.nextSnapshotId
        currentSnapshotId := id
        manifests := manager.manifests.insert id manifest })

def getSnapshot (manager : SnapshotManager) (id : SnapshotID) : Option SnapshotManifest :=
  manager.manifests.lookup id

def checkoutSnapshot (manager : SnapshotManager) (id : SnapshotID) : Bool × SnapshotManager :=
  if id ∈ manager.manifests then (true, { manager with currentSnapshotId := id })
  else (false, manager)

/-- `first` is the key of `manifests_.begin()` after the erasure, which the hash map chooses. -/
def deleteSnapshot (manager : SnapshotManager) (id first : SnapshotID) : Bool × SnapshotManager :=
  if id ∈ manager.manifests then
    let manifests := manager.manifests.erase id
    (true,
      { manager with
        manifests := manifests
        currentSnapshotId :=
          if manager.currentSnapshotId = id then
            if manifests.entries = [] then 0 else first
          else manager.currentSnapshotId })
  else (false, manager)

def createDelta (manager : SnapshotManager) (fromId toId : SnapshotID) : Option SnapshotDelta :=
  match manager.manifests.lookup fromId, manager.manifests.lookup toId with
  | some source, some target => some (DeltaEngine.computeDelta source target)
  | _, _ => none

def clear (_ : SnapshotManager) : SnapshotManager :=
  { manifests := ∅, currentSnapshotId := 0, nextSnapshotId := 1 }

theorem clear_eq_start (manager : SnapshotManager) : manager.clear = {} := rfl

/-! ### Runs -/

/-- The calls that change a manager, but for `clear`: what follows it is a run of its own, which
starts from a fresh manager (`clear_eq_start`). -/
inductive Call
  | createSnapshot (label : Bytes) (currentNodes : List SnapshotNode) (now : UInt64)
  | registerSnapshot (manifest : SnapshotManifest)
  | checkoutSnapshot (id : SnapshotID)
  | deleteSnapshot (id first : SnapshotID)

def step (manager : SnapshotManager) : Call → SnapshotManager
  | .createSnapshot label currentNodes now =>
      (manager.createSnapshot label currentNodes now).2
  | .registerSnapshot manifest => (manager.registerSnapshot manifest).2
  | .checkoutSnapshot id => (manager.checkoutSnapshot id).2
  | .deleteSnapshot id first => (manager.deleteSnapshot id first).2

def run (manager : SnapshotManager) (calls : List Call) : SnapshotManager :=
  calls.foldl step manager

end SnapshotManager

end NebulaFS
