import NebulaFS.VarInt

/-!
# Snapshots and their deltas

`snapshot/SnapshotManifest.cpp`, `DeltaEngine.cpp` and `PatchApplier.cpp`. A manifest is a map from
paths to nodes, and `addNode` is the only way into it, so that every node lies under its own path. A
delta lists the paths at which two manifests differ. Its encoding has the new node of an entry, without
its path, and neither the old node nor the list of new blocks.

Where a decoder calls `reserve` with a number it has read, the parameter `reserves` says for which
numbers there is memory. The exception it throws otherwise is the error `outOfMemory`.
-/

namespace NebulaFS

open Cursor

abbrev SnapshotID := UInt64

structure SnapshotNode where
  entryId : UInt64 := 0
  path : Bytes := []
  size : UInt64 := 0
  checksum : UInt32 := 0
  modifiedTime : UInt64 := 0
  blockIds : List UInt64 := []
deriving DecidableEq

structure SnapshotManifest where
  id : SnapshotID := 0
  parentId : SnapshotID := 0
  label : Bytes := []
  timestamp : UInt64 := 0
  nodes : UnorderedMap Bytes SnapshotNode := ∅
  path_eq : ∀ path node, nodes.lookup path = some node → node.path = path := by simp

namespace SnapshotManifest

/-- The constructor. A timestamp of zero is replaced by the time of the clock. -/
def new (id parentId : SnapshotID) (label : Bytes) (timestamp now : UInt64) : SnapshotManifest :=
  { id := id
    parentId := parentId
    label := label
    timestamp := if timestamp = 0 then now else timestamp }

def addNode (manifest : SnapshotManifest) (node : SnapshotNode) : SnapshotManifest :=
  { manifest with
    nodes := manifest.nodes.insert node.path node
    path_eq := by
      intro path other hlookup
      by_cases hpath : path = node.path
      · subst hpath
        rw [AList.lookup_insert] at hlookup
        cases hlookup
        rfl
      · rw [AList.lookup_insert_ne hpath] at hlookup
        exact manifest.path_eq path other hlookup }

def removeNode (manifest : SnapshotManifest) (path : Bytes) : SnapshotManifest × Bool :=
  ({ manifest with
      nodes := manifest.nodes.erase path
      path_eq := by
        intro other node hlookup
        by_cases hpath : other = path
        · subst hpath
          rw [AList.lookup_erase] at hlookup
          cases hlookup
        · rw [AList.lookup_erase_ne hpath] at hlookup
          exact manifest.path_eq other node hlookup },
    (manifest.nodes.lookup path).isSome)

def findNode (manifest : SnapshotManifest) (path : Bytes) : Option SnapshotNode :=
  manifest.nodes.lookup path

def hasNode (manifest : SnapshotManifest) (path : Bytes) : Bool := (manifest.nodes.lookup path).isSome

def totalSize (manifest : SnapshotManifest) : UInt64 :=
  manifest.nodes.entries.foldl (fun sum entry => sum + entry.2.size) 0

end SnapshotManifest

/-- `DeltaAction`. The values without a name are those a byte of an encoded delta can be cast to. -/
inductive DeltaAction
  | unchanged
  | added
  | modified
  | deleted
  | unnamed (raw : {b : UInt8 // 3 < b})
deriving DecidableEq

namespace DeltaAction

def toByte : DeltaAction → UInt8
  | unchanged => 0
  | added => 1
  | modified => 2
  | deleted => 3
  | unnamed raw => raw

def ofByte (b : UInt8) : DeltaAction :=
  if h : 3 < b then unnamed ⟨b, h⟩
  else if b = 0 then unchanged
  else if b = 1 then added
  else if b = 2 then modified
  else deleted

@[simp]
theorem ofByte_toByte (action : DeltaAction) : ofByte action.toByte = action := by
  cases action with
  | unnamed raw => simp [ofByte, toByte, raw.property]
  | _ => rfl

end DeltaAction

structure DeltaEntry where
  path : Bytes := []
  action : DeltaAction := .unchanged
  oldNode : Option SnapshotNode := none
  newNode : Option SnapshotNode := none
  newBlockIds : List UInt64 := []
deriving DecidableEq

structure SnapshotDelta where
  baseSnapshotId : SnapshotID := 0
  targetSnapshotId : SnapshotID := 0
  entries : List DeltaEntry := []
deriving DecidableEq

/-! ### What a delta says about itself -/

namespace SnapshotDelta

def addedCount (delta : SnapshotDelta) : Nat :=
  delta.entries.countP fun entry => entry.action == .added

def modifiedCount (delta : SnapshotDelta) : Nat :=
  delta.entries.countP fun entry => entry.action == .modified

def deletedCount (delta : SnapshotDelta) : Nat :=
  delta.entries.countP fun entry => entry.action == .deleted

/-- What an entry adds in `addedBytes`. -/
def entryAddedBytes (entry : DeltaEntry) : UInt64 :=
  match entry.action, entry.newNode, entry.oldNode with
  | .added, some newNode, _ => newNode.size
  | .modified, some newNode, some oldNode =>
      if oldNode.size < newNode.size then newNode.size - oldNode.size else 0
  | _, _, _ => 0

def addedBytes (delta : SnapshotDelta) : UInt64 :=
  delta.entries.foldl (fun total entry => total + entryAddedBytes entry) 0

/-- What an entry adds in `deletedBytes`. -/
def entryDeletedBytes (entry : DeltaEntry) : UInt64 :=
  match entry.action, entry.newNode, entry.oldNode with
  | .deleted, _, some oldNode => oldNode.size
  | .modified, some newNode, some oldNode =>
      if newNode.size < oldNode.size then oldNode.size - newNode.size else 0
  | _, _, _ => 0

def deletedBytes (delta : SnapshotDelta) : UInt64 :=
  delta.entries.foldl (fun total entry => total + entryDeletedBytes entry) 0

end SnapshotDelta

/-! ### Computing a delta -/

namespace DeltaEngine

/-- What a node of the target adds to the delta. -/
def targetEntry (base : SnapshotManifest) (path : Bytes) (targetNode : SnapshotNode) :
    Option DeltaEntry :=
  match base.findNode path with
  | none =>
      some { path := path, action := .added, newNode := some targetNode
             newBlockIds := targetNode.blockIds }
  | some baseNode =>
      if baseNode.checksum ≠ targetNode.checksum ∨ baseNode.size ≠ targetNode.size then
        some { path := path, action := .modified, oldNode := some baseNode
               newNode := some targetNode
               newBlockIds := targetNode.blockIds.filter fun bId => bId ∉ baseNode.blockIds }
      else none

/-- What a node of the base adds to the delta. -/
def baseEntry (target : SnapshotManifest) (path : Bytes) (baseNode : SnapshotNode) :
    Option DeltaEntry :=
  if target.hasNode path then none
  else some { path := path, action := .deleted, oldNode := some baseNode }

def computeDelta (base target : SnapshotManifest) : SnapshotDelta :=
  { baseSnapshotId := base.id
    targetSnapshotId := target.id
    entries := target.nodes.entries.filterMap (fun entry => targetEntry base entry.1 entry.2)
      ++ base.nodes.entries.filterMap fun entry => baseEntry target entry.1 entry.2 }

/-- The blocks of an entry that `computeReusedBlocks` lists. -/
def entryReusedBlocks (entry : DeltaEntry) : List UInt64 :=
  match entry.action, entry.oldNode, entry.newNode with
  | .modified, some oldNode, some newNode =>
      newNode.blockIds.filter fun bId => bId ∈ oldNode.blockIds
  | _, _, _ => []

def computeReusedBlocks (delta : SnapshotDelta) : List UInt64 :=
  delta.entries.flatMap entryReusedBlocks

end DeltaEngine

/-! ### Applying a delta -/

namespace PatchApplier

def applyEntry (target : SnapshotManifest) (entry : DeltaEntry) : SnapshotManifest :=
  match entry.action with
  | .added | .modified =>
      match entry.newNode with
      | some node => target.addNode node
      | none => target
  | .deleted => (target.removeNode entry.path).1
  | .unchanged | .unnamed _ => target

def labelOf (delta : SnapshotDelta) (targetLabel : Bytes) : Bytes :=
  if targetLabel = [] then
    ("reconstructed_snap_" ++ toString delta.targetSnapshotId.toNat).toUTF8.toList
  else targetLabel

def applyPatch (base : SnapshotManifest) (delta : SnapshotDelta) (targetLabel : Bytes)
    (now : UInt64) : Option SnapshotManifest :=
  if delta.baseSnapshotId ≠ base.id then none
  else
    let target := SnapshotManifest.new delta.targetSnapshotId base.id (labelOf delta targetLabel) 0 now
    let target := base.nodes.entries.foldl (fun target entry => target.addNode entry.2) target
    some (delta.entries.foldl applyEntry target)

end PatchApplier

/-! ### The encoding of a delta -/

namespace SnapshotDelta

def serializeNode (node : SnapshotNode) : Bytes :=
  VarInt.encode node.entryId ++ (VarInt.encode node.size ++ (VarInt.encode node.checksum.toUInt64
    ++ (VarInt.encode node.modifiedTime ++ (VarInt.encode (UInt64.ofNat node.blockIds.length)
    ++ node.blockIds.flatMap VarInt.encode))))

def serializeEntry (entry : DeltaEntry) : Bytes :=
  VarInt.encode (UInt64.ofNat entry.path.length) ++ (entry.path ++ (entry.action.toByte ::
    match entry.newNode with
    | some node => 1 :: serializeNode node
    | none => [0]))

def serialize (delta : SnapshotDelta) : Bytes :=
  VarInt.encode delta.baseSnapshotId ++ (VarInt.encode delta.targetSnapshotId
    ++ (VarInt.encode (UInt64.ofNat delta.entries.length) ++ delta.entries.flatMap serializeEntry))

/-- The code with which the reads below fail. `deserialize` drops it. -/
def noDelta : ErrorCode := .internalError

def readNode (path bytes : Bytes) (offset : Nat) :
    Except (Fault ErrorCode) (SnapshotNode × Nat) := do
  let (entryId, offset) ← readVarInt noDelta bytes offset
  let (size, offset) ← readVarInt noDelta bytes offset
  let (checksum, offset) ← readVarInt noDelta bytes offset
  let (modifiedTime, offset) ← readVarInt noDelta bytes offset
  let (blockCount, offset) ← readVarInt noDelta bytes offset
  match readMany (readVarInt noDelta bytes) blockCount.toNat offset with
  | .error (_, e) => .error e
  | .ok (blockIds, offset) =>
      return ({ path := path
                entryId := entryId
                size := size
                checksum := checksum.toUInt32
                modifiedTime := modifiedTime
                blockIds := blockIds }, offset)

/-- The sum in `offset + pathLen > bytes.size()` is one of `size_t`. -/
def readEntry (bytes : Bytes) (offset : Nat) :
    Except (Fault ErrorCode) (DeltaEntry × Nat) := do
  require (offset < bytes.length) noDelta
  let (pathLen, offset) ← readVarInt noDelta bytes offset
  require ((offset + pathLen.toNat) % wordSize ≤ bytes.length) noDelta
  let (path, offset) ← readRange bytes offset pathLen.toNat
  require (offset < bytes.length) noDelta
  let (action, offset) ← readByte bytes offset
  require (offset < bytes.length) noDelta
  let (hasNewNode, offset) ← readByte bytes offset
  if hasNewNode ≠ 0 then
    let (node, offset) ← readNode path bytes offset
    return ({ path := path, action := .ofByte action, newNode := some node }, offset)
  else return ({ path := path, action := .ofByte action }, offset)

def readDelta (bytes : Bytes) : Except (Fault ErrorCode) SnapshotDelta := do
  require (bytes ≠ []) noDelta
  let (baseSnapshotId, offset) ← readVarInt noDelta bytes 0
  require (offset < bytes.length) noDelta
  let (targetSnapshotId, offset) ← readVarInt noDelta bytes offset
  require (offset < bytes.length) noDelta
  let (numEntries, offset) ← readVarInt noDelta bytes offset
  match readMany (readEntry bytes) numEntries.toNat offset with
  | .error (_, e) => .error e
  | .ok (entries, _) =>
      return { baseSnapshotId := baseSnapshotId
               targetSnapshotId := targetSnapshotId
               entries := entries }

/-- `std::nullopt` is the error without a code. -/
def deserialize (bytes : Bytes) : Except (Fault Unit) SnapshotDelta :=
  match readDelta bytes with
  | .ok delta => .ok delta
  | .error (.returned _) => .error (.returned ())
  | .error .outOfBounds => .error .outOfBounds
  | .error .outOfFuel => .error .outOfFuel

/-- `deserialize` with the `reserve` before its loop; `std::nullopt` is the error `noDelta`. -/
def deserializeReserving (reserves : Nat → Bool) (bytes : Bytes) :
    Except (Fault ErrorCode) SnapshotDelta := do
  require (bytes ≠ []) noDelta
  let (baseSnapshotId, offset) ← readVarInt noDelta bytes 0
  let (targetSnapshotId, offset) ← readNext noDelta bytes offset
  let (numEntries, offset) ← readNext noDelta bytes offset
  require (reserves numEntries.toNat) .outOfMemory
  match readMany (readEntry bytes) numEntries.toNat offset with
  | .error (_, e) => .error e
  | .ok (entries, _) =>
      return { baseSnapshotId := baseSnapshotId
               targetSnapshotId := targetSnapshotId
               entries := entries }

end SnapshotDelta

/-! ### The encoding of a manifest -/

namespace SnapshotManifest

/-- The fields of a node have the same order here as in a delta. -/
def serializeNode (path : Bytes) (node : SnapshotNode) : Bytes :=
  VarInt.encode (UInt64.ofNat path.length) ++ (path ++ SnapshotDelta.serializeNode node)

def serialize (manifest : SnapshotManifest) : Bytes :=
  VarInt.encode manifest.id ++ (VarInt.encode manifest.parentId ++ (VarInt.encode manifest.timestamp
    ++ (VarInt.encode (UInt64.ofNat manifest.label.length) ++ (manifest.label
    ++ (VarInt.encode (UInt64.ofNat manifest.nodes.entries.length)
    ++ manifest.nodes.entries.flatMap fun entry => serializeNode entry.1 entry.2)))))

/-- The error that stands for `std::nullopt`. -/
def noManifest : ErrorCode := .internalError

def readNode (reserves : Nat → Bool) (bytes : Bytes) (offset : Nat) :
    Except (Fault ErrorCode) (SnapshotNode × Nat) := do
  let (pathLen, offset) ← readNext noManifest bytes offset
  require ((offset + pathLen.toNat) % wordSize ≤ bytes.length) noManifest
  let (path, offset) ← readRange bytes offset pathLen.toNat
  let (entryId, offset) ← readNext noManifest bytes offset
  let (size, offset) ← readNext noManifest bytes offset
  let (checksum, offset) ← readNext noManifest bytes offset
  let (modifiedTime, offset) ← readNext noManifest bytes offset
  let (numBlocks, offset) ← readNext noManifest bytes offset
  require (reserves numBlocks.toNat) .outOfMemory
  match readMany (readNext noManifest bytes) numBlocks.toNat offset with
  | .error (_, e) => .error e
  | .ok (blockIds, offset) =>
      return ({ path := path
                entryId := entryId
                size := size
                checksum := checksum.toUInt32
                modifiedTime := modifiedTime
                blockIds := blockIds }, offset)

/-- A manifest without nodes may end behind its label. -/
def deserialize (reserves : Nat → Bool) (now : UInt64) (bytes : Bytes) :
    Except (Fault ErrorCode) SnapshotManifest := do
  require (bytes ≠ []) noManifest
  let (id, offset) ← readVarInt noManifest bytes 0
  let (parentId, offset) ← readNext noManifest bytes offset
  let (timestamp, offset) ← readNext noManifest bytes offset
  let (labelLen, offset) ← readNext noManifest bytes offset
  require ((offset + labelLen.toNat) % wordSize ≤ bytes.length) noManifest
  let (label, offset) ← readRange bytes offset labelLen.toNat
  let manifest := SnapshotManifest.new id parentId label timestamp now
  if bytes.length ≤ offset then return manifest
  let (numNodes, offset) ← readVarInt noManifest bytes offset
  match readMany (readNode reserves bytes) numNodes.toNat offset with
  | .error (_, e) => .error e
  | .ok (nodes, _) => return nodes.foldl addNode manifest

end SnapshotManifest

end NebulaFS
