import NebulaFS.StorageBackend

/-!
# The tiered store

`storage/backend/TieredStorageManager.cpp`. Two backends, a map that names the tier of every block,
and a queue of the hot blocks with the most recently used one in front. A write goes to the hot tier;
when that is full the block at the back of the queue is moved to the cold tier first.
-/

namespace NebulaFS

inductive TierLevel
  | hotMemory
  | coldDisk
deriving DecidableEq

structure TieredStorageStats where
  hotBlocks : Nat := 0
  coldBlocks : Nat := 0
  hotBytes : UInt64 := 0
  coldBytes : UInt64 := 0
  migrationsToCold : Nat := 0
  migrationsToHot : Nat := 0
deriving DecidableEq

structure TieredStorageManager (η γ : Type) where
  hotTier : η
  coldTier : γ
  maxHotBlocks : Nat := 500
  blockTiers : UnorderedMap UInt64 TierLevel := ∅
  hotLruQueue : List UInt64 := []
  counters : TieredStorageStats := {}

namespace TieredStorageManager

variable {η γ : Type}

def new (hotTier : η) (coldTier : γ) (maxHotBlocks : Nat) : TieredStorageManager η γ :=
  { hotTier := hotTier, coldTier := coldTier, maxHotBlocks := maxHotBlocks }

def touchHot (manager : TieredStorageManager η γ) (blockId : UInt64) :
    TieredStorageManager η γ :=
  { manager with hotLruQueue := blockId :: manager.hotLruQueue.erase blockId }

variable [IStorageBackend η] [IStorageBackend γ]

def demoteBlock (manager : TieredStorageManager η γ) (blockId : UInt64) :
    TieredStorageManager η γ × StorageError :=
  match IStorageBackend.readBlock manager.hotTier blockId with
  | (hot, .error e) => ({ manager with hotTier := hot }, e)
  | (hot, .ok data) =>
      match IStorageBackend.writeBlock manager.coldTier blockId data with
      | (cold, .success) =>
          -- the status of the deletion is dropped
          ({ manager with
              hotTier := (IStorageBackend.deleteBlock hot blockId).1
              coldTier := cold
              blockTiers := manager.blockTiers.insert blockId .coldDisk
              hotLruQueue := manager.hotLruQueue.erase blockId
              counters := { manager.counters with
                migrationsToCold := manager.counters.migrationsToCold + 1 } }, .success)
      | (cold, e) => ({ manager with hotTier := hot, coldTier := cold }, e)

/-- The loop of `spillHotToCold`. Every round takes one block out of the queue, so it has at most as
many rounds as the queue has blocks. A victim that cannot be moved is forgotten. -/
def spillLoop : (fuel blocksToSpill : Nat) → TieredStorageManager η γ → TieredStorageManager η γ
  | 0, _, manager => manager
  | _ + 1, 0, manager => manager
  | fuel + 1, blocksToSpill + 1, manager =>
      match manager.hotLruQueue.getLast? with
      | none => manager
      | some victimId =>
          match manager.demoteBlock victimId with
          | (manager, .success) => spillLoop fuel blocksToSpill manager
          | (manager, _) =>
              spillLoop fuel (blocksToSpill + 1) { manager with
                hotLruQueue := manager.hotLruQueue.dropLast
                blockTiers := manager.blockTiers.erase victimId }

def spillHotToCold (manager : TieredStorageManager η γ) (blocksToSpill : Nat := 1) :
    TieredStorageManager η γ :=
  spillLoop manager.hotLruQueue.length blocksToSpill manager

/-- `if (hotLruQueue_.size() >= maxHotBlocks_) spillHotToCold(1)`. -/
def makeRoom (manager : TieredStorageManager η γ) : TieredStorageManager η γ :=
  if manager.maxHotBlocks ≤ manager.hotLruQueue.length then manager.spillHotToCold 1 else manager

def promoteBlock (manager : TieredStorageManager η γ) (blockId : UInt64) :
    TieredStorageManager η γ × StorageError :=
  match IStorageBackend.readBlock manager.coldTier blockId with
  | (cold, .error e) => ({ manager with coldTier := cold }, e)
  | (cold, .ok data) =>
      let manager := { manager with coldTier := cold }.makeRoom
      match IStorageBackend.writeBlock manager.hotTier blockId data with
      | (hot, .success) =>
          (touchHot { manager with
              hotTier := hot
              coldTier := (IStorageBackend.deleteBlock manager.coldTier blockId).1
              blockTiers := manager.blockTiers.insert blockId .hotMemory
              counters := { manager.counters with
                migrationsToHot := manager.counters.migrationsToHot + 1 } } blockId, .success)
      | (hot, e) => ({ manager with hotTier := hot }, e)

/-- `if (coldTier_->hasBlock(blockId)) coldTier_->deleteBlock(blockId)`. -/
def dropCold (manager : TieredStorageManager η γ) (blockId : UInt64) :
    TieredStorageManager η γ :=
  if IStorageBackend.hasBlock manager.coldTier blockId then
    { manager with coldTier := (IStorageBackend.deleteBlock manager.coldTier blockId).1 }
  else manager

def writeBlock (manager : TieredStorageManager η γ) (blockId : UInt64) (data : Bytes) :
    TieredStorageManager η γ × StorageError :=
  let manager := (manager.dropCold blockId).makeRoom
  match IStorageBackend.writeBlock manager.hotTier blockId data with
  | (hot, .success) =>
      (touchHot { manager with
          hotTier := hot
          blockTiers := manager.blockTiers.insert blockId .hotMemory } blockId, .success)
  | (hot, e) => ({ manager with hotTier := hot }, e)

def readBlock (manager : TieredStorageManager η γ) (blockId : UInt64)
    (promoteToHot : Bool := true) : TieredStorageManager η γ × StorageResult Bytes :=
  match manager.blockTiers.lookup blockId with
  | none => (manager, .error .notFound)
  | some .hotMemory =>
      match IStorageBackend.readBlock manager.hotTier blockId with
      | (hot, .ok data) => (touchHot { manager with hotTier := hot } blockId, .ok data)
      | (hot, .error e) => ({ manager with hotTier := hot }, .error e)
  | some .coldDisk =>
      match IStorageBackend.readBlock manager.coldTier blockId with
      | (cold, .ok data) =>
          let manager := { manager with coldTier := cold }
          (if promoteToHot then (manager.promoteBlock blockId).1 else manager, .ok data)
      | (cold, .error e) => ({ manager with coldTier := cold }, .error e)

def readSpan (manager : TieredStorageManager η γ) (blockId offset length : UInt64) :
    TieredStorageManager η γ × SpanResult :=
  match manager.blockTiers.lookup blockId with
  | none => (manager, .error (.returned .notFound))
  | some .hotMemory =>
      let result := IStorageBackend.readSpan manager.hotTier blockId offset length
      ({ manager with hotTier := result.1 }, result.2)
  | some .coldDisk =>
      let result := IStorageBackend.readSpan manager.coldTier blockId offset length
      ({ manager with coldTier := result.1 }, result.2)

def deleteBlock (manager : TieredStorageManager η γ) (blockId : UInt64) :
    TieredStorageManager η γ × StorageError :=
  match manager.blockTiers.lookup blockId with
  | none => (manager, .notFound)
  | some .hotMemory =>
      let result := IStorageBackend.deleteBlock manager.hotTier blockId
      ({ manager with
          hotTier := result.1
          hotLruQueue := manager.hotLruQueue.erase blockId
          blockTiers := manager.blockTiers.erase blockId }, result.2)
  | some .coldDisk =>
      let result := IStorageBackend.deleteBlock manager.coldTier blockId
      ({ manager with
          coldTier := result.1
          blockTiers := manager.blockTiers.erase blockId }, result.2)

def hasBlock (manager : TieredStorageManager η γ) (blockId : UInt64) : Bool :=
  (manager.blockTiers.lookup blockId).isSome

def getBlockTier (manager : TieredStorageManager η γ) (blockId : UInt64) : TierLevel :=
  (manager.blockTiers.lookup blockId).getD .coldDisk

def stats (manager : TieredStorageManager η γ) : TieredStorageStats :=
  let hotStats := IStorageBackend.stats manager.hotTier
  let coldStats := IStorageBackend.stats manager.coldTier
  { manager.counters with
    hotBlocks := hotStats.totalBlocks
    hotBytes := hotStats.totalBytes
    coldBlocks := coldStats.totalBlocks
    coldBytes := coldStats.totalBytes }

def sync (manager : TieredStorageManager η γ) : TieredStorageManager η γ × StorageError :=
  let hot := IStorageBackend.sync manager.hotTier
  let cold := IStorageBackend.sync manager.coldTier
  ({ manager with hotTier := hot.1, coldTier := cold.1 },
    if hot.2 ≠ .success then hot.2 else cold.2)

def clear (manager : TieredStorageManager η γ) : TieredStorageManager η γ :=
  { manager with
    hotTier := IStorageBackend.clear manager.hotTier
    coldTier := IStorageBackend.clear manager.coldTier
    blockTiers := ∅
    hotLruQueue := []
    counters := {} }

/-! ### Runs -/

inductive Call
  | writeBlock (blockId : UInt64) (data : Bytes)
  | readBlock (blockId : UInt64) (promoteToHot : Bool)
  | readSpan (blockId offset length : UInt64)
  | deleteBlock (blockId : UInt64)
  | hasBlock (blockId : UInt64)

inductive Answer
  | status (e : StorageError)
  | block (result : StorageResult Bytes)
  | span (result : SpanResult)
  | present (yes : Bool)

def step (manager : TieredStorageManager η γ) : Call → TieredStorageManager η γ × Answer
  | .writeBlock blockId data =>
      let result := manager.writeBlock blockId data
      (result.1, .status result.2)
  | .readBlock blockId promoteToHot =>
      let result := manager.readBlock blockId promoteToHot
      (result.1, .block result.2)
  | .readSpan blockId offset length =>
      let result := manager.readSpan blockId offset length
      (result.1, .span result.2)
  | .deleteBlock blockId =>
      let result := manager.deleteBlock blockId
      (result.1, .status result.2)
  | .hasBlock blockId => (manager, .present (manager.hasBlock blockId))

def run (manager : TieredStorageManager η γ) (calls : List Call) : TieredStorageManager η γ :=
  calls.foldl (fun manager call => (manager.step call).1) manager

def answers (manager : TieredStorageManager η γ) : List Call → List Answer
  | [] => []
  | call :: calls => (manager.step call).2 :: (manager.step call).1.answers calls

/-- The managers that the public calls of the class lead to, whatever their backends answer. -/
inductive Reachable : TieredStorageManager η γ → Prop
  | new (hotTier : η) (coldTier : γ) (maxHotBlocks : Nat) : Reachable (new hotTier coldTier maxHotBlocks)
  | step {manager : TieredStorageManager η γ} (h : Reachable manager) (call : Call) :
      Reachable (manager.step call).1
  | demoteBlock {manager : TieredStorageManager η γ} (h : Reachable manager) (blockId : UInt64) :
      Reachable (manager.demoteBlock blockId).1
  | promoteBlock {manager : TieredStorageManager η γ} (h : Reachable manager) (blockId : UInt64) :
      Reachable (manager.promoteBlock blockId).1
  | spillHotToCold {manager : TieredStorageManager η γ} (h : Reachable manager)
      (blocksToSpill : Nat) : Reachable (manager.spillHotToCold blocksToSpill)
  | sync {manager : TieredStorageManager η γ} (h : Reachable manager) : Reachable manager.sync.1
  | clear {manager : TieredStorageManager η γ} (h : Reachable manager) : Reachable manager.clear

end TieredStorageManager

end NebulaFS
