import NebulaFS.Checksum

/-!
# Block storage

`storage/backend/StorageBackend.hpp` and `storage/backend/MemoryStorageBackend.cpp`. The interface
class is a type class over the backend's state. A call hands back the state it leaves, also where the
source marks only counters as changed. The locks are left out: every call runs alone.
-/

namespace NebulaFS

open Cursor

inductive StorageError
  | success
  | notFound
  | alreadyExists
  | capacityExceeded
  | ioError
  | corruptBlock
  | invalidOffset
  | invalidParameter
deriving DecidableEq

/-- `StorageResult<T>`. -/
abbrev StorageResult (α : Type) := Except StorageError α

/-- The result of a span read, which may also leave the block. -/
abbrev SpanResult := Except (Fault StorageError) Bytes

structure StorageStats where
  totalBlocks : Nat := 0
  totalBytes : UInt64 := 0
  capacityBytes : UInt64 := 0
  readOps : Nat := 0
  writeOps : Nat := 0
  deleteOps : Nat := 0
deriving DecidableEq

class IStorageBackend (σ : Type) where
  writeBlock : σ → UInt64 → Bytes → σ × StorageError
  readBlock : σ → UInt64 → σ × StorageResult Bytes
  readSpan : σ → UInt64 → (offset length : UInt64) → σ × SpanResult
  deleteBlock : σ → UInt64 → σ × StorageError
  hasBlock : σ → UInt64 → Bool
  stats : σ → StorageStats
  sync : σ → σ × StorageError
  clear : σ → σ

/-- `MemoryStorageBackend::InternalBlock`. Its checksum is computed where the block is made. -/
structure InternalBlock (platform : Platform) where
  data : Bytes
  checksum : UInt32
  checksum_eq : checksum = ChecksumEngine.crc32 platform data

structure MemoryStorageBackend (platform : Platform) where
  maxCapacityBytes : UInt64 := 64 * 1024 * 1024
  currentBytes : UInt64 := 0
  blocks : UnorderedMap UInt64 (InternalBlock platform) := ∅
  counters : StorageStats := {}

namespace MemoryStorageBackend

variable {platform : Platform}

def new (maxCapacityBytes : UInt64) : MemoryStorageBackend platform :=
  { maxCapacityBytes := maxCapacityBytes, counters := { capacityBytes := maxCapacityBytes } }

def setCapacity (backend : MemoryStorageBackend platform) (maxCapacityBytes : UInt64) :
    MemoryStorageBackend platform :=
  { backend with
    maxCapacityBytes := maxCapacityBytes
    counters := { backend.counters with capacityBytes := maxCapacityBytes } }

/-- The capacity check adds and subtracts in `uint64_t`. -/
def writeBlock (backend : MemoryStorageBackend platform) (blockId : UInt64) (data : Bytes) :
    MemoryStorageBackend platform × StorageError :=
  let existingSize : UInt64 :=
    match backend.blocks.lookup blockId with
    | some block => UInt64.ofNat block.data.length
    | none => 0
  let bytes := backend.currentBytes + UInt64.ofNat data.length - existingSize
  if backend.maxCapacityBytes < bytes then (backend, .capacityExceeded)
  else
    let blocks := backend.blocks.insert blockId
      { data := data, checksum := ChecksumEngine.crc32 platform data, checksum_eq := rfl }
    ({ backend with
        currentBytes := bytes
        blocks := blocks
        counters := { backend.counters with
          writeOps := backend.counters.writeOps + 1
          totalBlocks := blocks.entries.length
          totalBytes := bytes } }, .success)

def countRead (backend : MemoryStorageBackend platform) : MemoryStorageBackend platform :=
  { backend with counters := { backend.counters with readOps := backend.counters.readOps + 1 } }

def readBlock (backend : MemoryStorageBackend platform) (blockId : UInt64) :
    MemoryStorageBackend platform × StorageResult Bytes :=
  match backend.blocks.lookup blockId with
  | none => (backend, .error .notFound)
  | some block =>
      if ChecksumEngine.crc32 platform block.data ≠ block.checksum then
        (backend, .error .corruptBlock)
      else (backend.countRead, .ok block.data)

/-- What a span read makes of the content of a block. The check adds in `size_t`, so a sum that wraps
around passes it and the copy after it leaves the block. -/
def spanOf (data : Bytes) (offset length : UInt64) : SpanResult :=
  if data.length < (offset + length).toNat then .error (.returned .invalidOffset)
  else if data.length < offset.toNat + length.toNat then .error .outOfBounds
  else .ok (slice data offset.toNat length.toNat)

def readSpan (backend : MemoryStorageBackend platform) (blockId offset length : UInt64) :
    MemoryStorageBackend platform × SpanResult :=
  match backend.blocks.lookup blockId with
  | none => (backend, .error (.returned .notFound))
  | some block =>
      match spanOf block.data offset length with
      | .error e => (backend, .error e)
      | .ok bytes => (backend.countRead, .ok bytes)

def deleteBlock (backend : MemoryStorageBackend platform) (blockId : UInt64) :
    MemoryStorageBackend platform × StorageError :=
  match backend.blocks.lookup blockId with
  | none => (backend, .notFound)
  | some block =>
      let bytes := backend.currentBytes - UInt64.ofNat block.data.length
      let blocks := backend.blocks.erase blockId
      ({ backend with
          currentBytes := bytes
          blocks := blocks
          counters := { backend.counters with
            deleteOps := backend.counters.deleteOps + 1
            totalBlocks := blocks.entries.length
            totalBytes := bytes } }, .success)

def stats (backend : MemoryStorageBackend platform) : StorageStats :=
  { backend.counters with
    totalBlocks := backend.blocks.entries.length
    totalBytes := backend.currentBytes
    capacityBytes := backend.maxCapacityBytes }

def clear (backend : MemoryStorageBackend platform) : MemoryStorageBackend platform :=
  { backend with
    blocks := ∅
    currentBytes := 0
    counters := { backend.counters with totalBlocks := 0, totalBytes := 0 } }

instance : IStorageBackend (MemoryStorageBackend platform) where
  writeBlock := writeBlock
  readBlock := readBlock
  readSpan := readSpan
  deleteBlock := deleteBlock
  hasBlock := fun backend blockId => (backend.blocks.lookup blockId).isSome
  stats := stats
  sync := fun backend => (backend, .success)
  clear := clear

end MemoryStorageBackend

end NebulaFS
