import NebulaFS.Lib.LittleEndian
import NebulaFS.VarInt

/-!
# The chunk table

`storage/ChunkManager.cpp`, the table itself: `registerChunk`, the look-ups and the encoding. Chunks are
found by the first eight bytes of their hash.
-/

namespace NebulaFS

open Cursor LittleEndian

structure ChunkManager where
  chunks : List ChunkDescriptor := []
  hashIndex : UnorderedMap UInt64 Nat := ∅
  totalDataSize : UInt64 := 0
  totalStoredSize : UInt64 := 0

namespace ChunkManager

/-- `*reinterpret_cast<const uint64_t*>(hash.data())`. -/
def hashKey (hash : ChecksumValue) : UInt64 :=
  UInt64.ofNat (leValue (hash.toList.take 8))

def registerChunk (manager : ChunkManager) (chunk : ChunkDescriptor) : ChunkManager :=
  match manager.hashIndex.lookup (hashKey chunk.hash) with
  | some _ => manager
  | none =>
      { chunks := manager.chunks ++ [chunk]
        hashIndex := manager.hashIndex.insert (hashKey chunk.hash) manager.chunks.length
        totalDataSize := manager.totalDataSize + chunk.originalSize
        totalStoredSize := manager.totalStoredSize + chunk.compressedSize }

def hasChunk (manager : ChunkManager) (hash : ChecksumValue) : Bool :=
  (manager.hashIndex.lookup (hashKey hash)).isSome

/-- The outer `none` is a read behind the end of `chunks_`, which is not checked. -/
def getChunk (manager : ChunkManager) (hash : ChecksumValue) : Option (Option ChunkDescriptor) :=
  match manager.hashIndex.lookup (hashKey hash) with
  | none => some none
  | some index => manager.chunks[index]?.map some

def serializeChunk (chunk : ChunkDescriptor) : Bytes :=
  chunk.hash.toList ++ (VarInt.encode chunk.offset ++ (VarInt.encode chunk.compressedSize
    ++ (VarInt.encode chunk.originalSize ++ [chunk.compression, if chunk.encrypted then 1 else 0])))

def serialize (manager : ChunkManager) : Bytes :=
  VarInt.encode (UInt64.ofNat manager.chunks.length) ++ manager.chunks.flatMap serializeChunk

/-- One round of the loop in `deserialize`; its last two bytes are read without a check. -/
def readChunk (data : Bytes) (offset : Nat) :
    Except (Fault ErrorCode) (ChunkDescriptor × Nat) := do
  require (offset + 32 ≤ data.length) .corruptChunkTable
  let (hash, offset) ← readArr 32 data offset
  let (chunkOffset, offset) ← readVarInt .corruptChunkTable data offset
  let (compressedSize, offset) ← readVarInt .corruptChunkTable data offset
  let (originalSize, offset) ← readVarInt .corruptChunkTable data offset
  let (compression, offset) ← readByte data offset
  let (encrypted, offset) ← readByte data offset
  return ({ hash := hash
            offset := chunkOffset
            compressedSize := compressedSize
            originalSize := originalSize
            compression := compression
            encrypted := encrypted ≠ 0 }, offset)

def maxChunks : Nat := 1024 * 1024

def minChunkSize : Nat := 37

def deserialize (data : Bytes) : ChunkManager × Status :=
  match readVarInt .corruptChunkTable data 0 with
  | .error e => ({}, some e)
  | .ok (count, offset) =>
      if maxChunks < count.toNat then ({}, some (.returned .corruptChunkTable))
      else if (data.length - offset) / minChunkSize < count.toNat then
        ({}, some (.returned .corruptChunkTable))
      else
        let loop := readMany (readChunk data) count.toNat offset
        let manager := (collected loop).foldl registerChunk {}
        match loop with
        | .error (_, e) => (manager, some e)
        | .ok _ => (manager, none)

end ChunkManager

end NebulaFS
