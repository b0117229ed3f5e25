import NebulaFS.Checksum
import NebulaFS.Compression
import NebulaFS.Lib.LittleEndian

/-!
# Block storage

`storage/BlockStorage.cpp`, with the block of `compression/CompressionBlock.hpp`. A storage holds the bytes
of one block, which are a packed header and the payload. A block keeps what it decompresses to, so a
routine that only looks at the block may change it.
-/

namespace NebulaFS

open Cursor LittleEndian

namespace CompressionAlgorithm

def toByte : CompressionAlgorithm → UInt8
  | none => 0
  | lz4 => 1
  | zlib => 2
  | zstd => 3

/-- The algorithm of a byte, unless it is one without a name. -/
def ofByte (byte : UInt8) : Option CompressionAlgorithm :=
  if byte = 0 then some none
  else if byte = 1 then some lz4
  else if byte = 2 then some zlib
  else if byte = 3 then some zstd
  else Option.none

@[simp]
theorem ofByte_toByte (algorithm : CompressionAlgorithm) :
    ofByte algorithm.toByte = some algorithm := by
  cases algorithm <;> rfl

end CompressionAlgorithm

structure CompressionBlock where
  offset : UInt64 := 0
  compressedSize : UInt64 := 0
  originalSize : UInt64 := 0
  algo : UInt8 := 0
  checksum : UInt32 := 0
  encrypted : Bool := false
  compressedData : Bytes := []
  decompressedData : Bytes := []
  isDecompressed : Bool := false
deriving DecidableEq

namespace CompressionBlock

/-- What the engine makes of a payload of the block, if it does not fail. -/
def decompressed (platform : Platform) (block : CompressionBlock) (payload : Bytes) : Option Bytes :=
  match CompressionAlgorithm.ofByte block.algo with
  | some .none => some payload
  | some algo =>
      let engine : CompressionEngine := { config := { algorithm := algo, compressionLevel := 0 } }
      let result := engine.decompress platform payload block.originalSize.toNat
      if result.success then some result.data else none
  | none => none

/-- A failure leaves the data that was there. -/
def getDecompressedData (platform : Platform) (block : CompressionBlock) : CompressionBlock × Bytes :=
  if block.isDecompressed then (block, block.decompressedData)
  else
    let data := (block.decompressed platform block.compressedData).getD block.decompressedData
    ({ block with decompressedData := data, isDecompressed := true }, data)

/-- A checksum of zero is no checksum. -/
def verifyIntegrity (platform : Platform) (block : CompressionBlock) : CompressionBlock × Bool :=
  let (block, data) := block.getDecompressedData platform
  if data = [] ∧ 0 < block.originalSize then (block, false)
  else if block.checksum = 0 then (block, true)
  else (block, ChecksumEngine.crc32 platform data = block.checksum)

end CompressionBlock

structure BlockHeader where
  sync : List.Vector UInt8 2 := ⟨[0x4E, 0x42], rfl⟩
  compressedSize : UInt64 := 0
  originalSize : UInt64 := 0
  compression : UInt8 := 0
  encryption : UInt8 := 0
  encrypted : UInt8 := 0
deriving DecidableEq

namespace BlockHeader

/-- `sizeof(BlockHeader)`, which is packed. -/
def size : Nat := 25

/-- The last four bytes are reserved. -/
def toBytes (header : BlockHeader) : Bytes :=
  header.sync.toList ++ (leBytes 8 header.compressedSize.toNat ++ (leBytes 8 header.originalSize.toNat
    ++ [header.compression, header.encryption, header.encrypted, 0, 0, 0, 0]))

@[simp]
theorem length_toBytes (header : BlockHeader) : header.toBytes.length = size := by
  simp [toBytes, size]

/-- `memcpy` of the first 25 bytes into the structure. -/
def ofBytes (data : Bytes) (h : size ≤ data.length) : BlockHeader :=
  { sync := ⟨slice data 0 2, length_slice (by rw [size] at h; omega)⟩
    compressedSize := UInt64.ofNat (leValue (slice data 2 8))
    originalSize := UInt64.ofNat (leValue (slice data 10 8))
    compression := data.get ⟨18, by rw [size] at h; omega⟩
    encryption := data.get ⟨19, by rw [size] at h; omega⟩
    encrypted := data.get ⟨20, by rw [size] at h; omega⟩ }

end BlockHeader

structure BlockStorage where
  blockData : Bytes := []
deriving DecidableEq

namespace BlockStorage

def serializeBlock (block : CompressionBlock) : Bytes :=
  let header : BlockHeader :=
    { compressedSize := block.compressedSize
      originalSize := block.originalSize
      compression := block.algo
      encryption := 0
      encrypted := if block.encrypted then 1 else 0 }
  header.toBytes ++ block.compressedData

def corruptBlock {α : Type} (offset : Nat) (message : String) : Result α :=
  .error (.returned (toParseError .corruptBlock .compressedBlocks (UInt64.ofNat offset) message))

/-- The two sums are ones of `size_t`. The header has no place for the checksum. -/
def deserializeBlock (data : Bytes) (offset : Nat) : Result CompressionBlock :=
  if data.length < (offset + BlockHeader.size) % wordSize then
    corruptBlock offset "block header truncated"
  else if h : BlockHeader.size ≤ (data.drop offset).length then
    let header := BlockHeader.ofBytes (data.drop offset) h
    if header.sync.toList ≠ [0x4E, 0x42] then corruptBlock offset "invalid block sync"
    else
      let blockStart := offset + BlockHeader.size
      let compressedSize := header.compressedSize.toNat
      if data.length < (blockStart + compressedSize) % wordSize then
        corruptBlock blockStart "block data truncated"
      else if blockStart + compressedSize ≤ data.length then
        .ok
          { offset := UInt64.ofNat offset
            compressedSize := header.compressedSize
            originalSize := header.originalSize
            algo := header.compression
            encrypted := header.encrypted ≠ 0
            compressedData := slice data blockStart compressedSize }
      else .error .outOfBounds
  else .error .outOfBounds

/-- The engine that writes and reads blocks. -/
def engineOf (algo : CompressionAlgorithm) : CompressionEngine :=
  { config := { algorithm := algo, compressionLevel := 3 } }

/-- The block that `writeBlock` stores: compressed, or as it is where that fails. -/
def blockOf (platform : Platform) (data : Bytes) (algo : CompressionAlgorithm) : CompressionBlock :=
  let block : CompressionBlock :=
    { originalSize := UInt64.ofNat data.length
      algo := algo.toByte
      compressedData := data
      compressedSize := UInt64.ofNat data.length
      checksum := ChecksumEngine.crc32 platform data }
  if algo ≠ .none then
    let result := (engineOf algo).compress platform data
    if result.success then
      { block with
        compressedData := result.data
        compressedSize := UInt64.ofNat result.data.length }
    else block
  else block

/-- `encrypt` is not looked at, and no error is ever returned. -/
def writeBlock (platform : Platform) (storage : BlockStorage) (data : Bytes)
    (algo : CompressionAlgorithm) (_encrypt : Bool) (descriptor : ChunkDescriptor) :
    BlockStorage × ChunkDescriptor :=
  let serialized := serializeBlock (blockOf platform data algo)
  ({ storage with blockData := serialized },
    { descriptor with
      originalSize := UInt64.ofNat data.length
      compression := algo.toByte
      offset := 0
      compressedSize := UInt64.ofNat serialized.length })

/-- `output.resize(size)`. -/
def resize (output : Bytes) (size : Nat) : Bytes :=
  CompressionEngine.fill size (output.take size)

/-- What `output` becomes. An algorithm without a name is one that the engine fails for. -/
def readBlock (platform : Platform) (storage : BlockStorage) (descriptor : ChunkDescriptor)
    (output : Bytes) : Except ErrorCode Bytes :=
  match CompressionAlgorithm.ofByte descriptor.compression with
  | some .none => .ok (resize output descriptor.originalSize.toNat)
  | some algo =>
      let result :=
        (engineOf algo).decompress platform storage.blockData descriptor.originalSize.toNat
      if result.success then .ok result.data else .error .decompressionError
  | none => .error .decompressionError

end BlockStorage

end NebulaFS
