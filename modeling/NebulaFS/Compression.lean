import NebulaFS.Platform

/-!
# The compression engine

`compression/CompressionEngine.cpp`. One engine has one algorithm and hands everything to the library
of that algorithm. When a library fails, the source leaves an unspecified buffer in the result; it is
empty here, as nothing reads it. LZ4 takes every size as an `int`, and of an input as many bytes as
that says.
-/

namespace NebulaFS

/-- The `std::errc` values the engine reports. -/
inductive Errc
  | invalidArgument
  | ioError
deriving DecidableEq

def Errc.value : Errc → Nat
  | invalidArgument => 22
  | ioError => 5

structure CompressionConfig where
  algorithm : CompressionAlgorithm := .zstd
  compressionLevel : Int := 3
deriving DecidableEq

structure CompressionResult where
  data : Bytes := []
  originalSize : Nat := 0
  compressedSize : Nat := 0
  success : Bool := false
  ec : Option Errc := none
deriving DecidableEq

structure CompressionEngine where
  config : CompressionConfig := {}
deriving DecidableEq

namespace CompressionEngine

def compressed (data : Bytes) : Option Bytes → CompressionResult
  | none => { originalSize := data.length, ec := some .ioError }
  | some written =>
      { data := written
        originalSize := data.length
        compressedSize := written.length
        success := true }

/-- The bytes a library reads that is told their number as an `int`. -/
def intPart (data : Bytes) : Bytes := data.take (toInt data.length).toNat

def compressLZ4 (platform : Platform) (data : Bytes) : CompressionResult :=
  let maxDestSize := platform.lz4.compressBound (toInt data.length)
  if maxDestSize ≤ 0 then { originalSize := data.length, ec := some .invalidArgument }
  else compressed data (platform.lz4.compressDefault (intPart data) maxDestSize)

def compressZlib (platform : Platform) (level : Int) (data : Bytes) : CompressionResult :=
  compressed data (platform.zlib.compress2 data (platform.zlib.compressBound data.length) level)

def compressZstd (platform : Platform) (level : Int) (data : Bytes) : CompressionResult :=
  compressed data (platform.zstd.compressCCtx data (platform.zstd.compressBound data.length) level)

def stored (data : Bytes) : CompressionResult :=
  { data := data, originalSize := data.length, compressedSize := data.length, success := true }

def compress (platform : Platform) (engine : CompressionEngine) (data : Bytes) :
    CompressionResult :=
  match engine.config.algorithm with
  | .none => stored data
  | .lz4 => compressLZ4 platform data
  | .zlib => compressZlib platform engine.config.compressionLevel data
  | .zstd => compressZstd platform engine.config.compressionLevel data

def fill (size : Nat) (written : Bytes) : Bytes :=
  written ++ List.replicate (size - written.length) 0

/-- The result for a library call that wrote into a buffer of `originalSize` bytes, or failed. The
buffer is not cut to what was written. -/
def decompressed (data : Bytes) (originalSize : Nat) : Option Bytes → CompressionResult
  | none => { originalSize := originalSize, compressedSize := data.length, ec := some .ioError }
  | some written =>
      { data := fill originalSize written
        originalSize := originalSize
        compressedSize := data.length
        success := true }

def decompressLZ4 (platform : Platform) (data : Bytes) (originalSize : Nat) : CompressionResult :=
  decompressed data originalSize
    (platform.lz4.decompressSafe (intPart data) (toInt originalSize))

def decompressZlib (platform : Platform) (data : Bytes) (originalSize : Nat) :
    CompressionResult :=
  decompressed data originalSize (platform.zlib.uncompress data originalSize)

def decompressZstd (platform : Platform) (data : Bytes) (originalSize : Nat) :
    CompressionResult :=
  if originalSize = 0 ∧ data ≠ [] then
    match platform.zstd.getFrameContentSize data with
    | none =>
        { originalSize := 0, compressedSize := data.length, ec := some .invalidArgument }
    | some contentSize =>
        decompressed data contentSize (platform.zstd.decompress data contentSize)
  else decompressed data originalSize (platform.zstd.decompress data originalSize)

def decompress (platform : Platform) (engine : CompressionEngine) (compressed : Bytes)
    (originalSize : Nat) : CompressionResult :=
  match engine.config.algorithm with
  | .none => stored compressed
  | .lz4 => decompressLZ4 platform compressed originalSize
  | .zlib => decompressZlib platform compressed originalSize
  | .zstd => decompressZstd platform compressed originalSize

/-! ### Blocks -/

/-- With a `blockSize` of zero the loop does not end, which is `none`. -/
def compressLoop (platform : Platform) (engine : CompressionEngine) (data : Bytes) (blockSize : Nat) :
    (fuel : Nat) → (offset : Nat) → Option (List CompressionResult)
  | 0, offset => if data.length ≤ offset then some [] else none
  | fuel + 1, offset =>
      if data.length ≤ offset then some []
      else
        let chunkSize := min blockSize (data.length - offset)
        let chunk := Cursor.slice data offset chunkSize
        (compressLoop platform engine data blockSize fuel (offset + chunkSize)).map
          (engine.compress platform chunk :: ·)

def compressBlocks (platform : Platform) (engine : CompressionEngine) (data : Bytes)
    (blockSize : Nat) : Option (List CompressionResult) :=
  compressLoop platform engine data blockSize data.length 0

/-- The output behind what there is of it, or the error of the block that ends the loop. -/
def decompressLoop (platform : Platform) (engine : CompressionEngine) :
    (output : Bytes) → (blocks : List CompressionResult) → Except (Option Errc) Bytes
  | output, [] => .ok output
  | output, block :: blocks =>
      if block.success then
        let decompressed := engine.decompress platform block.data block.originalSize
        if decompressed.success then
          decompressLoop platform engine (output ++ decompressed.data) blocks
        else .error decompressed.ec
      else .error block.ec

def decompressBlocks (platform : Platform) (engine : CompressionEngine)
    (blocks : List CompressionResult) (totalOriginalSize : Nat) : CompressionResult :=
  match decompressLoop platform engine [] blocks with
  | .ok output => { data := output, originalSize := totalOriginalSize, success := true }
  | .error ec => { originalSize := totalOriginalSize, ec := ec }

end CompressionEngine

end NebulaFS
