import NebulaFS.Platform

/-!
# The checksum engine

`utils/Checksum.cpp`. The engine absorbs bytes into a digest context and reads the digest off it. A
context is made for `SHA256` and `Blake3` only; without one `update` does nothing and `finalize`
returns the zero array.
-/

namespace NebulaFS

/-- The engine, with the bytes its digest context has absorbed. -/
structure ChecksumEngine where
  algo : HashAlgorithm
  ctx : Option Bytes
deriving DecidableEq

namespace ChecksumEngine

def initContext (algo : HashAlgorithm) : Option Bytes :=
  if algo = .sha256 ∨ algo = .blake3 then some [] else none

def new (algo : HashAlgorithm) : ChecksumEngine :=
  { algo := algo, ctx := initContext algo }

def reset (engine : ChecksumEngine) : ChecksumEngine :=
  { engine with ctx := initContext engine.algo }

def update (engine : ChecksumEngine) (data : Bytes) : ChecksumEngine :=
  { engine with ctx := engine.ctx.map (· ++ data) }

/-- The whole digest is written into the array. The OpenSSL build hashes `Blake3` with BLAKE2b-512,
whose digest has 64 bytes and leaves the array, which is `none`. -/
def finalize (platform : Platform) (engine : ChecksumEngine) : Option ChecksumValue :=
  match engine.ctx with
  | none => some (zeroArr 32)
  | some absorbed =>
      if platform.hasOpenssl ∧ engine.algo = .blake3 then none else some (platform.sha256 absorbed)

/-- `compute` with an algorithm. -/
def computeWith (platform : Platform) (algo : HashAlgorithm) (data : Bytes) : Option ChecksumValue :=
  ((new algo).update data).finalize platform

/-- `compute` with its default algorithm, `SHA256`. -/
def compute (platform : Platform) (data : Bytes) : ChecksumValue := platform.sha256 data

theorem computeWith_sha256 (platform : Platform) (data : Bytes) :
    computeWith platform .sha256 data = some (compute platform data) := by
  simp [computeWith, finalize, update, new, initContext, compute]

theorem computeWith_crc32 (platform : Platform) (data : Bytes) :
    computeWith platform .crc32 data = some (zeroArr 32) := rfl

theorem computeWith_blake3 (platform : Platform) (data : Bytes) :
    computeWith platform .blake3 data
      = if platform.hasOpenssl then none else some (compute platform data) := by
  simp [computeWith, finalize, update, new, initContext, compute]

/-- `::crc32(0, data, static_cast<uInt>(length))`. -/
def crc32 (platform : Platform) (data : Bytes) : UInt32 :=
  platform.crc32 (data.take (data.length % 2 ^ 32))

/-- `CRC32` has no digest context, so the engine absorbs nothing and its digest is always zero. -/
theorem ctx_of_crc32 {engine : ChecksumEngine} (halgo : engine.algo = .crc32) :
    engine.reset.ctx = none := by
  simp [reset, initContext, halgo]

theorem finalize_of_ctx_none (platform : Platform) {engine : ChecksumEngine}
    (hctx : engine.ctx = none) : engine.finalize platform = some (zeroArr 32) := by
  rw [finalize, hctx]

end ChecksumEngine

end NebulaFS
