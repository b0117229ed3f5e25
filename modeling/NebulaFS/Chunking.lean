import NebulaFS.Checksum
import NebulaFS.ChunkManager
import NebulaFS.Lib.Cutting

/-!
# Cutting data into chunks

`storage/ChunkManager.cpp`, the writing side. Cut by content, a chunk ends where the hash of the 48 bytes
before it has zeros under the mask, no sooner than `minChunkSize` after the last boundary and no later
than `maxChunkSize`; otherwise it has `maxChunkSize` bytes. A chunk is known by its digest under the
configured algorithm.
-/

namespace NebulaFS

open Cursor

structure ChunkConfig where
  dedupStrategy : DedupStrategy := .content
  minChunkSize : Nat := 4096
  maxChunkSize : Nat := 1048576
  avgChunkSize : Nat := 65536
  hashAlgorithm : HashAlgorithm := .sha256
deriving DecidableEq

namespace ChunkManager

/-! ### Deduplication -/

def computeHash (platform : Platform) (config : ChunkConfig) (data : Bytes) : Option ChecksumValue :=
  ChecksumEngine.computeWith platform config.hashAlgorithm data

/-- The digest fits into its array. -/
def HashFits (platform : Platform) (config : ChunkConfig) : Prop :=
  ¬ (config.hashAlgorithm = .blake3 ∧ platform.hasOpenssl = true)

theorem isSome_computeHash_iff (platform : Platform) (config : ChunkConfig) (data : Bytes) :
    (computeHash platform config data).isSome = true ↔ HashFits platform config := by
  rw [computeHash, HashFits]
  cases config.hashAlgorithm with
  | crc32 => simp [ChecksumEngine.computeWith_crc32]
  | sha256 => simp [ChecksumEngine.computeWith_sha256]
  | blake3 =>
      rw [ChecksumEngine.computeWith_blake3]
      cases platform.hasOpenssl <;> simp

/-- `none` is a digest that leaves its array, or a read behind the end of `chunks_`, which is not
checked. -/
def findOrCreateChunk (platform : Platform) (config : ChunkConfig) (manager : ChunkManager)
    (data : Bytes) : Option (ChunkDescriptor × ChunkManager) := do
  let hash ← computeHash platform config data
  match manager.hashIndex.lookup (hashKey hash) with
  | some index => manager.chunks[index]?.map (·, manager)
  | none =>
      let desc : ChunkDescriptor :=
        { hash := hash
          originalSize := UInt64.ofNat data.length
          compressedSize := 0
          compression := 0
          encrypted := false }
      some (desc,
        { chunks := manager.chunks ++ [desc]
          hashIndex := manager.hashIndex.insert (hashKey hash) manager.chunks.length
          totalDataSize := manager.totalDataSize + UInt64.ofNat data.length
          totalStoredSize := manager.totalStoredSize + UInt64.ofNat data.length })

/-- The calls one after the other, each with the descriptor it returns. -/
def findOrCreateAll (platform : Platform) (config : ChunkConfig) :
    ChunkManager → List Bytes → Option (List (Bytes × ChunkDescriptor) × ChunkManager)
  | manager, [] => some ([], manager)
  | manager, data :: calls => do
      let (desc, manager) ← findOrCreateChunk platform config manager data
      let (answers, manager) ← findOrCreateAll platform config manager calls
      return ((data, desc) :: answers, manager)

/-! ### Boundaries -/

set_option maxRecDepth 2000 in
/-- The source gives the first 214 words of the table, which leaves zero for the others. -/
def buzhashTable : List.Vector UInt32 256 :=
  ⟨[
      0x458be752, 0xc10748cc, 0xbb6bbbed, 0x6cdc21c3, 0x9c79ed0a, 0x5c64cb2f, 0xb1c0f24f, 0xe42b8bf5,
      0xbe97f3cb, 0x90c52b3e, 0x2389a777, 0xccfb7b41, 0x21b60c9b, 0x7f00e742, 0x70a11b46, 0x3045f586,
      0xef4f51c7, 0x64bb9e50, 0x8f13ecba, 0xe1a469c2, 0x8d124b7d, 0x94e4318a, 0x6685e47a, 0x6f9a4bb6,
      0x2e1e5cd7, 0x0159ee3c, 0x87fc8e3c, 0xe36fcb8c, 0xa90fa72a, 0x22b3d8f6, 0x62b0ca27, 0x9e57f4d0,
      0x8163986b, 0x4c1578c5, 0xefa9dc7f, 0xb974582c, 0x3182f82e, 0xaa0f09e3, 0xbce08e63, 0x1e2f5e5d,
      0x7ab1b6a7, 0xf7416dbd, 0xd53c15f2, 0xb917cc82, 0x481754b5, 0x287aefb7, 0x506ebfa8, 0x4f43ec03,
      0x0418f5f4, 0xf1c1b5f8, 0x16a8e1d4, 0xa53ba74e, 0x4c8eb6d9, 0x7703e8f0, 0x5e75bd1f, 0xfaca8804,
      0x765b5739, 0x0bb1b0ac, 0x5ed6ef36, 0x760a05e4, 0x5f6122ce, 0x87a4244e, 0x50cd137c, 0xc1e08db9,
      0x25f77ab2, 0x169558bc, 0x9e9d48ad, 0x97f3f72e, 0xcffae03c, 0x1a6134d8, 0x2fc1e4dd, 0x3b9c1d41,
      0x0270c4ac, 0x1701f6dd, 0x777a49e6, 0xc81c7c22, 0x5909bee8, 0x5689c44b, 0x0e6393cc, 0x5144f36c,
      0xae88d62e, 0x11e0c7d5, 0xa4bf9e3e, 0xcc9b82db, 0xaa58dfc2, 0x95f27b82, 0x0c37acd4, 0xac2f7a07,
      0xdccbecb5, 0xc68bd3ad, 0x69764450, 0x9e30798a, 0xe6f4c52e, 0x6cbb5cf1, 0x8d18ade5, 0xd1b46b36,
      0xad3a21b9, 0xe37ae2f7, 0x5759b49d, 0x8cf9b4fb, 0x32bf5214, 0x57454ed2, 0xb094145a, 0xc20b44c5,
      0xe02acfae, 0x5bad8a0a, 0x7632e312, 0x894264ed, 0x6180f56c, 0x5a551689, 0xd1b80e02, 0x4f61b581,
      0x0a7d93bb, 0x29aecbd3, 0x3089bea2, 0xb944408d, 0x5a1de2e5, 0xe5cbebdc, 0xfee6ed4e, 0x65cc849c,
      0x72ec34b3, 0x504501c7, 0x5983a27f, 0x1cccaf2a, 0x5f35cb47, 0x82e317c5, 0x96e37f23, 0xdfd64e22,
      0x35b8c8b4, 0xeb90c242, 0xa74821db, 0x3082dd7d, 0x82aa1eb1, 0xdf1804e6, 0xf17766ea, 0x04a2b4b7,
      0x1339a829, 0xb9e180be, 0x5dfc02f7, 0xf62344d9, 0xe4e9c4c2, 0x2217407d, 0x948a70f3, 0x46361439,
      0x21a3f2e9, 0x537d415a, 0x6058e22f, 0x0a74baf2, 0x7cd7258a, 0x38b09fd3, 0xbccbbcf5, 0x8835f7aa,
      0x2bd7bfa0, 0x5a5155ba, 0x7da575d8, 0xcbf6f8d0, 0x40b77a7d, 0x78fe5dea, 0x7d378fb8, 0xa50f498f,
      0x8c8370e0, 0x87485f95, 0x1d6c92a7, 0xd77aac51, 0xacb164b3, 0xd4312513, 0x4ff2eceb, 0x6049a0de,
      0x0426bce8, 0x541e05e7, 0x2b9d55c5, 0x4726137e, 0x4a8062df, 0xfbac45da, 0xbfb0ebe9, 0xdef6efb8,
      0xa17eb9be, 0xd65a8559, 0x37ea5d98, 0xf2d9d74b, 0xbbd5634b, 0xe11ebacc, 0x27a49a55, 0xe748e3e7,
      0x73ec42b4, 0xd23ad3ba, 0x2c6a8967, 0xad01eeb0, 0x0917a370, 0x9ba6eaa3, 0x28a92e2b, 0xf6355cb6,
      0x4ea32b96, 0xb90c0f47, 0xdee405d5, 0xd449afce, 0x3c8e7c63, 0x5df1924c, 0x0f99cf36, 0x2a6173a9,
      0x76929070, 0x106574e1, 0x9df3ae4b, 0x4cecb6c9, 0x539cde0d, 0x373b45a4, 0x75d792a5, 0x2e4466ff,
      0x886ba96a, 0xb1238e82, 0xc027537d, 0x633ab3a0, 0x57f925e0, 0x382514f4] ++ List.replicate 42 0,
    rfl⟩

def buzhash (data : Bytes) : UInt32 :=
  data.foldl (fun hash byte => ((hash <<< 1) ||| (hash >>> 31)) ^^^ buzhashTable.get byte.toFin) 0

def windowSize : Nat := 48

def mask (config : ChunkConfig) : UInt32 := UInt32.ofNat config.avgChunkSize - 1

/-- The rolling window before `i`. -/
def window (data : Bytes) (i : Nat) : Bytes :=
  let windowStart := if windowSize ≤ i then i - windowSize else 0
  let windowLen := min windowSize (data.length - windowStart)
  slice data windowStart windowLen

def boundaryLoop (config : ChunkConfig) (data : Bytes) :
    (fuel : Nat) → (i lastBoundary : Nat) → List Nat
  | 0, _, _ => []
  | fuel + 1, i, lastBoundary =>
      if data.length ≤ i then []
      else if config.maxChunkSize ≤ i - lastBoundary then
        i :: boundaryLoop config data fuel (i + 1) i
      else if i - lastBoundary < config.minChunkSize then
        boundaryLoop config data fuel (i + 1) lastBoundary
      else if buzhash (window data i) &&& mask config = 0 then
        i :: boundaryLoop config data fuel (i + 1) i
      else boundaryLoop config data fuel (i + 1) lastBoundary

def findChunkBoundaries (config : ChunkConfig) (data : Bytes) : List Nat :=
  if data.length ≤ config.maxChunkSize then []
  else boundaryLoop config data data.length config.minChunkSize 0

/-- With a `maxChunkSize` of zero the loop does not end, which is `none`. -/
def fixedLoop (config : ChunkConfig) (dataSize : Nat) : (fuel : Nat) → (i : Nat) → Option (List Nat)
  | 0, i => if dataSize ≤ i then some [] else none
  | fuel + 1, i =>
      if dataSize ≤ i then some []
      else (fixedLoop config dataSize fuel (i + config.maxChunkSize)).map (i :: ·)

def findFixedBoundaries (config : ChunkConfig) (dataSize : Nat) : Option (List Nat) :=
  fixedLoop config dataSize dataSize config.maxChunkSize

/-! ### Cutting -/

def boundaries (config : ChunkConfig) (data : Bytes) : Option (List Nat) :=
  if config.dedupStrategy = .content then some (findChunkBoundaries config data)
  else findFixedBoundaries config data.length

/-- The loop over the boundaries, and the chunk behind the last of them. -/
def chunkLoop (platform : Platform) (config : ChunkConfig) (data : Bytes) (manager : ChunkManager)
    (start : Nat) : List Nat → Option (List ChunkDescriptor × ChunkManager)
  | [] =>
      if start < data.length then do
        let (descriptor, manager) ← findOrCreateChunk platform config manager (data.drop start)
        return ([descriptor], manager)
      else some ([], manager)
  | boundary :: boundaries => do
      let (descriptor, manager) ←
        findOrCreateChunk platform config manager (slice data start (boundary - start))
      let (descriptors, manager) ← chunkLoop platform config data manager boundary boundaries
      return (descriptor :: descriptors, manager)

def chunkData (platform : Platform) (config : ChunkConfig) (manager : ChunkManager) (data : Bytes) :
    Option (List ChunkDescriptor × ChunkManager) :=
  (boundaries config data).bind (chunkLoop platform config data manager 0)

end ChunkManager

end NebulaFS
