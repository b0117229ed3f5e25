import NebulaFS.Compression
import NebulaFS.Lib.Cutting

/-!
# Compression in blocks, and sizes that are only claimed

Of the libraries it is assumed that they decompress what they have compressed. Then the blocks of an
input are restored one by one (`decompressBlocks_compressBlocks`). The engine does not cut its output to
what the library wrote, so a claimed size above the true one is filled up with zeros
(`failsOrRestores_decompress_iff`).
-/

namespace NebulaFS

open Cutting

/-- `LZ4_MAX_INPUT_SIZE`. -/
def lz4MaxInputSize : Nat := 0x7E000000

theorem toInt_eq (n : Nat) : toInt n =
    if n % 4294967296 < 2147483648 then ((n % 4294967296 : Nat) : Int)
    else ((n % 4294967296 : Nat) : Int) - 4294967296 := by
  have hbmod : toInt n = Int.bmod n 4294967296 :=
    congrArg (Int.bmod n) (by simp only [Nat.reducePow])
  rw [hbmod, Int.bmod_def]
  split <;> split <;> omega

theorem toInt_of_lt {n : Nat} (h : n < 2147483648) : toInt n = n := by
  rw [toInt_eq]
  split <;> omega

theorem toInt_le (n : Nat) : toInt n ≤ n := by
  rw [toInt_eq]
  split <;> omega

/-- The sizes for which LZ4 has a bound. -/
def Lz4.Takes (n : Int) : Prop := 0 ≤ n ∧ n ≤ lz4MaxInputSize

instance (n : Int) : Decidable (Lz4.Takes n) := inferInstanceAs (Decidable (_ ∧ _))

/-- `LZ4_COMPRESSBOUND`. -/
def Lz4.DocumentedBound (lz4 : Lz4) : Prop :=
  ∀ n : Int, lz4.compressBound n = if Takes n then n + n / 255 + 16 else 0

namespace CompressionEngine

variable {platform : Platform} {engine : CompressionEngine} {data piece : Bytes} {blockSize : Nat}

/-- The library of the algorithm compresses the bytes into a buffer of its bound, and decompresses the
result when it is told their number. LZ4 does so for as many bytes as it takes. -/
def Inverts (platform : Platform) (engine : CompressionEngine) (piece : Bytes) : Prop :=
  match engine.config.algorithm with
  | .none => True
  | .lz4 => piece.length ≤ lz4MaxInputSize → ∃ written,
      platform.lz4.compressDefault piece (platform.lz4.compressBound piece.length) = some written
        ∧ (written.length : Int) ≤ platform.lz4.compressBound piece.length
        ∧ platform.lz4.decompressSafe written piece.length = some piece
  | .zlib => ∃ written,
      platform.zlib.compress2 piece (platform.zlib.compressBound piece.length)
          engine.config.compressionLevel = some written
        ∧ platform.zlib.uncompress written piece.length = some piece
  | .zstd => ∃ written,
      platform.zstd.compressCCtx piece (platform.zstd.compressBound piece.length)
          engine.config.compressionLevel = some written
        ∧ platform.zstd.decompress written piece.length = some piece

/-- What a block says of itself is the length of the bytes, and they come back from it. -/
structure Restores (platform : Platform) (engine : CompressionEngine) (piece : Bytes) : Prop where
  success : (engine.compress platform piece).success = true
  decompresses : (engine.decompress platform (engine.compress platform piece).data
    (engine.compress platform piece).originalSize).success = true
  data_eq : (engine.decompress platform (engine.compress platform piece).data
    (engine.compress platform piece).originalSize).data = piece

theorem fill_of_le {size : Nat} {written : Bytes} (h : size ≤ written.length) :
    fill size written = written := by
  rw [fill, Nat.sub_eq_zero_of_le h, List.replicate_zero, List.append_nil]

theorem originalSize_compress (platform : Platform) (engine : CompressionEngine) (data : Bytes) :
    (engine.compress platform data).originalSize = data.length := by
  have hcompressed : ∀ result, (compressed data result).originalSize = data.length := by
    intro result
    cases result <;> rfl
  rw [compress]
  cases engine.config.algorithm with
  | none => rfl
  | lz4 =>
      simp only [compressLZ4]
      split
      · rfl
      · exact hcompressed _
  | zlib => exact hcompressed _
  | zstd => exact hcompressed _

theorem intPart_of_lt (h : data.length < 2147483648) : intPart data = data := by
  rw [intPart, toInt_of_lt h, Int.toNat_natCast, List.take_length]

theorem length_intPart (h : 0 ≤ toInt data.length) :
    ((intPart data).length : Int) = toInt data.length := by
  have hle := toInt_le data.length
  rw [intPart, List.length_take]
  omega

theorem compressLZ4_of_takes (hbound : platform.lz4.DocumentedBound)
    (h : Lz4.Takes (toInt data.length)) :
    compressLZ4 platform data = compressed data (platform.lz4.compressDefault (intPart data)
      (platform.lz4.compressBound (toInt data.length))) := by
  have hpos : ¬ platform.lz4.compressBound (toInt data.length) ≤ 0 := by
    have hnonneg := h.1
    rw [hbound, if_pos h]
    omega
  rw [compressLZ4, if_neg hpos]

theorem compressLZ4_of_not_takes (hbound : platform.lz4.DocumentedBound)
    (h : ¬ Lz4.Takes (toInt data.length)) : compressLZ4 platform data
      = { originalSize := data.length, ec := some .invalidArgument } := by
  have hzero : platform.lz4.compressBound (toInt data.length) ≤ 0 := by
    rw [hbound, if_neg h]
  rw [compressLZ4, if_pos hzero]

/-- What LZ4 writes is short enough for its size to be an `int`. -/
theorem intPart_of_le_bound (hbound : platform.lz4.DocumentedBound) {n : Int} (h : Lz4.Takes n)
    {written : Bytes} (hwritten : (written.length : Int) ≤ platform.lz4.compressBound n) :
    intPart written = written := by
  have hle := h.2
  rw [hbound, if_pos h] at hwritten
  apply intPart_of_lt
  rw [lz4MaxInputSize] at hle
  omega

/-- A library that decompresses what it has compressed restores the bytes. -/
theorem restores_of_library {written : Bytes}
    (hcompress : engine.compress platform piece = compressed piece (some written))
    (hdecompress : engine.decompress platform written piece.length
      = decompressed written piece.length (some piece)) : Restores platform engine piece := by
  have hresult : engine.decompress platform (engine.compress platform piece).data
      (engine.compress platform piece).originalSize = decompressed written piece.length (some piece) := by
    rw [originalSize_compress, hcompress]
    exact hdecompress
  constructor
  case success =>
    rw [hcompress]
    rfl
  case decompresses =>
    rw [hresult]
    rfl
  case data_eq =>
    rw [hresult]
    exact fill_of_le (Nat.le_refl _)

theorem restores_of_stored (h : engine.config.algorithm = .none) : Restores platform engine piece := by
  have hcompress : engine.compress platform piece = stored piece := by rw [compress, h]
  have hresult : ∀ size, engine.decompress platform piece size = stored piece := by
    intro size
    rw [decompress, h]
  constructor
  case success =>
    rw [hcompress]
    rfl
  case decompresses =>
    rw [hcompress]
    exact congrArg CompressionResult.success (hresult _)
  case data_eq =>
    rw [hcompress]
    exact congrArg CompressionResult.data (hresult _)

theorem restores_of_lz4 (h : engine.config.algorithm = .lz4) (hcodec : Inverts platform engine piece)
    (hbound : platform.lz4.DocumentedBound) (hfits : piece.length ≤ lz4MaxInputSize) :
    Restores platform engine piece := by
  rw [Inverts, h] at hcodec
  obtain ⟨written, hwritten, hshort, hback⟩ := hcodec hfits
  have hsmall : piece.length < 2147483648 := by
    rw [lz4MaxInputSize] at hfits
    omega
  have htakes : Lz4.Takes (toInt piece.length) := by
    rw [toInt_of_lt hsmall]
    exact ⟨Int.natCast_nonneg _, Int.ofNat_le.mpr hfits⟩
  rw [← toInt_of_lt hsmall] at hshort
  refine @restores_of_library platform engine piece written ?_ ?_
  · rw [compress, h]
    simp only
    rw [compressLZ4_of_takes hbound htakes, intPart_of_lt hsmall, toInt_of_lt hsmall, hwritten]
  · rw [decompress, h]
    simp only
    rw [decompressLZ4, intPart_of_le_bound hbound htakes hshort, toInt_of_lt hsmall, hback]

theorem restores_of_inverts (hcodec : Inverts platform engine piece) (hne : piece ≠ [])
    (hlz4 : engine.config.algorithm = .lz4 →
      platform.lz4.DocumentedBound ∧ piece.length ≤ lz4MaxInputSize) :
    Restores platform engine piece := by
  cases halgorithm : engine.config.algorithm with
  | none => exact restores_of_stored halgorithm
  | lz4 =>
      obtain ⟨hbound, hfits⟩ := hlz4 halgorithm
      exact restores_of_lz4 halgorithm hcodec hbound hfits
  | zlib =>
      rw [Inverts, halgorithm] at hcodec
      obtain ⟨written, hwritten, hback⟩ := hcodec
      refine @restores_of_library platform engine piece written ?_ ?_
      · rw [compress, halgorithm]
        simp only
        rw [compressZlib, hwritten]
      · rw [decompress, halgorithm]
        simp only
        rw [decompressZlib, hback]
  | zstd =>
      rw [Inverts, halgorithm] at hcodec
      obtain ⟨written, hwritten, hback⟩ := hcodec
      have hpos : ¬ (piece.length = 0 ∧ written ≠ []) := fun h =>
        hne (List.length_eq_zero_iff.mp h.1)
      refine @restores_of_library platform engine piece written ?_ ?_
      · rw [compress, halgorithm]
        simp only
        rw [compressZstd, hwritten]
      · rw [decompress, halgorithm]
        simp only
        rw [decompressZstd, if_neg hpos, hback]

/-! ### The loops -/

theorem compressLoop_eq (hsize : 0 < blockSize) (fuel : Nat) {offset : Nat}
    (hfuel : data.length ≤ offset + fuel) :
    compressLoop platform engine data blockSize fuel offset
      = some ((blocks blockSize (data.drop offset)).map (engine.compress platform)) := by
  induction fuel generalizing offset with
  | zero =>
      have hend : data.length ≤ offset := hfuel
      rw [compressLoop, if_pos hend, List.drop_eq_nil_of_le hend, blocks_nil hsize, List.map_nil]
  | succ fuel ih =>
      rw [compressLoop]
      split
      · rename_i hend
        rw [List.drop_eq_nil_of_le hend, blocks_nil hsize, List.map_nil]
      · rename_i hlt
        have hne : data.drop offset ≠ [] := by
          rw [ne_eq, List.drop_eq_nil_iff]
          exact hlt
        have hchunk : Cursor.slice data offset (min blockSize (data.length - offset))
            = (data.drop offset).take blockSize := by
          rw [Cursor.slice, ← List.length_drop, List.take_eq_take_min, Nat.min_assoc, Nat.min_self,
            ← List.take_eq_take_min]
        have hnext : data.drop (offset + min blockSize (data.length - offset))
            = (data.drop offset).drop blockSize := by
          rw [List.drop_drop]
          by_cases hle : blockSize ≤ data.length - offset
          · rw [Nat.min_eq_left hle]
          · rw [List.drop_eq_nil_of_le (by omega), List.drop_eq_nil_of_le (by omega)]
        simp only
        rw [ih (by omega), hchunk, hnext, blocks_of_ne_nil hsize hne]
        rfl

theorem decompressLoop_map {pieces : List Bytes} (h : ∀ piece ∈ pieces, Restores platform engine piece)
    (output : Bytes) :
    decompressLoop platform engine output (pieces.map (engine.compress platform))
      = .ok (output ++ pieces.flatten) := by
  induction pieces generalizing output with
  | nil => rw [List.map_nil, decompressLoop, List.flatten_nil, List.append_nil]
  | cons piece pieces ih =>
      have hpiece := h piece List.mem_cons_self
      rw [List.map_cons, decompressLoop, if_pos hpiece.success]
      simp only
      rw [if_pos hpiece.decompresses, hpiece.data_eq,
        ih (fun other hother => h other (List.mem_cons_of_mem _ hother)), List.flatten_cons,
        List.append_assoc]

/-- **Blocks.** An input is cut into blocks of the block size, of which only the last may be shorter, and
the blocks are decompressed to the input. LZ4 takes no block above its maximal input size. -/
theorem decompressBlocks_compressBlocks (hsize : 1 ≤ blockSize)
    (hcodec : ∀ piece, piece ≠ [] → piece.length ≤ blockSize → piece <:+: data →
      Inverts platform engine piece)
    (hlz4 : engine.config.algorithm = .lz4 →
      platform.lz4.DocumentedBound ∧ min blockSize data.length ≤ lz4MaxInputSize) :
    ∃ blocks, engine.compressBlocks platform data blockSize = some blocks
      ∧ blocks.length = (data.length + blockSize - 1) / blockSize
      ∧ (∀ i block, blocks[i]? = some block →
        block.originalSize = min blockSize (data.length - i * blockSize)
          ∧ (i + 1 < blocks.length → block.originalSize = blockSize))
      ∧ engine.decompressBlocks platform blocks data.length
        = { data := data, originalSize := data.length, success := true } := by
  have hrestores : ∀ piece ∈ Cutting.blocks blockSize data, Restores platform engine piece := by
    intro piece hmem
    obtain ⟨hne, hle, hinfix⟩ := mem_blocks hsize hmem
    refine restores_of_inverts (hcodec piece hne hle hinfix) hne fun halgorithm => ?_
    obtain ⟨hbound, hmin⟩ := hlz4 halgorithm
    exact ⟨hbound, (Nat.le_min.mpr ⟨hle, hinfix.length_le⟩).trans hmin⟩
  refine ⟨(Cutting.blocks blockSize data).map (engine.compress platform), ?_, ?_, ?_, ?_⟩
  · rw [compressBlocks, compressLoop_eq hsize data.length (Nat.le_add_left _ _), List.drop_zero]
  · rw [List.length_map, length_blocks, blockCount]
  · intro i block hblock
    rw [List.getElem?_map, Option.map_eq_some_iff] at hblock
    obtain ⟨piece, hpiece, rfl⟩ := hblock
    rw [originalSize_compress, length_of_blocks_getElem? hpiece, List.length_map, length_blocks]
    refine ⟨rfl, fun hnext => ?_⟩
    have hlt := (lt_blockCount_iff hsize).mp hnext
    rw [Nat.succ_mul] at hlt
    omega
  · rw [decompressBlocks, decompressLoop_map hrestores, flatten_blocks hsize]
    rfl

theorem reference_inverts {level : Int} (hshort : piece.length < 256) :
    Inverts Platform.reference ⟨⟨.zstd, level⟩⟩ piece := by
  have hfits : piece.length + 9 ≤ piece.length + piece.length / 256 + 64 := by omega
  refine ⟨Platform.rawFrame piece, if_pos ⟨hshort, hfits⟩, if_pos ⟨rfl, ?_⟩⟩
  rw [Platform.rawFrame, List.length_append]
  exact Nat.le_of_eq (Nat.add_comm _ _)

theorem decompressBlocks_compressBlocks_short : 1 ≤ 2
    ∧ ∃ blocks, CompressionEngine.compressBlocks Platform.reference ⟨⟨.zstd, 3⟩⟩ [7, 8, 9, 10, 11] 2
        = some blocks
      ∧ blocks.length = (5 + 2 - 1) / 2
      ∧ (∀ i block, blocks[i]? = some block →
        block.originalSize = min 2 (5 - i * 2) ∧ (i + 1 < blocks.length → block.originalSize = 2))
      ∧ CompressionEngine.decompressBlocks Platform.reference ⟨⟨.zstd, 3⟩⟩ blocks 5
        = { data := [7, 8, 9, 10, 11], originalSize := 5, success := true } :=
  ⟨by decide, decompressBlocks_compressBlocks (by decide)
    (fun _ _ hle _ => reference_inverts (by omega)) (fun hlz4 => by cases hlz4)⟩

/-- An LZ4 with the documented bound that gives everything back. -/
def storingLz4 : Platform :=
  { Platform.reference with
    lz4 :=
      { compressBound := fun n => if Lz4.Takes n then n + n / 255 + 16 else 0
        compressDefault := fun src _ => some src
        decompressSafe := fun src _ => some src } }

theorem storingLz4_inverts (piece : Bytes) : Inverts storingLz4 ⟨⟨.lz4, 3⟩⟩ piece := by
  intro hle
  refine ⟨piece, rfl, ?_, rfl⟩
  have htakes : Lz4.Takes piece.length := ⟨Int.natCast_nonneg _, Int.ofNat_le.mpr hle⟩
  change (piece.length : Int) ≤ if Lz4.Takes piece.length then _ else _
  rw [if_pos htakes]
  omega

/-- A block that LZ4 does not take is refused, and the blocks with it. -/
theorem decompressBlocks_of_refused (hlz4 : engine.config.algorithm = .lz4)
    (hbound : platform.lz4.DocumentedBound) (htoo : ¬ Lz4.Takes (toInt data.length)) (hne : data ≠ []) :
    ∃ blocks, engine.compressBlocks platform data data.length = some blocks
      ∧ (engine.decompressBlocks platform blocks data.length).success = false := by
  have hpos : 0 < data.length := List.length_pos_iff.mpr hne
  have hcompress : engine.compress platform data
      = { originalSize := data.length, ec := some .invalidArgument } := by
    rw [compress, hlz4]
    exact compressLZ4_of_not_takes hbound htoo
  refine ⟨[engine.compress platform data], ?_, ?_⟩
  · rw [compressBlocks, compressLoop_eq hpos data.length (Nat.le_add_left _ _), List.drop_zero,
      blocks_of_ne_nil hpos hne, List.take_length, List.drop_length, blocks_nil hpos]
    rfl
  · rw [hcompress]
    rfl

theorem not_decompressBlocks_of_large :
    (∀ piece, Inverts storingLz4 ⟨⟨.lz4, 3⟩⟩ piece)
      ∧ ∃ blocks, CompressionEngine.compressBlocks storingLz4 ⟨⟨.lz4, 3⟩⟩
          (List.replicate 0x7E000001 0) 0x7E000001 = some blocks
        ∧ (CompressionEngine.decompressBlocks storingLz4 ⟨⟨.lz4, 3⟩⟩ blocks 0x7E000001).success
          = false := by
  have htoo : ¬ Lz4.Takes (toInt (List.replicate 0x7E000001 (0 : UInt8)).length) := by
    rw [List.length_replicate, toInt_of_lt (by omega)]
    decide
  have hne : List.replicate 0x7E000001 (0 : UInt8) ≠ [] := by
    rw [ne_eq, List.replicate_eq_nil_iff]
    omega
  have hrefused := @decompressBlocks_of_refused storingLz4 ⟨⟨.lz4, 3⟩⟩ _ rfl (fun _ => rfl) htoo hne
  rw [List.length_replicate] at hrefused
  exact ⟨storingLz4_inverts, hrefused⟩

/-! ### Claimed sizes -/

/-- What the libraries document of one input: it is compressed in a buffer of the bound, and the result
is decompressed into every buffer that the input fits in and refused for a smaller one. Zstandard need not
record the size. LZ4 is told sizes as an `int`, and refuses to decompress nothing. -/
def Documented (platform : Platform) (engine : CompressionEngine) (data : Bytes) : Prop :=
  match engine.config.algorithm with
  | .none => True
  | .lz4 => platform.lz4.DocumentedBound ∧ (∀ capacity, platform.lz4.decompressSafe [] capacity = none)
      ∧ (Lz4.Takes (toInt data.length) → ∃ written,
        platform.lz4.compressDefault (intPart data)
            (platform.lz4.compressBound (toInt data.length)) = some written
          ∧ (written.length : Int) ≤ platform.lz4.compressBound (toInt data.length)
          ∧ ∀ capacity, platform.lz4.decompressSafe written capacity
            = if toInt data.length ≤ capacity then some (intPart data) else none)
  | .zlib => ∃ written,
      platform.zlib.compress2 data (platform.zlib.compressBound data.length)
          engine.config.compressionLevel = some written
        ∧ ∀ capacity, platform.zlib.uncompress written capacity
          = if data.length ≤ capacity then some data else none
  | .zstd => ∃ written,
      platform.zstd.compressCCtx data (platform.zstd.compressBound data.length)
          engine.config.compressionLevel = some written
        ∧ (platform.zstd.getFrameContentSize written = none
          ∨ platform.zstd.getFrameContentSize written = some data.length)
        ∧ ∀ capacity, platform.zstd.decompress written capacity
          = if data.length ≤ capacity then some data else none

/-- The claimed size is not above the true one. LZ4 compares the two as `int`s: it refuses inputs it
does not take, a claim that is smaller so, and else the claim has to be the true size, with nothing but
zeros behind the part of the input that was compressed. -/
def SizeFits (algorithm : CompressionAlgorithm) (data : Bytes) (originalSize : Nat) : Prop :=
  match algorithm with
  | .none => True
  | .lz4 => ¬ Lz4.Takes (toInt data.length) ∨ toInt originalSize < toInt data.length
      ∨ (originalSize = data.length ∧ ∀ byte ∈ data.drop (toInt data.length).toNat, byte = 0)
  | .zlib => originalSize ≤ data.length
  | .zstd => originalSize ≤ data.length

/-- A failure is reported, or the result is the data. -/
def FailsOrRestores (result : CompressionResult) (data : Bytes) : Prop :=
  result.success = false ∨ result.data = data

theorem fill_eq_iff {size : Nat} {written : Bytes} (hle : written.length ≤ size)
    (hinit : written <+: data) : fill size written = data
      ↔ size = data.length ∧ ∀ byte ∈ data.drop written.length, byte = 0 := by
  obtain ⟨rest, rfl⟩ := hinit
  rw [fill, List.append_cancel_left_eq, List.drop_left, eq_comm, List.eq_replicate_iff,
    List.length_append]
  refine and_congr_left fun _ => ?_
  omega

theorem failsOrRestores_some_iff {source written : Bytes} {size : Nat} :
    FailsOrRestores (decompressed source size (some written)) data ↔ fill size written = data :=
  or_iff_right Bool.noConfusion

theorem failsOrRestores_none {source : Bytes} {size : Nat} :
    FailsOrRestores (decompressed source size none) data :=
  Or.inl rfl

/-- A library that is told the claimed size and knows the true one. -/
theorem failsOrRestores_decompressed_iff {source : Bytes} {size : Nat} :
    FailsOrRestores (decompressed source size (if data.length ≤ size then some data else none)) data
      ↔ size ≤ data.length := by
  split
  · rename_i hle
    rw [failsOrRestores_some_iff, fill_eq_iff hle (List.prefix_refl data), List.drop_length]
    constructor
    · exact fun h => Nat.le_of_eq h.1
    · exact fun h => ⟨Nat.le_antisymm h hle, fun byte hbyte => by cases hbyte⟩
  · rename_i hlt
    exact iff_of_true failsOrRestores_none (Nat.le_of_not_le hlt)

theorem failsOrRestores_lz4_iff (hlz4 : engine.config.algorithm = .lz4)
    (hlib : Documented platform engine data) (originalSize : Nat) :
    FailsOrRestores
        (decompressLZ4 platform (compressLZ4 platform data).data originalSize) data
      ↔ SizeFits .lz4 data originalSize := by
  rw [Documented, hlz4] at hlib
  obtain ⟨hbound, hempty, htaken⟩ := hlib
  by_cases htakes : Lz4.Takes (toInt data.length)
  · obtain ⟨written, hwritten, hshort, hback⟩ := htaken htakes
    have hlength := length_intPart htakes.1
    rw [compressLZ4_of_takes hbound htakes, hwritten]
    simp only [compressed, decompressLZ4, SizeFits]
    rw [intPart_of_le_bound hbound htakes hshort, hback, or_iff_right (not_not.mpr htakes)]
    split
    · rename_i hle
      have hclaim := toInt_le originalSize
      have hfits : (intPart data).length ≤ originalSize := by omega
      rw [failsOrRestores_some_iff, fill_eq_iff hfits (List.take_prefix _ _),
        or_iff_right (not_lt.mpr hle), ← hlength, Int.toNat_natCast]
    · rename_i hlt
      exact iff_of_true failsOrRestores_none (Or.inl (not_le.mp hlt))
  · rw [compressLZ4_of_not_takes hbound htakes]
    refine iff_of_true ?_ (Or.inl htakes)
    simp only [decompressLZ4]
    rw [intPart, List.take_nil, hempty]
    exact failsOrRestores_none

/-- **Claimed sizes.** What was compressed comes back, or a failure is reported, just where the claimed
size is not above the true one. A size above it is filled up with zeros. -/
theorem failsOrRestores_decompress_iff (hlib : Documented platform engine data) (originalSize : Nat) :
    FailsOrRestores
        (engine.decompress platform (engine.compress platform data).data originalSize) data
      ↔ SizeFits engine.config.algorithm data originalSize := by
  rw [compress, decompress]
  cases halgorithm : engine.config.algorithm with
  | none => exact iff_of_true (Or.inr rfl) trivial
  | lz4 => exact failsOrRestores_lz4_iff halgorithm hlib originalSize
  | zlib =>
      rw [Documented, halgorithm] at hlib
      obtain ⟨written, hwritten, hback⟩ := hlib
      simp only [compressZlib, decompressZlib, hwritten, compressed, hback]
      exact failsOrRestores_decompressed_iff
  | zstd =>
      rw [Documented, halgorithm] at hlib
      obtain ⟨written, hwritten, hcontent, hback⟩ := hlib
      simp only [compressZstd, decompressZstd, hwritten, compressed, hback]
      split
      · rename_i hzero
        refine iff_of_true ?_ (hzero.1 ▸ Nat.zero_le data.length)
        rcases hcontent with hcontent | hcontent
        · rw [hcontent]
          exact Or.inl rfl
        · rw [hcontent]
          exact failsOrRestores_decompressed_iff.mpr (Nat.le_refl data.length)
      · exact failsOrRestores_decompressed_iff

theorem reference_documented {level : Int} (hshort : data.length < 256) :
    Documented Platform.reference ⟨⟨.zstd, level⟩⟩ data := by
  have hlength : (Platform.rawFrame data).length = data.length + 9 := by
    rw [Platform.rawFrame, List.length_append]
    exact Nat.add_comm _ _
  have hfits : data.length + 9 ≤ data.length + data.length / 256 + 64 := by omega
  refine ⟨Platform.rawFrame data, if_pos ⟨hshort, hfits⟩, Or.inr ?_, fun capacity => ?_⟩
  · change some (UInt8.ofNat data.length).toNat = some data.length
    rw [UInt8.toNat_ofNat', Nat.mod_eq_of_lt hshort]
  · change (if Platform.rawFrame data = Platform.rawFrame data
      ∧ (Platform.rawFrame data).length ≤ capacity + 9 then some data else none) = _
    simp only [hlength, true_and, Nat.add_le_add_iff_right]

/-- A claimed size below that of the data, and one above it. -/
theorem failsOrRestores_decompress_three :
    let engine : CompressionEngine := ⟨⟨.zstd, 3⟩⟩
    let stored := (CompressionEngine.compress Platform.reference engine [1, 2, 3]).data
    (FailsOrRestores (CompressionEngine.decompress Platform.reference engine stored 2) [1, 2, 3]
        ↔ SizeFits .zstd [1, 2, 3] 2)
      ∧ (FailsOrRestores (CompressionEngine.decompress Platform.reference engine stored 4) [1, 2, 3]
        ↔ SizeFits .zstd [1, 2, 3] 4) :=
  ⟨failsOrRestores_decompress_iff (reference_documented (by decide)) 2,
    failsOrRestores_decompress_iff (reference_documented (by decide)) 4⟩

/-- Three bytes and a claim of four. -/
theorem not_failsOrRestores_padded : Documented Platform.reference ⟨⟨.zstd, 3⟩⟩ [1, 2, 3]
    ∧ ¬ FailsOrRestores (CompressionEngine.decompress Platform.reference ⟨⟨.zstd, 3⟩⟩
      (CompressionEngine.compress Platform.reference ⟨⟨.zstd, 3⟩⟩ [1, 2, 3]).data 4) [1, 2, 3] := by
  refine ⟨reference_documented (by decide), ?_⟩
  change ¬ (_ ∨ _)
  decide

end CompressionEngine

end NebulaFS
