import NebulaFS.BlockStorage

/-!
# What the integrity of a block is checked against

The header that a block is stored with has no place for its checksum. A block that was read has a checksum
of zero, for which `verifyIntegrity` only asks whether there are any bytes where there should be, so a
payload that was changed passes as the right one does (`detects_iff`).
-/

namespace NebulaFS

open Cursor LittleEndian

namespace BlockHeader

/-- A header is read back from the front of what it was written to. -/
theorem ofBytes_toBytes_append (header : BlockHeader) (rest : Bytes)
    (h : size ≤ (header.toBytes ++ rest).length) : ofBytes (header.toBytes ++ rest) h = header := by
  obtain ⟨⟨sync, hsync⟩, compressedSize, originalSize, compression, encryption, encrypted⟩ := header
  obtain ⟨first, second, rfl⟩ : ∃ first second, sync = [first, second] :=
    List.length_eq_two.mp hsync
  change BlockHeader.mk _ (UInt64.ofNat (leValue (leBytes 8 compressedSize.toNat)))
    (UInt64.ofNat (leValue (leBytes 8 originalSize.toNat))) _ _ _ = _
  rw [ofNat_leValue_leBytes_eight, ofNat_leValue_leBytes_eight]
  rfl

end BlockHeader

namespace CompressionEngine

variable {platform : Platform} {engine : CompressionEngine} {source : Bytes} {size : Nat}

theorem le_length_decompressed {result : Option Bytes}
    (h : (decompressed source size result).success = true) :
    size ≤ (decompressed source size result).data.length := by
  cases result with
  | none => cases h
  | some written =>
      change size ≤ (fill size written).length
      rw [fill, List.length_append, List.length_replicate]
      omega

/-- A library that succeeds fills the size that it was asked for. -/
theorem le_length_decompress (halgorithm : engine.config.algorithm ≠ .none) (hsize : 0 < size)
    (h : (engine.decompress platform source size).success = true) :
    size ≤ (engine.decompress platform source size).data.length := by
  rw [decompress] at h ⊢
  cases hengine : engine.config.algorithm with
  | none => exact absurd hengine halgorithm
  | lz4 =>
      rw [hengine] at h
      exact le_length_decompressed h
  | zlib =>
      rw [hengine] at h
      exact le_length_decompressed h
  | zstd =>
      rw [hengine] at h
      simp only at h ⊢
      rw [decompressZstd, if_neg (fun hzero => absurd hzero.1 (by omega))] at h ⊢
      exact le_length_decompressed h

end CompressionEngine

namespace CompressionBlock

variable {platform : Platform} {block : CompressionBlock} {payload data : Bytes}

/-- A block as the code makes them: its size is the one of its payload, and data that it keeps is what the
payload decompresses to. -/
structure WellFormed (platform : Platform) (block : CompressionBlock) : Prop where
  compressedSize : block.compressedSize.toNat = block.compressedData.length
  decompressedData : block.decompressedData
    = if block.isDecompressed then (block.decompressed platform block.compressedData).getD [] else []

theorem WellFormed.data_eq (h : block.WellFormed platform) :
    (block.getDecompressedData platform).2
      = (block.decompressed platform block.compressedData).getD [] := by
  rw [getDecompressedData, h.decompressedData]
  cases block.isDecompressed with
  | true => rfl
  | false => rfl

/-- Looking at the data leaves a block as it should be. -/
theorem WellFormed.getDecompressedData (h : block.WellFormed platform) :
    (block.getDecompressedData platform).1.WellFormed platform := by
  have hdata := h.data_eq
  rw [CompressionBlock.getDecompressedData] at hdata ⊢
  split at hdata
  · rename_i hcached
    rw [if_pos hcached]
    exact h
  · rename_i hfresh
    rw [if_neg hfresh]
    exact ⟨h.compressedSize, hdata⟩

/-- A payload that is not empty, or is decompressed by a library, decompresses to something where the
block says that there is something. -/
theorem ne_nil_of_decompressed (hsize : 0 < block.originalSize)
    (hpayload : CompressionAlgorithm.ofByte block.algo = some .none → payload ≠ [])
    (h : block.decompressed platform payload = some data) : data ≠ [] := by
  have hpositive : 0 < block.originalSize.toNat := UInt64.lt_iff_toNat_lt.mp hsize
  rw [decompressed] at h
  split at h
  · rename_i hnone
    obtain rfl := Option.some.inj h
    exact hpayload hnone
  · rename_i algo hnone _
    simp only at h
    split at h
    · rename_i hsuccess
      obtain rfl := Option.some.inj h
      have hle := CompressionEngine.le_length_decompress (show algo ≠ .none from hnone) hpositive
        hsuccess
      exact List.ne_nil_of_length_pos (by omega)
    · cases h
  · cases h

end CompressionBlock

namespace BlockStorage

open CompressionBlock

variable {platform : Platform} {block : CompressionBlock} {payload : Bytes}

/-- The header that a block is stored with. -/
structure StoredAs (header : BlockHeader) (block : CompressionBlock) : Prop where
  serialized : serializeBlock block = header.toBytes ++ block.compressedData
  sync : header.sync.toList = [0x4E, 0x42]
  compressedSize : header.compressedSize = block.compressedSize
  originalSize : header.originalSize = block.originalSize
  compression : header.compression = block.algo
  encrypted : decide (header.encrypted ≠ 0) = block.encrypted

theorem exists_storedAs (block : CompressionBlock) : ∃ header, StoredAs header block := by
  refine ⟨_, rfl, rfl, rfl, rfl, rfl, ?_⟩
  cases block.encrypted with
  | true => rfl
  | false => rfl

theorem length_serializeBlock (block : CompressionBlock) :
    (serializeBlock block).length = BlockHeader.size + block.compressedData.length := by
  rw [serializeBlock, List.length_append, BlockHeader.length_toBytes]

/-- What is left of a block that was stored. -/
def restored (block : CompressionBlock) : CompressionBlock :=
  { block with offset := 0, checksum := 0, decompressedData := [], isDecompressed := false }

/-- All of a block that was stored is read back but the checksum. -/
theorem deserializeBlock_serializeBlock
    (hsize : block.compressedSize.toNat = block.compressedData.length) :
    deserializeBlock (serializeBlock block) 0 = .ok (restored block) := by
  obtain ⟨header, hstored⟩ := exists_storedAs block
  have hlength : (serializeBlock block).length = BlockHeader.size + block.compressedData.length :=
    length_serializeBlock block
  have hlong : BlockHeader.size ≤ ((serializeBlock block).drop 0).length := by
    rw [List.drop_zero, hlength]
    exact Nat.le_add_right _ _
  have hheader : BlockHeader.ofBytes ((serializeBlock block).drop 0) hlong = header := by
    simp only [List.drop_zero, hstored.serialized]
    exact BlockHeader.ofBytes_toBytes_append _ _ _
  have hsum : ∀ n, n ≤ (serializeBlock block).length → ¬ (serializeBlock block).length < n % wordSize :=
    fun n hn hlt => absurd (Nat.mod_le n wordSize) (by omega)
  have hend : 0 + BlockHeader.size + header.compressedSize.toNat
      = (serializeBlock block).length := by
    rw [hlength, Nat.zero_add, hstored.compressedSize, hsize]
  have hpayload : slice (serializeBlock block) (0 + BlockHeader.size)
      header.compressedSize.toNat = block.compressedData := by
    have hheaderLength := BlockHeader.length_toBytes header
    rw [hstored.serialized, Nat.zero_add, slice_append_right (Nat.le_of_eq hheaderLength),
      hheaderLength, Nat.sub_self, hstored.compressedSize]
    exact slice_all hsize.symm
  rw [deserializeBlock, if_neg (hsum _ (by omega)), dif_pos hlong]
  simp only [hheader]
  rw [if_neg (fun hsync => hsync hstored.sync), if_neg (hsum _ (Nat.le_of_eq hend)),
    if_pos (Nat.le_of_eq hend), hpayload, hstored.encrypted, hstored.compressedSize,
    hstored.originalSize, hstored.compression]
  rfl

/-! ### The blocks of the code -/

theorem wellFormed_of_deserializeBlock {bytes : Bytes} {offset : Nat}
    (h : deserializeBlock bytes offset = .ok block) : block.WellFormed platform := by
  rw [deserializeBlock] at h
  split at h
  · cases h
  · split at h
    · simp only at h
      split at h
      · cases h
      · split at h
        · cases h
        · split at h
          · rename_i hinside
            obtain rfl := Except.ok.inj h
            exact ⟨(length_slice hinside).symm, rfl⟩
          · cases h
    · cases h

/-- The block that is written, whose vectors have sizes that are words. -/
theorem wellFormed_blockOf {data : Bytes} {algo : CompressionAlgorithm} (hdata : data.length < 2 ^ 64)
    (hcompressed : ((engineOf algo).compress platform data).data.length < 2 ^ 64) :
    (blockOf platform data algo).WellFormed platform := by
  rw [blockOf]
  split
  · simp only
    split
    · exact ⟨UInt64.toNat_ofNat_of_lt' hcompressed, rfl⟩
    · exact ⟨UInt64.toNat_ofNat_of_lt' hdata, rfl⟩
  · exact ⟨UInt64.toNat_ofNat_of_lt' hdata, rfl⟩

/-! ### Corruption -/

/-- What becomes of bytes that are read and verified. -/
def Verifies (platform : Platform) (bytes : Bytes) (verdict : Bool) : Prop :=
  ∃ block, deserializeBlock bytes 0 = .ok block ∧ (block.verifyIntegrity platform).2 = verdict

/-- Another payload of the same length, which decompresses to data of another checksum. -/
def Corrupts (platform : Platform) (block : CompressionBlock) (payload : Bytes) : Prop :=
  payload.length = block.compressedData.length
    ∧ ∃ data, block.decompressed platform payload = some data
      ∧ ChecksumEngine.crc32 platform data ≠ block.checksum

/-- The stored block is found intact, and with the other payload it is not. -/
structure Detects (platform : Platform) (block : CompressionBlock) (payload : Bytes) : Prop where
  unchanged : Verifies platform (serializeBlock block) true
  changed : Corrupts platform block payload →
    Verifies platform (serializeBlock { block with compressedData := payload }) false

/-- Without a checksum any data will do. -/
theorem verifies_true (hsize : block.compressedSize.toNat = block.compressedData.length) {data : Bytes}
    (hdata : block.decompressed platform block.compressedData = some data)
    (hne : 0 < block.originalSize → data ≠ []) : Verifies platform (serializeBlock block) true := by
  refine ⟨restored block, deserializeBlock_serializeBlock hsize, ?_⟩
  have hfresh : (restored block).getDecompressedData platform
      = ({ restored block with decompressedData := data, isDecompressed := true }, data) := by
    rw [CompressionBlock.getDecompressedData, if_neg (fun h => by cases h)]
    change (let found := (block.decompressed platform block.compressedData).getD []
      ({ restored block with decompressedData := found, isDecompressed := true }, found)) = _
    rw [hdata]
    rfl
  rw [verifyIntegrity, hfresh]
  simp only
  rw [if_neg (fun h => hne h.2 h.1), if_pos (show (restored block).checksum = 0 from rfl)]

/-- **Corruption.** A block is found intact whatever its payload was changed to, so the only changes that
are dealt with as they should be are those that do not matter. -/
theorem detects_iff (hcrc : platform.crc32 [] = 0) (hblock : block.WellFormed platform)
    (hchecksum : block.checksum ≠ 0)
    (hdata : ChecksumEngine.crc32 platform (block.getDecompressedData platform).2 = block.checksum)
    (payload : Bytes) : Detects platform block payload ↔ ¬ Corrupts platform block payload := by
  rw [hblock.data_eq] at hdata
  -- the data has a checksum, so it is there
  obtain ⟨data, hdecompressed, hne⟩ : ∃ data,
      block.decompressed platform block.compressedData = some data ∧ data ≠ [] := by
    cases hdecompressed : block.decompressed platform block.compressedData with
    | none =>
        rw [hdecompressed] at hdata
        exact absurd (hdata.symm.trans hcrc) hchecksum
    | some data =>
        refine ⟨data, rfl, ?_⟩
        rintro rfl
        rw [hdecompressed] at hdata
        exact absurd (hdata.symm.trans hcrc) hchecksum
  constructor
  · intro h hcorrupts
    obtain ⟨found, hfound, hverdict⟩ := h.changed hcorrupts
    obtain ⟨hlength, changed, hchanged, -⟩ := hcorrupts
    have hpayload : CompressionAlgorithm.ofByte block.algo = some .none → payload ≠ [] := by
      intro hnone hnil
      have hsame : block.decompressed platform block.compressedData = some block.compressedData := by
        rw [decompressed, hnone]
      rw [hsame] at hdecompressed
      obtain rfl := Option.some.inj hdecompressed
      rw [hnil] at hlength
      exact hne (List.eq_nil_of_length_eq_zero hlength.symm)
    have hsize : block.compressedSize.toNat = payload.length := hlength ▸ hblock.compressedSize
    have hpasses : Verifies platform (serializeBlock { block with compressedData := payload }) true :=
      verifies_true hsize hchanged fun hpos => ne_nil_of_decompressed hpos hpayload hchanged
    obtain ⟨other, hother, htrue⟩ := hpasses
    rw [hfound] at hother
    obtain rfl := Except.ok.inj hother
    rw [hverdict] at htrue
    cases htrue
  · intro h
    exact ⟨verifies_true hblock.compressedSize hdecompressed fun _ => hne,
      fun hcorrupts => absurd hcorrupts h⟩

/-- Three bytes that are stored as they are. -/
def storedThree : CompressionBlock := blockOf .reference [1, 2, 3] .none

theorem storedThree_wellFormed : storedThree.WellFormed .reference := ⟨rfl, rfl⟩

theorem detects_iff_storedThree :
    Detects .reference storedThree [1, 2, 4] ↔ ¬ Corrupts .reference storedThree [1, 2, 4] :=
  detects_iff rfl storedThree_wellFormed (by decide +kernel) rfl [1, 2, 4]

/-- The last byte is changed. -/
theorem not_detects_storedThree :
    storedThree.WellFormed .reference ∧ storedThree.checksum ≠ 0
      ∧ ChecksumEngine.crc32 .reference (storedThree.getDecompressedData .reference).2 = storedThree.checksum
      ∧ Corrupts .reference storedThree [1, 2, 4] ∧ ¬ Detects .reference storedThree [1, 2, 4] := by
  have hcorrupts : Corrupts .reference storedThree [1, 2, 4] := ⟨rfl, _, rfl, by decide +kernel⟩
  refine ⟨storedThree_wellFormed, by decide +kernel, rfl, hcorrupts, fun h => ?_⟩
  obtain ⟨found, hfound, hverdict⟩ := h.changed hcorrupts
  have hread : deserializeBlock (serializeBlock { storedThree with compressedData := [1, 2, 4] }) 0
      = .ok _ := deserializeBlock_serializeBlock rfl
  rw [hread] at hfound
  obtain rfl := Except.ok.inj hfound
  cases hverdict

end BlockStorage

end NebulaFS
