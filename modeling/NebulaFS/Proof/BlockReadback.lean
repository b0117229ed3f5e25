import NebulaFS.BlockStorage
import NebulaFS.Proof.BlockCompression

/-!
# Reading a block back

A block is stored behind its header, and the reader hands both to the decompressor. zlib and Zstandard
refuse what begins with the header, and without compression the reader does not look at the stored bytes
at all. LZ4 takes the header for the begin of its data, so that at most data come back that begin like
their own header (`readBlock_writeBlock_bounds`).
-/

namespace NebulaFS

open LittleEndian

/-- The formats of zlib and Zstandard do not begin with the first byte of a block header. -/
structure Platform.RefusesBlocks (platform : Platform) : Prop where
  uncompress : ∀ rest capacity, platform.zlib.uncompress (0x4E :: rest) capacity = none
  contentSize : ∀ rest, platform.zstd.getFrameContentSize (0x4E :: rest) = none
  decompress : ∀ rest capacity, platform.zstd.decompress (0x4E :: rest) capacity = none

/-- An LZ4 block is not empty, and the token `0x4E` announces four literals, which begin the output. -/
structure Lz4.LiteralsFirst (lz4 : Lz4) : Prop where
  refusesEmpty : ∀ capacity, lz4.decompressSafe [] capacity = none
  literals : ∀ rest capacity written, lz4.decompressSafe (0x4E :: rest) capacity = some written →
    4 ≤ rest.length ∧ written.take 4 = rest.take 4

namespace BlockStorage

open CompressionEngine

variable {platform : Platform} {data output : Bytes}

/-- The size that `writeBlock` records, a `uint64_t`. -/
def recordedSize (data : Bytes) : Nat := (UInt64.ofNat data.length).toNat

/-- Nothing is compressed, and the output of the caller, cut or filled with zeros to the recorded size,
is the data before the call. -/
def ReadsBack (algo : CompressionAlgorithm) (data output : Bytes) : Prop :=
  algo = .none ∧ resize output (recordedSize data) = data

/-- The data begin with the `B` of a header and the lowest bytes of the size that theirs records. -/
def BeginsLikeHeader (platform : Platform) (data : Bytes) : Prop :=
  data.take 4
    = 0x42 :: (leBytes 8 (blockOf platform data .lz4).compressedSize.toNat).take 3

theorem decompressed_eq_iff {source : Bytes} {size : Nat} {result : Option Bytes} :
    (decompressed source size result).success = true ∧ (decompressed source size result).data = data
      ↔ ∃ written, result = some written ∧ fill size written = data := by
  cases result with
  | none =>
      refine iff_of_false (fun h => Bool.false_ne_true h.1) ?_
      rintro ⟨written, h, -⟩
      cases h
  | some written =>
      constructor
      · exact fun h => ⟨written, rfl, h.2⟩
      · rintro ⟨_, ⟨⟩, hfill⟩
        exact ⟨rfl, hfill⟩

theorem readBlock_eq_ok_iff (algo : CompressionAlgorithm) {storage : BlockStorage}
    {descriptor : ChunkDescriptor} (hne : algo ≠ .none) (h : descriptor.compression = algo.toByte) :
    readBlock platform storage descriptor output = .ok data
      ↔ ((engineOf algo).decompress platform storage.blockData descriptor.originalSize.toNat).success
          = true
        ∧ ((engineOf algo).decompress platform storage.blockData descriptor.originalSize.toNat).data
          = data := by
  have hread : readBlock platform storage descriptor output
      = if ((engineOf algo).decompress platform storage.blockData
          descriptor.originalSize.toNat).success then
          .ok ((engineOf algo).decompress platform storage.blockData descriptor.originalSize.toNat).data
        else .error .decompressionError := by
    rw [readBlock, h, CompressionAlgorithm.ofByte_toByte]
    cases algo with
    | none => exact absurd rfl hne
    | lz4 => rfl
    | zlib => rfl
    | zstd => rfl
  rw [hread]
  split
  · rename_i hsuccess
    rw [and_iff_right hsuccess, Except.ok.injEq]
  · rename_i hfailed
    refine iff_of_false ?_ fun hboth => hfailed hboth.1
    rintro ⟨⟩

/-- What zlib and Zstandard are handed, whatever the payload. -/
theorem not_success_of_header (hrefuses : platform.RefusesBlocks) {algo : CompressionAlgorithm}
    (h : algo = .zlib ∨ algo = .zstd) (rest : Bytes) (size : Nat) :
    ((engineOf algo).decompress platform (0x4E :: rest) size).success = false := by
  rcases h with rfl | rfl
  · change (decompressZlib platform (0x4E :: rest) size).success = false
    rw [decompressZlib, hrefuses.uncompress]
    rfl
  · change (decompressZstd platform (0x4E :: rest) size).success = false
    rw [decompressZstd, hrefuses.contentSize, hrefuses.decompress]
    split <;> rfl

theorem serializeBlock_begins (block : CompressionBlock) :
    ∃ rest, serializeBlock block = 0x4E :: rest
      ∧ rest.take 4 = 0x42 :: (leBytes 8 block.compressedSize.toNat).take 3 :=
  ⟨_, rfl, rfl⟩

/-- What LZ4 makes of a header and a payload begins with the literals of the header, however much of the
two its `int` lets it read. -/
theorem take_four_of_decompressSafe (hformat : platform.lz4.LiteralsFirst) {block : CompressionBlock}
    {capacity : Int} {written : Bytes}
    (h : platform.lz4.decompressSafe (intPart (serializeBlock block)) capacity = some written) :
    written.take 4 = 0x42 :: (leBytes 8 block.compressedSize.toNat).take 3 := by
  obtain ⟨rest, hserialized, hsize⟩ := serializeBlock_begins block
  rw [intPart, hserialized] at h
  cases hread : (toInt (0x4E :: rest).length).toNat with
  | zero =>
      rw [hread, List.take_zero, hformat.refusesEmpty] at h
      cases h
  | succ n =>
      rw [hread, List.take_succ_cons] at h
      obtain ⟨hlong, hliterals⟩ := hformat.literals _ _ _ h
      rw [List.length_take] at hlong
      rw [hliterals, List.take_take, Nat.min_eq_left (by omega), hsize]

theorem take_fill {size n : Nat} {written : Bytes} (h : n ≤ written.length) :
    (fill size written).take n = written.take n :=
  List.take_append_of_le_length h

/-- **Reading back.** What was written is read where the caller had it already and nothing is compressed.
Nowhere else is it read, unless LZ4 takes header and payload together for the data, which then begin like
the header. -/
theorem readBlock_writeBlock_bounds (hrefuses : platform.RefusesBlocks)
    (hformat : platform.lz4.LiteralsFirst) (storage : BlockStorage) (data : Bytes)
    (algo : CompressionAlgorithm) (descriptor : ChunkDescriptor) (output : Bytes) :
    (ReadsBack algo data output →
      readBlock platform (writeBlock platform storage data algo false descriptor).1
        (writeBlock platform storage data algo false descriptor).2 output = .ok data)
      ∧ (readBlock platform (writeBlock platform storage data algo false descriptor).1
          (writeBlock platform storage data algo false descriptor).2 output = .ok data →
        ReadsBack algo data output ∨ (algo = .lz4 ∧ BeginsLikeHeader platform data)) := by
  cases algo with
  | none =>
      change (_ → Except.ok (resize output (recordedSize data)) = Except.ok data)
        ∧ (Except.ok (resize output (recordedSize data)) = Except.ok data → _)
      constructor
      · exact fun hreads => congrArg Except.ok hreads.2
      · exact fun hread => .inl ⟨rfl, Except.ok.inj hread⟩
  | lz4 =>
      refine ⟨fun hreads => (by cases hreads.1), fun hread => .inr ⟨rfl, ?_⟩⟩
      rw [readBlock_eq_ok_iff .lz4 (by decide) rfl] at hread
      obtain ⟨written, hwritten, hfill⟩ := decompressed_eq_iff.mp hread
      change fill (recordedSize data) written = data at hfill
      have hbegins := take_four_of_decompressSafe hformat hwritten
      have hlong : 4 ≤ written.length := by
        have hlength := congrArg List.length hbegins
        rw [List.length_take] at hlength
        change min 4 written.length = 4 at hlength
        omega
      calc data.take 4
          = (fill (recordedSize data) written).take 4 := by rw [hfill]
        _ = written.take 4 := take_fill hlong
        _ = _ := hbegins
  | zlib =>
      refine ⟨fun hreads => (by cases hreads.1), fun hread => ?_⟩
      rw [readBlock_eq_ok_iff .zlib (by decide) rfl] at hread
      cases (not_success_of_header hrefuses (Or.inl rfl) _ _).symm.trans hread.1
  | zstd =>
      refine ⟨fun hreads => (by cases hreads.1), fun hread => ?_⟩
      rw [readBlock_eq_ok_iff .zstd (by decide) rfl] at hread
      cases (not_success_of_header hrefuses (Or.inr rfl) _ _).symm.trans hread.1

theorem reference_refusesBlocks : Platform.reference.RefusesBlocks := by
  refine ⟨fun _ _ => rfl, fun rest => ?_, fun rest capacity => ?_⟩
  · simp only [Platform.reference]
    rw [if_neg]
    intro h
    cases (List.cons.inj h).1
  · simp only [Platform.reference]
    rw [if_neg]
    rintro ⟨h, -⟩
    cases (List.cons.inj h).1

theorem reference_literalsFirst : Platform.reference.lz4.LiteralsFirst :=
  ⟨fun _ => rfl, fun _ _ _ h => by cases h⟩

/-- The caller has the data and one byte more. -/
theorem readBlock_writeBlock_three :
    readBlock Platform.reference (writeBlock Platform.reference {} [1, 2, 3] .none false {}).1
      (writeBlock Platform.reference {} [1, 2, 3] .none false {}).2 [1, 2, 3, 4] = .ok [1, 2, 3] :=
  (readBlock_writeBlock_bounds reference_refusesBlocks reference_literalsFirst {} [1, 2, 3] .none {}
    [1, 2, 3, 4]).1 ⟨rfl, rfl⟩

/-- Zeros come back without compression, and an error with Zstandard. -/
theorem not_readBack_three :
    CompressionEngine.Inverts Platform.reference (engineOf .zstd) [1, 2, 3]
      ∧ readBlock Platform.reference (writeBlock Platform.reference {} [1, 2, 3] .none false {}).1
        (writeBlock Platform.reference {} [1, 2, 3] .none false {}).2 [] = .ok [0, 0, 0]
      ∧ readBlock Platform.reference (writeBlock Platform.reference {} [1, 2, 3] .zstd false {}).1
        (writeBlock Platform.reference {} [1, 2, 3] .zstd false {}).2 [] = .error .decompressionError :=
  ⟨reference_inverts (by decide), rfl, rfl⟩

end BlockStorage

end NebulaFS
