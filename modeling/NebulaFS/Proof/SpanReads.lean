import NebulaFS.Proof.BackendCapacity

/-!
# Reading a part of a block

A span read should give the part of what a read of the whole block gives, and refuse a part that does
not lie inside. Both backends check the sum of the offset and the length in 64 bits. A sum that comes
out small again passes the check, and the memory backend then copies from outside the block, while the
file backend fails in another way or hands out bytes of the header (`spans_exact_iff`).
-/

namespace NebulaFS

open Cursor LittleEndian

/-- The result of a span read of a block with content `data` is the part of it, or the error `invalid`
where nothing was read. -/
def SpanExact {σ ε : Type} (state : σ) (invalid : ε) (data : Bytes) (offset length : UInt64)
    (result : σ × Except ε Bytes) : Prop :=
  if offset.toNat + length.toNat ≤ data.length then
    result.2 = .ok (slice data offset.toNat length.toNat)
  else result = (state, .error invalid)

/-- The part is not inside, but the sum of its offset and its length is modulo `2 ^ 64`. -/
def SumWraps (data : Bytes) (offset length : UInt64) : Prop :=
  data.length < offset.toNat + length.toNat
    ∧ (offset.toNat + length.toNat) % wordSize ≤ data.length

theorem spanExact_iff {σ ε : Type} {state : σ} {invalid : ε} {data : Bytes} {offset length : UInt64}
    {result : σ × Except ε Bytes}
    (hinside : offset.toNat + length.toNat ≤ data.length →
      result.2 = .ok (slice data offset.toNat length.toNat))
    (houtside : data.length < (offset + length).toNat → result = (state, .error invalid))
    (hwraps : SumWraps data offset length → result.2 ≠ .error invalid) :
    SpanExact state invalid data offset length result ↔ ¬ SumWraps data offset length := by
  unfold SpanExact
  by_cases hfits : offset.toNat + length.toNat ≤ data.length
  · rw [if_pos hfits]
    exact iff_of_true (hinside hfits) fun hwrap => (hwrap.1.trans_le hfits).ne rfl
  · rw [if_neg hfits]
    constructor
    · intro hresult hwrap
      exact hwraps hwrap (congrArg Prod.snd hresult)
    · intro hwrap
      apply houtside
      rw [UInt64.toNat_add]
      by_contra hle
      exact hwrap ⟨not_le.mp hfits, not_lt.mp hle⟩

/-! ### The memory backend -/

namespace MemoryStorageBackend

variable {platform : Platform} {backend : MemoryStorageBackend platform} {blockId : UInt64}
  {data : Bytes}

theorem lookup_of_readBlock (h : (backend.readBlock blockId).2 = .ok data) :
    ∃ block, backend.blocks.lookup blockId = some block ∧ block.data = data := by
  have hlookup : backend.contents.lookup blockId = some data := atomic_contents.read_ok h
  rw [lookup_contents, Option.map_eq_some_iff] at hlookup
  exact hlookup

theorem readSpan_of_spanOf_error {block : InternalBlock platform} {offset length : UInt64}
    {e : Fault StorageError} (hblock : backend.blocks.lookup blockId = some block)
    (hspan : spanOf block.data offset length = .error e) :
    backend.readSpan blockId offset length = (backend, .error e) := by
  rw [readSpan, hblock]
  simp only [hspan]

theorem spanExact_readSpan_iff (h : (backend.readBlock blockId).2 = .ok data)
    (offset length : UInt64) :
    SpanExact backend (.returned .invalidOffset) data offset length
        (backend.readSpan blockId offset length)
      ↔ ¬ SumWraps data offset length := by
  have hlookup : backend.contents.lookup blockId = some data := atomic_contents.read_ok h
  obtain ⟨block, hblock, rfl⟩ := lookup_of_readBlock h
  apply spanExact_iff
  · intro hfits
    rw [readSpan_eq hlookup, spanOf_inside hfits]
  · intro hout
    apply readSpan_of_spanOf_error hblock
    rw [spanOf, if_pos hout]
  · intro hwraps
    have hpasses : ¬ block.data.length < (offset + length).toNat := by
      rw [UInt64.toNat_add]
      exact not_lt.mpr hwraps.2
    rw [readSpan_eq hlookup, spanOf, if_neg hpasses, if_pos hwraps.1]
    intro hsame
    cases hsame

end MemoryStorageBackend

/-! ### The file backend -/

namespace FileStorageBackend

variable {platform : Platform} {backend : FileStorageBackend} {blockId : UInt64} {data : Bytes}

/-- The file behind a block that can be read. -/
structure Readable (backend : FileStorageBackend) (blockId : UInt64) (data content : Bytes)
    (header : DiskBlockHeader) : Prop where
  opened : backend.openBlock {} blockId = .ok (content, header)
  length_eq : data.length = header.dataSize.toNat
  fits : DiskBlockHeader.size + data.length ≤ content.length
  small : content.length < 2 ^ 63
  data_eq : data = slice content DiskBlockHeader.size data.length

theorem exists_file_of_openBlock {content : Bytes} {header : DiskBlockHeader} {ops : FileOps}
    (h : backend.openBlock ops blockId = .ok (content, header)) :
    ∃ file, backend.disk.lookup (getBlockPath blockId) = some file ∧ file.content = content := by
  unfold openBlock at h
  cases hlookup : backend.disk.lookup (getBlockPath blockId) with
  | none =>
      rw [hlookup] at h
      cases h
  | some file =>
      rw [hlookup] at h
      dsimp only at h
      split_ifs at h
      · cases hheader : DiskBlockHeader.ofBytes file.content with
        | none =>
            rw [hheader] at h
            cases h
        | some found =>
            rw [hheader] at h
            dsimp only at h
            split_ifs at h
            · cases h
              exact ⟨file, rfl, rfl⟩

theorem readable_of_readBlock (h : (backend.readBlock platform {} blockId).2 = .ok data) :
    ∃ content header, Readable backend blockId data content header := by
  unfold readBlock at h
  cases hopen : backend.openBlock {} blockId with
  | error e =>
      rw [hopen] at h
      cases h
  | ok opened =>
      obtain ⟨content, header⟩ := opened
      rw [hopen] at h
      dsimp only at h
      obtain ⟨file, hfile, rfl⟩ := exists_file_of_openBlock hopen
      split_ifs at h with hbig hshort hsum
      have hsize : DiskBlockHeader.size + header.dataSize.toNat ≤ file.content.length :=
        not_lt.mp hshort
      have hlength := length_slice hsize
      cases h
      exact ⟨file.content, header, hopen, hlength, hlength.symm ▸ hsize, file.size_lt,
        congrArg (slice file.content DiskBlockHeader.size) hlength.symm⟩

theorem Readable.readSpan_of_lt {content : Bytes} {header : DiskBlockHeader}
    (h : Readable backend blockId data content header) {offset length : UInt64}
    (hout : data.length < (offset + length).toNat) :
    backend.readSpan {} blockId offset length = (backend, .error (.returned .invalidOffset)) := by
  have hcheck : header.dataSize < offset + length := by
    rw [UInt64.lt_iff_toNat_lt, ← h.length_eq]
    exact hout
  rw [readSpan, h.opened]
  exact if_pos hcheck

/-- Inside the block neither the position nor the size of the buffer is too large. -/
theorem Readable.readSpan_of_inside {content : Bytes} {header : DiskBlockHeader}
    (h : Readable backend blockId data content header) {offset length : UInt64}
    (hinside : offset.toNat + length.toNat ≤ data.length) :
    (backend.readSpan {} blockId offset length).2
      = .ok (slice data offset.toNat length.toNat) := by
  have hfits := h.fits
  have hsmall := h.small
  have hheader : DiskBlockHeader.size = 16 := rfl
  have hcheck : ¬ header.dataSize < offset + length := by
    rw [UInt64.lt_iff_toNat_lt, ← h.length_eq, UInt64.toNat_add]
    have hle := Nat.mod_le (offset.toNat + length.toNat) (2 ^ 64)
    omega
  have hpos : (UInt64.ofNat DiskBlockHeader.size + offset).toNat = 16 + offset.toNat := by
    rw [UInt64.toNat_add]
    exact Nat.mod_eq_of_lt (by change 16 + offset.toNat < 2 ^ 64; omega)
  have hseek : ¬ (2 ^ 63 ≤ 16 + offset.toNat ∨ ¬ ({} : FileOps).seek = true) := by
    rintro (hlarge | hfails)
    · omega
    · exact hfails rfl
  have hbuffer : ¬ maxVectorSize < length.toNat := by
    rw [maxVectorSize]
    omega
  have hread : ¬ (0 < length.toNat ∧ content.length < 16 + offset.toNat + length.toNat) := by
    omega
  have hslice : slice content (16 + offset.toNat) length.toNat
      = slice data offset.toNat length.toNat := by
    rw [h.data_eq, slice_slice hinside]
    rfl
  rw [readSpan, h.opened]
  dsimp only
  rw [if_neg hcheck, hpos, if_neg hseek, if_neg hbuffer, if_neg hread, hslice]

theorem Readable.readSpan_ne_of_le {content : Bytes} {header : DiskBlockHeader}
    (h : Readable backend blockId data content header) {offset length : UInt64}
    (hpasses : (offset + length).toNat ≤ data.length) :
    (backend.readSpan {} blockId offset length).2 ≠ .error (.returned .invalidOffset) := by
  have hcheck : ¬ header.dataSize < offset + length := by
    rw [UInt64.lt_iff_toNat_lt, ← h.length_eq]
    exact not_lt.mpr hpasses
  rw [readSpan, h.opened]
  dsimp only
  rw [if_neg hcheck]
  split_ifs
  all_goals
    intro hsame
    cases hsame

theorem spanExact_readSpan_iff (h : (backend.readBlock platform {} blockId).2 = .ok data)
    (offset length : UInt64) :
    SpanExact backend (.returned .invalidOffset) data offset length
        (backend.readSpan {} blockId offset length)
      ↔ ¬ SumWraps data offset length := by
  obtain ⟨content, header, hreadable⟩ := readable_of_readBlock h
  apply spanExact_iff
  · exact hreadable.readSpan_of_inside
  · exact hreadable.readSpan_of_lt
  · intro hwraps
    apply hreadable.readSpan_ne_of_le
    rw [UInt64.toNat_add]
    exact hwraps.2

theorem length_toBytes (header : DiskBlockHeader) : header.toBytes.length = DiskBlockHeader.size := by
  rw [DiskBlockHeader.toBytes, List.length_append, List.length_append, length_leBytes, length_leBytes,
    length_leBytes]
  rfl

theorem ofBytes_append (header : DiskBlockHeader) (data : Bytes) :
    DiskBlockHeader.ofBytes (header.toBytes ++ data) = some header := by
  have hsize : ¬ (header.toBytes ++ data).length < DiskBlockHeader.size := by
    rw [List.length_append, length_toBytes]
    omega
  rw [DiskBlockHeader.ofBytes, if_neg hsize]
  have hmagic : Remaining (header.toBytes ++ data) 0 (leBytes 4 header.magic.toNat
      ++ (leBytes 4 header.checksum.toNat ++ (leBytes 8 header.dataSize.toNat ++ data))) := by
    rw [DiskBlockHeader.toBytes, List.append_assoc, List.append_assoc]
    exact remaining_start _
  have hchecksum := hmagic.advance
  have hdata := hchecksum.advance
  rw [length_leBytes] at hchecksum hdata
  rw [length_leBytes] at hdata
  rw [hmagic.slice_eq_of_length (length_leBytes 4 _),
    hchecksum.slice_eq_of_length (length_leBytes 4 _), hdata.slice_eq_of_length (length_leBytes 8 _),
    ofNat_leValue_leBytes_four, ofNat_leValue_leBytes_four, ofNat_leValue_leBytes_eight]

/-- What a write leaves in a file is what a read makes of it. -/
theorem readBlock_of_lookup {file : DiskFile}
    (hfile : backend.disk.lookup (getBlockPath blockId) = some file)
    (hcontent : file.content = blockContent platform data) :
    (backend.readBlock platform {} blockId).2 = .ok data := by
  have hlength : file.content.length = DiskBlockHeader.size + data.length := by
    rw [hcontent, length_blockContent]
  have hsmall := file.size_lt
  rw [hlength] at hsmall
  have hheader : DiskBlockHeader.size = 16 := rfl
  have hsize : (UInt64.ofNat data.length).toNat = data.length :=
    UInt64.toNat_ofNat_of_lt' (by change data.length < 2 ^ 64; omega)
  have hofBytes : DiskBlockHeader.ofBytes file.content = some
      { checksum := ChecksumEngine.crc32 platform data, dataSize := UInt64.ofNat data.length } := by
    rw [hcontent, blockContent, ofBytes_append]
  have hopen : backend.openBlock {} blockId = .ok (file.content,
      { checksum := ChecksumEngine.crc32 platform data, dataSize := UInt64.ofNat data.length }) := by
    rw [openBlock, hfile]
    dsimp only
    rw [if_neg (not_not.mpr rfl), hofBytes]
    exact if_neg (not_not.mpr rfl)
  have hslice : slice file.content DiskBlockHeader.size data.length = data := by
    rw [hcontent, blockContent, slice_append_right (length_toBytes _).le, length_toBytes,
      Nat.sub_self]
    exact slice_all rfl
  have hbuffer : ¬ maxVectorSize < data.length := by
    rw [maxVectorSize]
    omega
  rw [readBlock, hopen]
  dsimp only
  rw [hsize, if_neg hbuffer, if_neg (by omega), hslice]
  exact congrArg Prod.snd (if_neg (not_not.mpr rfl))

/-- A block that was written can be read. -/
theorem readBlock_writeBlock (h : (backend.writeBlock platform {} blockId data).2 = .success) :
    ((backend.writeBlock platform {} blockId data).1.readBlock platform {} blockId).2 = .ok data := by
  unfold writeBlock at h ⊢
  dsimp only at h ⊢
  by_cases hfull : backend.maxCapacityBytes < backend.currentBytes
      + (UInt64.ofNat DiskBlockHeader.size + UInt64.ofNat data.length)
  · rw [if_pos hfull] at h
    cases h
  · rw [if_neg hfull, if_neg (by decide), if_neg (by decide)] at h ⊢
    by_cases hsize : (blockContent platform data).length < 2 ^ 63
    · rw [dif_pos ⟨rfl, hsize⟩, if_neg (by decide)]
      exact readBlock_of_lookup (AList.lookup_insert _) rfl
    · rw [dif_neg (hsize ·.2)] at h
      cases h

end FileStorageBackend

/-- **When span reads are slices.** A span read of a block that can be read gives the part of it, or
refuses one that is not inside without reading, exactly if the sum of its offset and its length does not
wrap around to one inside the block. -/
theorem spans_exact_iff (platform : Platform) :
    (∀ (backend : MemoryStorageBackend platform) (blockId : UInt64) (data : Bytes),
      (backend.readBlock blockId).2 = .ok data → ∀ offset length : UInt64,
        (SpanExact backend (.returned .invalidOffset) data offset length
            (backend.readSpan blockId offset length)
          ↔ ¬ SumWraps data offset length))
    ∧ ∀ (backend : FileStorageBackend) (blockId : UInt64) (data : Bytes),
      (backend.readBlock platform {} blockId).2 = .ok data → ∀ offset length : UInt64,
        (SpanExact backend (.returned .invalidOffset) data offset length
            (backend.readSpan {} blockId offset length)
          ↔ ¬ SumWraps data offset length) := by
  constructor
  · intro backend blockId data hread offset length
    exact MemoryStorageBackend.spanExact_readSpan_iff hread offset length
  · intro backend blockId data hread offset length
    exact FileStorageBackend.spanExact_readSpan_iff hread offset length

/-- One block of three bytes. -/
def MemoryStorageBackend.threeBytes : MemoryStorageBackend Platform.reference :=
  ((new 10).writeBlock 1 [1, 2, 3]).1

def FileStorageBackend.threeBytes : FileStorageBackend :=
  ((new ∅ 30).writeBlock Platform.reference {} 1 [1, 2, 3]).1

theorem spans_exact_iff_threeBytes :
    SpanExact FileStorageBackend.threeBytes (.returned .invalidOffset) [1, 2, 3] 1 2
        (FileStorageBackend.threeBytes.readSpan {} 1 1 2)
      ↔ ¬ SumWraps [1, 2, 3] 1 2 :=
  (spans_exact_iff Platform.reference).2 FileStorageBackend.threeBytes 1 [1, 2, 3]
    (by decide +kernel) 1 2

/-- One byte from the last offset there is: the memory backend copies from before the block, the file
backend gives the last byte of the header. -/
theorem not_spanExact_of_wrap :
    (MemoryStorageBackend.threeBytes.readSpan 1 0xFFFFFFFFFFFFFFFF 1).2 = .error .outOfBounds
      ∧ (FileStorageBackend.threeBytes.readSpan {} 1 0xFFFFFFFFFFFFFFFF 1).2 = .ok [0]
      ∧ ¬ SpanExact MemoryStorageBackend.threeBytes (.returned .invalidOffset) [1, 2, 3]
        0xFFFFFFFFFFFFFFFF 1 (MemoryStorageBackend.threeBytes.readSpan 1 0xFFFFFFFFFFFFFFFF 1)
      ∧ ¬ SpanExact FileStorageBackend.threeBytes (.returned .invalidOffset) [1, 2, 3]
        0xFFFFFFFFFFFFFFFF 1 (FileStorageBackend.threeBytes.readSpan {} 1 0xFFFFFFFFFFFFFFFF 1) := by
  have hmemory : (MemoryStorageBackend.threeBytes.readSpan 1 0xFFFFFFFFFFFFFFFF 1).2
      = .error .outOfBounds := by decide +kernel
  have hfile : (FileStorageBackend.threeBytes.readSpan {} 1 0xFFFFFFFFFFFFFFFF 1).2
      = .ok [0] := by decide +kernel
  have houtside : ¬ (0xFFFFFFFFFFFFFFFF : UInt64).toNat + (1 : UInt64).toNat
      ≤ ([1, 2, 3] : Bytes).length := by decide
  refine ⟨hmemory, hfile, ?_, ?_⟩
  · intro hexact
    rw [SpanExact, if_neg houtside] at hexact
    cases (congrArg Prod.snd hexact).symm.trans hmemory
  · intro hexact
    rw [SpanExact, if_neg houtside] at hexact
    cases (congrArg Prod.snd hexact).symm.trans hfile

end NebulaFS
