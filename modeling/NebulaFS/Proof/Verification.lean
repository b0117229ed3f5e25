import NebulaFS.CommandLine
import NebulaFS.Proof.ArchiveRoundTrip

/-!
# What the verify command checks

`verify` passes exactly the byte strings that the parser accepts (`handleVerify_passes_iff`), and the
parser only ever refuses a header. So a pass says something about the entries only if they were intact
anyway, and no change of stored bytes makes it fail (`verify_sound_iff`).
-/

namespace NebulaFS

open Cursor ArchiveHeader ArchiveWriter CommandLineHandler

variable {platform : Platform} {content path : Bytes}

def Passes (platform : Platform) (path content : Bytes) : Prop :=
  ∃ result, handleVerify platform path (some content) = .ok result ∧ result.success = true

/-- What a reader that checks sums finds of an entry: its range, and for stored data bytes with the
sum of the index. -/
structure Readable (platform : Platform) (reader : ArchiveReader) (entry : IndexEntry) : Prop where
  inside : entry.offset.toNat + entry.size.toNat ≤ reader.archiveData.length
  decodes : entry.size ≠ 0 → ∃ data,
    reader.readEntryData platform (ArchiveReader.ofIndexEntry entry) = .ok data
      ∧ ChecksumEngine.compute platform data = entry.checksum

/-- A pass of the command means what it says. -/
def VerifySound (platform : Platform) (path content : Bytes) : Prop :=
  Passes platform path content →
    ∃ reader, ArchiveReader.openArchive platform { config := { verifyChecksums := true } }
        (some content) = (reader, none)
      ∧ ∀ entry ∈ reader.indexManager.entries, Readable platform reader entry

/-- An entry of the index against the bytes of the file and the flags of the header. -/
structure EntryIntact (platform : Platform) (content : Bytes) (flags : UInt16)
    (entry : IndexEntry) : Prop where
  inside : entry.offset.toNat + entry.size.toNat ≤ content.length
  decodes : entry.size ≠ 0 → ∃ data,
    restored platform flags (slice content entry.offset.toNat entry.size.toNat) = some data
      ∧ ChecksumEngine.compute platform data = entry.checksum

/-- The reader that `open` makes of a parse result. -/
def readerOf (content : Bytes) (result : ParseResult) : ArchiveReader :=
  { config := { verifyChecksums := true }
    header := result.header
    indexManager := result.indexManager
    metadata := result.metadata
    directoryTree := result.directoryTree
    chunkManager := result.chunkManager
    archiveData := content
    isOpen := true }

theorem openArchive_iff (reader : ArchiveReader) :
    ArchiveReader.openArchive platform { config := { verifyChecksums := true } } (some content)
        = (reader, none)
      ↔ ∃ result, Parser.parse platform false content = .ok result
        ∧ reader = readerOf content result := by
  unfold ArchiveReader.openArchive ArchiveReader.parseArchive
  simp only [Bool.false_eq_true, if_false]
  cases hparse : Parser.parse platform false content with
  | error fault =>
      cases fault with
      | returned e => simp
      | outOfBounds => simp
      | outOfFuel => simp
  | ok result =>
      simp only [Prod.mk.injEq, and_true, Except.ok.injEq, exists_eq_left']
      exact eq_comm

theorem handleVerify_passes_iff (hpath : path ≠ []) :
    Passes platform path content ↔ ∃ result, Parser.parse platform false content = .ok result := by
  have hopen : (∃ reader, ArchiveReader.openArchive platform
        { config := { verifyChecksums := true } } (some content) = (reader, none))
      ↔ ∃ result, Parser.parse platform false content = .ok result := by
    simp only [openArchive_iff]
    constructor
    · rintro ⟨reader, result, hresult, -⟩
      exact ⟨result, hresult⟩
    · rintro ⟨result, hresult⟩
      exact ⟨_, result, hresult, rfl⟩
  rw [← hopen, Passes, handleVerify, if_neg hpath]
  rcases ArchiveReader.openArchive platform { config := { verifyChecksums := true } }
    (some content) with ⟨reader, _ | (err | _ | _)⟩
  · simp
  · simp
  · simp
  · simp

theorem readable_iff (result : ParseResult) (entry : IndexEntry) :
    Readable platform (readerOf content result) entry
      ↔ EntryIntact platform content result.header.flags entry := by
  have hread : entry.offset.toNat + entry.size.toNat ≤ content.length → ∀ data,
      ((readerOf content result).readEntryData platform (ArchiveReader.ofIndexEntry entry) = .ok data
        ∧ ChecksumEngine.compute platform data = entry.checksum)
      ↔ (restored platform result.header.flags
          (slice content entry.offset.toNat entry.size.toNat) = some data
        ∧ ChecksumEngine.compute platform data = entry.checksum) := by
    intro hinside data
    have hrange : (ArchiveReader.ofIndexEntry entry).offset.toNat
        + (ArchiveReader.ofIndexEntry entry).storedSize.toNat
        ≤ (readerOf content result).archiveData.length := hinside
    rw [ArchiveReader.readEntryData_iff rfl hrange data]
    constructor
    · rintro ⟨⟨hrestored, -⟩, hsum⟩
      exact ⟨hrestored, hsum⟩
    · rintro ⟨hrestored, hsum⟩
      exact ⟨⟨hrestored, fun _ => hsum⟩, hsum⟩
  constructor
  · intro h
    refine ⟨h.inside, fun hsize => ?_⟩
    obtain ⟨data, hdata⟩ := h.decodes hsize
    exact ⟨data, (hread h.inside data).mp hdata⟩
  · intro h
    refine ⟨h.inside, fun hsize => ?_⟩
    obtain ⟨data, hdata⟩ := h.decodes hsize
    exact ⟨data, (hread h.inside data).mpr hdata⟩

theorem not_passes_nil : ¬ Passes platform [] content := by
  rintro ⟨result, hresult, hsuccess⟩
  rw [handleVerify, if_pos rfl] at hresult
  obtain rfl := Except.ok.inj hresult
  cases hsuccess

theorem verifySound_iff (platform : Platform) (path content : Bytes) :
    VerifySound platform path content
      ↔ path = [] ∨ ∀ result, Parser.parse platform false content = .ok result →
        ∀ entry ∈ result.indexManager.entries,
          EntryIntact platform content result.header.flags entry := by
  by_cases hpath : path = []
  · rw [hpath]
    exact iff_of_true (fun hpasses => absurd hpasses not_passes_nil) (.inl rfl)
  · rw [VerifySound, handleVerify_passes_iff hpath, or_iff_right hpath]
    constructor
    · intro hsound result hresult entry hentry
      obtain ⟨reader, hopen, hreadable⟩ := hsound ⟨result, hresult⟩
      obtain ⟨other, hother, rfl⟩ := (openArchive_iff reader).mp hopen
      obtain rfl : result = other := Except.ok.inj (hresult.symm.trans hother)
      exact (readable_iff result entry).mp (hreadable entry hentry)
    · rintro hintact ⟨result, hresult⟩
      refine ⟨readerOf content result, (openArchive_iff _).mpr ⟨result, hresult, rfl⟩, ?_⟩
      intro entry hentry
      exact (readable_iff result entry).mpr (hintact result hresult entry hentry)

/-! ### Changed stored bytes -/

def overwritten (content : Bytes) (offset : Nat) (bytes : Bytes) : Bytes :=
  content.take offset ++ (bytes ++ content.drop (offset + bytes.length))

theorem length_overwritten {bytes : Bytes} {offset : Nat}
    (h : offset + bytes.length ≤ content.length) :
    (overwritten content offset bytes).length = content.length := by
  simp only [overwritten, List.length_append, List.length_take, List.length_drop]
  omega

theorem slice_overwritten {bytes : Bytes} {offset : Nat}
    (h : offset + bytes.length ≤ content.length) :
    slice (overwritten content offset bytes) offset bytes.length = bytes := by
  have hlength : (content.take offset).length = offset := by
    rw [List.length_take]
    omega
  have hrest : Remaining (overwritten content offset bytes) offset
      (bytes ++ content.drop (offset + bytes.length)) := by
    nth_rewrite 2 [← hlength]
    exact remaining_append _ _
  exact hrest.slice_eq

theorem overwritten_between {before middle after bytes : Bytes} {offset : Nat}
    (habove : before.length ≤ offset)
    (hinside : offset + bytes.length ≤ before.length + middle.length) :
    overwritten (before ++ (middle ++ after)) offset bytes
      = before ++ (overwritten middle (offset - before.length) bytes ++ after) := by
  have htake : (before ++ (middle ++ after)).take offset
      = before ++ middle.take (offset - before.length) := by
    rw [List.take_append, List.take_of_length_le habove,
      List.take_append_of_le_length (by omega)]
  have hdrop : (before ++ (middle ++ after)).drop (offset + bytes.length)
      = middle.drop (offset - before.length + bytes.length) ++ after := by
    rw [List.drop_append, List.drop_of_length_le (by omega), List.nil_append,
      List.drop_append_of_le_length (by omega)]
    congr 2
    omega
  rw [overwritten, htake, hdrop, overwritten]
  simp only [List.append_assoc]

/-- The sections of an archive stay where they are when bytes of its body change. -/
theorem Image.overwritten {header : ArchiveHeader}
    {body metadata directory index chunks journal bytes : Bytes} {offset : Nat}
    (h : Image platform content header body metadata directory index chunks journal)
    (habove : headerSize ≤ offset) (hinside : offset + bytes.length ≤ headerSize + body.length) :
    Image platform (overwritten content offset bytes) header
      (overwritten body (offset - headerSize) bytes) metadata directory index chunks journal := by
  have hlength : (NebulaFS.overwritten body (offset - headerSize) bytes).length = body.length :=
    length_overwritten (by omega)
  have hheader := length_serialize (header.updateChecksum platform)
  have hcontent := congrArg List.length h.content_eq
  simp only [List.length_append] at hcontent
  have htotal : (NebulaFS.overwritten content offset bytes).length = content.length :=
    length_overwritten (by omega)
  refine
    { h with
      content_eq := ?_
      fits := by rw [htotal]; exact h.fits
      metadataOffset := by rw [hlength]; exact h.metadataOffset
      directoryOffset := by rw [hlength]; exact h.directoryOffset
      indexOffset := by rw [hlength]; exact h.indexOffset
      chunkOffset := by rw [hlength]; exact h.chunkOffset
      blocksOffset := by rw [hlength]; exact h.blocksOffset
      archiveSize := by rw [htotal]; exact h.archiveSize }
  rw [h.content_eq, overwritten_between (by omega) (by omega), hheader]

namespace Session

variable {session : Session}

/-- The parser reads the same header and the same index from an archive whose stored bytes were
changed. -/
theorem parse_overwritten (hclosed : (session.closed platform).2 = none) {record : Record}
    (hrecord : record ∈ session.records platform) (hdata : record.isDirectory = false)
    {bytes : Bytes} (hlength : bytes.length = record.stored.length) :
    ∃ result, Parser.parse platform false
        (overwritten (session.archive platform) record.entry.offset.toNat bytes) = .ok result
      ∧ result.header.flags = openFlags (session.configured platform).config
      ∧ result.indexManager.entries
        = (session.records platform).map fun record => IndexManager.toIndexEntry record.entry := by
  obtain ⟨body, header, journal, hinv, himage, hflags, -⟩ := closed_image hclosed
  have hplaced := hinv.placed record hrecord hdata
  have hinside := hplaced.inside
  have hinside' : record.entry.offset.toNat + bytes.length ≤ headerSize + body.length := by omega
  obtain ⟨store, warnings, hparse⟩ :=
    (himage.overwritten hplaced.above hinside').parse_eq
  exact ⟨_, hparse, hflags, hinv.index⟩

/-- **What a passed verification says.** It is sound for a file if and only if every entry of the index
that the parser reads from it lies in the file and decodes to the sum it has there, whatever the
verification does; and changing stored bytes of an archive never makes it fail. -/
theorem verify_sound_iff (platform : Platform) :
    (∀ path content, VerifySound platform path content
      ↔ path = [] ∨ ∀ result, Parser.parse platform false content = .ok result →
        ∀ entry ∈ result.indexManager.entries,
          EntryIntact platform content result.header.flags entry)
    ∧ ∀ session : Session, (session.closed platform).2 = none →
      ∀ record ∈ session.records platform, record.isDirectory = false →
      ∀ bytes : Bytes, bytes.length = record.stored.length →
      ∀ path : Bytes, path ≠ [] → Passes platform path
        (overwritten (session.archive platform) record.entry.offset.toNat bytes) := by
  refine ⟨verifySound_iff platform, ?_⟩
  intro session hclosed record hrecord hdata bytes hlength path hpath
  obtain ⟨result, hresult, -⟩ := parse_overwritten hclosed hrecord hdata hlength
  exact (handleVerify_passes_iff hpath).mpr ⟨result, hresult⟩

def plainBlob : Session where
  config := { compression := .none }
  device := .ample
  calls := [.addBlob .plain [0x61, 0x62, 0x63] [0x61] 0]

/-- The reference platform with the digest of one more string. -/
def otherDigest : Platform :=
  { Platform.reference with
    sha256 := fun data =>
      if data = [0x61, 0x62, 0x64] then
        ⟨[0xA5, 0x2D, 0x15, 0x9F, 0x26, 0x2B, 0x2C, 0x6D, 0xDB, 0x72, 0x4A, 0x61, 0x84, 0x0B, 0xEF, 0xC3,
          0x6E, 0xB3, 0x0C, 0x88, 0x87, 0x7A, 0x40, 0x30, 0xB6, 0x5C, 0xBE, 0x86, 0x29, 0x84, 0x49, 0xC9],
          rfl⟩
      else Platform.reference.sha256 data }

theorem verify_sound_iff_plainBlob :
    VerifySound otherDigest [] []
      ∧ ∃ record, plainBlob.records otherDigest = [record]
        ∧ Passes otherDigest [0x61] (overwritten (plainBlob.archive otherDigest)
          record.entry.offset.toNat [0x61, 0x62, 0x64]) := by
  have hone : (plainBlob.records otherDigest).map (fun record =>
      (record.isDirectory, record.stored)) = [(false, [0x61, 0x62, 0x63])] := by decide +kernel
  obtain ⟨record, hrecords, hfields⟩ := List.map_eq_singleton_iff.mp hone
  simp only [Prod.mk.injEq] at hfields
  obtain ⟨hdirectory, hstored⟩ := hfields
  refine ⟨((verify_sound_iff otherDigest).1 [] []).mpr (.inl rfl), record, hrecords, ?_⟩
  refine (verify_sound_iff otherDigest).2 plainBlob (by decide +kernel) record (by simp [hrecords])
    hdirectory _ ?_ [0x61] (by decide)
  rw [hstored]
  rfl

/-- One stored byte of an archive is changed, which changes what its entry decodes to, and the
verification passes. -/
theorem verify_unsound_plainBlob :
    ∃ record, plainBlob.records otherDigest = [record] ∧ record.stored = [0x61, 0x62, 0x63]
      ∧ (plainBlob.closed otherDigest).2 = none
      ∧ Passes otherDigest [0x61]
        (overwritten (plainBlob.archive otherDigest) record.entry.offset.toNat [0x61, 0x62, 0x64])
      ∧ ¬ VerifySound otherDigest [0x61]
        (overwritten (plainBlob.archive otherDigest) record.entry.offset.toNat
          [0x61, 0x62, 0x64]) := by
  have hclosed : (plainBlob.closed otherDigest).2 = none := by decide +kernel
  have hone : (plainBlob.records otherDigest).map (fun record =>
      (record.isDirectory, record.stored, record.entry.checksum))
      = [(false, [0x61, 0x62, 0x63],
          ChecksumEngine.compute otherDigest [0x61, 0x62, 0x63])] := by decide +kernel
  have hdigest : ChecksumEngine.compute otherDigest [0x61, 0x62, 0x64]
      ≠ ChecksumEngine.compute otherDigest [0x61, 0x62, 0x63] := by decide +kernel
  have hflags : ¬ openFlags (plainBlob.configured otherDigest).config
      &&& HeaderFlags.compressed ≠ 0 := by decide +kernel
  obtain ⟨record, hrecords, hfields⟩ := List.map_eq_singleton_iff.mp hone
  simp only [Prod.mk.injEq] at hfields
  obtain ⟨hdirectory, hstored, hsum⟩ := hfields
  have hrecord : record ∈ plainBlob.records otherDigest := by simp [hrecords]
  have hlength : ([0x61, 0x62, 0x64] : Bytes).length = record.stored.length := by rw [hstored]; rfl
  obtain ⟨result, hresult, hresultFlags, hentries⟩ :=
    parse_overwritten hclosed hrecord hdirectory hlength
  refine ⟨record, hrecords, hstored, hclosed,
    (handleVerify_passes_iff (by decide)).mpr ⟨result, hresult⟩, ?_⟩
  rw [verifySound_iff, or_iff_right (by decide)]
  intro hintact
  obtain ⟨reader, -, hreader⟩ := reopen hclosed {}
  have hheld := hreader.held record hrecord hdirectory
  have hinside := hheld.inside
  have hsize := hheld.size
  rw [← hlength] at hinside hsize
  have hentry := hintact result hresult (IndexManager.toIndexEntry record.entry) (by
    rw [hentries, hrecords]
    exact List.mem_singleton_self _)
  have hne : record.entry.storedSize ≠ 0 := by
    intro hzero
    rw [hzero] at hsize
    cases hsize
  obtain ⟨data, hrestored, hmatches⟩ := hentry.decodes hne
  change restored otherDigest result.header.flags (slice _ record.entry.offset.toNat
    record.entry.storedSize.toNat) = some data at hrestored
  rw [hresultFlags, restored_of_not_compressed hflags, hsize, slice_overwritten hinside] at hrestored
  change _ = record.entry.checksum at hmatches
  rw [← Option.some.inj hrestored, hsum] at hmatches
  exact hdigest hmatches

end Session

end NebulaFS
