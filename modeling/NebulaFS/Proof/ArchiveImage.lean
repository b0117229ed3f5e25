import NebulaFS.ArchiveReader
import NebulaFS.Proof.WriterRuns

/-!
# The file a closed writer leaves, and what the reader makes of it

`Image` describes a finished archive: the header, everything the adds wrote, and then the sections one
behind the other, each where the header says. `close` produces one (`AtEnd.close`), because every
section writer notes the offset counter, which is the file position, before it writes. The reader
accepts every image (`Image.openArchive`) and then holds the tree and the index that were written.
-/

namespace NebulaFS

open Cursor SparseFile ArchiveHeader

/-! ### The sections -/

namespace ArchiveWriter

theorem andThen_eq_ok {result : ArchiveWriter × Status}
    {next : ArchiveWriter → ArchiveWriter × Status} (h : (andThen result next).2 = none) :
    ∃ writer, result = (writer, none) ∧ andThen result next = next writer := by
  obtain ⟨writer, status⟩ := result
  cases status with
  | none => exact ⟨writer, rfl, rfl⟩
  | some e => cases h

structure AtEnd (writer : ArchiveWriter) (body : Bytes) : Prop where
  file : Written writer.file body
  offset : writer.currentOffset = headerSize + body.length

structure SameTables (writer after : ArchiveWriter) : Prop where
  directoryTree : after.directoryTree = writer.directoryTree
  indexManager : after.indexManager = writer.indexManager
  chunkManager : after.chunkManager = writer.chunkManager
  journal : after.journal = writer.journal

theorem SameTables.trans {first second third : ArchiveWriter} (h : SameTables first second)
    (h' : SameTables second third) : SameTables first third :=
  ⟨h'.directoryTree.trans h.directoryTree, h'.indexManager.trans h.indexManager,
    h'.chunkManager.trans h.chunkManager, h'.journal.trans h.journal⟩

variable {writer after : ArchiveWriter} {body : Bytes}

theorem AtEnd.of_eq (h : AtEnd writer body) (hfile : after.file = writer.file)
    (hoffset : after.currentOffset = writer.currentOffset) : AtEnd after body :=
  ⟨hfile ▸ h.file, hoffset.trans h.offset⟩

theorem AtEnd.writeSection {data : Bytes} (h : AtEnd writer body)
    {note : ArchiveHeader → UInt64 → UInt64 → ArchiveHeader}
    (hok : writer.writeSection note data = (after, none)) :
    AtEnd after (body ++ data)
      ∧ after.header
        = note writer.header (UInt64.ofNat (headerSize + body.length)) (UInt64.ofNat data.length)
      ∧ SameTables writer after := by
  unfold ArchiveWriter.writeSection at hok
  by_cases hgood : (writer.file.write data).good = true
  · rw [if_neg (not_not.mpr hgood)] at hok
    obtain rfl := (Prod.mk.inj hok).1
    refine ⟨⟨h.file.write hgood, ?_⟩, ?_, rfl, rfl, rfl, rfl⟩
    · simp only [h.offset, List.length_append]
      omega
    · simp only [h.offset]
  · rw [if_pos hgood] at hok
    cases hok

def journalBytes (now : Timestamp) : Option JournalManager → Bytes
  | none => []
  | some journal => (journal.endCheckpoint now).1.serialize

theorem AtEnd.writeJournalSection (h : AtEnd writer body) {now : Timestamp}
    (hok : writer.writeJournalSection now = (after, none)) :
    AtEnd after (body ++ journalBytes now writer.journal)
      ∧ after.header
        = if writer.journal.isSome then
            { writer.header with
              journalOffset := UInt64.ofNat (headerSize + body.length)
              journalSize := UInt64.ofNat (journalBytes now writer.journal).length }
          else writer.header := by
  unfold ArchiveWriter.writeJournalSection at hok
  cases hjournal : writer.journal with
  | none =>
      rw [hjournal] at hok
      obtain rfl := (Prod.mk.inj hok).1
      refine ⟨?_, rfl⟩
      rw [journalBytes, List.append_nil]
      exact h
  | some journal =>
      rw [hjournal] at hok
      have hsame : AtEnd { writer with journal := some (journal.endCheckpoint now).1 } body :=
        ⟨h.file, h.offset⟩
      obtain ⟨hend, hheader, -⟩ := hsame.writeSection hok
      exact ⟨hend, hheader⟩

theorem AtEnd.writeHeader {platform : Platform} (h : AtEnd writer body) (hbody : body ≠ [])
    (hok : (writer.writeHeader platform).2 = none) :
    (writer.writeHeader platform).1.file.content
      = (writer.header.updateChecksum platform).serialize ++ body := by
  unfold ArchiveWriter.writeHeader at hok ⊢
  have hseek := OFStream.seekp_of_good h.file.good 0
  by_cases hgood : ((writer.file.seekp 0).write
      (writer.header.updateChecksum platform).serialize).good = true
  · obtain ⟨-, -, heq⟩ := OFStream.write_of_good hgood
    rw [if_neg (not_not.mpr hgood)]
    simp only
    rw [heq, hseek]
    change replay (writer.file.writes ++ [⟨0, _⟩]) = _
    have hcontent : replay writer.file.writes = gap headerSize body := h.file.content
    rw [replay_append_singleton, hcontent, put_gap_head hbody (length_serialize _)]
  · rw [if_pos hgood] at hok
    cases hok

end ArchiveWriter

/-! ### The finished file -/

/-- A finished archive. `header` is the header before its checksum is put in. -/
structure Image (platform : Platform) (content : Bytes) (header : ArchiveHeader)
    (body metadata directory index chunks journal : Bytes) : Prop where
  content_eq : content = (header.updateChecksum platform).serialize
    ++ (body ++ (metadata ++ (directory ++ (index ++ (chunks ++ journal)))))
  fits : content.length < 2 ^ 63
  isValid : header.isValid = true
  metadataOffset : header.metadataOffset.toNat = headerSize + body.length
  metadataSize : header.metadataSize.toNat = metadata.length
  directoryOffset : header.directoryOffset.toNat = headerSize + body.length + metadata.length
  directorySize : header.directorySize.toNat = directory.length
  indexOffset : header.indexOffset.toNat
    = headerSize + body.length + metadata.length + directory.length
  indexSize : header.indexSize.toNat = index.length
  chunkOffset : header.chunkOffset.toNat
    = headerSize + body.length + metadata.length + directory.length + index.length
  chunkSize : header.chunkSize.toNat = chunks.length
  blocksOffset : header.blocksOffset.toNat
    = headerSize + body.length + metadata.length + directory.length + index.length + chunks.length
  blocksSize : header.blocksSize.toNat = 0
  archiveSize : header.archiveSize.toNat = content.length

namespace ArchiveWriter

variable {platform : Platform} {writer : ArchiveWriter} {body : Bytes} {records : List Record}

structure JournalAt (header : ArchiveHeader) (offset : Nat) (journal : Bytes) : Prop where
  journalOffset : header.journalOffset.toNat = offset
  journalSize : header.journalSize.toNat = journal.length

theorem index_serialize_ne_nil (manager : IndexManager) : manager.serialize ≠ [] := by
  intro hnil
  have hpos := VarInt.length_encode_pos (UInt64.ofNat manager.entries.length)
  rw [IndexManager.serialize, List.append_eq_nil_iff] at hnil
  rw [hnil.1] at hpos
  cases hpos

structure Stages (now : Timestamp) (start metadata directory index chunks blocks journal :
    ArchiveWriter) : Prop where
  writeMetadata : start.writeMetadataSection = (metadata, none)
  writeDirectory : metadata.writeDirectorySection = (directory, none)
  writeIndex : directory.writeIndexSection = (index, none)
  writeChunk : index.writeChunkSection = (chunks, none)
  writeBlocks : chunks.writeBlocksSection = (blocks, none)
  writeJournal : blocks.writeJournalSection now = (journal, none)

def committed (writer : ArchiveWriter) (times : CloseTimes) : ArchiveWriter :=
  { writer with
    journal := writer.journal.map fun journal => (journal.commit times.endNow times.commitNow).1 }

def sized (writer : ArchiveWriter) : ArchiveWriter :=
  { writer with
    header := { writer.header with archiveSize := UInt64.ofNat writer.currentOffset } }

theorem finalizeArchive_stages {times : CloseTimes}
    (hok : (writer.finalizeArchive platform times).2 = none) :
    ∃ w1 w2 w3 w4 w5 w6, Stages times.journalNow (writer.committed times) w1 w2 w3 w4 w5 w6
      ∧ writer.finalizeArchive platform times = w6.sized.writeHeader platform := by
  obtain ⟨w6, h6, heq⟩ := andThen_eq_ok hok
  obtain ⟨w5, h5, hs6⟩ := andThen_eq_ok (congrArg Prod.snd h6)
  obtain ⟨w4, h4, hs5⟩ := andThen_eq_ok (congrArg Prod.snd h5)
  obtain ⟨w3, h3, hs4⟩ := andThen_eq_ok (congrArg Prod.snd h4)
  obtain ⟨w2, h2, hs3⟩ := andThen_eq_ok (congrArg Prod.snd h3)
  obtain ⟨w1, h1, hs2⟩ := andThen_eq_ok (congrArg Prod.snd h2)
  exact ⟨w1, w2, w3, w4, w5, w6, ⟨h1, hs2.symm.trans h2, hs3.symm.trans h3, hs4.symm.trans h4,
    hs5.symm.trans h5, hs6.symm.trans h6⟩, heq⟩

/-- What the sections leave: the body followed by them, and a header that knows where they are. -/
structure Sectioned (writer last : ArchiveWriter) (body metadata directory index chunks journal :
    Bytes) : Prop where
  atEnd : AtEnd last (body ++ (metadata ++ (directory ++ (index ++ (chunks ++ journal)))))
  header_eq : last.header =
    { writer.header with
      metadataOffset := UInt64.ofNat (headerSize + body.length)
      metadataSize := UInt64.ofNat metadata.length
      directoryOffset := UInt64.ofNat (headerSize + body.length + metadata.length)
      directorySize := UInt64.ofNat directory.length
      indexOffset := UInt64.ofNat
        (headerSize + body.length + metadata.length + directory.length)
      indexSize := UInt64.ofNat index.length
      chunkOffset := UInt64.ofNat
        (headerSize + body.length + metadata.length + directory.length + index.length)
      chunkSize := UInt64.ofNat chunks.length
      blocksOffset := UInt64.ofNat (headerSize + body.length + metadata.length
        + directory.length + index.length + chunks.length)
      blocksSize := 0
      journalOffset :=
        if writer.journal.isSome then UInt64.ofNat (headerSize + body.length + metadata.length
          + directory.length + index.length + chunks.length)
        else writer.header.journalOffset
      journalSize :=
        if writer.journal.isSome then UInt64.ofNat journal.length
        else writer.header.journalSize }

theorem Stages.sectioned {now : Timestamp} {start w1 w2 w3 w4 w5 w6 : ArchiveWriter}
    (h : Stages now start w1 w2 w3 w4 w5 w6) (hstart : AtEnd start body) :
    Sectioned start w6 body start.metadata.serialize start.directoryTree.serialize
      start.indexManager.serialize start.chunkManager.serialize
      (journalBytes now start.journal) := by
  obtain ⟨a1, n1, t1⟩ := hstart.writeSection h.writeMetadata
  obtain ⟨a2, n2, t2⟩ := a1.writeSection h.writeDirectory
  obtain ⟨a3, n3, t3⟩ := a2.writeSection h.writeIndex
  obtain ⟨a4, n4, t4⟩ := a3.writeSection h.writeChunk
  have t3' := t1.trans (t2.trans t3)
  have hjournal : w4.journal = start.journal := (t3'.trans t4).journal
  rw [t1.directoryTree] at a2 a3 a4 n2 n3 n4
  rw [(t1.trans t2).indexManager] at a3 a4 n3 n4
  rw [t3'.chunkManager] at a4 n4
  have hblocks := (Prod.mk.inj h.writeBlocks).1
  have hfile : w5.file = w4.file := (congrArg ArchiveWriter.file hblocks).symm
  have hoffset : w5.currentOffset = w4.currentOffset :=
    (congrArg ArchiveWriter.currentOffset hblocks).symm
  have a5 := a4.of_eq hfile hoffset
  have hjournal' : w5.journal = start.journal :=
    (congrArg ArchiveWriter.journal hblocks).symm.trans hjournal
  obtain ⟨a6, n6⟩ := a5.writeJournalSection h.writeJournal
  rw [hjournal'] at a6 n6
  refine ⟨?_, ?_⟩
  · simpa only [List.append_assoc] using a6
  · rw [← hblocks] at n6
    simp only [a4.offset, n1, n2, n3, n4, List.length_append, ← Nat.add_assoc] at n6
    rw [n6]
    split
    · rfl
    · rfl

/-- What `close` makes of a writer: an archive of its tables, behind the body, under a header that
keeps its flags and its count. -/
structure Finished (platform : Platform) (writer : ArchiveWriter) (times : CloseTimes)
    (content : Bytes) (header : ArchiveHeader) (body : Bytes) : Prop where
  image : Image platform content header body writer.metadata.serialize
    writer.directoryTree.serialize writer.indexManager.serialize writer.chunkManager.serialize
    (journalBytes times.journalNow (writer.committed times).journal)
  flags : header.flags = writer.header.flags
  entryCount : header.entryCount = writer.header.entryCount
  journal : writer.journal.isSome = true → JournalAt header header.blocksOffset.toNat
    (journalBytes times.journalNow (writer.committed times).journal)

theorem AtEnd.finalizeArchive (h : AtEnd writer body) (hvalid : writer.header.isValid = true)
    {times : CloseTimes} (hok : (writer.finalizeArchive platform times).2 = none) :
    ∃ header, Finished platform writer times
      (writer.finalizeArchive platform times).1.file.content header body := by
  obtain ⟨w1, w2, w3, w4, w5, w6, hstages, heq⟩ := finalizeArchive_stages hok
  have hstart : AtEnd (writer.committed times) body := ⟨h.file, h.offset⟩
  obtain ⟨hend, hheader⟩ := hstages.sectioned hstart
  rw [heq] at hok ⊢
  have hsized : AtEnd w6.sized _ := hend.of_eq rfl rfl
  have hcontent := hsized.writeHeader (by simp [committed, index_serialize_ne_nil]) hok
  generalize (w6.sized.writeHeader platform).1.file.content = content at hcontent ⊢
  have hfits := hend.file.fits
  have hoffset := hend.offset
  have hlength := congrArg List.length hcontent
  simp only [List.length_append, length_serialize, committed, ← Nat.add_assoc]
    at hfits hoffset hlength
  refine ⟨w6.sized.header, ?_, ?_, ?_, ?_⟩
  · refine ⟨hcontent, by omega, ?_, ?_, ?_, ?_, ?_, ?_, ?_, ?_, ?_, ?_, ?_, ?_⟩
    · simp only [sized, hheader]
      exact hvalid
    all_goals simp only [sized, hheader, committed]
    -- what is left are the offsets and sizes, each a number below the end of the file
    · exact toNat_ofNat_of_lt (by omega)
    · exact toNat_ofNat_of_lt (by omega)
    · exact toNat_ofNat_of_lt (by omega)
    · exact toNat_ofNat_of_lt (by omega)
    · exact toNat_ofNat_of_lt (by omega)
    · exact toNat_ofNat_of_lt (by omega)
    · exact toNat_ofNat_of_lt (by omega)
    · exact toNat_ofNat_of_lt (by omega)
    · exact toNat_ofNat_of_lt (by omega)
    · rfl
    · rw [hoffset, toNat_ofNat_of_lt (by omega), hlength]
  · simp only [sized, hheader]
    rfl
  · simp only [sized, hheader]
    rfl
  · intro hjournal
    have hjournal' : (writer.committed times).journal.isSome = true := by
      simpa [committed] using hjournal
    simp only [sized, hheader, hjournal', if_true]
    simp only [committed]
    exact ⟨rfl, toNat_ofNat_of_lt (by omega)⟩

theorem AtEnd.close (h : AtEnd writer body) (hvalid : writer.header.isValid = true)
    {times : CloseTimes} (hok : (writer.close platform times).2 = none) :
    ∃ header, Finished platform writer times (writer.close platform times).1.file.content header
      body := by
  unfold ArchiveWriter.close at hok ⊢
  split at hok
  · cases hok
  · rename_i hopen
    rw [if_neg hopen]
    rcases hfinal : writer.finalizeArchive platform times with ⟨last, _ | e⟩
    · have hfinished := h.finalizeArchive hvalid (congrArg Prod.snd hfinal)
      rw [hfinal] at hfinished
      exact hfinished
    · rw [hfinal] at hok
      cases hok

def FailsWithStream (result : ArchiveWriter × Status) : Prop :=
  result.2 ≠ none → result.1.file.good = false

theorem failsWithStream_writeSection (writer : ArchiveWriter)
    (note : ArchiveHeader → UInt64 → UInt64 → ArchiveHeader) (data : Bytes) :
    FailsWithStream (writer.writeSection note data) := by
  intro hfailed
  unfold ArchiveWriter.writeSection at hfailed ⊢
  simp only at hfailed ⊢
  by_cases hgood : (writer.file.write data).good = true
  · rw [if_neg (not_not.mpr hgood)] at hfailed
    exact absurd rfl hfailed
  · rw [if_pos hgood]
    simpa using hgood

theorem failsWithStream_andThen {result : ArchiveWriter × Status}
    {next : ArchiveWriter → ArchiveWriter × Status} (h : FailsWithStream result)
    (hnext : ∀ writer, FailsWithStream (next writer)) : FailsWithStream (andThen result next) := by
  obtain ⟨writer, status⟩ := result
  cases status with
  | none => exact hnext writer
  | some e => exact h

theorem failsWithStream_writeJournalSection (now : Timestamp) (writer : ArchiveWriter) :
    FailsWithStream (writer.writeJournalSection now) := by
  unfold ArchiveWriter.writeJournalSection
  cases writer.journal with
  | none => exact fun hfailed => absurd rfl hfailed
  | some journal => exact failsWithStream_writeSection _ _ _

theorem failsWithStream_writeHeader (platform : Platform) (writer : ArchiveWriter) :
    FailsWithStream (writer.writeHeader platform) := by
  intro hfailed
  unfold ArchiveWriter.writeHeader at hfailed ⊢
  simp only at hfailed ⊢
  by_cases hgood : ((writer.file.seekp 0).write
      (writer.header.updateChecksum platform).serialize).good = true
  · rw [if_neg (not_not.mpr hgood)] at hfailed
    exact absurd rfl hfailed
  · rw [if_pos hgood]
    simpa using hgood

theorem failsWithStream_finalizeArchive (platform : Platform) (times : CloseTimes)
    (writer : ArchiveWriter) : FailsWithStream (writer.finalizeArchive platform times) := by
  refine failsWithStream_andThen (failsWithStream_andThen (failsWithStream_andThen
    (failsWithStream_andThen (failsWithStream_andThen (failsWithStream_andThen
      (failsWithStream_writeSection _ _ _) ?_) ?_) ?_) ?_) ?_) ?_
  · exact fun writer => failsWithStream_writeSection writer _ _
  · exact fun writer => failsWithStream_writeSection writer _ _
  · exact fun writer => failsWithStream_writeSection writer _ _
  · exact fun writer hfailed => absurd rfl hfailed
  · exact failsWithStream_writeJournalSection times.journalNow
  · exact fun writer => failsWithStream_writeHeader platform writer.sized

theorem close_of_good {times : CloseTimes} (hopen : writer.isOpen = true)
    (hgood : (writer.close platform times).1.file.good = true) :
    (writer.close platform times).2 = none := by
  unfold ArchiveWriter.close at hgood ⊢
  rw [if_neg (not_not.mpr hopen)] at hgood ⊢
  have hfinal := failsWithStream_finalizeArchive platform times writer
  rcases hresult : writer.finalizeArchive platform times with ⟨last, _ | e⟩
  · rfl
  · rw [hresult] at hgood hfinal
    have hbad : last.file.good = false := hfinal (Option.some_ne_none e)
    change last.file.good = true at hgood
    rw [hbad] at hgood
    cases hgood

theorem ready_of_close {times : CloseTimes} (hok : (writer.close platform times).2 = none) :
    writer.isOpen = true ∧ writer.file.good = true := by
  unfold ArchiveWriter.close at hok
  split at hok
  · cases hok
  · rename_i hopen
    refine ⟨not_not.mp hopen, ?_⟩
    have hfinal : (writer.finalizeArchive platform times).2 = none := by
      rcases hresult : writer.finalizeArchive platform times with ⟨last, _ | e⟩
      · rfl
      · rw [hresult] at hok
        cases hok
    obtain ⟨w1, w2, w3, w4, w5, w6, hstages, -⟩ := finalizeArchive_stages hfinal
    have hwrite := hstages.writeMetadata
    unfold writeMetadataSection ArchiveWriter.writeSection at hwrite
    simp only at hwrite
    split at hwrite
    · cases hwrite
    · rename_i hgood
      exact (OFStream.write_of_good (not_not.mp hgood)).1

end ArchiveWriter

/-! ### Reading it back -/

namespace Parser

theorem sectionSpan_of_remaining {header : ArchiveHeader} (hvalid : header.isValid = true)
    {state : ParserState} {offset size : UInt64} {data section_ rest : Bytes}
    (hsize : size.toNat = section_.length) (h : Remaining data offset.toNat (section_ ++ rest)) :
    sectionSpan header state offset size data = .ok section_ := by
  have hlength := h.length_eq
  rw [List.length_append] at hlength
  rw [sectionSpan, if_neg (not_not.mpr hvalid), if_neg (by omega), if_neg (by omega), hsize,
    h.slice_eq]

theorem takeSection_ok {α : Type} {size : UInt64} {empty value : α} (hsize : size ≠ 0)
    (strictMode : Bool) (warnings : List ParseError) :
    takeSection strictMode size empty (.ok value) warnings = .ok (value, warnings) := by
  rw [takeSection, if_neg hsize]

theorem takeSection_lenient {α : Type} {size : UInt64} {empty : α} {section_ : Result α}
    (hsection : (∃ value, section_ = .ok value) ∨ ∃ e, section_ = .error (.returned e))
    (warnings : List ParseError) :
    ∃ value after, takeSection false size empty section_ warnings = .ok (value, after) := by
  unfold takeSection
  by_cases hsize : size = 0
  · exact ⟨empty, warnings, if_pos hsize⟩
  · rw [if_neg hsize]
    rcases hsection with ⟨value, rfl⟩ | ⟨e, rfl⟩
    · exact ⟨value, warnings, rfl⟩
    · exact ⟨empty, addWarning false warnings e, rfl⟩

end Parser

theorem tree_serialize_ne_nil (tree : DirectoryTree) : tree.serialize ≠ [] := by
  intro hnil
  have hpos := DirectoryTree.length_serializeNode_pos tree.root
  rw [DirectoryTree.serialize, List.append_eq_nil_iff] at hnil
  rw [hnil.2] at hpos
  cases hpos

theorem size_ne_zero {size : UInt64} {section_ : Bytes} (hsize : size.toNat = section_.length)
    (hne : section_ ≠ []) : size ≠ 0 := by
  rintro rfl
  exact hne (List.eq_nil_of_length_eq_zero hsize.symm)

structure Opened (reader : ArchiveReader) (config : ReaderConfig) (content : Bytes)
    (header : ArchiveHeader) (tree : DirectoryTree) (entries : List IndexEntry) : Prop where
  isOpen : reader.isOpen = true
  config_eq : reader.config = config
  compression : reader.compression = {}
  archiveData : reader.archiveData = content
  header_eq : reader.header = header
  root : reader.directoryTree.root = DirectoryTree.stored tree.root
  entries_eq : reader.indexManager.entries = entries
  idIndex : reader.indexManager.idIndex = IndexManager.indexById entries

namespace Image

variable {platform : Platform} {content : Bytes} {header : ArchiveHeader}
  {body metadata journal : Bytes} {tree : DirectoryTree} {manager : IndexManager}
  (h : Image platform content header body metadata tree.serialize manager.serialize
    (ChunkManager.serialize {}) journal)

include h

theorem length_content : content.length
    = headerSize + body.length + metadata.length + tree.serialize.length
      + manager.serialize.length + (ChunkManager.serialize {}).length + journal.length := by
  rw [h.content_eq]
  simp only [List.length_append, length_serialize]
  omega

/-- Every entry takes up at least a byte of the index section. -/
theorem length_entries_lt : manager.entries.length < 2 ^ 63 := by
  have hfits := h.fits
  have hlength := h.length_content
  have hleast := IndexManager.entryBytes_le manager
  have hindex : manager.serialize.length
      = (VarInt.encode (UInt64.ofNat manager.entries.length)).length
        + (manager.entries.flatMap IndexManager.serializeEntry).length := by
    rw [IndexManager.serialize, List.length_append]
  rw [IndexManager.minBytesPerEntry] at hleast
  omega

theorem remaining_body : Remaining content headerSize
    (body ++ (metadata ++ (tree.serialize ++ (manager.serialize
      ++ (ChunkManager.serialize {} ++ journal))))) := by
  rw [h.content_eq, ← length_serialize (header.updateChecksum platform)]
  exact remaining_append _ _

theorem parseMetadata_eq :
    Parser.parseMetadata content (header.updateChecksum platform)
      = MetadataParser.parse metadata header.metadataSize.toNat := by
  have hrest := h.remaining_body.advance
  rw [← h.metadataOffset] at hrest
  have hspan : Parser.sectionSpan (header.updateChecksum platform) .metadata
      header.metadataOffset header.metadataSize content = .ok metadata :=
    Parser.sectionSpan_of_remaining h.isValid h.metadataSize hrest
  unfold Parser.parseMetadata
  simp only [updateChecksum] at hspan ⊢
  rw [hspan]

theorem parseDirectoryTree_eq :
    Parser.parseDirectoryTree content (header.updateChecksum platform)
      = .ok { root := DirectoryTree.stored tree.root, nodeCount := tree.nodeCount } := by
  have hrest := h.remaining_body.advance.advance
  rw [← h.directoryOffset] at hrest
  have hspan : Parser.sectionSpan (header.updateChecksum platform) .directoryTree
      header.directoryOffset header.directorySize content = .ok tree.serialize :=
    Parser.sectionSpan_of_remaining h.isValid h.directorySize hrest
  have hfits := h.fits
  have hlength := h.length_content
  unfold Parser.parseDirectoryTree
  simp only [updateChecksum] at hspan ⊢
  rw [hspan]
  simp only
  rw [DirectoryTree.deserialize_serialize tree (by omega), Parser.decoded]

theorem parseIndexTable_eq :
    Parser.parseIndexTable content (header.updateChecksum platform)
      = .ok { entries := manager.entries
              idIndex := IndexManager.indexById manager.entries } := by
  have hrest := h.remaining_body.advance.advance.advance
  rw [← h.indexOffset] at hrest
  have hspan : Parser.sectionSpan (header.updateChecksum platform) .indexTable
      header.indexOffset header.indexSize content = .ok manager.serialize :=
    Parser.sectionSpan_of_remaining h.isValid h.indexSize hrest
  have hfits := h.fits
  have hlength := h.length_content
  unfold Parser.parseIndexTable
  simp only [updateChecksum] at hspan ⊢
  rw [hspan]
  simp only
  rw [IndexManager.deserialize_serialize manager (by omega), Parser.decoded]

theorem parseChunkTable_eq :
    Parser.parseChunkTable content (header.updateChecksum platform) = .ok {} := by
  have hrest := h.remaining_body.advance.advance.advance.advance
  rw [← h.chunkOffset] at hrest
  have hspan : Parser.sectionSpan (header.updateChecksum platform) .chunkTable
      header.chunkOffset header.chunkSize content = .ok (ChunkManager.serialize {}) :=
    Parser.sectionSpan_of_remaining h.isValid h.chunkSize hrest
  unfold Parser.parseChunkTable
  simp only [updateChecksum] at hspan ⊢
  rw [hspan]
  rfl

theorem parseHeader_eq :
    Parser.parseHeader platform content = .ok (header.updateChecksum platform) := by
  rw [Parser.parseHeader, h.content_eq, parse_serialize platform h.isValid]

/-- What the parser makes of the archive is settled by how it takes up the metadata. -/
theorem parse_eq_bind (strictMode : Bool) :
    Parser.parse platform strictMode content
      = (Parser.takeSection strictMode header.metadataSize {}
          (MetadataParser.parse metadata header.metadataSize.toNat) []).map fun taken =>
        { header := header.updateChecksum platform
          metadata := taken.1
          directoryTree := { root := DirectoryTree.stored tree.root, nodeCount := tree.nodeCount }
          indexManager := { entries := manager.entries
                            idIndex := IndexManager.indexById manager.entries }
          blocksData := Parser.blocksData content (header.updateChecksum platform)
          warnings := taken.2 } := by
  have hlong : ¬ content.length < headerSize := by
    have hlength := h.length_content
    omega
  have hdirectorySize : (header.updateChecksum platform).directorySize ≠ 0 :=
    size_ne_zero h.directorySize (tree_serialize_ne_nil tree)
  have hindexSize : (header.updateChecksum platform).indexSize ≠ 0 :=
    size_ne_zero h.indexSize (ArchiveWriter.index_serialize_ne_nil manager)
  have hchunkSize : (header.updateChecksum platform).chunkSize ≠ 0 :=
    size_ne_zero h.chunkSize (by decide)
  have hsize : (header.updateChecksum platform).metadataSize = header.metadataSize := rfl
  rw [Parser.parse, if_neg hlong, h.parseHeader_eq]
  simp only [bind, Except.bind, pure, Except.pure]
  rw [h.parseMetadata_eq, hsize]
  cases Parser.takeSection strictMode header.metadataSize {}
      (MetadataParser.parse metadata header.metadataSize.toNat) [] with
  | error e => rfl
  | ok taken =>
      simp only
      rw [h.parseDirectoryTree_eq, Parser.takeSection_ok hdirectorySize]
      simp only
      rw [h.parseIndexTable_eq, Parser.takeSection_ok hindexSize]
      simp only
      rw [h.parseChunkTable_eq, Parser.takeSection_ok hchunkSize]
      rfl

theorem parse_eq : ∃ store warnings, Parser.parse platform false content
    = .ok { header := header.updateChecksum platform
            metadata := store
            directoryTree :=
              { root := DirectoryTree.stored tree.root, nodeCount := tree.nodeCount }
            indexManager := { entries := manager.entries
                              idIndex := IndexManager.indexById manager.entries }
            blocksData := Parser.blocksData content (header.updateChecksum platform)
            warnings := warnings } := by
  have hlenient : ∃ store warnings, Parser.takeSection false header.metadataSize {}
      (MetadataParser.parse metadata header.metadataSize.toNat) [] = .ok (store, warnings) :=
    Parser.takeSection_lenient (MetadataParser.parse_cases metadata header.metadataSize.toNat) []
  obtain ⟨store, warnings, hmetadata⟩ := hlenient
  rw [h.parse_eq_bind, hmetadata]
  exact ⟨store, warnings, rfl⟩

/-- **The reader opens every finished archive**, and holds the tree and the index of its writer. -/
theorem openArchive (config : ReaderConfig) :
    ∃ reader, ArchiveReader.openArchive platform { config := config } (some content) = (reader, none)
      ∧ Opened reader config content (header.updateChecksum platform) tree manager.entries := by
  obtain ⟨store, warnings, hparse⟩ := h.parse_eq
  unfold ArchiveReader.openArchive ArchiveReader.parseArchive
  simp only [hparse]
  exact ⟨_, rfl, rfl, rfl, rfl, rfl, rfl, rfl, rfl, rfl⟩

end Image

/-! ### Finished sessions -/

namespace Session

open ArchiveWriter

variable {platform : Platform} {session : Session}

theorem opened_journal (h : (session.opened platform).2 = none) :
    (session.opened platform).1.journal.isSome = session.config.enableJournal := by
  have hnew : (new platform session.config session.device session.ctxNew).journal.isSome
      = session.config.enableJournal := by
    cases hconfig : session.config.enableJournal <;> simp [new, hconfig]
  calc (session.opened platform).1.journal.isSome
      = (session.configured platform).journal.isSome := (justOpened h).journal
    _ = (new platform session.config session.device session.ctxNew).journal.isSome :=
        (sameSetup_configured platform session).journal
    _ = session.config.enableJournal := hnew

/-- **The file a session leaves.** A session that closes leaves an archive that holds what it added,
under the flags of the configuration it was opened with. -/
theorem closed_image (h : (session.closed platform).2 = none) :
    ∃ body header journal,
      Inv platform (session.filled platform) body (session.records platform)
      ∧ Image platform (session.archive platform) header body
        (session.filled platform).metadata.serialize
        (session.filled platform).directoryTree.serialize
        (session.filled platform).indexManager.serialize (ChunkManager.serialize {}) journal
      ∧ header.flags = openFlags (session.configured platform).config
      ∧ header.entryCount = (session.filled platform).header.entryCount
      ∧ (session.config.enableJournal = true →
        JournalAt header header.blocksOffset.toNat journal) := by
  have hopened := opened_of_closed h
  obtain ⟨body, hinv⟩ := filled_inv hopened (ready_of_close h).2
  have hend : AtEnd (session.filled platform) body := ⟨hinv.file, hinv.offset⟩
  obtain ⟨header, hfinished⟩ := hend.close hinv.header h
  have hsetup := sameSetup_run platform (session.opened platform).1 session.calls
  have himage := hfinished.image
  rw [hinv.chunks] at himage
  refine ⟨body, header, _, hinv, himage, ?_, hfinished.entryCount, ?_⟩
  · exact hfinished.flags.trans (hsetup.flags.trans (justOpened hopened).flags)
  · intro hconfig
    exact hfinished.journal (hsetup.journal.trans ((opened_journal hopened).trans hconfig))

/-! ### The layout of a finished archive -/

/-- The sections follow one another from the metadata to the end of a file of `length` bytes. -/
structure Contiguous (header : ArchiveHeader) (length : Nat) : Prop where
  metadata : headerSize ≤ header.metadataOffset.toNat
  directory : header.directoryOffset.toNat
    = header.metadataOffset.toNat + header.metadataSize.toNat
  index : header.indexOffset.toNat = header.directoryOffset.toNat + header.directorySize.toNat
  chunk : header.chunkOffset.toNat = header.indexOffset.toNat + header.indexSize.toNat
  blocks : header.blocksOffset.toNat = header.chunkOffset.toNat + header.chunkSize.toNat
  noBlocks : header.blocksSize.toNat = 0
  journal : header.journalOffset.toNat = header.blocksOffset.toNat + header.blocksSize.toNat
  archive : header.journalOffset.toNat + header.journalSize.toNat = header.archiveSize.toNat
  file : header.archiveSize.toNat = length

def Covers (entry : IndexEntry) (position : Nat) : Prop :=
  entry.offset.toNat ≤ position ∧ position < entry.offset.toNat + entry.size.toNat

def dataEntries (records : List Record) : List IndexEntry :=
  (records.filter fun record => !record.isDirectory).map fun record =>
    IndexManager.toIndexEntry record.entry

theorem contiguous_of_image {content : Bytes} {header : ArchiveHeader}
    {body metadata directory index chunks journal : Bytes}
    (himage : Image platform content header body metadata directory index chunks journal)
    (hjournal : JournalAt header header.blocksOffset.toNat journal) :
    Contiguous (header.updateChecksum platform) content.length := by
  obtain ⟨hcontent, -, -, hmeta, hmetaSize, hdir, hdirSize, hindex, hindexSize, hchunk, hchunkSize,
    hblocks, hblocksSize, harchive⟩ := himage
  have hlength := congrArg List.length hcontent
  simp only [List.length_append, length_serialize] at hlength
  have hjournalOffset := hjournal.journalOffset
  have hjournalSize := hjournal.journalSize
  constructor <;> simp only [updateChecksum] <;> omega

theorem dataEntries_inside {writer : ArchiveWriter} {body : Bytes} {records : List Record}
    (h : Inv platform writer body records) :
    ∀ entry ∈ dataEntries records, headerSize ≤ entry.offset.toNat
      ∧ entry.offset.toNat + entry.size.toNat ≤ headerSize + body.length := by
  intro entry hentry
  obtain ⟨record, hrecord, rfl⟩ := List.mem_map.mp hentry
  obtain ⟨hmem, hdata⟩ := List.mem_filter.mp hrecord
  have hplaced := h.placed record hmem (by simpa using hdata)
  refine ⟨hplaced.above, ?_⟩
  change record.entry.offset.toNat + record.entry.storedSize.toNat ≤ _
  rw [hplaced.size]
  exact hplaced.inside

theorem dataEntries_ordered {writer : ArchiveWriter} {body : Bytes} {records : List Record}
    (h : Inv platform writer body records) :
    (dataEntries records).Pairwise fun earlier later =>
      earlier.offset.toNat + earlier.size.toNat ≤ later.offset.toNat := by
  rw [dataEntries, List.pairwise_map, List.pairwise_filter]
  refine h.ordered.imp_of_mem ?_
  intro earlier later hearlier _ hle hdata hdata'
  have hearlierData : earlier.isDirectory = false := by simpa using hdata
  have hplaced := h.placed earlier hearlier hearlierData
  change earlier.entry.offset.toNat + earlier.entry.storedSize.toNat ≤ later.entry.offset.toNat
  rw [hplaced.size]
  exact hle hearlierData (by simpa using hdata')

/-- How the sections and the entries lie in an archive with these records. -/
structure Layout (platform : Platform) (archive : Bytes) (records : List Record)
    (header : ArchiveHeader) (manager : IndexManager) : Prop where
  header_eq : ArchiveHeader.parse platform {} archive = (header, none)
  contiguous : Contiguous header archive.length
  index : IndexManager.deserialize (slice archive header.indexOffset.toNat header.indexSize.toNat)
    = (manager, none)
  entries : manager.entries = records.map fun record => IndexManager.toIndexEntry record.entry
  inside : ∀ entry ∈ dataEntries records, headerSize ≤ entry.offset.toNat
    ∧ entry.offset.toNat + entry.size.toNat ≤ header.metadataOffset.toNat
  disjoint : (dataEntries records).Pairwise fun earlier later =>
    ∀ position, ¬ (Covers earlier position ∧ Covers later position)
  ordered : (dataEntries records).Pairwise fun earlier later =>
    earlier.offset.toNat + earlier.size.toNat ≤ later.offset.toNat

/-- **The layout of a finished archive.** Whatever a journaling writer was asked to add, and whichever
of the adds were refused, the archive it closes has its sections one behind the other up to the end of
the file. The data of the entries lies between the header and the first section, one range behind
the other in the order of the index. -/
theorem layout_of_closed (hjournal : session.config.enableJournal = true)
    (h : (session.closed platform).2 = none) :
    ∃ header manager,
      Layout platform (session.archive platform) (session.records platform) header manager := by
  obtain ⟨body, header, journal, hinv, himage, -, -, hat⟩ := closed_image h
  have hindex := himage.remaining_body.advance.advance.advance
  rw [← himage.indexOffset] at hindex
  have hfits := himage.fits
  have hlength := himage.length_content
  have hdecoded := IndexManager.deserialize_serialize (session.filled platform).indexManager
    (by omega)
  refine ⟨header.updateChecksum platform,
    { entries := (session.filled platform).indexManager.entries
      idIndex := IndexManager.indexById (session.filled platform).indexManager.entries },
    ?_, contiguous_of_image himage (hat hjournal), ?_, hinv.index, ?_, ?_,
    dataEntries_ordered hinv⟩
  · rw [himage.content_eq, parse_serialize platform himage.isValid]
  · change IndexManager.deserialize (slice _ header.indexOffset.toNat header.indexSize.toNat) = _
    rw [himage.indexSize, hindex.slice_eq, hdecoded]
  · change ∀ entry ∈ _, _ ∧ _ ≤ header.metadataOffset.toNat
    rw [himage.metadataOffset]
    exact dataEntries_inside hinv
  · refine (dataEntries_ordered hinv).imp ?_
    rintro earlier later hle position ⟨hearlier, hlater⟩
    have hbefore := hearlier.2
    have hafter := hlater.1
    omega

def blobAndDirectory : Session where
  config := {}
  device := .ample
  calls :=
    [.addBlob .plain [0x61, 0x62, 0x63] [0x61] 0,
      .addSymlink .plain [0x61, 0x62, 0x63] [0x2E], .addDirectory .plain [0x62] {}]

theorem layout_of_closed_blobAndDirectory :
    (blobAndDirectory.records Platform.reference).map (·.isDirectory) = [false, true]
      ∧ ∃ header manager, Layout Platform.reference (blobAndDirectory.archive Platform.reference)
        (blobAndDirectory.records Platform.reference) header manager :=
  ⟨by decide +kernel, layout_of_closed rfl (by decide +kernel)⟩

end Session

end NebulaFS
