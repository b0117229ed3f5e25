import NebulaFS.Proof.EntryLookup
import NebulaFS.Proof.StoredBytes

/-!
# Extracting what was added

The reader finds the stored bytes of every entry. Whether it makes the data of them again depends on
one flag of the header, which `open` sets from the compression configured at that moment: without it
the stored bytes are the result, and with it they have to be a Zstandard frame. So an entry comes back
if it was stored as it is in an archive without the flag, or as a frame in an archive with it. A
directory is stored without a checksum, which a reader that compares checksums refuses. An entry comes
back, therefore, in every session whose adds keep to both (`extractEntryById_of_extractable`). With
one configuration for the whole session blobs always do (`archive_roundTrip`).
-/

namespace NebulaFS

open Cursor ArchiveHeader DirectoryTree ArchiveWriter

/-! ### Reading an entry -/

/-- What the reader makes of stored bytes before it compares the checksum. -/
def restored (platform : Platform) (flags : UInt16) (stored : Bytes) : Option Bytes :=
  if flags &&& HeaderFlags.compressed ≠ 0 ∧ stored ≠ [] then
    let result := ({} : CompressionEngine).decompress platform stored 0
    if result.success then some result.data else none
  else some stored

theorem verified_eq_ok_iff {platform : Platform} {verify : Bool} {expected : ChecksumValue}
    {e : Fault ParseError} {bytes result : Bytes} :
    (if verify = true ∧ ChecksumEngine.compute platform bytes ≠ expected then .error e
      else .ok bytes : Result Bytes) = .ok result
    ↔ some bytes = some result
      ∧ (verify = true → ChecksumEngine.compute platform result = expected) := by
  rw [Option.some.injEq]
  split
  · rename_i hmismatch
    refine iff_of_false (by simp) ?_
    rintro ⟨rfl, hsame⟩
    exact hmismatch.2 (hsame hmismatch.1)
  · rename_i hmatch
    rw [Except.ok.injEq]
    constructor
    · rintro rfl
      exact ⟨rfl, fun hverify => by_contra fun hmismatch => hmatch ⟨hverify, hmismatch⟩⟩
    · exact fun hboth => hboth.1

/-- A reader that compares checksums compares that of no bytes with the one of a directory entry. -/
def AcceptsDirectories (platform : Platform) (config : ReaderConfig) : Prop :=
  config.verifyChecksums = true → ChecksumEngine.compute platform [] = zeroArr 32

instance (platform : Platform) (config : ReaderConfig) :
    Decidable (AcceptsDirectories platform config) :=
  inferInstanceAs (Decidable (_ → _))

theorem restored_nil (platform : Platform) (flags : UInt16) : restored platform flags [] = some [] := by
  simp [restored]

/-- **Reading a range of the archive** gives what its bytes are restored to, if the sums agree. -/
theorem ArchiveReader.readEntryData_iff {platform : Platform} {reader : ArchiveReader}
    (hcompression : reader.compression = {}) {entry : ArchiveEntry}
    (hinside : entry.offset.toNat + entry.storedSize.toNat ≤ reader.archiveData.length)
    (result : Bytes) :
    reader.readEntryData platform entry = .ok result
      ↔ restored platform reader.header.flags
          (slice reader.archiveData entry.offset.toNat entry.storedSize.toNat) = some result
        ∧ (reader.config.verifyChecksums = true →
          ChecksumEngine.compute platform result = entry.checksum) := by
  have hend : (entry.offset + entry.storedSize).toNat ≤ reader.archiveData.length := by
    rw [UInt64.toNat_add]
    exact (Nat.mod_le _ _).trans hinside
  rw [ArchiveReader.readEntryData, if_neg (by omega), if_neg (by omega), hcompression, restored]
  simp only
  by_cases hcompressed : reader.header.flags &&& HeaderFlags.compressed ≠ 0
      ∧ slice reader.archiveData entry.offset.toNat entry.storedSize.toNat ≠ []
  · rw [if_pos hcompressed, if_pos hcompressed]
    by_cases hsuccess : (({} : CompressionEngine).decompress platform
        (slice reader.archiveData entry.offset.toNat entry.storedSize.toNat) 0).success = true
    · rw [if_pos hsuccess, if_pos hsuccess]
      exact verified_eq_ok_iff
    · rw [if_neg hsuccess, if_neg hsuccess]
      exact iff_of_false (by simp) (by simp)
  · rw [if_neg hcompressed, if_neg hcompressed]
    exact verified_eq_ok_iff

namespace Reopened

variable {platform : Platform} {session : Session} {config : ReaderConfig}
  {reader : ArchiveReader} (h : Reopened platform session config reader)

include h

/-- **Reading an entry** gives what its stored bytes are restored to, if the sums agree. -/
theorem readEntryData_iff {record : Record} {entry : ArchiveEntry}
    (hrecord : record ∈ session.records platform) (hdata : record.isDirectory = false)
    (hentry : IndexManager.toIndexEntry entry = IndexManager.toIndexEntry record.entry)
    (result : Bytes) :
    reader.readEntryData platform entry = .ok result
      ↔ restored platform (openFlags (session.configured platform).config) record.stored
          = some result
        ∧ (config.verifyChecksums = true →
          ChecksumEngine.compute platform result = ChecksumEngine.compute platform record.data) := by
  have hheld := h.held record hrecord hdata
  have hinside := hheld.inside
  have hoffset : entry.offset = record.entry.offset := congrArg IndexEntry.offset hentry
  have hsize : entry.storedSize = record.entry.storedSize := congrArg IndexEntry.size hentry
  have hsum : entry.checksum = record.entry.checksum := congrArg IndexEntry.checksum hentry
  rw [ArchiveReader.readEntryData_iff h.compression
    (by rw [h.archiveData, hoffset, hsize, hheld.size]; exact hinside)]
  rw [h.archiveData, hoffset, hsize, hheld.size, hheld.slice_eq, h.flags, hsum, hheld.checksum,
    h.config_eq]

theorem extractEntryById_iff {i : Nat} {record : Record}
    (hrecord : (session.records platform)[i]? = some record) (hdata : record.isDirectory = false)
    (result : Bytes) :
    reader.extractEntryById platform record.entry.id = .ok result
      ↔ restored platform (openFlags (session.configured platform).config) record.stored
          = some result
        ∧ (config.verifyChecksums = true →
          ChecksumEngine.compute platform result = ChecksumEngine.compute platform record.data) := by
  have hfind := h.findById_of_toNat (h.id_eq hrecord).2
  rw [hrecord, Option.map_some] at hfind
  rw [ArchiveReader.extractEntryById, ArchiveReader.findEntryById,
    if_neg (not_not.mpr h.isOpen), hfind]
  exact h.readEntryData_iff (List.mem_of_getElem? hrecord) hdata rfl result

theorem readEntryData_bare_iff {record : Record} {entry : ArchiveEntry} (hbare : record.Bare)
    (hentry : IndexManager.toIndexEntry entry = IndexManager.toIndexEntry record.entry)
    (result : Bytes) :
    reader.readEntryData platform entry = .ok result
      ↔ result = [] ∧ AcceptsDirectories platform config := by
  have hoffset : entry.offset = 0 := (congrArg IndexEntry.offset hentry).trans hbare.offset
  have hsize : entry.storedSize = 0 := (congrArg IndexEntry.size hentry).trans hbare.storedSize
  have hsum : entry.checksum = zeroArr 32 :=
    (congrArg IndexEntry.checksum hentry).trans hbare.checksum
  have hnone : slice reader.archiveData entry.offset.toNat entry.storedSize.toNat = [] := by
    rw [hoffset, hsize]
    rfl
  rw [ArchiveReader.readEntryData_iff h.compression (by rw [hoffset, hsize]; exact Nat.zero_le _),
    hnone, restored_nil, h.config_eq, hsum, Option.some.injEq]
  constructor
  · rintro ⟨rfl, haccepts⟩
    exact ⟨rfl, haccepts⟩
  · rintro ⟨rfl, haccepts⟩
    exact ⟨rfl, haccepts⟩

/-- **A directory has no bytes**, and a reader that accepts directories gives them. -/
theorem extractEntryById_directory_iff {i : Nat} {record : Record}
    (hrecord : (session.records platform)[i]? = some record)
    (hdirectory : record.isDirectory = true) (result : Bytes) :
    reader.extractEntryById platform record.entry.id = .ok result
      ↔ result = [] ∧ AcceptsDirectories platform config := by
  have hfind := h.findById_of_toNat (h.id_eq hrecord).2
  rw [hrecord, Option.map_some] at hfind
  rw [ArchiveReader.extractEntryById, ArchiveReader.findEntryById,
    if_neg (not_not.mpr h.isOpen), hfind]
  exact h.readEntryData_bare_iff (bare_of_directory (List.mem_of_getElem? hrecord) hdirectory) rfl
    result

theorem extractEntryById_of_restored {record : Record}
    (hrecord : record ∈ session.records platform)
    (hdata : record.isDirectory = false →
      restored platform (openFlags (session.configured platform).config) record.stored
        = some record.data)
    (hdirectory : record.isDirectory = true → AcceptsDirectories platform config) :
    reader.extractEntryById platform record.entry.id = .ok record.data := by
  obtain ⟨i, hi⟩ := List.mem_iff_getElem?.mp hrecord
  by_cases hkind : record.isDirectory = true
  · exact (h.extractEntryById_directory_iff hi hkind _).mpr
      ⟨(bare_of_directory hrecord hkind).data, hdirectory hkind⟩
  · have hkind := Bool.eq_false_iff.mpr hkind
    exact (h.extractEntryById_iff hi hkind _).mpr ⟨hdata hkind, fun _ => rfl⟩

theorem extractEntryByPath_of_restored {i : Nat} {record : Record} {path : Bytes}
    (hrecord : (session.records platform)[i]? = some record) (hdata : record.isDirectory = false)
    (hpath : splitPath record.entry.path = splitPath path) (hne : splitPath path ≠ [])
    (hfirst : ∀ earlier ∈ (session.records platform).take i,
      ¬ splitPath path <+: splitPath earlier.entry.path)
    (hrestored : restored platform (openFlags (session.configured platform).config) record.stored
      = some record.data) :
    reader.extractEntryByPath platform path = .ok record.data := by
  have hid := (h.id_eq hrecord).2
  have hat := (h.idAt_iff hne record.entry.id).mpr ⟨i, record, hrecord,
    hpath ▸ List.prefix_rfl, hfirst, by rw [if_pos hpath.symm, hid]⟩
  obtain ⟨entry, hfound, hindexed⟩ :=
    (h.findEntryByPath_iff path _).mpr ⟨i, record, record.entry.id, hrecord, hid, hat, rfl⟩
  rw [ArchiveReader.extractEntryByPath, hfound]
  exact (h.readEntryData_iff (List.mem_of_getElem? hrecord) hdata hindexed _).mpr
    ⟨hrestored, fun _ => rfl⟩

end Reopened

/-! ### What the writer stores and the reader restores -/

/-- What the program relies on in Zstandard: a frame made of data is not empty, records the size of
the data, and decompresses to it. -/
structure Zstd.Lossless (zstd : Zstd) : Prop where
  frame_ne_nil : ∀ {data level frame}, data ≠ [] →
    zstd.compressCCtx data (zstd.compressBound data.length) level = some frame → frame ≠ []
  contentSize : ∀ {data level frame}, data ≠ [] →
    zstd.compressCCtx data (zstd.compressBound data.length) level = some frame →
      zstd.getFrameContentSize frame = some data.length
  decompress : ∀ {data level frame}, data ≠ [] →
    zstd.compressCCtx data (zstd.compressBound data.length) level = some frame →
      zstd.decompress frame data.length = some data

theorem Platform.reference_lossless : Platform.reference.zstd.Lossless := by
  have hframe : ∀ {data frame : Bytes} {level : Int},
      Platform.reference.zstd.compressCCtx data
        (Platform.reference.zstd.compressBound data.length) level = some frame →
      data.length < 256 ∧ frame = Platform.rawFrame data := by
    intro data frame level h
    simp only [Platform.reference] at h
    split at h
    · rename_i hcond
      exact ⟨hcond.1, (Option.some.inj h).symm⟩
    · cases h
  refine ⟨?_, ?_, ?_⟩
  · intro data level frame _ h
    rw [(hframe h).2]
    simp [Platform.rawFrame]
  · intro data level frame _ h
    obtain ⟨hshort, rfl⟩ := hframe h
    simp [Platform.reference, Platform.rawFrame, Nat.mod_eq_of_lt hshort]
  · intro data level frame _ h
    obtain ⟨hshort, rfl⟩ := hframe h
    have hdrop : (Platform.rawFrame data).drop 9 = data := rfl
    have hlength : (Platform.rawFrame data).length = data.length + 9 := by
      simp [Platform.rawFrame]
    simp only [Platform.reference]
    rw [hdrop, hlength, if_pos ⟨rfl, le_rfl⟩]

theorem openFlags_compressed_iff (config : WriterConfig) :
    openFlags config &&& HeaderFlags.compressed ≠ 0 ↔ config.compression ≠ .none := by
  unfold openFlags
  cases config.enableJournal <;> cases config.enableDedup <;>
    by_cases hcompression : config.compression = .none <;>
    by_cases hencryption : config.encryption = .none <;>
    simp [hcompression, hencryption] <;> decide

theorem restored_of_not_compressed {platform : Platform} {flags : UInt16}
    (hflags : ¬ flags &&& HeaderFlags.compressed ≠ 0) (stored : Bytes) :
    restored platform flags stored = some stored := by
  rw [restored, if_neg fun h => hflags h.1]

theorem restored_frame {platform : Platform} {flags : UInt16} {data frame : Bytes} {level : Int}
    (hflags : flags &&& HeaderFlags.compressed ≠ 0) (hzstd : platform.zstd.Lossless)
    (hdata : data ≠ [])
    (hframe : platform.zstd.compressCCtx data (platform.zstd.compressBound data.length) level
      = some frame) : restored platform flags frame = some data := by
  have hne := hzstd.frame_ne_nil hdata hframe
  have hdecompress : ({} : CompressionEngine).decompress platform frame 0
      = CompressionEngine.decompressed frame data.length (some data) := by
    change CompressionEngine.decompressZstd platform frame 0 = _
    rw [CompressionEngine.decompressZstd, if_pos ⟨rfl, hne⟩, hzstd.contentSize hdata hframe]
    simp only
    rw [hzstd.decompress hdata hframe]
  rw [restored, if_pos ⟨hflags, hne⟩, hdecompress]
  simp [CompressionEngine.decompressed, CompressionEngine.fill]

/-- An add of data that the reader can undo. Without compression at `open` the data has to be stored
as it is: no compression is configured now, or it fails. With compression at `open` the data has to be
stored as a Zstandard frame. -/
def CodecFits (platform : Platform) (atOpen : CompressionAlgorithm) (writer : ArchiveWriter)
    (call : Call) : Prop :=
  ∀ payload ∈ call.payload, payload.2 ≠ [] → ValidPath call.path →
    (atOpen = .none ∧ (writer.config.compression = .none
      ∨ (writer.compression.compress platform payload.2).success = false))
    ∨ (atOpen ≠ .none ∧ writer.config.compression = .zstd
      ∧ (writer.compression.compress platform payload.2).success = true)

instance (platform : Platform) (atOpen : CompressionAlgorithm) (writer : ArchiveWriter)
    (call : Call) : Decidable (CodecFits platform atOpen writer call) :=
  inferInstanceAs (Decidable (∀ payload ∈ call.payload, payload.2 ≠ [] → ValidPath call.path →
    (_ ∧ (_ ∨ _)) ∨ (_ ∧ _ ∧ _)))

def ArchiveWriter.Call.addsDirectory : Call → Bool
  | .addDirectory _ _ _ => true
  | .addFile _ _ _ | .addSymlink _ _ _ | .addBlob _ _ _ _ | .setMetadata _ _ | .setEncryptionKey _
  | .setCompression _ _ => false

/-- An add whose entry the reader gives back: the codecs fit, and a directory is only added for a
reader that accepts directories. -/
def Extractable (platform : Platform) (config : ReaderConfig) (atOpen : CompressionAlgorithm)
    (writer : ArchiveWriter) (call : Call) : Prop :=
  CodecFits platform atOpen writer call
    ∧ (call.addsDirectory = true → ValidPath call.path → AcceptsDirectories platform config)

instance (platform : Platform) (config : ReaderConfig) (atOpen : CompressionAlgorithm)
    (writer : ArchiveWriter) (call : Call) :
    Decidable (Extractable platform config atOpen writer call) :=
  inferInstanceAs (Decidable (_ ∧ _))

structure Plain (writer : ArchiveWriter) : Prop where
  isOpen : writer.isOpen = true
  encryption : writer.config.encryption = .none
  coherent : writer.Coherent

namespace Plain

variable {platform : Platform} {writer : ArchiveWriter} (h : Plain writer)

include h

theorem step (call : Call) : Plain (writer.step platform call).1 := by
  have hsetup := sameSetup_step platform writer call
  exact ⟨hsetup.isOpen.trans h.isOpen, hsetup.encryption.trans h.encryption,
    hsetup.coherent h.coherent⟩

theorem processedData_eq (evp : Evp) (data : Bytes) :
    writer.processedData platform evp data = (writer.compressStage platform data).1 := by
  unfold processedData encryptStage
  cases writer.encryption with
  | none => rfl
  | some engine => exact if_neg fun hcond => hcond.1 h.encryption

theorem stored_frame {data : Bytes} (hdata : data ≠ [])
    (hzstd : writer.config.compression = .zstd)
    (hsuccess : (writer.compression.compress platform data).success = true) :
    platform.zstd.compressCCtx data (platform.zstd.compressBound data.length)
        writer.config.compressionLevel
      = some (writer.compressStage platform data).1 := by
  have hcompress : writer.compression.compress platform data
      = CompressionEngine.compressed data (platform.zstd.compressCCtx data
        (platform.zstd.compressBound data.length) writer.config.compressionLevel) := by
    rw [CompressionEngine.compress, h.coherent, hzstd]
    rfl
  rw [compressStage, if_pos ⟨by simp [hzstd], hdata⟩]
  simp only
  rw [if_pos hsuccess]
  rw [hcompress] at hsuccess ⊢
  cases hframe : platform.zstd.compressCCtx data (platform.zstd.compressBound data.length)
      writer.config.compressionLevel with
  | none =>
      rw [hframe] at hsuccess
      cases hsuccess
  | some frame => rfl

theorem restored_of_codecFits {atOpen : WriterConfig} {call : Call} {around : Surroundings}
    {data : Bytes} (hcall : call.payload = some (around, data)) (hpath : ValidPath call.path)
    (hzstd : platform.zstd.Lossless)
    (hfits : CodecFits platform atOpen.compression writer call) :
    restored platform (openFlags atOpen) (writer.processedData platform around.evp data)
      = some data := by
  rw [h.processedData_eq]
  by_cases hdata : data = []
  · rw [compressStage, if_neg fun hcond => hcond.2 hdata, hdata, restored_nil]
  · rcases hfits (around, data) hcall hdata hpath with ⟨hnone, hcond⟩ | ⟨hsome, hzstdNow, hsuccess⟩
    · have hstored : (writer.compressStage platform data).1 = data := by
        unfold compressStage
        rcases hcond with hcond | hfailed
        · rw [if_neg fun hboth => hboth.1 hcond]
        · simp [hfailed]
      have hflags := (openFlags_compressed_iff atOpen).not.mpr (not_not.mpr hnone)
      rw [hstored, restored_of_not_compressed hflags]
    · exact restored_frame ((openFlags_compressed_iff atOpen).mpr hsome) hzstd hdata
        (h.stored_frame hdata hzstdNow hsuccess)

theorem restored_of_added {atOpen : WriterConfig} {call : Call} {record : Record}
    (hzstd : platform.zstd.Lossless)
    (hfits : CodecFits platform atOpen.compression writer call)
    (hrecord : record ∈ writer.added platform call) (hdata : record.isDirectory = false) :
    restored platform (openFlags atOpen) record.stored = some record.data := by
  unfold added at hrecord
  split at hrecord
  · rename_i hok
    cases hpayload : call.payload with
    | some payload =>
        obtain ⟨entry, -, -, -, -, hoffered⟩ := step_of_payload platform h.isOpen hpayload
        rw [hoffered, Option.toList_some, List.mem_singleton] at hrecord
        rcases step_cases h.isOpen hpayload with ⟨hfailed, -⟩ | ⟨-, -, -, hpath⟩
        · exact absurd hok hfailed
        · rw [hrecord]
          exact h.restored_of_codecFits hpayload hpath hzstd hfits
    | none =>
        -- a call without data adds nothing or a directory
        cases Call.dataless hpayload with
        | addFile around path => cases hrecord
        | addDirectory around path perms =>
            rw [offered, Option.toList_some, List.mem_singleton] at hrecord
            rw [hrecord] at hdata
            cases hdata
        | setMetadata _ _ | setEncryptionKey _ | setCompression _ _ => cases hrecord
  · cases hrecord

theorem isDirectory_of_added {call : Call} {record : Record}
    (hrecord : record ∈ writer.added platform call) (hdirectory : record.isDirectory = true) :
    call.addsDirectory = true ∧ ValidPath call.path := by
  obtain ⟨-, around, path, perms, rfl⟩ := bare_of_directory_added hrecord hdirectory
  refine ⟨rfl, by_contra fun hpath => ?_⟩
  have hrefused : (writer.step platform (.addDirectory around path perms)).2 ≠ none :=
    (addDirectory_ok_iff platform h.isOpen around path perms).not.mpr hpath
  rw [added, if_neg hrefused] at hrecord
  cases hrecord

end Plain

namespace Session

variable {platform : Platform} {session : Session}

theorem opened_plain (hencryption : session.config.encryption = .none)
    (hopened : (session.opened platform).2 = none) : Plain (session.opened platform).1 := by
  have hopen := justOpened hopened
  have hsetup := sameSetup_configured platform session
  refine ⟨hopen.isOpen, ?_, ?_⟩
  · rw [hopen.config]
    exact hsetup.encryption.trans hencryption
  · rw [Coherent, hopen.compression, hopen.config]
    exact hsetup.coherent rfl

theorem restored_of_codecFits (hencryption : session.config.encryption = .none)
    (hzstd : platform.zstd.Lossless) (hopened : (session.opened platform).2 = none)
    (hfits : (session.opened platform).1.Along platform
      (CodecFits platform (session.configured platform).config.compression) session.calls) :
    ∀ record ∈ session.records platform, record.isDirectory = false →
      restored platform (openFlags (session.configured platform).config) record.stored
        = some record.data := by
  have hstep : ∀ writer call, Plain writer → Plain (writer.step platform call).1 :=
    fun _ call h => h.step call
  exact forall_records_of_along hstep
    (fun writer call h hcall record hrecord hdata => h.restored_of_added hzstd hcall hrecord hdata)
    (opened_plain hencryption hopened) hfits

/-- What the reader needs to give an entry back: what is stored for data is restored to it, and a
directory is accepted. -/
theorem restored_of_extractable (hencryption : session.config.encryption = .none)
    (hzstd : platform.zstd.Lossless) (hopened : (session.opened platform).2 = none)
    {config : ReaderConfig} {calls : List Call}
    (hfits : (session.opened platform).1.Along platform
      (Extractable platform config (session.configured platform).config.compression) calls) :
    ∀ record ∈ (session.opened platform).1.records platform calls,
      (record.isDirectory = false →
        restored platform (openFlags (session.configured platform).config) record.stored
          = some record.data)
      ∧ (record.isDirectory = true → AcceptsDirectories platform config) := by
  have hstep : ∀ writer call, Plain writer → Plain (writer.step platform call).1 :=
    fun _ call h => h.step call
  refine forall_records_of_along hstep ?_ (opened_plain hencryption hopened) hfits
  intro writer call h hcall record hrecord
  refine ⟨h.restored_of_added hzstd hcall.1 hrecord, fun hdirectory => ?_⟩
  obtain ⟨hkind, hpath⟩ := h.isDirectory_of_added hrecord hdirectory
  exact hcall.2 hkind hpath

/-- **Every entry survives the codec it was written with**, in a session whose adds all meet the
condition: setting the compression between the adds, before or after `open`, does no harm as long as
what is stored fits the flag that `open` put into the header. -/
theorem extractEntryById_of_extractable (hencryption : session.config.encryption = .none)
    (hzstd : platform.zstd.Lossless) (config : ReaderConfig)
    (hfits : (session.opened platform).1.Along platform
      (Extractable platform config (session.configured platform).config.compression) session.calls)
    (hclosed : (session.closed platform).2 = none) :
    ∃ reader, ArchiveReader.openArchive platform { config := config }
        (some (session.archive platform)) = (reader, none)
      ∧ ∀ record ∈ session.records platform,
        reader.extractEntryById platform record.entry.id = .ok record.data := by
  obtain ⟨reader, hopen, h⟩ := reopen hclosed config
  have hrestored := restored_of_extractable hencryption hzstd (opened_of_closed hclosed) hfits
  exact ⟨reader, hopen, fun record hrecord => h.extractEntryById_of_restored hrecord
    (hrestored record hrecord).1 (hrestored record hrecord).2⟩

def twoLevels : Session where
  config := {}
  device := .ample
  calls :=
    [.addBlob .plain [0x61, 0x62, 0x63] [0x61] 0, .setCompression .zstd 9,
      .addBlob .plain [0x61, 0x62, 0x63] [0x62] 0]

def twoLevelsAndDirectory : Session :=
  { twoLevels with calls := twoLevels.calls ++ [.addDirectory .plain [0x64] {}] }

theorem extractEntryById_of_extractable_twoLevels :
    ((twoLevels.records Platform.reference).length = 2
      ∧ ∃ reader, ArchiveReader.openArchive Platform.reference {}
          (some (twoLevels.archive Platform.reference)) = (reader, none)
        ∧ ∀ record ∈ twoLevels.records Platform.reference,
          reader.extractEntryById Platform.reference record.entry.id = .ok record.data)
    ∧ (twoLevelsAndDirectory.records Platform.reference).length = 3
      ∧ ∃ reader, ArchiveReader.openArchive Platform.reference
          { config := { verifyChecksums := false } }
          (some (twoLevelsAndDirectory.archive Platform.reference)) = (reader, none)
        ∧ ∀ record ∈ twoLevelsAndDirectory.records Platform.reference,
          reader.extractEntryById Platform.reference record.entry.id = .ok record.data :=
  ⟨⟨by decide +kernel, extractEntryById_of_extractable rfl Platform.reference_lossless {}
      (by decide +kernel) (by decide +kernel)⟩,
    by decide +kernel, extractEntryById_of_extractable rfl Platform.reference_lossless
      { verifyChecksums := false } (by decide +kernel) (by decide +kernel)⟩

def turnedOff : Session where
  config := {}
  device := .ample
  calls := [.setCompression .none 0, .addBlob .plain [0x61, 0x62, 0x63] [0x61] 0]

/-- The blob is stored as it is and the reader takes it for a frame. -/
theorem extractEntryById_fails_turnedOff :
    Platform.reference.zstd.Lossless
      ∧ (turnedOff.opened Platform.reference).1.Along Platform.reference
        (Succeeds Platform.reference) turnedOff.calls
      ∧ (turnedOff.closed Platform.reference).2 = none
      ∧ ∃ reader record, ArchiveReader.openArchive Platform.reference {}
          (some (turnedOff.archive Platform.reference)) = (reader, none)
        ∧ turnedOff.records Platform.reference = [record]
        ∧ record.isDirectory = false ∧ record.data = [0x61, 0x62, 0x63]
        ∧ ∀ data, reader.extractEntryById Platform.reference record.entry.id ≠ .ok data := by
  have hclosed : (turnedOff.closed Platform.reference).2 = none := by decide +kernel
  have hone : (turnedOff.records Platform.reference).map (fun record =>
      (record.isDirectory, record.data, record.stored))
      = [(false, [0x61, 0x62, 0x63], [0x61, 0x62, 0x63])] := by
    decide +kernel
  have hrestored : restored Platform.reference
      (openFlags (turnedOff.configured Platform.reference).config) [0x61, 0x62, 0x63] = none := by
    decide +kernel
  obtain ⟨reader, hopen, h⟩ := reopen hclosed {}
  obtain ⟨record, hrecords, hfields⟩ := List.map_eq_singleton_iff.mp hone
  simp only [Prod.mk.injEq] at hfields
  obtain ⟨hdirectory, hdata, hstored⟩ := hfields
  refine ⟨Platform.reference_lossless, by decide +kernel, hclosed, reader, record, hopen, hrecords,
    hdirectory, hdata, ?_⟩
  intro data hextract
  have hfirst : (turnedOff.records Platform.reference)[0]? = some record := by rw [hrecords]; rfl
  have hread := ((h.extractEntryById_iff hfirst hdirectory data).mp hextract).1
  rw [hstored, hrestored] at hread
  cases hread

end Session

/-! ### Archives of blobs -/

structure Blob where
  around : Surroundings
  data : Bytes
  path : Bytes
  flags : EntryFlags := EntryFlags.none

def Blob.call (blob : Blob) : Call := .addBlob blob.around blob.data blob.path blob.flags

/-- A writer on which nothing was called but adds of these blobs. -/
structure Session.OfBlobs (session : Session) (blobs : List Blob) : Prop where
  before : session.before = []
  calls : session.calls = blobs.map Blob.call

namespace Session

variable {platform : Platform} {session : Session} {blobs : List Blob}

theorem OfBlobs.configured_config (h : session.OfBlobs blobs) :
    (session.configured platform).config = session.config := by
  rw [configured, h.before]
  rfl

theorem OfBlobs.codecFits (h : session.OfBlobs blobs)
    (hcompression : session.config.compression = .none ∨ session.config.compression = .zstd)
    (hencryption : session.config.encryption = .none)
    (hcompress : ∀ blob ∈ blobs, blob.data ≠ [] → (platform.zstd.compressCCtx blob.data
      (platform.zstd.compressBound blob.data.length) session.config.compressionLevel).isSome)
    (hopened : (session.opened platform).2 = none) :
    (session.opened platform).1.Along platform
      (CodecFits platform (session.configured platform).config.compression) session.calls := by
  rw [h.configured_config, h.calls]
  have hstep : ∀ writer, ∀ call ∈ blobs.map Blob.call,
      (Plain writer ∧ writer.config = session.config) →
      Plain (writer.step platform call).1
        ∧ (writer.step platform call).1.config = session.config := by
    rintro writer call hcall ⟨hplain, hconfig⟩
    obtain ⟨blob, -, rfl⟩ := List.mem_map.mp hcall
    exact ⟨hplain.step _, (step_config hplain.isOpen rfl).trans hconfig⟩
  have hfits : ∀ writer, ∀ call ∈ blobs.map Blob.call,
      (Plain writer ∧ writer.config = session.config) →
      CodecFits platform session.config.compression writer call := by
    rintro writer call hcall ⟨hplain, hconfig⟩ payload hpayload hdata -
    obtain ⟨blob, hblob, rfl⟩ := List.mem_map.mp hcall
    obtain rfl : (blob.around, blob.data) = payload := Option.some.inj hpayload
    rcases hcompression with hnone | hzstd
    · exact .inl ⟨hnone, .inl (hconfig ▸ hnone)⟩
    · refine .inr ⟨by simp [hzstd], hconfig ▸ hzstd, ?_⟩
      obtain ⟨frame, hframe⟩ := Option.isSome_iff_exists.mp (hcompress blob hblob hdata)
      rw [CompressionEngine.compress, hplain.coherent, hconfig, hzstd]
      simp only [CompressionEngine.compressZstd]
      rw [hframe]
      rfl
  have hopen : (session.opened platform).1.config = session.config :=
    (justOpened hopened).config.trans h.configured_config
  exact along_of_invariant hstep hfits ⟨opened_plain hencryption hopened, hopen⟩

theorem closed_of_good (hopened : (session.opened platform).2 = none)
    (hgood : (session.closed platform).1.file.good = true) :
    (session.closed platform).2 = none := by
  have hsetup := sameSetup_run platform (session.opened platform).1 session.calls
  exact close_of_good (hsetup.isOpen.trans (justOpened hopened).isOpen) hgood

theorem OfBlobs.records_eq (h : session.OfBlobs blobs)
    (hpaths : ∀ blob ∈ blobs, splitPath blob.path ≠ [])
    (hclosed : (session.closed platform).2 = none) :
    (session.records platform).map
        (fun record => (record.entry.path, record.data, record.isDirectory))
      = blobs.map fun blob => (blob.path, blob.data, false) := by
  have hopen := (justOpened (opened_of_closed hclosed)).isOpen
  have hgood : (session.filled platform).file.good = true := (ready_of_close hclosed).2
  have hcalls : ∀ call ∈ session.calls, call.payload.isSome = true ∧ ValidPath call.path := by
    intro call hcall
    rw [h.calls] at hcall
    obtain ⟨blob, hblob, rfl⟩ := List.mem_map.mp hcall
    exact ⟨rfl, .inr (.inr (hpaths blob hblob))⟩
  have hkinds : ∀ call ∈ session.calls, call.isBlobOrDirectory = true := by
    intro call hcall
    rw [h.calls] at hcall
    obtain ⟨blob, -, rfl⟩ := List.mem_map.mp hcall
    rfl
  have hrecords := records_of_succeeds hkinds (succeeds_of_good hopen hcalls hgood)
  calc (session.records platform).map
        (fun record => (record.entry.path, record.data, record.isDirectory))
      = session.calls.map Call.request := hrecords
    _ = blobs.map fun blob => (blob.path, blob.data, false) := by
        rw [h.calls, List.map_map]
        rfl

theorem OfBlobs.getElem?_records (h : session.OfBlobs blobs)
    (hpaths : ∀ blob ∈ blobs, splitPath blob.path ≠ [])
    (hclosed : (session.closed platform).2 = none) {i : Nat} {blob : Blob}
    (hblob : blobs[i]? = some blob) :
    ∃ record, (session.records platform)[i]? = some record ∧ record.entry.path = blob.path
      ∧ record.data = blob.data ∧ record.isDirectory = false := by
  have hrecords := congrArg (·[i]?) (h.records_eq hpaths hclosed)
  simp only [List.getElem?_map, hblob, Option.map_some, Option.map_eq_some_iff,
    Prod.mk.injEq] at hrecords
  exact hrecords

theorem OfBlobs.not_begins_earlier (h : session.OfBlobs blobs)
    (hpaths : ∀ blob ∈ blobs, splitPath blob.path ≠ [])
    (happart : blobs.Pairwise fun earlier later =>
      ¬ splitPath earlier.path <+: splitPath later.path
        ∧ ¬ splitPath later.path <+: splitPath earlier.path)
    (hclosed : (session.closed platform).2 = none) {i : Nat} {blob : Blob}
    (hblob : blobs[i]? = some blob) :
    ∀ earlier ∈ (session.records platform).take i,
      ¬ splitPath blob.path <+: splitPath earlier.entry.path := by
  intro earlier hearlier hbegins
  obtain ⟨j, hj, hat⟩ := List.mem_take_iff_getElem.mp hearlier
  obtain ⟨hi, rfl⟩ := List.getElem?_eq_some_iff.mp hblob
  have hjBlobs : blobs[j]? = some (blobs[j]) := List.getElem?_eq_getElem (by omega)
  obtain ⟨other, hother, hotherPath, -⟩ := h.getElem?_records hpaths hclosed hjBlobs
  have hsame : other = earlier := by
    rw [← hat]
    exact (List.getElem?_eq_some_iff.mp hother).2.symm
  have hclear := List.pairwise_iff_getElem.mp happart j i (by omega) hi (by omega)
  rw [← hsame, hotherPath] at hbegins
  exact hclear.2 hbegins

/-- **Archive round trip.** Blobs whose component lists are not empty and no two of which begin one
another all come back from the archive, under their ids and under their paths. -/
theorem archive_roundTrip (h : session.OfBlobs blobs)
    (hcompression : session.config.compression = .none ∨ session.config.compression = .zstd)
    (hencryption : session.config.encryption = .none)
    (hcompress : ∀ blob ∈ blobs, blob.data ≠ [] → (platform.zstd.compressCCtx blob.data
      (platform.zstd.compressBound blob.data.length) session.config.compressionLevel).isSome)
    (hzstd : platform.zstd.Lossless)
    (hpaths : ∀ blob ∈ blobs, splitPath blob.path ≠ [])
    (happart : blobs.Pairwise fun earlier later =>
      ¬ splitPath earlier.path <+: splitPath later.path
        ∧ ¬ splitPath later.path <+: splitPath earlier.path)
    (hopened : (session.opened platform).2 = none)
    (hgood : (session.closed platform).1.file.good = true) :
    (session.closed platform).2 = none
      ∧ ∃ reader, ArchiveReader.openArchive platform { config := { verifyChecksums := true } }
          (some (session.archive platform)) = (reader, none)
        ∧ (∃ entries, reader.listEntries = .ok entries
          ∧ entries.map (·.id.toNat) = List.range' 1 blobs.length)
        ∧ ∀ i blob, blobs[i]? = some blob →
          reader.extractEntryByPath platform blob.path = .ok blob.data
          ∧ reader.extractEntryById platform (UInt64.ofNat (i + 1)) = .ok blob.data := by
  have hclosed := closed_of_good hopened hgood
  have hfits := h.codecFits hcompression hencryption hcompress hopened
  have hrestored := restored_of_codecFits hencryption hzstd hopened hfits
  have hcount := congrArg List.length (h.records_eq hpaths hclosed)
  rw [List.length_map, List.length_map] at hcount
  obtain ⟨reader, hopen, hreader⟩ := reopen hclosed { verifyChecksums := true }
  refine ⟨hclosed, reader, hopen, ⟨_, if_neg (not_not.mpr hreader.isOpen), ?_⟩, ?_⟩
  · rw [hreader.entries, List.map_map, List.map_map, ← hcount]
    exact hreader.ids_toNat
  · intro i blob hblob
    obtain ⟨record, hrecord, hpath, hdata, hdirectory⟩ :=
      h.getElem?_records hpaths hclosed hblob
    have hmem := List.mem_of_getElem? hrecord
    have hback := hrestored record hmem hdirectory
    rw [← hdata, ← (hreader.id_eq hrecord).1]
    refine ⟨?_, (hreader.extractEntryById_iff hrecord hdirectory _).mpr ⟨hback, fun _ => rfl⟩⟩
    exact hreader.extractEntryByPath_of_restored hrecord hdirectory (by rw [hpath])
      (hpaths blob (List.mem_of_getElem? hblob))
      (h.not_begins_earlier hpaths happart hclosed hblob) hback

/-- Two blobs that share a directory nobody added. -/
def sharedDirectory : List Blob :=
  [{ around := .plain, data := [0x61, 0x62, 0x63], path := [0x64, 0x2F, 0x61] },
    { around := .plain, data := [], path := [0x64, 0x2F, 0x62] }]

def sharedDirectorySession : Session where
  config := {}
  device := .ample
  calls := sharedDirectory.map Blob.call

theorem archive_roundTrip_sharedDirectory :
    (sharedDirectorySession.closed Platform.reference).2 = none
      ∧ ∃ reader, ArchiveReader.openArchive Platform.reference
          { config := { verifyChecksums := true } }
          (some (sharedDirectorySession.archive Platform.reference)) = (reader, none)
        ∧ (∃ entries, reader.listEntries = .ok entries ∧ entries.map (·.id.toNat) = [1, 2])
        ∧ ∀ i blob, sharedDirectory[i]? = some blob →
          reader.extractEntryByPath Platform.reference blob.path = .ok blob.data
          ∧ reader.extractEntryById Platform.reference (UInt64.ofNat (i + 1)) = .ok blob.data := by
  have hblobs : sharedDirectorySession.OfBlobs sharedDirectory := ⟨rfl, rfl⟩
  exact archive_roundTrip hblobs (.inr rfl) rfl (by decide +kernel) Platform.reference_lossless
    (by decide) (by decide) (by decide +kernel) (by decide +kernel)

end Session

end NebulaFS
