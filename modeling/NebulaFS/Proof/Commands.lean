import Mathlib.Data.UInt
import NebulaFS.CommandLine
import NebulaFS.Proof.EntryCounts
import NebulaFS.Proof.EntryBounds

/-!
# From one command to the next

`create` packs the files it can read under the paths the tree accepts (`packed`). If it reports success
every later command opens its archive, and what each of them reports follows from the number of files
alone. What `extract` writes is what the stored bytes are restored to, and that is the data where the
codec is Zstandard or none.
-/

namespace NebulaFS

open ArchiveWriter ArchiveReader CommandLineHandler DirectoryTree

variable {platform : Platform} {host : Host} {options other : CommandLineOptions}
  {config : WriterConfig}

/-! ### What create packs -/

def HostFile.call (file : HostFile) : Call := .addFile file.around file.content file.path

/-- Whether `create` can add a file. -/
def HostFile.Fit (file : HostFile) : Prop := file.content.isSome = true ∧ ValidPath file.path

instance (file : HostFile) : Decidable file.Fit := inferInstanceAs (Decidable (_ ∧ _))

def packed (host : Host) (options : CommandLineOptions) : List HostFile :=
  (hostFiles host options).filter (·.Fit)

/-- The bytes that a writer of this configuration stores for data. -/
def packedBytes (platform : Platform) (config : WriterConfig) (data : Bytes) : Bytes :=
  ((ArchiveWriter.new platform config .ample).compressStage platform data).1

/-- The record of a file that was packed. -/
structure Packs (platform : Platform) (config : WriterConfig) (file : HostFile) (record : Record) :
    Prop where
  content : file.content = some record.data
  isData : record.isDirectory = false
  stored : record.stored = packedBytes platform config record.data

theorem processedData_eq_packedBytes {writer : ArchiveWriter} (hplain : Plain writer)
    (hconfig : writer.config = config) (evp : Evp) (data : Bytes) :
    writer.processedData platform evp data = packedBytes platform config data := by
  have hengine : writer.compression = (ArchiveWriter.new platform config .ample).compression := by
    rw [← hconfig]
    exact congrArg CompressionEngine.mk hplain.coherent
  rw [hplain.processedData_eq, packedBytes, compressStage, compressStage, hengine, hconfig]
  rfl

/-- Adding one file succeeds where the file is fit for it, as long as the stream stays good. -/
theorem step_call_cases {writer : ArchiveWriter} (hplain : Plain writer)
    (hconfig : writer.config = config) (file : HostFile)
    (hgood : (writer.step platform file.call).1.file.good = true) :
    ((writer.step platform file.call).2 ≠ none ∧ ¬ file.Fit
      ∧ writer.added platform file.call = [])
    ∨ ((writer.step platform file.call).2 = none ∧ file.Fit
      ∧ ∃ record, writer.added platform file.call = [record] ∧ Packs platform config file record) := by
  cases hcontent : file.content with
  | none =>
      have hrefused : (writer.step platform file.call).2 ≠ none := by
        simp [HostFile.call, step, addFile, hplain.isOpen, hcontent]
      exact .inl ⟨hrefused, fun h => by simp [HostFile.Fit, hcontent] at h, if_neg hrefused⟩
  | some data =>
      have hpayload : file.call.payload = some (file.around, data) := by
        rw [HostFile.call, hcontent]
        rfl
      have hwrite : (writer.file.write (writer.processedData platform file.around.evp data)).good
          = true := by
        rwa [step_file platform hplain.isOpen, hpayload] at hgood
      obtain ⟨entry, -, htype, -, -, hoffered⟩ := step_of_payload platform hplain.isOpen hpayload
      rcases step_cases hplain.isOpen hpayload with ⟨hrefused, -, -, -, hbad | hinvalid⟩ |
        ⟨hok, -, -, hvalid⟩
      · rw [hwrite] at hbad
        cases hbad
      · exact .inl ⟨hrefused, fun h => hinvalid h.2, if_neg hrefused⟩
      · refine .inr ⟨hok, ⟨by rw [hcontent]; rfl, hvalid⟩,
          writer.dataRecord platform file.around data entry, ?_, hcontent, decide_eq_false htype,
          processedData_eq_packedBytes hplain hconfig _ data⟩
        rw [added, if_pos hok, hoffered]
        rfl

variable (platform) in
theorem step_call_config {writer : ArchiveWriter} (hopen : writer.isOpen = true) (file : HostFile) :
    (writer.step platform file.call).1.config = writer.config := by
  cases hcontent : file.content with
  | none => simp [HostFile.call, step, addFile, hopen, hcontent]
  | some data => exact step_config hopen (by rw [HostFile.call, hcontent]; rfl)

variable (platform) in
theorem packFile_eq (packing : Packing) (file : HostFile) :
    packFile platform packing file
      = { writer := (packing.writer.step platform file.call).1
          count :=
            if (packing.writer.step platform file.call).2 = none then packing.count + 1
            else packing.count
          totalBytes :=
            if (packing.writer.step platform file.call).2 = none then packing.totalBytes + file.size
            else packing.totalBytes } := by
  rw [packFile, HostFile.call, step]
  rcases packing.writer.addFile platform file.around file.content file.path with ⟨writer, _ | err⟩
  · rfl
  · rfl

variable (platform) in
theorem foldl_packFile_writer (packing : Packing) (files : List HostFile) :
    (files.foldl (packFile platform) packing).writer
      = packing.writer.run platform (files.map HostFile.call) := by
  induction files generalizing packing with
  | nil => rfl
  | cons file files ih => rw [List.foldl_cons, ih, packFile_eq, List.map_cons, run_cons]

/-- What a loop over files leaves: their number, their bytes, and their records. -/
structure Packed (platform : Platform) (config : WriterConfig) (before after : Packing)
    (kept : List HostFile) (records : List Record) : Prop where
  count : after.count = before.count + UInt64.ofNat kept.length
  totalBytes : after.totalBytes = before.totalBytes + (kept.map (·.size)).sum
  packs : List.Forall₂ (Packs platform config) kept records

theorem packed_foldl {packing : Packing} {files : List HostFile} (hplain : Plain packing.writer)
    (hconfig : packing.writer.config = config)
    (hgood : (packing.writer.run platform (files.map HostFile.call)).file.good = true) :
    Packed platform config packing (files.foldl (packFile platform) packing) (files.filter (·.Fit))
      (packing.writer.records platform (files.map HostFile.call)) := by
  induction files generalizing packing with
  | nil => exact ⟨(UInt64.add_zero _).symm, (UInt64.add_zero _).symm, .nil⟩
  | cons file files ih =>
      rw [List.map_cons, run_cons] at hgood
      have hnext : Plain (packing.writer.step platform file.call).1 := hplain.step _
      have hfile := good_of_run_good hnext.isOpen hgood
      have hsetup := (step_call_config platform hplain.isOpen file).trans hconfig
      have hpacking := packFile_eq platform packing file
      rw [List.map_cons, ArchiveWriter.records, List.foldl_cons]
      rcases step_call_cases hplain hconfig file hfile with
        ⟨hrefused, hunfit, hnone⟩ | ⟨hok, hfit, record, hone, hpacks⟩
      · rw [if_neg hrefused, if_neg hrefused] at hpacking
        rw [List.filter_cons_of_neg (by simpa using hunfit), hnone, List.nil_append, hpacking]
        obtain ⟨hcount, htotal, hlater⟩ := @ih ⟨_, packing.count, packing.totalBytes⟩ hnext hsetup hgood
        exact ⟨hcount, htotal, hlater⟩
      · rw [if_pos hok, if_pos hok] at hpacking
        rw [List.filter_cons_of_pos (by simpa using hfit), hone, List.singleton_append, hpacking]
        obtain ⟨hcount, htotal, hlater⟩ := @ih ⟨_, packing.count + 1, packing.totalBytes + file.size⟩
          hnext hsetup hgood
        refine ⟨?_, ?_, .cons hpacks hlater⟩
        · rw [hcount, List.length_cons, Nat.add_comm, UInt64.ofNat_add, UInt64.add_assoc]
          rfl
        · rw [htotal, List.map_cons, List.sum_cons, UInt64.add_assoc]

/-! ### A create that succeeds -/

/-- The life of the writer of `create`. -/
def createSession (host : Host) (options : CommandLineOptions) : Session where
  config := writerConfig options
  device := host.device
  openNow := host.openNow
  calls := (hostFiles host options).map HostFile.call
  times := host.times

/-- What a success of `create` stands for. -/
structure Created (platform : Platform) (host : Host) (options : CommandLineOptions)
    (result : CommandResult) (archive : Bytes) : Prop where
  closed : ((createSession host options).closed platform).2 = none
  archive : archive = (createSession host options).archive platform
  count : result.processedCount = UInt64.ofNat (packed host options).length
  totalBytes : result.processedBytes = ((packed host options).map (·.size)).sum
  packs : List.Forall₂ (Packs platform (writerConfig options)) (packed host options)
    ((createSession host options).records platform)

/-- A success of `create` went through every step. -/
theorem steps_of_success {result : CommandResult} {archive : Bytes}
    (hcreate : handleCreate platform host options = (.ok result, some archive))
    (hsuccess : result.success = true) :
    ∃ writer last,
      (ArchiveWriter.new platform (writerConfig options) host.device).openArchive host.openNow
        = (writer, none)
      ∧ ((hostFiles host options).foldl (packFile platform) { writer := writer }).writer.close
          platform host.times = (last, none)
      ∧ result.processedCount
        = ((hostFiles host options).foldl (packFile platform) { writer := writer }).count
      ∧ result.processedBytes
        = ((hostFiles host options).foldl (packFile platform) { writer := writer }).totalBytes
      ∧ archive = last.file.content := by
  unfold handleCreate at hcreate
  split at hcreate
  · cases hcreate
  split at hcreate
  · exact absurd (congrArg Prod.snd hcreate) (by simp)
  next writer hopen =>
    simp only at hcreate
    split at hcreate
    · cases hcreate
      cases hsuccess
    · cases hcreate
    · cases hcreate
    · next last hclose =>
        cases hcreate
        exact ⟨writer, last, hopen, hclose, rfl, rfl, rfl⟩

theorem created_of_success {result : CommandResult} {archive : Bytes}
    (hcreate : handleCreate platform host options = (.ok result, some archive))
    (hsuccess : result.success = true) : Created platform host options result archive := by
  obtain ⟨writer, last, hopen, hclose, hcounted, htotaled, rfl⟩ :=
    steps_of_success hcreate hsuccess
  have hopened : ((createSession host options).opened platform).2 = none :=
    congrArg Prod.snd hopen
  have hwriter : ((createSession host options).opened platform).1 = writer :=
    congrArg Prod.fst hopen
  have hplain : Plain writer := hwriter ▸ Session.opened_plain rfl hopened
  have hconfig : writer.config = writerConfig options :=
    hwriter ▸ (Session.justOpened hopened).config
  rw [foldl_packFile_writer] at hclose
  have hsession : (createSession host options).closed platform = (last, none) := by
    rw [Session.closed, Session.filled, hwriter]
    exact hclose
  have hgood := (ready_of_close (congrArg Prod.snd hclose)).2
  obtain ⟨hcount, htotal, hpacks⟩ :=
    @packed_foldl platform (writerConfig options) { writer := writer } _ hplain hconfig hgood
  refine ⟨congrArg Prod.snd hsession, ?_, ?_, ?_, ?_⟩
  · rw [Session.archive, hsession]
  · exact (hcounted.trans hcount).trans (UInt64.zero_add _)
  · exact (htotaled.trans htotal).trans (UInt64.zero_add _)
  · rw [Session.records, hwriter]
    exact hpacks

namespace Created

variable {result : CommandResult} {archive : Bytes}
  (h : Created platform host options result archive)

include h

theorem opens (readerConfig : ReaderConfig) : ∃ reader,
    ArchiveReader.openArchive platform { config := readerConfig } (some archive) = (reader, none)
      ∧ Reopened platform (createSession host options) readerConfig reader := by
  rw [h.archive]
  exact Session.reopen h.closed readerConfig

theorem length_records : ((createSession host options).records platform).length
    = (packed host options).length := h.packs.length_eq.symm

theorem packs_at {i : Nat} {record : Record}
    (hrecord : ((createSession host options).records platform)[i]? = some record) :
    ∃ file, (packed host options)[i]? = some file
      ∧ Packs platform (writerConfig options) file record := by
  obtain ⟨hi, rfl⟩ := List.getElem?_eq_some_iff.mp hrecord
  have hfile : i < (packed host options).length := h.length_records ▸ hi
  exact ⟨_, List.getElem?_eq_getElem hfile, (List.forall₂_iff_get.mp h.packs).2 i hfile hi⟩

end Created

section

variable {reader : ArchiveReader} {outputDir : String} {outputs : Nat → Output}

/-- What `extractAll` writes for one entry. -/
def writtenFor (platform : Platform) (reader : ArchiveReader) (outputDir : String)
    (outputs : Nat → Output) (entry : ArchiveEntry) (i : Nat) : Option ArchiveReader.Written :=
  match reader.readEntryData platform entry with
  | .ok data =>
      if (outputs i).opens then
        some
          { index := i
            path := outputPath outputDir entry.id
            content := data.take (outputs i).room }
      else none
  | .error _ => none

theorem path_of_writtenFor {entry : ArchiveEntry} {i : Nat} {file : ArchiveReader.Written}
    (h : writtenFor platform reader outputDir outputs entry i = some file) :
    file.path = outputPath outputDir entry.id := by
  unfold writtenFor at h
  split at h
  · split at h
    · cases h
      rfl
    · cases h
  · cases h

/-- The loop over entries that all lie in the file. -/
theorem extractLoop_eq {entries : List ArchiveEntry}
    (hinside : ∀ entry ∈ entries, entry.offset.toNat + entry.storedSize.toNat
      ≤ reader.archiveData.length) (i : Nat) (written : List ArchiveReader.Written) :
    reader.extractLoop platform outputDir outputs entries i written
      = (none, written ++ (entries.zipIdx i).filterMap fun entry =>
          writtenFor platform reader outputDir outputs entry.1 entry.2) := by
  induction entries generalizing i written with
  | nil => simp [extractLoop]
  | cons entry entries ih =>
      have hrest := fun other hother => hinside other (List.mem_cons_of_mem _ hother)
      rw [extractLoop, List.zipIdx_cons, List.filterMap_cons]
      rcases readEntryData_returns platform entry (hinside entry List.mem_cons_self) with
        ⟨data, hdata⟩ | ⟨e, hfailed⟩
      · have hone : writtenFor platform reader outputDir outputs entry i
            = if (outputs i).opens then
                some ⟨i, outputPath outputDir entry.id, data.take (outputs i).room⟩
              else none := by
          rw [writtenFor, hdata]
        rw [hdata, hone]
        simp only
        rw [ih hrest]
        split
        · rw [List.append_assoc]
          rfl
        · rfl
      · have hnone : writtenFor platform reader outputDir outputs entry i = none := by
          rw [writtenFor, hfailed]
        rw [hfailed, hnone]
        exact ih hrest _ _

/-- Entries with different ids are written to different files. -/
theorem fileAt_writtenFor {entries : List ArchiveEntry} (hids : (entries.map (·.id)).Nodup) {i : Nat}
    {entry : ArchiveEntry} (hentry : entries[i]? = some entry) :
    fileAt (entries.zipIdx.filterMap fun entry =>
        writtenFor platform reader outputDir outputs entry.1 entry.2) (outputPath outputDir entry.id)
      = (writtenFor platform reader outputDir outputs entry i).map (·.content) := by
  have hmem {file : ArchiveReader.Written} (hfile : file ∈ entries.zipIdx.filterMap fun entry =>
      writtenFor platform reader outputDir outputs entry.1 entry.2)
      (hpath : file.path = outputPath outputDir entry.id) :
      writtenFor platform reader outputDir outputs entry i = some file := by
    obtain ⟨⟨other, j⟩, hother, hfor⟩ := List.mem_filterMap.mp hfile
    have hat : entries[j]? = some other := by simpa [List.mem_zipIdx_iff_getElem?] using hother
    have hsame : other.id = entry.id := outputPath_inj ((path_of_writtenFor hfor).symm.trans hpath)
    have hi : i < (entries.map (·.id)).length := by
      rw [List.length_map]
      exact (List.getElem?_eq_some_iff.mp hentry).1
    obtain rfl : i = j := by
      refine (List.getElem?_inj hi hids).mp ?_
      rw [List.getElem?_map, List.getElem?_map, hentry, hat, Option.map_some, Option.map_some, hsame]
    obtain rfl : entry = other := Option.some.inj (hentry.symm.trans hat)
    exact hfor
  cases hfor : writtenFor platform reader outputDir outputs entry i with
  | none =>
      by_contra hfound
      obtain ⟨content, hcontent⟩ := Option.ne_none_iff_exists'.mp hfound
      obtain ⟨file, hfile, hpath, -⟩ := mem_of_fileAt hcontent
      rw [hmem hfile hpath] at hfor
      cases hfor
  | some file =>
      have hfile : file ∈ entries.zipIdx.filterMap fun entry =>
          writtenFor platform reader outputDir outputs entry.1 entry.2 :=
        List.mem_filterMap.mpr ⟨(entry, i), by simpa [List.mem_zipIdx_iff_getElem?] using hentry, hfor⟩
      obtain ⟨content, hcontent⟩ := exists_fileAt hfile
      rw [path_of_writtenFor hfor] at hcontent
      obtain ⟨last, hlast, hpath, rfl⟩ := mem_of_fileAt hcontent
      obtain rfl : last = file := Option.some.inj ((hmem hlast hpath).symm.trans hfor)
      exact hcontent

end

/-- What `extract` restores of a file that `create` packed, given what becomes of the output. -/
def extractedBytes (platform : Platform) (config : WriterConfig) (data : Bytes) (output : Output) :
    Option Bytes :=
  if output.opens then
    ((restored platform (openFlags config) (packedBytes platform config data)).filter fun found =>
      ChecksumEngine.compute platform found = ChecksumEngine.compute platform data).map
        (·.take output.room)
  else none

theorem writtenFor_eq_extractedBytes {session : Session} {reader : ArchiveReader} {outputDir : String}
    {outputs : Nat → Output} (hreader : Reopened platform session {} reader)
    (hconfig : (session.configured platform).config = config) {record : Record}
    (hrecord : record ∈ session.records platform) (hdata : record.isDirectory = false)
    (hstored : record.stored = packedBytes platform config record.data) (i : Nat) :
    (writtenFor platform reader outputDir outputs
        (ofIndexEntry (IndexManager.toIndexEntry record.entry)) i).map (·.content)
      = extractedBytes platform config record.data (outputs i) := by
  have hsame : IndexManager.toIndexEntry (ofIndexEntry (IndexManager.toIndexEntry record.entry))
      = IndexManager.toIndexEntry record.entry := rfl
  have hread := hreader.readEntryData_iff hrecord hdata hsame
  rw [hconfig, hstored] at hread
  rw [writtenFor, extractedBytes]
  cases hresult : reader.readEntryData platform
      (ofIndexEntry (IndexManager.toIndexEntry record.entry)) with
  | ok found =>
      obtain ⟨hrestored, hsum⟩ := (hread found).mp hresult
      rw [hrestored, Option.filter_some_pos (by simpa using hsum rfl)]
      simp only
      split
      · rfl
      · rfl
  | error fault =>
      cases hrestored : restored platform (openFlags config)
          (packedBytes platform config record.data) with
      | none => exact (ite_self none).symm
      | some found =>
          have hsum : ¬ ChecksumEngine.compute platform found
              = ChecksumEngine.compute platform record.data := by
            intro hsum
            have hok := (hread found).mpr ⟨hrestored, fun _ => hsum⟩
            rw [hresult] at hok
            cases hok
          rw [Option.filter_some_neg (by simpa using hsum)]
          exact (ite_self none).symm

theorem listed_eq {session : Session} {reader : ArchiveReader} {readerConfig : ReaderConfig}
    (hreader : Reopened platform session readerConfig reader) :
    reader.indexManager.entries.map ofIndexEntry
      = (session.records platform).map fun record =>
        ofIndexEntry (IndexManager.toIndexEntry record.entry) := by
  rw [hreader.entries, List.map_map]
  rfl

/-- What extracting an archive of `create` leaves behind. -/
structure Extracts (platform : Platform) (config : WriterConfig) (kept : List HostFile)
    (outputDir : String) (outputs : Nat → Output) (written : List ArchiveReader.Written) : Prop where
  named : ∀ file ∈ written, ∃ i < kept.length,
    file.path = outputPath outputDir (UInt64.ofNat (i + 1))
  contents : ∀ i file data, kept[i]? = some file → file.content = some data →
    fileAt written (outputPath outputDir (UInt64.ofNat (i + 1)))
      = extractedBytes platform config data (outputs i)

namespace Created

variable {result : CommandResult} {archive : Bytes}
  (h : Created platform host options result archive)

include h

/-- The stored bytes of every entry lie in the file, since no entry is a directory. -/
theorem entries_inside {reader : ArchiveReader}
    (hreader : Reopened platform (createSession host options) {} reader) :
    ∀ entry ∈ reader.indexManager.entries.map ofIndexEntry,
      entry.offset.toNat + entry.storedSize.toNat ≤ reader.archiveData.length := by
  intro entry hentry
  rw [listed_eq hreader] at hentry
  obtain ⟨record, hrecord, rfl⟩ := List.mem_map.mp hentry
  obtain ⟨i, hi⟩ := List.mem_iff_getElem?.mp hrecord
  obtain ⟨file, -, hpacks⟩ := h.packs_at hi
  have hheld := hreader.held record hrecord hpacks.isData
  have hsize : (ofIndexEntry (IndexManager.toIndexEntry record.entry)).storedSize.toNat
      = record.stored.length := hheld.size
  rw [hreader.archiveData, hsize]
  exact hheld.inside

theorem extracts_written {reader : ArchiveReader}
    (hreader : Reopened platform (createSession host options) {} reader) (outputDir : String)
    (outputs : Nat → Output) :
    Extracts platform (writerConfig options) (packed host options) outputDir outputs
      ((reader.indexManager.entries.map ofIndexEntry).zipIdx.filterMap fun entry =>
        writtenFor platform reader outputDir outputs entry.1 entry.2) where
  named := by
    intro file hfile
    obtain ⟨⟨entry, i⟩, hentry, hfor⟩ := List.mem_filterMap.mp hfile
    rw [List.mem_zipIdx_iff_getElem?, listed_eq hreader, List.getElem?_map] at hentry
    obtain ⟨record, hrecord, rfl⟩ := Option.map_eq_some_iff.mp hentry
    have hi : i < (packed host options).length :=
      h.length_records ▸ (List.getElem?_eq_some_iff.mp hrecord).1
    refine ⟨i, hi, ?_⟩
    rw [path_of_writtenFor hfor, ← (hreader.id_eq hrecord).1]
    rfl
  contents := by
    intro i file data hfile hcontent
    have hi : i < ((createSession host options).records platform).length :=
      h.length_records ▸ (List.getElem?_eq_some_iff.mp hfile).1
    have hrecord := List.getElem?_eq_getElem hi
    obtain ⟨other, hother, hpacks⟩ := h.packs_at hrecord
    obtain rfl : other = file := Option.some.inj (hother.symm.trans hfile)
    obtain rfl := Option.some.inj (hpacks.content.symm.trans hcontent)
    have hentry : (reader.indexManager.entries.map ofIndexEntry)[i]?
        = some (ofIndexEntry (IndexManager.toIndexEntry
          ((createSession host options).records platform)[i].entry)) := by
      rw [listed_eq hreader, List.getElem?_map, hrecord]
      rfl
    have hids : ((reader.indexManager.entries.map ofIndexEntry).map (·.id)).Nodup := by
      rw [List.map_map]
      exact hreader.nodup_ids
    rw [← (hreader.id_eq hrecord).1]
    exact (fileAt_writtenFor hids hentry).trans
      (writtenFor_eq_extractedBytes hreader rfl (List.getElem_mem hi) hpacks.isData hpacks.stored i)

theorem extracts {reader : ArchiveReader}
    (hreader : Reopened platform (createSession host options) {} reader) (outputDir : String)
    (outputs : Nat → Output) :
    ∃ written, reader.extractAll platform outputDir true outputs = some (none, written)
      ∧ Extracts platform (writerConfig options) (packed host options) outputDir outputs written := by
  have hresult := extractAll_eq platform outputDir outputs hreader.isOpen
  rw [extractLoop_eq (h.entries_inside hreader), List.nil_append] at hresult
  exact ⟨_, hresult, h.extracts_written hreader outputDir outputs⟩

end Created

/-- A file of three bytes, and a directory with an empty file and one that cannot be read. -/
def smallHost : Host where
  node
    | [0x66] => .regular { path := [0x66], size := 3, content := some [1, 2, 3] }
    | [0x64] =>
        .directory [{ path := [0x64, 0x2F, 0x67], size := 0, content := some [] },
          { path := [0x64, 0x2F, 0x78], size := 9, content := none }]
    | _ => .other
  device := .ample

def smallCreate : CommandLineOptions :=
  { command := .create
    archivePath := [0x61]
    inputFiles := [[0x66], [0x64], [0x65]]
    compressionType := text "zstd" }

def smallRead : CommandLineOptions := { archivePath := [0x61] }

theorem handleCreate_smallHost : ∃ archive,
    handleCreate Platform.reference smallHost smallCreate
      = (.ok { message := "Archive created successfully: a (2 entries, 3 bytes)"
               processedCount := 2
               processedBytes := 3 }, some archive) := by
  have hresult : (handleCreate Platform.reference smallHost smallCreate).1
      = .ok { message := "Archive created successfully: a (2 entries, 3 bytes)"
              processedCount := 2
              processedBytes := 3 } := by
    decide +kernel
  have hfile : (handleCreate Platform.reference smallHost smallCreate).2.isSome = true := by
    decide +kernel
  obtain ⟨archive, harchive⟩ := Option.isSome_iff_exists.mp hfile
  exact ⟨archive, Prod.ext hresult harchive⟩

/-- Data that `create` stores as it is, or as a frame of the library that the reader has. -/
def Keeps (platform : Platform) (config : WriterConfig) (data : Bytes) : Prop :=
  data = [] ∨ config.compression = .none
    ∨ config.compression = .zstd ∧ (platform.zstd.compressCCtx data
      (platform.zstd.compressBound data.length) config.compressionLevel).isSome = true

instance (platform : Platform) (config : WriterConfig) (data : Bytes) :
    Decidable (Keeps platform config data) :=
  inferInstanceAs (Decidable (_ ∨ _ ∨ _ ∧ _))

theorem restored_packedBytes (hzstd : platform.zstd.Lossless) {data : Bytes}
    (hkeeps : Keeps platform config data) :
    restored platform (openFlags config) (packedBytes platform config data) = some data := by
  by_cases hempty : data = []
  · rw [packedBytes, compressStage, if_neg fun h => h.2 hempty, hempty, restored_nil]
  · rcases hkeeps.resolve_left hempty with hnone | ⟨hcodec, hframe⟩
    · rw [packedBytes, compressStage, if_neg fun h => h.1 hnone,
        restored_of_not_compressed ((openFlags_compressed_iff config).not.mpr (not_not.mpr hnone))]
    · obtain ⟨frame, hframe⟩ := Option.isSome_iff_exists.mp hframe
      have hstored : packedBytes platform config data = frame := by
        have hcompress : (ArchiveWriter.new platform config .ample).compression.compress platform data
            = CompressionEngine.compressed data (some frame) := by
          rw [← hframe, CompressionEngine.compress, ArchiveWriter.new, hcodec]
          rfl
        rw [packedBytes, compressStage, if_pos ⟨by simp [ArchiveWriter.new, hcodec], hempty⟩,
          hcompress]
        rfl
      rw [hstored]
      exact restored_frame ((openFlags_compressed_iff config).mpr (by simp [hcodec])) hzstd hempty
        hframe

/-- **Files through an archive.** What `extract` leaves of an archive of `create` are files under the
numbers of those that were packed, each with what its stored bytes are restored to if the sum is right;
where the codec is Zstandard or none that is the file, cut to the room there is for it. -/
theorem extract_create {result : CommandResult} {archive : Bytes}
    (hcreate : handleCreate platform host options = (.ok result, some archive))
    (hsuccess : result.success = true) (hpath : other.archivePath ≠ []) (outputs : Nat → Output) :
    ∃ report written,
      handleExtract platform (some archive) true outputs other = some (.ok report, written)
      ∧ Extracts platform (writerConfig options) (packed host options) (destDir other) outputs written
      ∧ (platform.zstd.Lossless → ∀ i file data, (packed host options)[i]? = some file →
        file.content = some data → Keeps platform (writerConfig options) data →
        (outputs i).opens = true →
        fileAt written (outputPath (destDir other) (UInt64.ofNat (i + 1)))
          = some (data.take (outputs i).room)) := by
  have h := created_of_success hcreate hsuccess
  obtain ⟨reader, hopen, hreader⟩ := h.opens {}
  obtain ⟨written, hextract, hextracts⟩ := h.extracts hreader (destDir other) outputs
  refine ⟨{ message := "Extracted " ++ toString reader.entryCount.toNat ++ " files to " ++ destDir other
            processedCount := reader.entryCount }, written, ?_, hextracts, ?_⟩
  · rw [handleExtract, if_neg hpath, hopen]
    simp [hextract]
  · intro hzstd i file data hfile hcontent hkeeps hopens
    rw [hextracts.contents i file data hfile hcontent, extractedBytes, if_pos hopens,
      restored_packedBytes hzstd hkeeps, Option.filter_some_pos (by simp)]
    rfl

theorem extract_create_smallHost : ∃ result archive report written,
    handleCreate Platform.reference smallHost smallCreate = (.ok result, some archive)
      ∧ handleExtract Platform.reference (some archive) true (fun _ => ⟨true, 8⟩) smallRead
        = some (.ok report, written)
      ∧ fileAt written (outputPath "." 1) = some [1, 2, 3]
      ∧ fileAt written (outputPath "." 2) = some [] := by
  obtain ⟨archive, hcreate⟩ := handleCreate_smallHost
  have hpath : smallRead.archivePath ≠ [] := by decide
  obtain ⟨report, written, hextract, -, hback⟩ :=
    extract_create hcreate rfl hpath fun _ => ⟨true, 8⟩
  have hlossless := Platform.reference_lossless
  exact ⟨_, archive, report, written, hcreate, hextract,
    hback hlossless 0 _ [1, 2, 3] rfl rfl (by decide +kernel) rfl,
    hback hlossless 1 _ [] rfl rfl (by decide +kernel) rfl⟩

end NebulaFS
