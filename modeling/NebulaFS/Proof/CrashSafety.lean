import NebulaFS.Proof.ArchiveRoundTrip

/-!
# What a crash leaves

A crash leaves the file that a first part of the writes makes. The header is the last write of
`close`, and nothing before it touches the first 158 bytes, so until that write is out they are zeros
or missing and the reader refuses the file. The journal does not help: it is written in `close` too,
before the header, and `recover` does not read it. An entry that was added is lost, therefore, unless
the crash comes after the last write of a `close` that succeeds (`crashSafe_bounds`); and a directory
is lost to a reader that compares checksums even then.
-/

namespace NebulaFS

open Cursor SparseFile ArchiveHeader ArchiveWriter

/-! ### Before the header is written -/

/-- No write has touched the place of the header, and the next one will not either. -/
structure Headless (file : OFStream) : Prop where
  above : ∀ write ∈ file.writes, headerSize ≤ write.pos
  pos : headerSize ≤ file.pos

theorem Headless.write {file : OFStream} (h : Headless file) (data : Bytes) :
    Headless (file.write data) := by
  unfold OFStream.write
  split
  · refine ⟨?_, Nat.le_trans h.pos (Nat.le_add_right _ _)⟩
    intro write hwrite
    rcases List.mem_append.mp hwrite with hold | hnew
    · exact h.above write hold
    · rw [List.mem_singleton.mp hnew]
      exact h.pos
  · exact ⟨h.above, h.pos⟩

theorem openArchive_of_above {writes : List SparseFile.Write}
    (h : ∀ write ∈ writes, headerSize ≤ write.pos) (platform : Platform) (config : ReaderConfig) :
    (ArchiveReader.openArchive platform { config := config } (some (replay writes))).2 ≠ none := by
  have hzero := take_replay_eq_zero h
  generalize replay writes = content at hzero
  have hparse : ∃ e, Parser.parse platform false content = .error (.returned e) := by
    rw [Parser.parse]
    by_cases hshort : content.length < headerSize
    · rw [if_pos hshort]
      exact ⟨_, rfl⟩
    · have hmagic : (ofBytes content (Nat.not_lt.mp hshort)).isValid ≠ true := by
        intro hvalid
        rw [isValid, Bool.and_eq_true, isValidMagic, decide_eq_true_eq] at hvalid
        have hbytes : content.take 4 = archiveMagic.toList := congrArg List.Vector.toList hvalid.1
        have hletter : (0x4E : UInt8) ∈ content.take 4 := by
          rw [hbytes]
          decide
        have hhead : content.take 4 <+: content.take headerSize :=
          List.take_prefix_take_left (by decide)
        exact absurd (hzero _ (hhead.subset hletter)) (by decide)
      have hheader : ∃ e, Parser.parseHeader platform content = .error (.returned e) := by
        rw [Parser.parseHeader, ArchiveHeader.parse, dif_neg hshort]
        simp only
        rw [if_pos hmagic]
        exact ⟨_, rfl⟩
      obtain ⟨e, hheader⟩ := hheader
      rw [if_neg hshort, hheader]
      exact ⟨e, rfl⟩
  obtain ⟨e, hparse⟩ := hparse
  unfold ArchiveReader.openArchive ArchiveReader.parseArchive
  simp only [hparse]
  exact Option.some_ne_none _

namespace ArchiveWriter

theorem headless_writeSection {writer : ArchiveWriter} (h : Headless writer.file)
    (note : ArchiveHeader → UInt64 → UInt64 → ArchiveHeader) (data : Bytes) :
    Headless (writer.writeSection note data).1.file := by
  unfold writeSection
  simp only
  split
  · exact h.write data
  · exact h.write data

theorem headless_andThen {result : ArchiveWriter × Status}
    {next : ArchiveWriter → ArchiveWriter × Status} (h : Headless result.1.file)
    (hnext : ∀ {writer}, Headless writer.file → Headless (next writer).1.file) :
    Headless (andThen result next).1.file := by
  obtain ⟨writer, status⟩ := result
  cases status with
  | none => exact hnext h
  | some e => exact h

theorem headless_writeJournalSection {writer : ArchiveWriter} (h : Headless writer.file)
    (now : Timestamp) : Headless (writer.writeJournalSection now).1.file := by
  unfold writeJournalSection
  cases writer.journal with
  | none => exact h
  | some journal =>
      have hsame : Headless { writer with journal := some (journal.endCheckpoint now).1 }.file := h
      exact headless_writeSection hsame _ _

/-- The writes of a call of `close`: nothing in the place of the header, or a success whose last write
is the header. -/
def HeaderLast (result : ArchiveWriter × Status) : Prop :=
  (∀ write ∈ result.1.file.writes, headerSize ≤ write.pos)
    ∨ (result.2 = none ∧ ∃ before header, result.1.file.writes = before ++ [header]
      ∧ ∀ write ∈ before, headerSize ≤ write.pos)

theorem headerLast_writeHeader (platform : Platform) {writer : ArchiveWriter}
    (h : Headless writer.file) : HeaderLast (writer.writeHeader platform) := by
  have hseek : (writer.file.seekp 0).writes = writer.file.writes := by
    unfold OFStream.seekp
    split <;> rfl
  unfold writeHeader HeaderLast
  simp only
  by_cases hgood : ((writer.file.seekp 0).write
      (writer.header.updateChecksum platform).serialize).good = true
  · rw [if_neg (not_not.mpr hgood)]
    simp only
    rw [(OFStream.write_of_good hgood).2.2]
    exact .inr ⟨trivial, writer.file.writes, _, by rw [hseek], h.above⟩
  · rw [if_pos hgood]
    refine .inl ?_
    unfold OFStream.write at hgood ⊢
    split
    · rename_i hcond
      rw [if_pos hcond] at hgood
      exact absurd hcond.1 hgood
    · simp only
      rw [hseek]
      exact h.above

theorem headerLast_andThen (platform : Platform) {result : ArchiveWriter × Status}
    (h : Headless result.1.file) :
    HeaderLast (andThen result fun writer => writer.sized.writeHeader platform) := by
  obtain ⟨last, status⟩ := result
  cases status with
  | none =>
      have hsized : Headless last.sized.file := h
      exact headerLast_writeHeader platform hsized
  | some e => exact .inl h.above

theorem headerLast_finalizeArchive (platform : Platform) (times : CloseTimes)
    {writer : ArchiveWriter} (h : Headless writer.file) :
    HeaderLast (writer.finalizeArchive platform times) := by
  have hstart : Headless (writer.committed times).file := h
  have hsections : Headless (andThen (andThen (andThen (andThen (andThen
      (writer.committed times).writeMetadataSection writeDirectorySection) writeIndexSection)
      writeChunkSection) writeBlocksSection) (writeJournalSection times.journalNow)).1.file := by
    refine headless_andThen (headless_andThen (headless_andThen (headless_andThen
      (headless_andThen (headless_writeSection hstart _ _) ?_) ?_) ?_) ?_) ?_
    · exact fun h => headless_writeSection h _ _
    · exact fun h => headless_writeSection h _ _
    · exact fun h => headless_writeSection h _ _
    · exact fun h => h
    · exact fun h => headless_writeJournalSection h _
  exact headerLast_andThen platform hsections

theorem headerLast_close (platform : Platform) (times : CloseTimes) {writer : ArchiveWriter}
    (h : Headless writer.file) : HeaderLast (writer.close platform times) := by
  unfold close
  split
  · exact .inl h.above
  · have hfinal := headerLast_finalizeArchive platform times h
    rcases hresult : writer.finalizeArchive platform times with ⟨last, _ | e⟩
    · rw [hresult] at hfinal
      exact hfinal
    · rw [hresult] at hfinal
      exact hfinal

/-! ### Runs -/

variable {platform : Platform} {writer : ArchiveWriter}

theorem headless_run (hopen : writer.isOpen = true) (h : Headless writer.file)
    (calls : List Call) : Headless (writer.run platform calls).file := by
  induction calls generalizing writer with
  | nil => exact h
  | cons call calls ih =>
      rw [run_cons]
      refine ih ((sameSetup_step platform writer call).isOpen.trans hopen) ?_
      rw [step_file platform hopen]
      cases call.payload with
      | none => exact h
      | some payload => exact h.write _

theorem records_append (platform : Platform) (writer : ArchiveWriter) (first second : List Call) :
    writer.records platform (first ++ second)
      = writer.records platform first ++ (writer.run platform first).records platform second := by
  induction first generalizing writer with
  | nil => rfl
  | cons call first ih =>
      rw [List.cons_append, records, records, ih, run_cons, List.append_assoc]

end ArchiveWriter

/-! ### Crashes -/

/-- `ArchiveReader::open`, and `recover` when `needsRecovery` says so. -/
def openAndRecover (platform : Platform) (config : ReaderConfig) (content : Bytes) :
    ArchiveReader × Status :=
  match ArchiveReader.openArchive platform { config := config } (some content) with
  | (reader, some e) => (reader, some e)
  | (reader, none) => if reader.needsRecovery then (reader, reader.recover) else (reader, none)

namespace Session

section

variable (platform : Platform) (session : Session)

def writes : List SparseFile.Write := (session.closed platform).1.file.writes

/-- The file a crash after `k` writes leaves. -/
def onDisk (k : Nat) : Bytes := replay ((session.writes platform).take k)

/-- The first `m` calls have returned before a crash after `k` writes. -/
def Returned (m k : Nat) : Prop :=
  ((session.opened platform).1.run platform (session.calls.take m)).file.writes.length ≤ k

def addedBy (m : Nat) : List Record :=
  (session.opened platform).1.records platform (session.calls.take m)

/-- Every entry that the first `m` calls added can be extracted from the file that a crash after `k`
writes leaves. -/
def CrashSafe (config : ReaderConfig) (m k : Nat) : Prop :=
  ∀ record ∈ session.addedBy platform m,
    ∃ reader, openAndRecover platform config (session.onDisk platform k) = (reader, none)
      ∧ reader.extractEntryById platform record.entry.id = .ok record.data

end

variable {platform : Platform} {session : Session}

theorem openFlags_not_recovery (config : WriterConfig) :
    openFlags config &&& HeaderFlags.recovery = 0 := by
  unfold openFlags
  cases config.enableJournal <;> cases config.enableDedup <;>
    by_cases hcompression : config.compression = .none <;>
    by_cases hencryption : config.encryption = .none <;>
    simp [hcompression, hencryption] <;> decide

theorem opened_headless (hopened : (session.opened platform).2 = none) :
    Headless (session.opened platform).1.file := by
  have hfile : Written (session.opened platform).1.file [] :=
    ((configured_fresh platform session).openArchive platform hopened).file
  exact ⟨hfile.above, by rw [hfile.pos]; omega⟩

theorem openAndRecover_of_early (hopened : (session.opened platform).2 = none)
    (config : ReaderConfig) {k : Nat}
    (hearly : ¬ ((session.closed platform).2 = none ∧ (session.writes platform).length ≤ k)) :
    (openAndRecover platform config (session.onDisk platform k)).2 ≠ none := by
  have hfilled : Headless (session.filled platform).file :=
    headless_run (justOpened hopened).isOpen (opened_headless hopened) session.calls
  have habove : ∀ write ∈ (session.writes platform).take k, headerSize ≤ write.pos := by
    rcases headerLast_close platform session.times hfilled with
      hall | ⟨hok, before, header, hwrites, hbefore⟩
    · exact fun write hwrite => hall write (List.mem_of_mem_take hwrite)
    · have hsplit : session.writes platform = before ++ [header] := hwrites
      have hshort : k ≤ before.length := by
        have hlength := congrArg List.length hsplit
        rw [List.length_append, List.length_singleton] at hlength
        have hlong : ¬ (session.writes platform).length ≤ k := fun hk => hearly ⟨hok, hk⟩
        omega
      rw [hsplit, List.take_append_of_le_length hshort]
      exact fun write hwrite => hbefore write (List.mem_of_mem_take hwrite)
  have hrefused := openArchive_of_above habove platform config
  unfold openAndRecover onDisk
  rcases hopen : ArchiveReader.openArchive platform { config := config }
    (some (replay ((session.writes platform).take k))) with ⟨reader, _ | e⟩
  · rw [hopen] at hrefused
    exact absurd rfl hrefused
  · exact Option.some_ne_none e

theorem onDisk_of_all {k : Nat} (hk : (session.writes platform).length ≤ k) :
    session.onDisk platform k = session.archive platform := by
  rw [onDisk, List.take_of_length_le hk]
  rfl

theorem mem_records_of_addedBy {m : Nat} {record : Record}
    (h : record ∈ session.addedBy platform m) : record ∈ session.records platform := by
  have hsplit := records_append platform (session.opened platform).1 (session.calls.take m)
    (session.calls.drop m)
  rw [List.take_append_drop] at hsplit
  rw [records, hsplit]
  exact List.mem_append_left _ h

/-- After the last write the reader is that of the closed archive, and has nothing to recover. -/
theorem openAndRecover_of_all (hclosed : (session.closed platform).2 = none) (config : ReaderConfig)
    {k : Nat} (hk : (session.writes platform).length ≤ k) :
    ∃ reader, openAndRecover platform config (session.onDisk platform k) = (reader, none)
      ∧ Reopened platform session config reader := by
  obtain ⟨reader, hopen, h⟩ := reopen hclosed config
  have hneeds : reader.needsRecovery = false := by
    rw [ArchiveReader.needsRecovery, h.flags, openFlags_not_recovery]
    decide
  refine ⟨reader, ?_, h⟩
  rw [openAndRecover, onDisk_of_all hk, hopen]
  simp [hneeds]

theorem crashSafe_of_closed (hencryption : session.config.encryption = .none)
    (hzstd : platform.zstd.Lossless) {config : ReaderConfig} {m k : Nat}
    (hfits : (session.opened platform).1.Along platform
      (Extractable platform config (session.configured platform).config.compression)
      (session.calls.take m))
    (hclosed : (session.closed platform).2 = none) (hk : (session.writes platform).length ≤ k) :
    session.CrashSafe platform config m k := by
  intro record hadded
  obtain ⟨reader, hopen, h⟩ := openAndRecover_of_all hclosed config hk
  obtain ⟨hdata, hdirectory⟩ :=
    restored_of_extractable hencryption hzstd (opened_of_closed hclosed) hfits record hadded
  exact ⟨reader, hopen,
    h.extractEntryById_of_restored (mem_records_of_addedBy hadded) hdata hdirectory⟩

/-- What is needed to survive a crash: the writes of a successful `close` are all out, and a directory
that was added is accepted by the reader. -/
theorem closed_of_crashSafe (hopened : (session.opened platform).2 = none) {config : ReaderConfig}
    {m k : Nat} (hsafe : session.CrashSafe platform config m k) {record : Record}
    (hrecord : record ∈ session.addedBy platform m) :
    (session.closed platform).2 = none ∧ (session.writes platform).length ≤ k
      ∧ (record.isDirectory = true → AcceptsDirectories platform config) := by
  obtain ⟨reader, hopen, hextract⟩ := hsafe record hrecord
  obtain ⟨hclosed, hk⟩ : (session.closed platform).2 = none
      ∧ (session.writes platform).length ≤ k := by
    by_contra hearly
    exact openAndRecover_of_early hopened config hearly (congrArg Prod.snd hopen)
  refine ⟨hclosed, hk, fun hdirectory => ?_⟩
  obtain ⟨other, hother, h⟩ := openAndRecover_of_all hclosed config hk
  obtain rfl : reader = other := congrArg Prod.fst (hopen.symm.trans hother)
  obtain ⟨i, hi⟩ := List.mem_iff_getElem?.mp (mem_records_of_addedBy hrecord)
  exact ((h.extractEntryById_directory_iff hi hdirectory _).mp hextract).2

/-- **When a crash is survived.** Only if none of the calls that had returned added an entry, or the
crash comes after the last write of a `close` that succeeds and the reader accepts the directories
that were added. That is enough if nothing is encrypted and the codecs fit. -/
theorem crashSafe_bounds (hopened : (session.opened platform).2 = none) (config : ReaderConfig)
    (m k : Nat) :
    (session.CrashSafe platform config m k →
      session.addedBy platform m = []
        ∨ ((session.closed platform).2 = none ∧ (session.writes platform).length ≤ k
          ∧ ((∃ record ∈ session.addedBy platform m, record.isDirectory = true) →
            AcceptsDirectories platform config)))
    ∧ (session.addedBy platform m = []
        ∨ ((session.closed platform).2 = none ∧ (session.writes platform).length ≤ k
          ∧ session.config.encryption = .none ∧ platform.zstd.Lossless
          ∧ (session.opened platform).1.Along platform
            (Extractable platform config (session.configured platform).config.compression)
            (session.calls.take m)) →
      session.CrashSafe platform config m k) := by
  constructor
  · intro hsafe
    refine or_iff_not_imp_left.mpr fun hsome => ?_
    obtain ⟨first, hfirst⟩ := List.exists_mem_of_ne_nil _ hsome
    obtain ⟨hclosed, hk, -⟩ := closed_of_crashSafe hopened hsafe hfirst
    refine ⟨hclosed, hk, ?_⟩
    rintro ⟨record, hrecord, hdirectory⟩
    exact (closed_of_crashSafe hopened hsafe hrecord).2.2 hdirectory
  · rintro (hnone | ⟨hclosed, hk, hencryption, hzstd, hfits⟩)
    · intro record hrecord
      rw [hnone] at hrecord
      cases hrecord
    · exact crashSafe_of_closed hencryption hzstd hfits hclosed hk

def oneBlob : Session where
  config := {}
  device := .ample
  calls := [.addBlob .plain [0x61, 0x62, 0x63] [0x61] 0]

theorem crashSafe_bounds_oneBlob :
    oneBlob.config.enableJournal = true ∧ oneBlob.Returned Platform.reference 1 7
      ∧ oneBlob.CrashSafe Platform.reference {} 1 7 :=
  ⟨rfl, by unfold Returned; decide +kernel, (crashSafe_bounds (by decide +kernel) {} 1 7).2
    (.inr ⟨by decide +kernel, by decide +kernel, rfl, Platform.reference_lossless,
      by decide +kernel⟩)⟩

/-- The add has returned and its bytes are out, and a crash before `close` loses the blob. -/
theorem not_crashSafe_oneBlob :
    oneBlob.config.enableJournal = true
      ∧ (oneBlob.opened Platform.reference).1.Along Platform.reference
        (Succeeds Platform.reference) oneBlob.calls
      ∧ oneBlob.Returned Platform.reference 1 1
      ∧ ¬ oneBlob.CrashSafe Platform.reference {} 1 1 := by
  have hopened : (oneBlob.opened Platform.reference).2 = none := by decide +kernel
  have hone : (oneBlob.addedBy Platform.reference 1).map (·.isDirectory) = [false] := by
    decide +kernel
  have hlong : ¬ (oneBlob.writes Platform.reference).length ≤ 1 := by decide +kernel
  refine ⟨rfl, by decide +kernel, by unfold Returned; decide +kernel, ?_⟩
  intro hsafe
  obtain ⟨record, hrecords, -⟩ := List.map_eq_singleton_iff.mp hone
  obtain ⟨reader, hopen, -⟩ := hsafe record (by rw [hrecords]; exact List.mem_singleton_self _)
  exact openAndRecover_of_early hopened {} (fun hboth => hlong hboth.2) (congrArg Prod.snd hopen)

end Session

end NebulaFS
