import NebulaFS.Proof.EntryLookup
import NebulaFS.Proof.StoredBytes
import Mathlib.Data.List.DropRight

/-!
# The three counts of entries

The writer counts its entries, the index holds them, and the header has a count of its own, which is
what the reader reports. A call either takes an entry into the first two or changes none of them
(`step_takes`), and only an entry with data is noted in the header. So the header is behind by the
directories that were added last (`Grown.noted`), and the counts agree exactly when the last add that
was accepted is not one of a directory (`entryCounts_agree_iff`).
-/

namespace NebulaFS

open ArchiveHeader DirectoryTree

namespace ArchiveWriter

variable {platform : Platform} {writer : ArchiveWriter}

/-! ### What a call changes in the tables -/

def journalEntries (writer : ArchiveWriter) : List JournalEntry :=
  (writer.journal.map (·.entries)).getD []

/-- The tables are as they were; the journal may have grown. -/
structure Kept (writer after : ArchiveWriter) : Prop where
  count : after.entryCount = writer.entryCount
  index : after.indexManager.entries = writer.indexManager.entries
  tree : after.directoryTree = writer.directoryTree
  chunks : after.chunkManager = writer.chunkManager
  noted : after.header.entryCount = writer.header.entryCount
  valid : after.header.isValid = writer.header.isValid
  journaled : after.journal.isSome = writer.journal.isSome
  journal : writer.journalEntries <+: after.journalEntries

theorem Kept.refl (writer : ArchiveWriter) : Kept writer writer :=
  ⟨rfl, rfl, rfl, rfl, rfl, rfl, rfl, List.prefix_rfl⟩

theorem Kept.trans {first second third : ArchiveWriter} (h : Kept first second)
    (h' : Kept second third) : Kept first third :=
  ⟨h'.count.trans h.count, h'.index.trans h.index, h'.tree.trans h.tree, h'.chunks.trans h.chunks,
    h'.noted.trans h.noted, h'.valid.trans h.valid, h'.journaled.trans h.journaled,
    h.journal.trans h'.journal⟩

/-- The entry of a record is taken. The header notes the new count unless it is a directory. -/
structure Takes (writer after : ArchiveWriter) (record : Record) : Prop where
  count : after.entryCount = writer.entryCount + 1
  index : after.indexManager.entries
    = writer.indexManager.entries ++ [IndexManager.toIndexEntry record.entry]
  tree : after.directoryTree = (writer.directoryTree.insert record.entry).1
  chunks : after.chunkManager = writer.chunkManager
  noted : after.header.entryCount
    = if record.isDirectory then writer.header.entryCount else UInt64.ofNat (writer.entryCount + 1)
  valid : after.header.isValid = writer.header.isValid
  journal : writer.journalEntries <+: after.journalEntries

theorem prefix_log (platform : Platform) (journal : JournalManager) (entry : JournalEntry) :
    journal.entries <+: (journal.log platform entry).1.entries := by
  rw [JournalManager.log]
  split
  · exact List.prefix_rfl
  · exact List.prefix_append _ _

theorem prefix_logCreate (platform : Platform) (journal : JournalManager) (id : EntryID)
    (data : Bytes) (now : Timestamp) :
    journal.entries <+: (journal.logCreate platform id data now).1.entries :=
  prefix_log platform { journal with sequence := journal.sequence + 1 } _

theorem prefix_map_journal {journal : Option JournalManager} {next : JournalManager → JournalManager}
    (hnext : ∀ journal, journal.entries <+: (next journal).entries) :
    (journal.map (·.entries)).getD [] <+: ((journal.map next).map (·.entries)).getD [] := by
  cases journal with
  | none => exact List.prefix_rfl
  | some journal => exact hnext journal

theorem takes_afterTake (platform : Platform) (writer : ArchiveWriter) (around : Surroundings)
    (data : Bytes) {entry : ArchiveEntry} (htype : entry.type ≠ .directory) :
    Takes writer (writer.afterTake platform around data entry)
      (writer.dataRecord platform around data entry) := by
  have hdata : (writer.dataRecord platform around data entry).isDirectory = false :=
    decide_eq_false htype
  refine ⟨rfl, rfl, rfl, rfl, ?_, rfl, ?_⟩
  · rw [hdata]
    rfl
  · exact prefix_map_journal fun journal => prefix_logCreate platform journal _ _ _

theorem addDirectory_takes (platform : Platform) {writer : ArchiveWriter}
    (hopen : writer.isOpen = true) (around : Surroundings) (path : Bytes) (perms : Permissions) :
    (writer.added platform (.addDirectory around path perms) = []
      ∧ Kept writer (writer.step platform (.addDirectory around path perms)).1)
    ∨ ∃ record, writer.added platform (.addDirectory around path perms) = [record]
      ∧ Takes writer (writer.step platform (.addDirectory around path perms)).1 record := by
  unfold added
  rw [step]
  rcases addDirectory_cases platform hopen around path perms with ⟨e, heq⟩ | heq
  · rw [heq]
    exact .inl ⟨rfl, Kept.refl writer⟩
  · rw [heq]
    refine .inr ⟨_, rfl, rfl, rfl, rfl, rfl, rfl, rfl, ?_⟩
    exact prefix_map_journal fun journal => prefix_logCreate platform journal _ _ _

theorem added_of_refused {call : Call} {e : Fault ErrorCode}
    (h : writer.step platform call = (writer, some e)) :
    writer.added platform call = [] ∧ Kept writer (writer.step platform call).1 := by
  rw [added, h]
  exact ⟨rfl, Kept.refl writer⟩

theorem added_of_offered_none {call : Call} (h : writer.offered platform call = none) :
    writer.added platform call = [] := by
  rw [added, h]
  split
  · rfl
  · rfl

theorem payload_takes (hopen : writer.isOpen = true) {call : Call}
    {payload : Surroundings × Bytes} (hpayload : call.payload = some payload) :
    (writer.added platform call = [] ∧ Kept writer (writer.step platform call).1)
    ∨ ∃ record, writer.added platform call = [record]
      ∧ Takes writer (writer.step platform call).1 record := by
  obtain ⟨entry, -, htype, -, hstep, hoffered⟩ := step_of_payload platform hopen hpayload
  unfold added
  rw [hstep, hoffered]
  rcases processAndWriteEntry_cases platform writer payload.1 payload.2 entry with
    ⟨-, heq⟩ | ⟨-, e, -, heq⟩ | ⟨-, -, heq⟩
  · rw [heq]
    exact .inl ⟨rfl, { Kept.refl writer with }⟩
  · rw [heq]
    exact .inl ⟨rfl, { Kept.refl writer with }⟩
  · rw [heq]
    exact .inr ⟨_, rfl, takes_afterTake platform writer payload.1 payload.2 htype⟩

theorem step_of_closed (platform : Platform) (hclosed : writer.isOpen = false) (call : Call) :
    writer.added platform call = [] ∧ Kept writer (writer.step platform call).1 := by
  have hnot : ¬ writer.isOpen = true := by simp [hclosed]
  cases call with
  | addFile around source path => exact added_of_refused (if_pos hnot)
  | addSymlink around target path => exact added_of_refused (if_pos hnot)
  | addBlob around data path flags => exact added_of_refused (if_pos hnot)
  | addDirectory around path perms => exact added_of_refused (if_pos hnot)
  | setMetadata _ _ | setEncryptionKey _ | setCompression _ _ =>
      exact ⟨added_of_offered_none rfl, { Kept.refl writer with }⟩

/-- **What a call can do**: leave the tables alone and add nothing, or take the entry of the record it
adds. -/
theorem step_takes (platform : Platform) (writer : ArchiveWriter) (call : Call) :
    (writer.added platform call = [] ∧ Kept writer (writer.step platform call).1)
    ∨ ∃ record, writer.added platform call = [record]
      ∧ Takes writer (writer.step platform call).1 record := by
  cases hopen : writer.isOpen with
  | false => exact .inl (step_of_closed platform hopen call)
  | true =>
      cases hpayload : call.payload with
      | some payload => exact payload_takes hopen hpayload
      | none =>
          cases Call.dataless hpayload with
          | addFile around path => exact .inl (added_of_refused (if_neg (not_not.mpr hopen)))
          | addDirectory around path perms =>
              exact addDirectory_takes platform hopen around path perms
          | setMetadata _ _ | setEncryptionKey _ | setCompression _ _ =>
              exact .inl ⟨added_of_offered_none rfl, { Kept.refl writer with }⟩

/-! ### What a run changes in them -/

/-- The records up to the last one that the header has noted. -/
def notedRecords (records : List Record) : List Record := records.rdropWhile (·.isDirectory)

structure Grown (start writer : ArchiveWriter) (records : List Record) : Prop where
  count : writer.entryCount = start.entryCount + records.length
  index : writer.indexManager.entries = start.indexManager.entries
    ++ records.map fun record => IndexManager.toIndexEntry record.entry
  tree : writer.directoryTree = insertAll start.directoryTree (records.map (·.entry))
  chunks : writer.chunkManager = start.chunkManager
  noted : writer.header.entryCount = if notedRecords records = [] then start.header.entryCount
    else UInt64.ofNat (start.entryCount + (notedRecords records).length)
  valid : writer.header.isValid = start.header.isValid
  journal : start.journalEntries <+: writer.journalEntries

theorem Grown.refl (writer : ArchiveWriter) : Grown writer writer [] :=
  { count := rfl
    index := by simp
    tree := rfl
    chunks := rfl
    noted := by simp [notedRecords]
    valid := rfl
    journal := List.prefix_rfl }

variable {start after : ArchiveWriter} {records : List Record}

theorem Grown.kept (h : Grown start writer records) (hkept : Kept writer after) :
    Grown start after records :=
  { count := hkept.count.trans h.count
    index := hkept.index.trans h.index
    tree := hkept.tree.trans h.tree
    chunks := hkept.chunks.trans h.chunks
    noted := hkept.noted.trans h.noted
    valid := hkept.valid.trans h.valid
    journal := h.journal.trans hkept.journal }

theorem Grown.takes (h : Grown start writer records) {record : Record}
    (htakes : Takes writer after record) : Grown start after (records ++ [record]) := by
  refine
    { count := ?_
      index := ?_
      tree := ?_
      chunks := htakes.chunks.trans h.chunks
      noted := ?_
      valid := htakes.valid.trans h.valid
      journal := h.journal.trans htakes.journal }
  · rw [htakes.count, h.count, List.length_append, List.length_singleton, Nat.add_assoc]
  · rw [htakes.index, h.index, List.map_append, List.append_assoc, List.map_singleton]
  · rw [htakes.tree, h.tree, List.map_append, List.map_singleton, insertAll_append_singleton]
  · rw [htakes.noted]
    cases hdirectory : record.isDirectory with
    | true =>
        have hsame : notedRecords (records ++ [record]) = notedRecords records :=
          List.rdropWhile_concat_pos _ _ _ hdirectory
        rw [hsame, ← h.noted]
        rfl
    | false =>
        have hall : notedRecords (records ++ [record]) = records ++ [record] :=
          List.rdropWhile_concat_neg _ _ _ (by simp [hdirectory])
        have hne : records ++ [record] ≠ [] := by simp
        rw [hall, if_neg hne, h.count, List.length_append, List.length_singleton, Nat.add_assoc]
        rfl

theorem Grown.step (h : Grown start writer records) (platform : Platform) (call : Call) :
    Grown start (writer.step platform call).1 (records ++ writer.added platform call) := by
  rcases step_takes platform writer call with ⟨hadded, hkept⟩ | ⟨record, hadded, htakes⟩
  · rw [hadded, List.append_nil]
    exact h.kept hkept
  · rw [hadded]
    exact h.takes htakes

theorem Grown.run (h : Grown start writer records) (platform : Platform) (calls : List Call) :
    Grown start (writer.run platform calls) (records ++ writer.records platform calls) := by
  induction calls generalizing writer records with
  | nil => simpa [ArchiveWriter.run, ArchiveWriter.records] using h
  | cons call calls ih =>
      rw [run_cons, ArchiveWriter.records, ← List.append_assoc]
      exact ih (h.step platform call)

theorem Grown.noted_of_zero (h : Grown start writer records) (hcount : start.entryCount = 0)
    (hnoted : start.header.entryCount = 0) :
    writer.header.entryCount = UInt64.ofNat (notedRecords records).length := by
  rw [h.noted, hnoted, hcount, Nat.zero_add]
  split
  · rename_i hnone
    rw [hnone]
    rfl
  · rfl

/-! ### What `close` keeps of them -/

theorem kept_writeSection {note : ArchiveHeader → UInt64 → UInt64 → ArchiveHeader} {data : Bytes}
    (hnote : ∀ header offset size, (note header offset size).entryCount = header.entryCount
      ∧ (note header offset size).isValid = header.isValid) (writer : ArchiveWriter) :
    Kept writer (writer.writeSection note data).1 := by
  obtain ⟨hcount, hvalid⟩ := hnote writer.header (UInt64.ofNat writer.currentOffset)
    (UInt64.ofNat data.length)
  unfold ArchiveWriter.writeSection
  simp only
  split
  · exact ⟨rfl, rfl, rfl, rfl, hcount, hvalid, rfl, List.prefix_rfl⟩
  · exact ⟨rfl, rfl, rfl, rfl, hcount, hvalid, rfl, List.prefix_rfl⟩

theorem kept_andThen {result : ArchiveWriter × Status}
    {next : ArchiveWriter → ArchiveWriter × Status} (h : Kept writer result.1)
    (hnext : ∀ writer, Kept writer (next writer).1) : Kept writer (andThen result next).1 := by
  obtain ⟨middle, status⟩ := result
  cases status with
  | none => exact h.trans (hnext middle)
  | some e => exact h

theorem prefix_endCheckpoint (now : Timestamp) (journal : JournalManager) :
    journal.entries <+: (journal.endCheckpoint now).1.entries := by
  rw [JournalManager.endCheckpoint]
  split
  · exact List.prefix_rfl
  · exact List.prefix_append _ _

theorem prefix_commit (endNow now : Timestamp) (journal : JournalManager) :
    journal.entries <+: (journal.commit endNow now).1.entries := by
  rw [JournalManager.commit]
  split
  · exact (List.prefix_append _ _).trans (List.prefix_append _ _)
  · exact List.prefix_append _ _

theorem kept_writeJournalSection (now : Timestamp) (writer : ArchiveWriter) :
    Kept writer (writer.writeJournalSection now).1 := by
  unfold ArchiveWriter.writeJournalSection
  cases hjournal : writer.journal with
  | none => exact Kept.refl writer
  | some journal =>
      have hended : Kept writer { writer with journal := some (journal.endCheckpoint now).1 } := by
        refine { Kept.refl writer with journaled := ?_, journal := ?_ }
        · rw [hjournal]
          rfl
        · rw [journalEntries, journalEntries, hjournal]
          exact prefix_endCheckpoint now journal
      refine hended.trans ?_
      apply kept_writeSection
      exact fun _ _ _ => ⟨rfl, rfl⟩

theorem kept_writeHeader (platform : Platform) (writer : ArchiveWriter) :
    Kept writer (writer.writeHeader platform).1 := by
  unfold ArchiveWriter.writeHeader
  simp only
  split
  · exact { Kept.refl writer with }
  · exact { Kept.refl writer with }

theorem kept_finalizeArchive (platform : Platform) (times : CloseTimes) (writer : ArchiveWriter) :
    Kept writer (writer.finalizeArchive platform times).1 := by
  have hcommitted : Kept writer (writer.committed times) :=
    { Kept.refl writer with
      journaled := Option.isSome_map
      journal := prefix_map_journal fun journal => prefix_commit _ _ journal }
  refine hcommitted.trans (kept_andThen (kept_andThen (kept_andThen (kept_andThen (kept_andThen
    (kept_andThen ?_ ?_) ?_) ?_) ?_) ?_) ?_)
  · apply kept_writeSection
    exact fun _ _ _ => ⟨rfl, rfl⟩
  · intro writer
    apply kept_writeSection
    exact fun _ _ _ => ⟨rfl, rfl⟩
  · intro writer
    apply kept_writeSection
    exact fun _ _ _ => ⟨rfl, rfl⟩
  · intro writer
    apply kept_writeSection
    exact fun _ _ _ => ⟨rfl, rfl⟩
  · exact fun writer => { Kept.refl writer with }
  · exact kept_writeJournalSection times.journalNow
  · intro writer
    have hsized : Kept writer writer.sized := { Kept.refl writer with }
    exact hsized.trans (kept_writeHeader platform writer.sized)

theorem kept_close (platform : Platform) (times : CloseTimes) (writer : ArchiveWriter) :
    Kept writer (writer.close platform times).1 := by
  have hfinal := kept_finalizeArchive platform times writer
  unfold ArchiveWriter.close
  split
  · exact Kept.refl writer
  · split
    · rename_i hresult
      rw [hresult] at hfinal
      exact hfinal
    · rename_i hresult
      rw [hresult] at hfinal
      exact { hfinal with }

/-! ### The adds of a run -/

def Call.isAdd : Call → Bool
  | .addFile _ _ _ | .addSymlink _ _ _ | .addBlob _ _ _ _ | .addDirectory _ _ _ => true
  | .setMetadata _ _ | .setEncryptionKey _ | .setCompression _ _ => false

def successfulAdds (platform : Platform) (writer : ArchiveWriter) : List Call → Nat
  | [] => 0
  | call :: calls =>
      (if call.isAdd ∧ (writer.step platform call).2 = none then 1 else 0)
        + successfulAdds platform (writer.step platform call).1 calls

theorem length_added (platform : Platform) (writer : ArchiveWriter) (call : Call) :
    (writer.added platform call).length
      = if call.isAdd ∧ (writer.step platform call).2 = none then 1 else 0 := by
  unfold added
  by_cases hok : (writer.step platform call).2 = none
  · rw [if_pos hok]
    cases call with
    | addFile around source path =>
        cases source with
        | none =>
            -- an add of a file that cannot be read does not succeed
            change (writer.addFile platform around none path).2 = none at hok
            unfold addFile at hok
            split at hok
            · cases hok
            · cases hok
        | some data => rw [if_pos ⟨rfl, hok⟩]; rfl
    | addSymlink around target path => rw [if_pos ⟨rfl, hok⟩]; rfl
    | addBlob around data path flags => rw [if_pos ⟨rfl, hok⟩]; rfl
    | addDirectory around path perms => rw [if_pos ⟨rfl, hok⟩]; rfl
    | setMetadata _ _ | setEncryptionKey _ | setCompression _ _ => rfl
  · rw [if_neg hok, if_neg fun h => hok h.2]
    rfl

theorem successfulAdds_eq (platform : Platform) (writer : ArchiveWriter) (calls : List Call) :
    writer.successfulAdds platform calls = (writer.records platform calls).length := by
  induction calls generalizing writer with
  | nil => rfl
  | cons call calls ih =>
      rw [successfulAdds, ArchiveWriter.records, List.length_append, ih, length_added]

/-- Whether a call asks for an entry, and if so for one of a directory. -/
def Call.asksDirectory : Call → Option Bool
  | .addFile _ source _ => source.map fun _ => false
  | .addSymlink _ _ _ | .addBlob _ _ _ _ => some false
  | .addDirectory _ _ _ => some true
  | .setMetadata _ _ | .setEncryptionKey _ | .setCompression _ _ => none

theorem Call.asksDirectory_of_payload {call : Call} {payload : Surroundings × Bytes}
    (h : call.payload = some payload) : call.asksDirectory = some false := by
  cases call with
  | addFile around source path =>
      obtain ⟨data, rfl, -⟩ := Option.map_eq_some_iff.mp h
      rfl
  | addSymlink _ _ _ | addBlob _ _ _ _ => rfl
  | addDirectory _ _ _ | setMetadata _ _ | setEncryptionKey _ | setCompression _ _ => cases h

/-- What the calls ask for under a path that the tree accepts. -/
def accepted (calls : List Call) : List Bool :=
  calls.filterMap fun call => if ValidPath call.path then call.asksDirectory else none

theorem isDirectory_added (hopen : writer.isOpen = true) {call : Call}
    (hgood : (writer.step platform call).1.file.good = true) :
    (writer.added platform call).map (·.isDirectory)
      = (if ValidPath call.path then call.asksDirectory else none).toList := by
  cases hpayload : call.payload with
  | some payload =>
      obtain ⟨entry, -, htype, -, -, hoffered⟩ := step_of_payload platform hopen hpayload
      have hasks := Call.asksDirectory_of_payload hpayload
      have hdata : (writer.dataRecord platform payload.1 payload.2 entry).isDirectory = false :=
        decide_eq_false htype
      rw [added, hoffered, hasks]
      rcases step_cases hopen hpayload with ⟨hfailed, -, -, -, hwrite | hpath⟩ | ⟨hok, -, -, hpath⟩
      · rw [step_file platform hopen, hpayload] at hgood
        rw [hgood] at hwrite
        cases hwrite
      · rw [if_neg hfailed, if_neg hpath]
        rfl
      · rw [if_pos hok, if_pos hpath, Option.toList_some, Option.toList_some, List.map_singleton,
          hdata]
  | none =>
      cases Call.dataless hpayload with
      | addFile around path => simp [added, offered, Call.asksDirectory]
      | addDirectory around path perms =>
          have hok := addDirectory_ok_iff platform hopen around path perms
          change List.map _ (if (writer.addDirectory platform around path perms).2 = none
            then _ else _) = (if ValidPath path then some true else none).toList
          by_cases hpath : ValidPath path
          · rw [if_pos hpath, if_pos (hok.mpr hpath)]
            rfl
          · rw [if_neg hpath, if_neg (hok.not.mpr hpath)]
            rfl
      | setMetadata _ _ | setEncryptionKey _ | setCompression _ _ =>
          simp [added, offered, Call.asksDirectory]

theorem isDirectory_records (hopen : writer.isOpen = true) {calls : List Call}
    (hgood : (writer.run platform calls).file.good = true) :
    (writer.records platform calls).map (·.isDirectory) = accepted calls := by
  induction calls generalizing writer with
  | nil => rfl
  | cons call calls ih =>
      rw [run_cons] at hgood
      have hafter := (sameSetup_step platform writer call).isOpen.trans hopen
      have hcall := isDirectory_added hopen (good_of_run_good hafter hgood)
      rw [ArchiveWriter.records, List.map_append, ih hafter hgood, hcall, accepted, accepted,
        List.filterMap_cons]
      cases (if ValidPath call.path then call.asksDirectory else none) with
      | none => rfl
      | some directory => rfl

end ArchiveWriter

/-! ### What the reader reports -/

namespace Session

open ArchiveWriter

variable {platform : Platform} {session : Session}

theorem filled_grown (platform : Platform) (session : Session) :
    Grown (session.opened platform).1 (session.filled platform) (session.records platform) :=
  (Grown.refl (session.opened platform).1).run platform session.calls

/-- The header counts the entries up to the last one that is not a directory. -/
theorem noted_filled (h : (session.closed platform).2 = none) :
    (session.filled platform).header.entryCount
      = UInt64.ofNat (notedRecords (session.records platform)).length := by
  have hopened := opened_of_closed h
  have hstart := (configured_fresh platform session).openArchive platform hopened
  have hnoted : (session.opened platform).1.header.entryCount = 0 :=
    (justOpened hopened).noted.trans (configured_fresh platform session).noted
  exact (filled_grown platform session).noted_of_zero hstart.count hnoted

/-- The counts that a reader, the writer of its archive and the caller have. -/
structure CountsAgree (reader : ArchiveReader) (writer : ArchiveWriter)
    (listed : List ArchiveEntry) (adds : Nat) : Prop where
  reader : reader.entryCount.toNat = adds
  writer : writer.entryCount = adds
  listed : listed.length = adds

theorem countsAgree_iff_noted (hclosed : (session.closed platform).2 = none)
    (config : ReaderConfig) :
    ∃ reader entries, ArchiveReader.openArchive platform { config := config }
        (some (session.archive platform)) = (reader, none)
      ∧ reader.listEntries = .ok entries
      ∧ (CountsAgree reader (session.closed platform).1 entries
          ((session.opened platform).1.successfulAdds platform session.calls)
        ↔ notedRecords (session.records platform) = session.records platform) := by
  obtain ⟨reader, hopen, h⟩ := reopen hclosed config
  have hnoted := h.noted.trans (noted_filled hclosed)
  have hcount := h.count
  have hshort : (notedRecords (session.records platform)).length
      ≤ (session.records platform).length :=
    (List.rdropWhile_prefix _ _).length_le
  have hreader : reader.entryCount.toNat = (notedRecords (session.records platform)).length := by
    rw [ArchiveReader.entryCount, hnoted, toNat_ofNat_of_lt (by omega)]
  have hopened := opened_of_closed hclosed
  have hstart := (configured_fresh platform session).openArchive platform hopened
  have hwriter : (session.closed platform).1.entryCount = (session.records platform).length := by
    have hcountStart : (session.opened platform).1.entryCount = 0 := hstart.count
    calc (session.closed platform).1.entryCount
        = (session.filled platform).entryCount :=
          (kept_close platform session.times (session.filled platform)).count
      _ = (session.opened platform).1.entryCount + (session.records platform).length :=
          (filled_grown platform session).count
      _ = (session.records platform).length := by rw [hcountStart, Nat.zero_add]
  refine ⟨reader, _, hopen, if_neg (not_not.mpr h.isOpen), ?_⟩
  rw [successfulAdds_eq]
  change CountsAgree reader _ _ (session.records platform).length ↔ _
  constructor
  · intro hagree
    exact (List.rdropWhile_prefix _ _).eq_of_length (hreader.symm.trans hagree.reader)
  · intro hall
    refine ⟨by rw [hreader, hall], hwriter, ?_⟩
    rw [List.length_map, h.entries, List.length_map]

/-- **The counts of entries.** After a session that closes, the count the reader reports, the
writer's own, the number of entries listed and the number of adds that succeeded are all equal if and
only if the last add that asks for an entry under a path the tree accepts is not that of a
directory. -/
theorem entryCounts_agree_iff (hclosed : (session.closed platform).2 = none)
    (config : ReaderConfig) :
    ∃ reader entries, ArchiveReader.openArchive platform { config := config }
        (some (session.archive platform)) = (reader, none)
      ∧ reader.listEntries = .ok entries
      ∧ (CountsAgree reader (session.closed platform).1 entries
          ((session.opened platform).1.successfulAdds platform session.calls)
        ↔ (accepted session.calls).getLast? ≠ some true) := by
  obtain ⟨reader, entries, hopen, hlisted, hiff⟩ := countsAgree_iff_noted hclosed config
  have hisOpen := (justOpened (opened_of_closed hclosed)).isOpen
  have hkinds : (session.records platform).map (·.isDirectory) = accepted session.calls :=
    isDirectory_records hisOpen (ready_of_close hclosed).2
  refine ⟨reader, entries, hopen, hlisted, hiff.trans ?_⟩
  rw [← hkinds, List.getLast?_map, notedRecords, List.rdropWhile_eq_self_iff]
  cases hlast : (session.records platform).getLast? with
  | none =>
      have hnil : session.records platform = [] := List.getLast?_eq_none_iff.mp hlast
      exact iff_of_true (fun hne => absurd hnil hne) (by simp)
  | some last =>
      have hsome : some last.isDirectory ≠ some true ↔ ¬ last.isDirectory = true := by simp
      rw [Option.map_some, hsome]
      have hne : session.records platform ≠ [] := by
        rintro hnil
        rw [hnil] at hlast
        cases hlast
      have hget : (session.records platform).getLast hne = last := by
        rw [List.getLast?_eq_some_getLast hne] at hlast
        exact Option.some.inj hlast
      constructor
      · intro hall
        rw [← hget]
        exact hall hne
      · intro hdata _
        rw [hget]
        exact hdata

theorem entryCounts_agree_iff_nestedThenFlat :
    (nestedThenFlat.opened Platform.reference).1.successfulAdds Platform.reference nestedThenFlat.calls = 2
      ∧ ∃ reader entries, ArchiveReader.openArchive Platform.reference {}
          (some (nestedThenFlat.archive Platform.reference)) = (reader, none)
        ∧ reader.listEntries = .ok entries
        ∧ (CountsAgree reader (nestedThenFlat.closed Platform.reference).1 entries
            ((nestedThenFlat.opened Platform.reference).1.successfulAdds Platform.reference
              nestedThenFlat.calls)
          ↔ (accepted nestedThenFlat.calls).getLast? ≠ some true) :=
  ⟨by decide +kernel, entryCounts_agree_iff (by decide +kernel) {}⟩

/-- The writer has two entries and lists them, the reader reports one. -/
theorem entryCounts_disagree_blobAndDirectory :
    (blobAndDirectory.closed Platform.reference).2 = none
      ∧ (blobAndDirectory.opened Platform.reference).1.successfulAdds Platform.reference
        blobAndDirectory.calls = 2
      ∧ ∃ reader entries, ArchiveReader.openArchive Platform.reference {}
          (some (blobAndDirectory.archive Platform.reference)) = (reader, none)
        ∧ reader.listEntries = .ok entries
        ∧ ¬ CountsAgree reader (blobAndDirectory.closed Platform.reference).1 entries
            ((blobAndDirectory.opened Platform.reference).1.successfulAdds Platform.reference
              blobAndDirectory.calls) := by
  have hclosed : (blobAndDirectory.closed Platform.reference).2 = none := by decide +kernel
  have hnoted : (notedRecords (blobAndDirectory.records Platform.reference)).length
      ≠ (blobAndDirectory.records Platform.reference).length := by decide +kernel
  obtain ⟨reader, entries, hopen, hlisted, hiff⟩ := countsAgree_iff_noted hclosed {}
  refine ⟨hclosed, by decide +kernel, reader, entries, hopen, hlisted, ?_⟩
  rw [hiff]
  exact fun hall => hnoted (congrArg List.length hall)

end Session

end NebulaFS
