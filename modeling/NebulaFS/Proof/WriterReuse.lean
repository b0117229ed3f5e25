import NebulaFS.Lib.Runs
import NebulaFS.Proof.EntryCounts
import NebulaFS.Proof.JournalCodec

/-!
# Using a writer again

`open` starts a new file and resets the offset counter, but the index, the tree, the counts and the
journal go on from where the earlier use left them. So an archive is only that of its own session if
nothing before left a trace: no add was accepted and, for a writer with a journal, nothing was opened
(`Traceless`). Then `open` finds the tables of a new writer (`Unused`), and what it leaves is a clean
start (`reused_startsClean`).
-/

namespace NebulaFS

open Cursor ArchiveHeader DirectoryTree

namespace ArchiveWriter

variable {platform : Platform} {writer : ArchiveWriter}

/-! ### A use that leaves no trace -/

/-- An add that is not accepted, in terms of what it meets: a writer that is not open, nothing to add,
a path that the tree refuses, or a file that does not take the bytes. -/
def Refused (platform : Platform) (writer : ArchiveWriter) (call : Call) : Prop :=
  writer.isOpen = false ∨ call.asksDirectory = none ∨ ¬ ValidPath call.path
    ∨ ∃ payload ∈ call.payload,
      (writer.file.write (writer.processedData platform payload.1.evp payload.2)).good = false

instance (platform : Platform) (writer : ArchiveWriter) (call : Call) :
    Decidable (writer.Refused platform call) :=
  inferInstanceAs (Decidable (_ ∨ _ ∨ _ ∨ ∃ payload ∈ call.payload, _))

def Traceless (platform : Platform) (writer : ArchiveWriter) : Use → Prop
  | .call call => writer.Refused platform call
  | .openOn device _ => writer.isOpen = true ∨ device.openable = false ∨ writer.journal.isNone
  | .close _ | .abort => True

instance (platform : Platform) (writer : ArchiveWriter) :
    (use : Use) → Decidable (writer.Traceless platform use)
  | .call call => inferInstanceAs (Decidable (writer.Refused platform call))
  | .openOn _ _ => inferInstanceAs (Decidable (_ ∨ _ ∨ _))
  | .close _ | .abort => inferInstanceAs (Decidable True)

theorem Refused.added_eq_nil {call : Call} (h : writer.Refused platform call) :
    writer.added platform call = [] := by
  cases hopen : writer.isOpen with
  | false => exact (step_of_closed platform hopen call).1
  | true =>
      cases hpayload : call.payload with
      | some payload =>
          rcases step_cases hopen hpayload with ⟨hfailed, -⟩ | ⟨-, -, hgood, hpath⟩
          · exact if_neg hfailed
          · -- the add succeeds, which none of the four reasons allows
            exfalso
            rcases h with hclosed | hnothing | hrefused | ⟨other, hother, hbad⟩
            · rw [hopen] at hclosed
              cases hclosed
            · cases hnothing.symm.trans (Call.asksDirectory_of_payload hpayload)
            · exact hrefused hpath
            · obtain rfl : payload = other := Option.some.inj (hpayload.symm.trans hother)
              rw [hgood] at hbad
              cases hbad
      | none =>
          cases Call.dataless hpayload with
          | addFile around path => exact added_of_offered_none rfl
          | addDirectory around path perms =>
              have hok := addDirectory_ok_iff platform hopen around path perms
              refine if_neg fun hsucceeds => ?_
              have hpath := hok.mp hsucceeds
              rcases h with hclosed | hnothing | hrefused | ⟨other, hother, -⟩
              · rw [hopen] at hclosed
                cases hclosed
              · cases hnothing
              · exact hrefused hpath
              · cases hother
          | setMetadata _ _ | setEncryptionKey _ | setCompression _ _ =>
              exact added_of_offered_none rfl

/-- The tables of a new writer. If it keeps a journal, the writer has not been opened. -/
structure Unused (writer : ArchiveWriter) : Prop where
  count : writer.entryCount = 0
  index : writer.indexManager.entries = []
  tree : writer.directoryTree = {}
  chunks : writer.chunkManager = {}
  header : writer.header.isValid = true
  noted : writer.header.entryCount = 0
  journal : writer.journal.isNone = true ∨ writer.isOpen = false
  logged : writer.journalEntries = []

theorem unused_new (platform : Platform) (config : WriterConfig) (device : Device) (ctxNew : Bool) :
    Unused (new platform config device ctxNew) := by
  have hfresh := fresh_new platform config device ctxNew
  refine ⟨hfresh.count, hfresh.index, hfresh.tree, hfresh.chunks, hfresh.header, hfresh.noted,
    .inr hfresh.isOpen, ?_⟩
  rw [journalEntries, new]
  cases config.enableJournal with
  | false => rfl
  | true => rfl

theorem Unused.kept (h : Unused writer) {after : ArchiveWriter} (hkept : Kept writer after)
    (hjournal : writer.journal.isNone = true
      ∨ after.isOpen = false ∧ after.journal = writer.journal) : Unused after := by
  have hnone : writer.journal.isNone = true → after.journal.isNone = true := by
    intro hnone
    have hsame := hkept.journaled
    rw [Option.isNone_iff_eq_none] at hnone
    rw [hnone, Option.isSome_none, Option.isSome_eq_false_iff] at hsame
    exact hsame
  refine ⟨hkept.count.trans h.count, hkept.index.trans h.index, hkept.tree.trans h.tree,
    hkept.chunks.trans h.chunks, hkept.valid.trans h.header, hkept.noted.trans h.noted, ?_, ?_⟩
  · rcases hjournal with hnone' | ⟨hclosed, -⟩
    · exact .inl (hnone hnone')
    · exact .inr hclosed
  · rcases hjournal with hnone' | ⟨-, hsame⟩
    · rw [journalEntries, Option.isNone_iff_eq_none.mp (hnone hnone')]
      rfl
    · rw [journalEntries, hsame]
      exact h.logged

theorem step_journal_of_closed (platform : Platform) (hclosed : writer.isOpen = false)
    (call : Call) : (writer.step platform call).1.journal = writer.journal := by
  cases call with
  | addFile around source path => simp [step, addFile, hclosed]
  | addSymlink around target path => simp [step, addSymlink, hclosed]
  | addBlob around data path flags => simp [step, addBlob, hclosed]
  | addDirectory around path perms => simp [step, addDirectory, hclosed]
  | setMetadata _ _ | setEncryptionKey _ | setCompression _ _ => rfl

theorem Unused.call (h : Unused writer) {call : Call} (hrefused : writer.Refused platform call) :
    Unused (writer.step platform call).1 := by
  rcases step_takes platform writer call with ⟨-, hkept⟩ | ⟨record, hadded, -⟩
  · apply h.kept hkept
    rcases h.journal with hnone | hclosed
    · exact .inl hnone
    · exact .inr ⟨(sameSetup_step platform writer call).isOpen.trans hclosed,
        step_journal_of_closed platform hclosed call⟩
  · rw [hrefused.added_eq_nil] at hadded
    cases hadded

theorem Unused.openOn (h : Unused writer) {device : Device} {now : Timestamp}
    (hopens : writer.isOpen = true ∨ device.openable = false ∨ writer.journal.isNone = true) :
    Unused (writer.openOn device now).1 := by
  unfold ArchiveWriter.openOn openArchive
  split
  · exact h
  · rename_i hclosed
    split
    · exact { h with }
    · rename_i hopenable
      have hnone : writer.journal = none := by
        rcases hopens with hopen | hrefused | hnone
        · exact absurd hopen hclosed
        · exact absurd hrefused (by simpa using hopenable)
        · exact Option.isNone_iff_eq_none.mp hnone
      refine { h with journal := .inl ?_, logged := ?_ }
      · simp [hnone]
      · simp [journalEntries, hnone]

theorem Unused.use (h : Unused writer) {use : Use} (htraceless : writer.Traceless platform use) :
    Unused (writer.use platform use) := by
  cases use with
  | call call => exact h.call htraceless
  | openOn device now => exact h.openOn htraceless
  | close times =>
      apply h.kept (kept_close platform times writer)
      rcases h.journal with hnone | hclosed
      · exact .inl hnone
      · have hsame : writer.close platform times = (writer, some (.returned .invalidOperation)) :=
          if_pos (by simp [hclosed])
        rw [hsame]
        exact .inr ⟨hclosed, rfl⟩
  | abort =>
      change Unused writer.abort
      unfold ArchiveWriter.abort
      split
      · exact { h with journal := .inr rfl }
      · exact h

theorem Unused.run (h : Unused writer) {history : List Use}
    (htraceless : Runs.Along (fun writer use after => ArchiveWriter.use platform writer use = after)
      (Traceless platform) writer history) :
    Unused (history.foldl (ArchiveWriter.use platform) writer) := by
  induction history generalizing writer with
  | nil => exact h
  | cons use history ih => exact ih (h.use htraceless.1) (htraceless.2 _ rfl)

/-! ### The file of a writer with a past -/

theorem AtEnd.step {body : Bytes} (h : AtEnd writer body) (hopen : writer.isOpen = true)
    {call : Call} (hgood : (writer.step platform call).1.file.good = true) :
    ∃ later, AtEnd (writer.step platform call).1 (body ++ later) := by
  cases hpayload : call.payload with
  | some payload =>
      obtain ⟨entry, -, -, -, hstep, -⟩ := step_of_payload platform hopen hpayload
      rw [hstep] at hgood ⊢
      have hwritten : (writer.afterWrite platform payload.1 payload.2).file.good = true →
          AtEnd (writer.afterWrite platform payload.1 payload.2)
            (body ++ writer.processedData platform payload.1.evp payload.2) := by
        intro hwrite
        refine ⟨h.file.write hwrite, ?_⟩
        simp only [afterWrite, h.offset, List.length_append]
        omega
      rcases processAndWriteEntry_cases platform writer payload.1 payload.2 entry with
        ⟨hwrite, heq⟩ | ⟨hwrite, e, -, heq⟩ | ⟨hwrite, -, heq⟩
      · rw [heq] at hgood
        exact absurd hgood (by simp [hwrite])
      · rw [heq]
        exact ⟨_, hwritten hwrite⟩
      · rw [heq]
        exact ⟨_, (hwritten hwrite).of_eq rfl rfl⟩
  | none =>
      refine ⟨[], ?_⟩
      rw [List.append_nil]
      cases call with
      | addFile around source path =>
          obtain rfl : source = none := by simpa [Call.payload] using hpayload
          simpa [ArchiveWriter.step, addFile, hopen] using h
      | addSymlink _ _ _ | addBlob _ _ _ _ => cases hpayload
      | addDirectory around path perms =>
          rw [ArchiveWriter.step]
          rcases addDirectory_cases platform hopen around path perms with ⟨e, heq⟩ | heq
          · rw [heq]
            exact h
          · rw [heq]
            exact h.of_eq rfl rfl
      | setMetadata _ _ | setEncryptionKey _ | setCompression _ _ => exact h.of_eq rfl rfl

theorem AtEnd.run {body : Bytes} (h : AtEnd writer body) (hopen : writer.isOpen = true)
    {calls : List Call} (hgood : (writer.run platform calls).file.good = true) :
    ∃ later, AtEnd (writer.run platform calls) (body ++ later) := by
  induction calls generalizing writer body with
  | nil => exact ⟨[], by simpa [ArchiveWriter.run] using h⟩
  | cons call calls ih =>
      rw [run_cons] at hgood ⊢
      have hafter := (sameSetup_step platform writer call).isOpen.trans hopen
      obtain ⟨first, hstep⟩ := h.step hopen (good_of_run_good hafter hgood)
      obtain ⟨later, hrun⟩ := ih hstep hafter hgood
      exact ⟨first ++ later, by rwa [← List.append_assoc]⟩

/-- What `open` does to a writer with a past: the file is new, the tables are the old ones. -/
structure Reset (writer after : ArchiveWriter) : Prop where
  isOpen : after.isOpen = true
  atEnd : AtEnd after []
  count : after.entryCount = writer.entryCount
  index : after.indexManager.entries = writer.indexManager.entries
  tree : after.directoryTree = writer.directoryTree
  chunks : after.chunkManager = writer.chunkManager
  noted : after.header.entryCount = writer.header.entryCount
  valid : after.header.isValid = writer.header.isValid
  journaled : after.journal.isSome = writer.journal.isSome

theorem openOn_reset {device : Device} {now : Timestamp}
    (hok : (writer.openOn device now).2 = none) : Reset writer (writer.openOn device now).1 := by
  unfold ArchiveWriter.openOn openArchive at hok ⊢
  split at hok
  · cases hok
  · rename_i hclosed
    rw [if_neg hclosed]
    split at hok
    · cases hok
    · rename_i hopenable
      simp only at hopenable ⊢
      rw [if_neg hclosed, if_neg hopenable]
      exact
        { isOpen := rfl
          atEnd := ⟨⟨rfl, rfl, by simp [OFStream.seekp], rfl, by decide⟩, rfl⟩
          count := rfl
          index := rfl
          tree := rfl
          chunks := rfl
          noted := rfl
          valid := rfl
          journaled := Option.isSome_map }

/-- What no use changes: the format of the header, the empty chunk table, and whether there is a
journal. -/
structure SameFormat (journaled : Bool) (writer : ArchiveWriter) : Prop where
  valid : writer.header.isValid = true
  chunks : writer.chunkManager = {}
  journal : writer.journal.isSome = journaled

theorem SameFormat.use {journaled : Bool} (platform : Platform) (h : SameFormat journaled writer)
    (use : Use) : SameFormat journaled (writer.use platform use) := by
  cases use with
  | call call =>
      have hjournal := (sameSetup_step platform writer call).journal.trans h.journal
      rcases step_takes platform writer call with ⟨-, hkept⟩ | ⟨record, -, htakes⟩
      · exact ⟨hkept.valid.trans h.valid, hkept.chunks.trans h.chunks, hjournal⟩
      · exact ⟨htakes.valid.trans h.valid, htakes.chunks.trans h.chunks, hjournal⟩
  | openOn device now =>
      change SameFormat journaled (writer.openOn device now).1
      unfold ArchiveWriter.openOn openArchive
      split
      · exact h
      · split
        · exact { h with }
        · exact { h with journal := Option.isSome_map.trans h.journal }
  | close times =>
      have hkept := kept_close platform times writer
      exact ⟨hkept.valid.trans h.valid, hkept.chunks.trans h.chunks,
        hkept.journaled.trans h.journal⟩
  | abort =>
      change SameFormat journaled writer.abort
      unfold ArchiveWriter.abort
      split
      · exact { h with }
      · exact h

theorem writeSection_journal {note : ArchiveHeader → UInt64 → UInt64 → ArchiveHeader} {data : Bytes}
    {after : ArchiveWriter} (h : writer.writeSection note data = (after, none)) :
    after.journal = writer.journal := by
  unfold ArchiveWriter.writeSection at h
  simp only at h
  split at h
  · cases h
  · obtain rfl := (Prod.mk.inj h).1
    rfl

theorem writeJournalSection_journal {now : Timestamp} {after : ArchiveWriter}
    (h : writer.writeJournalSection now = (after, none)) :
    after.journal = writer.journal.map fun journal => (journal.endCheckpoint now).1 := by
  unfold ArchiveWriter.writeJournalSection at h
  cases hjournal : writer.journal with
  | none =>
      rw [hjournal] at h
      obtain rfl := (Prod.mk.inj h).1
      exact hjournal
  | some journal =>
      rw [hjournal] at h
      exact writeSection_journal h

theorem Stages.journal_eq {now : Timestamp} {start w1 w2 w3 w4 w5 w6 : ArchiveWriter}
    (h : Stages now start w1 w2 w3 w4 w5 w6) :
    w6.journal = start.journal.map fun journal => (journal.endCheckpoint now).1 := by
  have h1 : w1.journal = start.journal := writeSection_journal h.writeMetadata
  have h2 : w2.journal = w1.journal := writeSection_journal h.writeDirectory
  have h3 : w3.journal = w2.journal := writeSection_journal h.writeIndex
  have h4 : w4.journal = w3.journal := writeSection_journal h.writeChunk
  have h5 : w5.journal = w4.journal :=
    (congrArg ArchiveWriter.journal (Prod.mk.inj h.writeBlocks).1).symm
  rw [writeJournalSection_journal h.writeJournal, h5, h4, h3, h2, h1]

theorem close_journal {times : CloseTimes} (hok : (writer.close platform times).2 = none) :
    (writer.close platform times).1.journal
      = (writer.committed times).journal.map fun journal =>
        (journal.endCheckpoint times.journalNow).1 := by
  unfold ArchiveWriter.close at hok ⊢
  split at hok
  · cases hok
  · rename_i hopen
    rw [if_neg hopen]
    rcases hfinal : writer.finalizeArchive platform times with ⟨last, _ | e⟩
    · obtain ⟨w1, w2, w3, w4, w5, w6, hstages, heq⟩ :=
        finalizeArchive_stages (congrArg Prod.snd hfinal)
      rw [hfinal] at heq
      have hlast : last = (w6.sized.writeHeader platform).1 := congrArg Prod.fst heq
      have hheader : (w6.sized.writeHeader platform).1.journal = w6.journal := by
        unfold ArchiveWriter.writeHeader
        simp only
        split
        · rfl
        · rfl
      change last.journal = _
      rw [hlast, hheader, hstages.journal_eq]
    · rw [hfinal] at hok
      cases hok

end ArchiveWriter

/-! ### What the next archive holds -/

/-- A reader of an archive finds what was added and logged since the writer was opened for it, and
nothing else; `journaled` says whether the writer keeps a journal. -/
structure StartsClean (archive : Bytes) (journaled : Bool) (records : List ArchiveWriter.Record)
    (logged : List JournalEntry) (reader : ArchiveReader) : Prop where
  entries : reader.indexManager.entries
    = records.map fun record => IndexManager.toIndexEntry record.entry
  tree : reader.directoryTree.root = stored (insertAll {} (records.map (·.entry))).root
  count : reader.entryCount.toNat = (ArchiveWriter.notedRecords records).length
  journal : journaled = true → ((JournalManager.new {}).deserialize
    (slice archive reader.header.journalOffset.toNat reader.header.journalSize.toNat)).1.entries
      = logged
  ranges : ∀ entry ∈ reader.indexManager.entries,
    entry.offset.toNat + entry.size.toNat ≤ archive.length

namespace Reuse

open ArchiveWriter

variable {platform : Platform} {reuse : Reuse}

def records (platform : Platform) (reuse : Reuse) : List Record :=
  (reuse.opened platform).1.records platform reuse.calls

/-- What the journal of the closed writer has beyond what it had before `open`. -/
def logged (platform : Platform) (reuse : Reuse) : List JournalEntry :=
  (reuse.closed platform).1.journalEntries.drop (reuse.used platform).journalEntries.length

theorem used_format (platform : Platform) (reuse : Reuse) :
    SameFormat reuse.config.enableJournal (reuse.used platform) := by
  have hfresh := fresh_new platform reuse.config reuse.device reuse.ctxNew
  have hnew : SameFormat reuse.config.enableJournal
      (new platform reuse.config reuse.device reuse.ctxNew) := by
    refine ⟨hfresh.header, hfresh.chunks, ?_⟩
    rw [new]
    cases reuse.config.enableJournal with
    | false => rfl
    | true => rfl
  exact Runs.foldl_of_invariant (fun _ use h => h.use platform use) hnew reuse.history

theorem filled_grown (platform : Platform) (reuse : Reuse) :
    Grown (reuse.opened platform).1 (reuse.filled platform) (reuse.records platform) :=
  (Grown.refl (reuse.opened platform).1).run platform reuse.calls

theorem filled_atEnd (hopened : (reuse.opened platform).2 = none)
    (hclosed : (reuse.closed platform).2 = none) : ∃ body, AtEnd (reuse.filled platform) body := by
  have hreset := openOn_reset hopened
  obtain ⟨body, hend⟩ := hreset.atEnd.run hreset.isOpen (ready_of_close hclosed).2
  exact ⟨_, hend⟩

/-- **The archive of a writer with a past** holds what the tables of the writer hold, whichever
session they are from. -/
theorem reopen (hopened : (reuse.opened platform).2 = none)
    (hclosed : (reuse.closed platform).2 = none) {body : Bytes}
    (hend : AtEnd (reuse.filled platform) body) :
    ∃ reader header, ArchiveReader.openArchive platform {} (some (reuse.archive platform))
        = (reader, none)
      ∧ Opened reader {} (reuse.archive platform) (header.updateChecksum platform)
        (reuse.filled platform).directoryTree (reuse.filled platform).indexManager.entries
      ∧ Finished platform (reuse.filled platform) reuse.times (reuse.archive platform) header body
      ∧ (reuse.filled platform).chunkManager = {} := by
  have hreset := openOn_reset hopened
  have hgrown := filled_grown platform reuse
  have hformat := used_format platform reuse
  have hvalid := hgrown.valid.trans (hreset.valid.trans hformat.valid)
  have hchunks := hgrown.chunks.trans (hreset.chunks.trans hformat.chunks)
  obtain ⟨header, hfinished⟩ := hend.close hvalid hclosed
  have himage := hfinished.image
  rw [hchunks] at himage
  obtain ⟨reader, hopen, hreader⟩ := himage.openArchive {}
  exact ⟨reader, header, hopen, hreader, hfinished, hchunks⟩

theorem filled_journaled (hopened : (reuse.opened platform).2 = none) :
    (reuse.filled platform).journal.isSome = reuse.config.enableJournal :=
  (sameSetup_run platform _ reuse.calls).journal.trans
    ((openOn_reset hopened).journaled.trans (used_format platform reuse).journal)

theorem filled_inv (hunused : Unused (reuse.used platform))
    (hopened : (reuse.opened platform).2 = none)
    (hgood : (reuse.filled platform).file.good = true) :
    ∃ body, Inv platform (reuse.filled platform) body (reuse.records platform) := by
  have hreset := openOn_reset hopened
  have hstart : Inv platform (reuse.opened platform).1 [] [] :=
    { isOpen := hreset.isOpen
      file := hreset.atEnd.file
      offset := hreset.atEnd.offset
      count := hreset.count.trans hunused.count
      index := hreset.index.trans hunused.index
      ids := rfl
      tree := hreset.tree.trans hunused.tree
      chunks := hreset.chunks.trans hunused.chunks
      header := hreset.valid.trans hunused.header
      placed := by simp
      sums := by simp
      ordered := List.Pairwise.nil }
  obtain ⟨body, hrun⟩ := hstart.run reuse.calls hgood
  rw [List.nil_append, List.nil_append] at hrun
  exact ⟨body, hrun⟩

/-- The journal section of an archive decodes to the entries of the closed writer's journal. -/
theorem journal_entries (hopened : (reuse.opened platform).2 = none)
    (hclosed : (reuse.closed platform).2 = none) {header : ArchiveHeader} {body : Bytes}
    (hfinished : Finished platform (reuse.filled platform) reuse.times (reuse.archive platform)
      header body)
    (hchunks : (reuse.filled platform).chunkManager = {})
    (hjournal : reuse.config.enableJournal = true) (receiver : JournalManager) :
    (receiver.deserialize (slice (reuse.archive platform) header.journalOffset.toNat
      header.journalSize.toNat)).1.entries = (reuse.closed platform).1.journalEntries := by
  have himage := hfinished.image
  rw [hchunks] at himage
  have hfits := himage.fits
  have hlength := himage.length_content
  have hrest := himage.remaining_body.advance.advance.advance.advance.advance
  rw [← himage.blocksOffset, ← List.append_nil (journalBytes _ _)] at hrest
  have hsome := (filled_journaled hopened).trans hjournal
  have hat := hfinished.journal hsome
  obtain ⟨journal, hheld⟩ := Option.isSome_iff_exists.mp hsome
  have hwriter : (reuse.closed platform).1.journal = _ := close_journal hclosed
  rw [hat.journalOffset, hat.journalSize, hrest.slice_eq, journalEntries, hwriter]
  simp only [committed, hheld, Option.map_some, journalBytes, Option.getD_some] at hlength ⊢
  rw [JournalManager.deserialize_serialize receiver (by omega)]

/-- **A clean start.** If no use in the history of a writer leaves a trace, the archive of the session
that follows holds the entries added in it and no others, its tree, its count and its journal know of
nothing else, and every range of its index lies in the file. -/
theorem reused_startsClean
    (htraceless : Runs.Along
      (fun writer use after => ArchiveWriter.use platform writer use = after) (Traceless platform)
      (new platform reuse.config reuse.device reuse.ctxNew) reuse.history)
    (hopened : (reuse.opened platform).2 = none) (hclosed : (reuse.closed platform).2 = none) :
    ∃ reader, ArchiveReader.openArchive platform {} (some (reuse.archive platform))
        = (reader, none)
      ∧ StartsClean (reuse.archive platform) reuse.config.enableJournal (reuse.records platform)
        (reuse.logged platform) reader := by
  have hunused : Unused (reuse.used platform) :=
    (unused_new platform reuse.config reuse.device reuse.ctxNew).run htraceless
  obtain ⟨body, hinv⟩ := filled_inv hunused hopened (ready_of_close hclosed).2
  obtain ⟨reader, header, hopen, hreader, hfinished, hchunks⟩ :=
    reopen hopened hclosed ⟨hinv.file, hinv.offset⟩
  have himage := hfinished.image
  rw [hchunks] at himage
  have hentries := hreader.entries_eq.trans hinv.index
  have hreset := openOn_reset hopened
  have hnoted := (filled_grown platform reuse).noted_of_zero (hreset.count.trans hunused.count)
    (hreset.noted.trans hunused.noted)
  refine ⟨reader, hopen, hentries, ?_, ?_, ?_, ?_⟩
  · rw [hreader.root, hinv.tree]
  · have hcount := congrArg List.length hinv.index
    rw [List.length_map] at hcount
    have hfew := himage.length_entries_lt
    have hshort : (notedRecords (reuse.records platform)).length
        ≤ (reuse.records platform).length := (List.rdropWhile_prefix _ _).length_le
    rw [ArchiveReader.entryCount, hreader.header_eq]
    change header.entryCount.toNat = _
    rw [hfinished.entryCount, hnoted, toNat_ofNat_of_lt (by omega)]
  · intro hjournal
    rw [hreader.header_eq, logged, hunused.logged, List.length_nil, List.drop_zero]
    exact journal_entries hopened hclosed hfinished hchunks hjournal _
  · intro entry hentry
    rw [hentries] at hentry
    obtain ⟨record, hrecord, rfl⟩ := List.mem_map.mp hentry
    change record.entry.offset.toNat + record.entry.storedSize.toNat ≤ _
    cases hdirectory : record.isDirectory with
    | true =>
        obtain ⟨hoffset, hsize, -⟩ := bare_of_directory hrecord hdirectory
        rw [hoffset, hsize]
        exact Nat.zero_le _
    | false =>
        have hplaced := hinv.placed record hrecord hdirectory
        have hinside := hplaced.inside
        have hlength := himage.length_content
        rw [hplaced.size]
        omega

/-- A session without a journal whose only add is refused, and then one with a blob and a
directory. -/
def afterRefusal : Reuse where
  config := { compression := .none, enableJournal := false }
  history :=
    [.openOn .ample {}, .call (.setMetadata [0x6B] [0x76]),
      .call (.addBlob .plain [0x61, 0x62, 0x63] [0x2E] 0), .close {}]
  device := .ample
  calls := [.addBlob .plain [0x64] [0x62] 0, .addDirectory .plain [0x63] {}]

theorem reused_startsClean_afterRefusal :
    (afterRefusal.records Platform.reference).length = 2
      ∧ ∃ reader, ArchiveReader.openArchive Platform.reference {}
          (some (afterRefusal.archive Platform.reference)) = (reader, none)
        ∧ StartsClean (afterRefusal.archive Platform.reference) false
          (afterRefusal.records Platform.reference) (afterRefusal.logged Platform.reference)
          reader :=
  ⟨by decide +kernel, reused_startsClean (by decide +kernel) (by decide +kernel) (by decide +kernel)⟩

def afterBlob : Reuse where
  config := { compression := .none, enableJournal := false }
  history :=
    [.openOn .ample {}, .call (.addBlob .plain [0x61, 0x62, 0x63] [0x61] 0), .close {}]
  device := .ample
  calls := [.addBlob .plain [0x64] [0x62] 0]

/-- One blob is added after `open`, and the archive lists two entries. -/
theorem not_startsClean_afterBlob :
    (afterBlob.used Platform.reference).isOpen = false
      ∧ (afterBlob.opened Platform.reference).2 = none
      ∧ (afterBlob.closed Platform.reference).2 = none
      ∧ (afterBlob.records Platform.reference).length = 1
      ∧ ∃ reader, ArchiveReader.openArchive Platform.reference {}
          (some (afterBlob.archive Platform.reference)) = (reader, none)
        ∧ reader.indexManager.entries.length = 2
        ∧ ¬ StartsClean (afterBlob.archive Platform.reference) false
          (afterBlob.records Platform.reference) (afterBlob.logged Platform.reference) reader := by
  have hopened : (afterBlob.opened Platform.reference).2 = none := by decide +kernel
  have hclosed : (afterBlob.closed Platform.reference).2 = none := by decide +kernel
  have hone : (afterBlob.records Platform.reference).length = 1 := by decide +kernel
  have htwo : (afterBlob.filled Platform.reference).indexManager.entries.length = 2 := by
    decide +kernel
  obtain ⟨body, hend⟩ := filled_atEnd hopened hclosed
  obtain ⟨reader, header, hopen, hreader, -⟩ := reopen hopened hclosed hend
  have hentries : reader.indexManager.entries.length = 2 := by rw [hreader.entries_eq, htwo]
  refine ⟨by decide +kernel, hopened, hclosed, hone, reader, hopen, hentries, ?_⟩
  intro hclean
  rw [hclean.entries, List.length_map, hone] at hentries
  cases hentries

end Reuse

end NebulaFS
