import Mathlib.Data.List.Forall2
import Mathlib.Data.List.Induction
import NebulaFS.Recovery

/-!
# Runs of the journal

What a run of logging calls leaves behind in the parts the journal's readers look at. The flags: a
run asks for recovery exactly when some `beginCheckpoint` or `abort` has no `commit` after it, and an
open checkpoint always asks for it. The checksums: the journal's engine is made for `CRC32`, which
has no digest context, so every stored checksum is the zero array and every entry verifies.
-/

namespace NebulaFS

open LittleEndian

namespace JournalManager

variable (platform : Platform) {journal : JournalManager}

theorem run_append_singleton (journal : JournalManager) (calls : List LoggingCall)
    (call : LoggingCall) :
    journal.run platform (calls ++ [call]) = ((journal.run platform calls).step platform call).1 := by
  simp [run]

theorem run_append (journal : JournalManager) (calls later : List LoggingCall) :
    journal.run platform (calls ++ later) = (journal.run platform calls).run platform later := by
  simp [run]

theorem run_cons (journal : JournalManager) (call : LoggingCall) (calls : List LoggingCall) :
    journal.run platform (call :: calls) = (journal.step platform call).1.run platform calls := by
  simp [run]

/-! ### One log call -/

theorem logNew_of_full (hfull : journal.isJournalFull = true) (type : JournalEntryType) (data : Bytes)
    (now : Timestamp) :
    (journal.logNew platform type data now).1
      = { journal with sequence := journal.sequence + 1 } := by
  have hcreated : (journal.createEntry type data now).2.isJournalFull = true := hfull
  change ((journal.createEntry type data now).2.log platform _).1 = _
  rw [log, if_pos hcreated]
  rfl

theorem logNew_of_not_full (hfull : journal.isJournalFull = false) (type : JournalEntryType)
    (data : Bytes) (now : Timestamp) :
    ∃ entry : JournalEntry, entry.type = type ∧ entry.sequence = journal.sequence
      ∧ (journal.logNew platform type data now).1.entries = journal.entries ++ [entry]
      ∧ (journal.logNew platform type data now).1.sequence = journal.sequence + 1 := by
  have hcreated : ¬ (journal.createEntry type data now).2.isJournalFull = true := by
    rw [Bool.not_eq_true]
    exact hfull
  change ∃ entry : JournalEntry, entry.type = type ∧ entry.sequence = journal.sequence
    ∧ ((journal.createEntry type data now).2.log platform _).1.entries = journal.entries ++ [entry]
    ∧ ((journal.createEntry type data now).2.log platform _).1.sequence = journal.sequence + 1
  rw [log, if_neg hcreated]
  refine ⟨_, ?_, ?_, rfl, rfl⟩
  · split <;> rfl
  · split <;> rfl

/-! ### The flags -/

namespace LoggingCall

def leavesUnfinished : LoggingCall → Bool
  | beginCheckpoint _ | abort _ => true
  | _ => false

def isCommit : LoggingCall → Bool
  | commit _ _ => true
  | _ => false

end LoggingCall

def Flagged (journal : JournalManager) : Prop :=
  journal.inCheckpoint → journal.needsRecovery

theorem log_flags (journal : JournalManager) (entry : JournalEntry) :
    (journal.log platform entry).1.needsRecovery = journal.needsRecovery
      ∧ (journal.log platform entry).1.inCheckpoint = journal.inCheckpoint := by
  rw [log]
  split <;> exact ⟨rfl, rfl⟩

theorem logNew_flags (journal : JournalManager) (type : JournalEntryType) (data : Bytes)
    (now : Timestamp) :
    (journal.logNew platform type data now).1.needsRecovery = journal.needsRecovery
      ∧ (journal.logNew platform type data now).1.inCheckpoint = journal.inCheckpoint :=
  log_flags platform _ _

theorem step_needsRecovery (h : journal.Flagged) (call : LoggingCall) :
    (journal.step platform call).1.needsRecovery
      = if call.leavesUnfinished then true
        else if call.isCommit then false else journal.needsRecovery := by
  cases call with
  | beginCheckpoint now =>
      rw [step, beginCheckpoint]
      split
      · rename_i hopen
        exact h hopen
      · rfl
  | endCheckpoint now =>
      rw [step, endCheckpoint]
      split <;> rfl
  | log entry => exact (log_flags platform journal entry).1
  | logCreate id data now => exact (logNew_flags platform journal _ _ now).1
  | logUpdate id data now => exact (logNew_flags platform journal _ _ now).1
  | logDelete id now => exact (logNew_flags platform journal _ _ now).1
  | logWriteBlock chunk now => exact (logNew_flags platform journal _ _ now).1
  | commit endNow now => rfl
  | abort now => rfl

theorem Flagged.step (h : journal.Flagged) (call : LoggingCall) :
    (journal.step platform call).1.Flagged := by
  intro hopen
  rw [step_needsRecovery platform h]
  cases call with
  | beginCheckpoint now => rfl
  | endCheckpoint now =>
      rw [JournalManager.step, endCheckpoint] at hopen
      split at hopen
      · exact h hopen
      · cases hopen
  | log entry => exact h ((log_flags platform journal entry).2 ▸ hopen)
  | logCreate id data now => exact h ((logNew_flags platform journal _ _ now).2 ▸ hopen)
  | logUpdate id data now => exact h ((logNew_flags platform journal _ _ now).2 ▸ hopen)
  | logDelete id now => exact h ((logNew_flags platform journal _ _ now).2 ▸ hopen)
  | logWriteBlock chunk now => exact h ((logNew_flags platform journal _ _ now).2 ▸ hopen)
  | commit endNow now =>
      rw [JournalManager.step, commit] at hopen
      split at hopen
      · cases hopen
      · rename_i hclosed
        exact absurd hopen hclosed
  | abort now => rfl

theorem Flagged.run (h : journal.Flagged) (calls : List LoggingCall) :
    (journal.run platform calls).Flagged := by
  induction calls using List.reverseRecOn with
  | nil => exact h
  | append_singleton calls call ih =>
      rw [run_append_singleton]
      exact ih.step platform call

theorem flagged_new (config : JournalConfig) (fd : Int) : (new config fd).Flagged := by
  intro hopen
  cases hopen

/-- Every call that leaves something unfinished has a `commit` after it. -/
def AllCommitted (calls : List LoggingCall) : Prop :=
  ∀ before call after, calls = before ++ call :: after → call.leavesUnfinished →
    ∃ later ∈ after, later.isCommit

theorem allCommitted_append_singleton (calls : List LoggingCall) (call : LoggingCall) :
    AllCommitted (calls ++ [call])
      ↔ call.leavesUnfinished = false ∧ (call.isCommit ∨ AllCommitted calls) := by
  constructor
  · intro h
    refine ⟨?_, ?_⟩
    · by_contra hleaves
      obtain ⟨later, hlater, -⟩ := h calls call [] rfl (by simpa using hleaves)
      simp at hlater
    · by_cases hcommit : call.isCommit
      · exact .inl hcommit
      · right
        intro before other after hsplit hleaves
        obtain ⟨later, hlater, hisCommit⟩ :=
          h before other (after ++ [call]) (by simp [hsplit]) hleaves
        rcases List.mem_append.mp hlater with hin | hlast
        · exact ⟨later, hin, hisCommit⟩
        · rw [List.mem_singleton.mp hlast] at hisCommit
          exact absurd hisCommit hcommit
  · rintro ⟨hfinished, hcommitted⟩ before other after hsplit hleaves
    rcases List.eq_nil_or_concat after with rfl | ⟨init, last, rfl⟩
    · -- the unfinished call would be the last one
      have hlast : call = other := by
        have := congrArg List.getLast? hsplit
        simpa using this
      rw [hlast, hleaves] at hfinished
      cases hfinished
    · have hsplit' : calls ++ [call] = (before ++ other :: init) ++ [last] := by
        rw [hsplit]
        simp
      obtain ⟨hcalls, hlast⟩ := List.append_inj' hsplit' rfl
      rcases hcommitted with hcommit | hcommitted
      · refine ⟨last, by simp, ?_⟩
        rw [← List.singleton_inj.mp hlast]
        exact hcommit
      · obtain ⟨later, hlater, hisCommit⟩ := hcommitted before other init hcalls hleaves
        exact ⟨later, by simp [hlater], hisCommit⟩

theorem run_needsRecovery_eq_false_iff (config : JournalConfig) (fd : Int)
    (calls : List LoggingCall) :
    ((new config fd).run platform calls).needsRecovery = false ↔ AllCommitted calls := by
  induction calls using List.reverseRecOn with
  | nil => simp [run, new, AllCommitted]
  | append_singleton calls call ih =>
      have hflagged := (flagged_new config fd).run platform calls
      rw [run_append_singleton, step_needsRecovery platform hflagged, allCommitted_append_singleton,
        ← ih]
      cases call.leavesUnfinished <;> cases call.isCommit <;> simp

theorem deserialize_flags (receiver : JournalManager) (data : Bytes) :
    (receiver.deserialize data).1.needsRecovery = false
      ∧ (receiver.deserialize data).1.inCheckpoint = false := by
  rw [deserialize]
  split
  · exact ⟨rfl, rfl⟩
  · simp only
    split
    · exact ⟨rfl, rfl⟩
    · split <;> exact ⟨rfl, rfl⟩

/-- **What a persisted journal forgets.** The flags are not part of the encoding, so a journal that
was written and read back answers as before exactly when everything it began or aborted was later
committed. -/
theorem deserialize_serialize_answers_iff (config : JournalConfig) (fd : Int)
    (calls : List LoggingCall) (receiver : JournalManager) :
    (Recovery.needsRecovery
          (receiver.deserialize ((new config fd).run platform calls).serialize).1
        = Recovery.needsRecovery ((new config fd).run platform calls)
      ∧ (receiver.deserialize ((new config fd).run platform calls).serialize).1.hasUncommitted
        = ((new config fd).run platform calls).hasUncommitted)
      ↔ ∀ before call after, calls = before ++ call :: after → call.leavesUnfinished →
          ∃ later ∈ after, later.isCommit := by
  have hflags := deserialize_flags receiver ((new config fd).run platform calls).serialize
  have hflagged := (flagged_new config fd).run platform calls
  have hrecovery := run_needsRecovery_eq_false_iff platform config fd calls
  rw [AllCommitted] at hrecovery
  rw [← hrecovery]
  simp only [Recovery.needsRecovery, hasUncommitted, hflags.1, hflags.2, Bool.or_false]
  constructor
  · rintro ⟨hneeds, -⟩
    exact (Bool.or_eq_false_iff.mp hneeds.symm).1
  · intro hneeds
    have hopen : ((new config fd).run platform calls).inCheckpoint = false := by
      by_contra hopen
      exact absurd (hflagged (by simpa using hopen)) (by simp [hneeds])
    rw [hneeds, hopen]
    exact ⟨rfl, rfl⟩

/-- A crash inside a checkpoint: the journal on disk no longer asks for recovery. -/
theorem deserialize_serialize_answers_ne_openCheckpoint :
    Recovery.needsRecovery ((new {}).run Platform.reference [.beginCheckpoint {}]) = true
      ∧ ((new {}).run Platform.reference [.beginCheckpoint {}]).hasUncommitted = true
      ∧ ((new {}).deserialize
          ((new {}).run Platform.reference [.beginCheckpoint {}]).serialize).2 = none
      ∧ Recovery.needsRecovery ((new {}).deserialize
          ((new {}).run Platform.reference [.beginCheckpoint {}]).serialize).1 = false
      ∧ ((new {}).deserialize
          ((new {}).run Platform.reference [.beginCheckpoint {}]).serialize).1.hasUncommitted
        = false := by
  decide +kernel

/-! ### The checksums -/

/-- No entry of the journal carries a digest, and its engine makes none. -/
structure Unsigned (journal : JournalManager) : Prop where
  algo : journal.checksum.algo = .crc32
  checksums : ∀ entry ∈ journal.entries, entry.checksum = zeroArr 32

theorem unsigned_new (config : JournalConfig) (fd : Int) : (new config fd).Unsigned :=
  ⟨rfl, by simp [new]⟩

theorem entryDigest_of_crc32 {engine : ChecksumEngine} (halgo : engine.algo = .crc32)
    (entry : JournalEntry) : entryDigest platform engine entry = zeroArr 32 := by
  rw [entryDigest, ChecksumEngine.finalize_of_ctx_none]
  · rfl
  · simp only [ChecksumEngine.update, ChecksumEngine.ctx_of_crc32 halgo, Option.map_none]

theorem Unsigned.verifyIntegrity (h : journal.Unsigned) : journal.verifyIntegrity platform = true := by
  rw [JournalManager.verifyIntegrity, List.all_eq_true]
  intro entry hentry
  rw [decide_eq_true_eq, entryDigest_of_crc32 platform h.algo, h.checksums entry hentry]

theorem Unsigned.append (h : journal.Unsigned) {entry : JournalEntry}
    (hentry : entry.checksum = zeroArr 32) :
    ∀ other ∈ journal.entries ++ [entry], other.checksum = zeroArr 32 := by
  intro other hother
  rcases List.mem_append.mp hother with hold | hnew
  · exact h.checksums other hold
  · rw [List.mem_singleton.mp hnew, hentry]

theorem Unsigned.pushMark (h : journal.Unsigned) (type : JournalEntryType) (now : Timestamp) :
    (journal.pushMark type now).Unsigned :=
  ⟨h.algo, h.append rfl⟩

theorem Unsigned.log (h : journal.Unsigned) {entry : JournalEntry}
    (hentry : journal.config.enableChecksums ∨ entry.checksum = zeroArr 32) :
    (journal.log platform entry).1.Unsigned := by
  rw [JournalManager.log]
  split
  · exact h
  · refine ⟨h.algo, h.append ?_⟩
    split
    · exact entryDigest_of_crc32 platform h.algo entry
    · rename_i hoff
      exact hentry.resolve_left hoff

theorem Unsigned.logNew (h : journal.Unsigned) (type : JournalEntryType) (data : Bytes)
    (now : Timestamp) : (journal.logNew platform type data now).1.Unsigned := by
  have hcreated : (journal.createEntry type data now).2.Unsigned := ⟨h.algo, h.checksums⟩
  exact hcreated.log platform (.inr rfl)

theorem Unsigned.step (h : journal.Unsigned) {call : LoggingCall}
    (hcall : journal.config.enableChecksums ∨ ∀ entry, call ≠ .log entry) :
    (journal.step platform call).1.Unsigned := by
  cases call with
  | beginCheckpoint now =>
      rw [JournalManager.step, beginCheckpoint]
      split
      · exact h
      · exact ⟨h.algo, (h.pushMark .beginCheckpoint now).checksums⟩
  | endCheckpoint now =>
      rw [JournalManager.step, endCheckpoint]
      split
      · exact h
      · exact ⟨h.algo, (h.pushMark .endCheckpoint now).checksums⟩
  | log entry => exact h.log platform (.inl (hcall.resolve_right fun hnot => hnot entry rfl))
  | logCreate id data now => exact h.logNew platform _ _ now
  | logUpdate id data now => exact h.logNew platform _ _ now
  | logDelete id now => exact h.logNew platform _ _ now
  | logWriteBlock chunk now => exact h.logNew platform _ _ now
  | commit endNow now =>
      rw [JournalManager.step, commit]
      split
      · have hended : ({ journal.pushMark .endCheckpoint endNow with
            inCheckpoint := false } : JournalManager).Unsigned :=
          ⟨h.algo, (h.pushMark .endCheckpoint endNow).checksums⟩
        exact ⟨h.algo, (hended.pushMark .commit now).checksums⟩
      · exact ⟨h.algo, (h.pushMark .commit now).checksums⟩
  | abort now => exact ⟨h.algo, (h.pushMark .abort now).checksums⟩

theorem log_config (journal : JournalManager) (entry : JournalEntry) :
    (journal.log platform entry).1.config = journal.config := by
  rw [log]
  split <;> rfl

theorem step_config (journal : JournalManager) (call : LoggingCall) :
    (journal.step platform call).1.config = journal.config := by
  cases call with
  | beginCheckpoint now =>
      rw [step, beginCheckpoint]
      split <;> rfl
  | endCheckpoint now =>
      rw [step, endCheckpoint]
      split <;> rfl
  | commit endNow now =>
      rw [step, commit]
      split <;> rfl
  | abort now => rfl
  | log entry => exact log_config platform journal entry
  | logCreate id data now => exact log_config platform _ _
  | logUpdate id data now => exact log_config platform _ _
  | logDelete id now => exact log_config platform _ _
  | logWriteBlock chunk now => exact log_config platform _ _

theorem run_config (journal : JournalManager) (calls : List LoggingCall) :
    (journal.run platform calls).config = journal.config := by
  induction calls using List.reverseRecOn with
  | nil => rfl
  | append_singleton calls call ih => rw [run_append_singleton, step_config, ih]

theorem Unsigned.run (h : journal.Unsigned) {calls : List LoggingCall}
    (hcalls : journal.config.enableChecksums ∨ ∀ call ∈ calls, ∀ entry, call ≠ .log entry) :
    (journal.run platform calls).Unsigned := by
  induction calls using List.reverseRecOn with
  | nil => exact h
  | append_singleton calls call ih =>
      rw [run_append_singleton]
      have hbefore := ih (hcalls.imp_right fun hnot other hother => hnot other (by simp [hother]))
      refine hbefore.step platform ?_
      rw [run_config]
      exact hcalls.imp_right fun hnot => hnot call (by simp)

/-- `changed` is the entry, or the entry is a data entry and `changed` differs from it in the type, the
sequence number or the payload only. -/
def EntryTampered (entry changed : JournalEntry) : Prop :=
  changed = entry ∨ (entry.type.isData ∧ changed.timestamp = entry.timestamp
    ∧ changed.checksum = entry.checksum)

/-- `tampered` is the journal with one or more of its data entries changed, and everything else, the
stored checksums included, as it was. -/
def Tampered (journal tampered : JournalManager) : Prop :=
  tampered = { journal with entries := tampered.entries }
    ∧ tampered.entries ≠ journal.entries
    ∧ List.Forall₂ EntryTampered journal.entries tampered.entries

theorem map_checksum_of_entryTampered {entries changed : List JournalEntry}
    (h : List.Forall₂ EntryTampered entries changed) :
    changed.map (·.checksum) = entries.map (·.checksum) := by
  induction h with
  | nil => rfl
  | cons hpair _ ih =>
      rcases hpair with rfl | ⟨-, -, hchecksum⟩
      · simp only [List.map_cons, ih]
      · simp only [List.map_cons, ih, hchecksum]

theorem eq_of_entryTampered {entries changed : List JournalEntry}
    (h : List.Forall₂ EntryTampered entries changed)
    (hnone : ∀ entry ∈ entries, entry.type.isData = false) : changed = entries := by
  induction h with
  | nil => rfl
  | cons hpair _ ih =>
      have hhead := hnone _ List.mem_cons_self
      rw [ih fun entry hentry => hnone entry (by simp [hentry])]
      rcases hpair with rfl | ⟨hdata, -⟩
      · rfl
      · rw [hhead] at hdata
        cases hdata

theorem Unsigned.tampered {tampered : JournalManager} (h : journal.Unsigned)
    (htampered : journal.Tampered tampered) : tampered.Unsigned := by
  obtain ⟨hrest, -, hentries⟩ := htampered
  refine ⟨by rw [hrest]; exact h.algo, ?_⟩
  intro changed hchanged
  have hmem : changed.checksum ∈ journal.entries.map (·.checksum) :=
    map_checksum_of_entryTampered hentries ▸ List.mem_map_of_mem hchanged
  obtain ⟨entry, hentry, heq⟩ := List.mem_map.mp hmem
  rw [← heq, h.checksums entry hentry]

theorem exists_tampered {entry : JournalEntry} (hentry : entry ∈ journal.entries)
    (hdata : entry.type.isData) : ∃ tampered, journal.Tampered tampered := by
  obtain ⟨before, after, hsplit⟩ := List.append_of_mem hentry
  refine ⟨{ journal with
    entries := before ++ { entry with data := 0 :: entry.data } :: after }, rfl, ?_, ?_⟩
  · rw [hsplit]
    intro heq
    have hhead := (List.cons.inj (List.append_cancel_left heq)).1
    have hlength := congrArg (fun e : JournalEntry => e.data.length) hhead
    simp at hlength
  · rw [hsplit]
    refine List.rel_append ?_ (.cons (.inr ⟨hdata, rfl, rfl⟩) ?_)
    · exact List.forall₂_same.mpr fun _ _ => .inl rfl
    · exact List.forall₂_same.mpr fun _ _ => .inl rfl

/-- **The integrity check checks nothing.** A journal built with checksums on verifies, and so does
every tampered copy of it; all copies are told apart only when there is nothing to tamper with. -/
theorem verifyIntegrity_detects_tampering_iff {config : JournalConfig}
    (hchecksums : config.enableChecksums = true) (fd : Int) (calls : List LoggingCall) :
    (((new config fd).run platform calls).verifyIntegrity platform = true
      ∧ ∀ tampered, ((new config fd).run platform calls).Tampered tampered →
        tampered.verifyIntegrity platform = false)
      ↔ ∀ entry ∈ ((new config fd).run platform calls).entries, entry.type.isData = false := by
  have hunsigned : ((new config fd).run platform calls).Unsigned :=
    (unsigned_new config fd).run platform (.inl hchecksums)
  constructor
  · rintro ⟨-, hdetects⟩ entry hentry
    by_contra hdata
    obtain ⟨tampered, htampered⟩ := exists_tampered hentry (by simpa using hdata)
    have hverified := (hunsigned.tampered htampered).verifyIntegrity platform
    rw [hdetects tampered htampered] at hverified
    cases hverified
  · intro hnone
    refine ⟨hunsigned.verifyIntegrity platform, ?_⟩
    rintro tampered ⟨-, hchanged, hentries⟩
    exact absurd (eq_of_entryTampered hentries hnone) hchanged

theorem verifyIntegrity_detects_tampering_marks :
    ((new {}).run Platform.reference [.beginCheckpoint {}, .commit {} {}]).verifyIntegrity
        Platform.reference = true
      ∧ ∀ tampered, ((new {}).run Platform.reference
          [.beginCheckpoint {}, .commit {} {}]).Tampered tampered →
        tampered.verifyIntegrity Platform.reference = false :=
  (verifyIntegrity_detects_tampering_iff Platform.reference rfl (-1)
    [.beginCheckpoint {}, .commit {} {}]).mpr (by decide)

def loggedDelete : JournalManager :=
  (new {}).run Platform.reference [.logDelete 7 {}]

def loggedDeleteTampered : JournalManager :=
  { loggedDelete with entries := loggedDelete.entries.map fun entry => { entry with data := [8] } }

/-- The CRC-32 of the two entries differs, and the integrity check accepts both. -/
theorem verifyIntegrity_misses_tampering :
    loggedDelete.Tampered loggedDeleteTampered
      ∧ Platform.reference.crc32 ([5] ++ leBytes 8 0 ++ [7])
        ≠ Platform.reference.crc32 ([5] ++ leBytes 8 0 ++ [8])
      ∧ loggedDelete.entries.map (·.data) = [[7]]
      ∧ loggedDeleteTampered.entries.map (·.data) = [[8]]
      ∧ loggedDeleteTampered.verifyIntegrity Platform.reference = true := by
  refine ⟨⟨rfl, by decide, ?_⟩, by decide +kernel, by decide, by decide, by decide⟩
  exact .cons (.inr ⟨rfl, rfl, rfl⟩) .nil

end JournalManager

end NebulaFS
