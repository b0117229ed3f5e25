import NebulaFS.Lib.Nesting
import NebulaFS.Proof.RecoveryReplay

/-!
# What the analysis of a journal says

`isCheckpointConsistent` counts a checkpoint down at its `EndCheckpoint` only, which `abort` does not
write. So a journal of closed transactions is consistent exactly when none of them was aborted
(`analyzes_iff`). `findIncompleteTransactions` looks no further than the entry it stands at. It returns the
entries of all transactions, and these are the incomplete ones exactly when no transaction with an entry
was closed (`reportsIncomplete_iff`).
-/

namespace NebulaFS

namespace Recovery

open JournalManager Nesting

/-! ### Checkpoints that are counted -/

section

variable (platform : Platform) {journal : JournalManager}

/-- What `isCheckpointConsistent` counts: the checkpoints that were not ended, and whether there was a
`Commit` or an `Abort`. -/
def tally (journal : JournalManager) : Int × Bool :=
  journal.entries.foldl checkpointRound (0, false)

theorem analyze_success (hne : journal.entries ≠ []) :
    (analyze journal).success = true ↔ (tally journal).1 = 0 ∧ (tally journal).2 = true := by
  rw [analyze, if_neg hne]
  simp [isCheckpointConsistent, tally]

theorem tally_append {later : JournalManager} {added : List JournalEntry}
    (h : later.entries = journal.entries ++ added) :
    tally later = added.foldl checkpointRound (tally journal) := by
  rw [tally, h, List.foldl_append, tally]

theorem foldl_checkpointRound_data {entries : List JournalEntry}
    (h : ∀ entry ∈ entries, entry.type.isData = true) (state : Int × Bool) :
    entries.foldl checkpointRound state = state := by
  induction entries generalizing state with
  | nil => rfl
  | cons entry entries ih =>
      obtain ⟨hentry, hrest⟩ := List.forall_mem_cons.mp h
      have hround : checkpointRound state entry = state := by
        rw [checkpointRound]
        cases htype : entry.type with
        | beginCheckpoint | endCheckpoint | commit | abort => rw [htype] at hentry; cases hentry
        | _ => rfl
      rw [List.foldl_cons, hround]
      exact ih hrest state

/-- A call that logs a data entry, `log` itself included. -/
def logsData : LoggingCall → Bool
  | .log entry => entry.type.isData
  | .logCreate .. | .logUpdate .. | .logDelete .. | .logWriteBlock .. => true
  | _ => false

/-- A transaction as a client makes it. -/
structure LoggedTransaction where
  beginNow : Timestamp
  body : List LoggingCall
  closing : Closing
  logs : ∀ call ∈ body, logsData call = true

def LoggedTransaction.calls (transaction : LoggedTransaction) : List LoggingCall :=
  .beginCheckpoint transaction.beginNow :: (transaction.body ++ [transaction.closing.toLogging])

def runLogged (journal : JournalManager) (transactions : List LoggedTransaction) : JournalManager :=
  journal.run platform (transactions.flatMap LoggedTransaction.calls)

/-- Data entries came to the journal, and the checkpoint stayed as it was. -/
structure AddsData (journal after : JournalManager) : Prop where
  entries : ∃ added, after.entries = journal.entries ++ added
    ∧ ∀ entry ∈ added, entry.type.isData = true
  inCheckpoint_eq : after.inCheckpoint = journal.inCheckpoint

theorem addsData_logNew {type : JournalEntryType} (htype : type.isData = true) (data : Bytes)
    (now : Timestamp) : AddsData journal (journal.logNew platform type data now).1 := by
  refine ⟨?_, (logNew_flags platform journal type data now).2⟩
  cases hfull : journal.isJournalFull with
  | true =>
      rw [logNew_of_full platform hfull]
      exact ⟨[], (List.append_nil _).symm, by simp⟩
  | false =>
      obtain ⟨entry, hentry, -, hentries, -⟩ := logNew_of_not_full platform hfull type data now
      exact ⟨[entry], hentries, by simp [hentry, htype]⟩

theorem addsData_log {entry : JournalEntry} (hentry : entry.type.isData = true) :
    AddsData journal (journal.log platform entry).1 := by
  rw [log]
  split
  · exact ⟨⟨[], (List.append_nil _).symm, by simp⟩, rfl⟩
  · refine ⟨⟨_, rfl, ?_⟩, rfl⟩
    intro added hadded
    rw [List.mem_singleton.mp hadded]
    split <;> exact hentry

theorem addsData_step {call : LoggingCall} (hcall : logsData call = true) :
    AddsData journal (journal.step platform call).1 := by
  cases call with
  | log entry => exact addsData_log platform hcall
  | logCreate id data now => exact addsData_logNew platform rfl _ now
  | logUpdate id data now => exact addsData_logNew platform rfl _ now
  | logDelete id now => exact addsData_logNew platform rfl _ now
  | logWriteBlock chunk now => exact addsData_logNew platform rfl _ now
  | beginCheckpoint | endCheckpoint | commit | abort => cases hcall

/-- Data entries are not counted. -/
theorem AddsData.tally_eq {after : JournalManager} (h : AddsData journal after) :
    tally after = tally journal := by
  obtain ⟨added, hentries, hdata⟩ := h.entries
  rw [tally_append hentries, foldl_checkpointRound_data hdata]

theorem tally_body (journal : JournalManager) {body : List LoggingCall}
    (hbody : ∀ call ∈ body, logsData call = true) :
    tally (journal.run platform body) = tally journal
      ∧ (journal.run platform body).inCheckpoint = journal.inCheckpoint := by
  induction body generalizing journal with
  | nil => exact ⟨rfl, rfl⟩
  | cons call body ih =>
      obtain ⟨hcall, hrest⟩ := List.forall_mem_cons.mp hbody
      have hadds : AddsData journal (journal.step platform call).1 := addsData_step platform hcall
      rw [run_cons, ← hadds.tally_eq, ← hadds.inCheckpoint_eq]
      exact ih _ hrest

/-- A transaction that has begun and logged its entries. -/
theorem tally_open (hclosed : journal.inCheckpoint = false) (beginNow : Timestamp)
    {body : List LoggingCall} (hbody : ∀ call ∈ body, logsData call = true) :
    tally (journal.run platform (.beginCheckpoint beginNow :: body))
        = ((tally journal).1 + 1, (tally journal).2)
      ∧ (journal.run platform (.beginCheckpoint beginNow :: body)).inCheckpoint = true := by
  have hbegin : (journal.step platform (.beginCheckpoint beginNow)).1
      = { journal.pushMark .beginCheckpoint beginNow with
          inCheckpoint := true, needsRecovery := true } := by
    simp [step, beginCheckpoint, hclosed]
  obtain ⟨htally, hflag⟩ :=
    tally_body platform (journal.step platform (.beginCheckpoint beginNow)).1 hbody
  rw [run_cons, htally, hflag, hbegin]
  refine ⟨?_, rfl⟩
  exact @tally_append journal _ [(journal.createEntry .beginCheckpoint [] beginNow).1] rfl

/-- `commit` counts the checkpoint down, `abort` does not. -/
theorem tally_closing (hopen : journal.inCheckpoint = true) (closing : Closing) :
    tally (journal.step platform closing.toLogging).1
        = ((tally journal).1 - (if closing.isAbort then 0 else 1), true)
      ∧ (journal.step platform closing.toLogging).1.inCheckpoint = false := by
  cases closing with
  | commit endNow now =>
      rw [Closing.toLogging, step, commit, if_pos hopen]
      refine ⟨?_, rfl⟩
      exact @tally_append journal _ [(journal.createEntry .endCheckpoint [] endNow).1,
        ((journal.createEntry .endCheckpoint [] endNow).2.createEntry .commit [] now).1]
        (List.append_assoc _ _ _)
  | abort now =>
      have htally : tally (journal.step platform (Closing.abort now).toLogging).1
          = checkpointRound (tally journal) (journal.createEntry .abort [] now).1 :=
        @tally_append journal _ [(journal.createEntry .abort [] now).1] rfl
      refine ⟨?_, rfl⟩
      rw [htally]
      simp [checkpointRound, createEntry, Closing.isAbort]

theorem tally_transaction (hclosed : journal.inCheckpoint = false)
    (transaction : LoggedTransaction) :
    tally (journal.run platform transaction.calls)
        = ((tally journal).1 + (if transaction.closing.isAbort then 1 else 0), true)
      ∧ (journal.run platform transaction.calls).inCheckpoint = false := by
  obtain ⟨htally, hopen⟩ := tally_open platform hclosed transaction.beginNow transaction.logs
  obtain ⟨hcount, hafter⟩ := tally_closing platform hopen transaction.closing
  rw [← run_append_singleton, List.cons_append, ← LoggedTransaction.calls] at hcount hafter
  refine ⟨?_, hafter⟩
  rw [hcount, htally]
  cases transaction.closing.isAbort <;> simp

theorem tally_runLogged (hclosed : journal.inCheckpoint = false)
    (transactions : List LoggedTransaction) :
    tally (runLogged platform journal transactions)
        = ((tally journal).1 + transactions.countP (·.closing.isAbort),
          (tally journal).2 || !transactions.isEmpty)
      ∧ (runLogged platform journal transactions).inCheckpoint = false := by
  induction transactions generalizing journal with
  | nil => simp [runLogged, run, hclosed]
  | cons transaction transactions ih =>
      obtain ⟨htally, hafter⟩ := tally_transaction platform hclosed transaction
      obtain ⟨hrest, hlast⟩ := ih hafter
      rw [runLogged] at hrest hlast ⊢
      rw [List.flatMap_cons, run_append]
      refine ⟨?_, hlast⟩
      rw [hrest, htally, List.countP_cons]
      cases transaction.closing.isAbort with
      | false => simp
      | true =>
          simp
          omega

/-- A journal of closed transactions is found consistent, and one whose last transaction is open is
not. -/
def Analyzes (journal : JournalManager) (transactions : List LoggedTransaction) : Prop :=
  (transactions ≠ [] →
      (analyze (runLogged platform journal transactions)).success = true)
    ∧ ∀ (beginNow : Timestamp) (body : List LoggingCall), (∀ call ∈ body, logsData call = true) →
      (analyze ((runLogged platform journal transactions).run platform
        (.beginCheckpoint beginNow :: body))).success = false

theorem entries_ne_nil_of_tally {state : Int × Bool} (h : tally journal = state)
    (hne : state ≠ (0, false)) : journal.entries ≠ [] := by
  intro hnil
  rw [tally, hnil] at h
  exact hne h.symm

/-- **When the analysis is right about closed journals**: when no transaction was aborted. -/
theorem analyzes_iff (config : JournalConfig) (fd : Int) (transactions : List LoggedTransaction) :
    Analyzes platform (new config fd) transactions
      ↔ ∀ transaction ∈ transactions, transaction.closing.isAbort = false := by
  obtain ⟨htally, hclosed⟩ := tally_runLogged platform
    (show (new config fd).inCheckpoint = false from rfl) transactions
  have hstart : tally (new config fd) = (0, false) := rfl
  rw [hstart, Bool.false_or, Int.zero_add] at htally
  have hnone : transactions.countP (·.closing.isAbort) = 0
      ↔ ∀ transaction ∈ transactions, transaction.closing.isAbort = false := by
    simp [List.countP_eq_zero]
  have hopened : ∀ (beginNow : Timestamp) (body : List LoggingCall),
      (∀ call ∈ body, logsData call = true) →
      (analyze ((runLogged platform (new config fd) transactions).run platform
        (.beginCheckpoint beginNow :: body))).success = false := by
    intro beginNow body hbody
    obtain ⟨hopen, -⟩ := tally_open platform hclosed beginNow hbody
    rw [htally] at hopen
    have hpositive : (transactions.countP (·.closing.isAbort) : Int) + 1 ≠ 0 := by omega
    have hentries := entries_ne_nil_of_tally hopen fun heq => hpositive (congrArg Prod.fst heq)
    rw [Bool.eq_false_iff, ne_eq, analyze_success hentries, hopen]
    exact fun h => hpositive h.1
  rw [Analyzes, and_iff_left hopened, ← hnone]
  by_cases hne : transactions = []
  · subst hne
    simp
  · rw [List.isEmpty_eq_false_iff.mpr hne] at htally
    have hentries := entries_ne_nil_of_tally htally fun heq => Bool.noConfusion (congrArg Prod.snd heq)
    rw [analyze_success hentries, htally]
    simp [hne]

/-- One transaction with one entry, and its abort. -/
theorem not_analyzes_aborted :
    (analyze (runLogged Platform.reference (new {})
        [⟨{}, [.logDelete 7 {}], .abort {}, by decide⟩])).success = false
      ∧ ¬ Analyzes Platform.reference (new {}) [⟨{}, [.logDelete 7 {}], .abort {}, by decide⟩] := by
  have hfails : (analyze (runLogged Platform.reference (new {})
      [⟨{}, [.logDelete 7 {}], .abort {}, by decide⟩])).success = false := by decide
  refine ⟨hfails, ?_⟩
  intro h
  exact Bool.false_ne_true (hfails.symm.trans (h.1 (List.cons_ne_nil _ _)))

end

/-! ### Transactions that nothing closes -/

/-- What the entry is for the nesting of checkpoints: a `Commit` and an `Abort` close one as an
`EndCheckpoint` does, and all that is no mark is data. -/
def markKind (entry : JournalEntry) : Kind :=
  match entry.type with
  | .beginCheckpoint => .opens
  | .endCheckpoint | .commit | .abort => .closes
  | _ => .plain

theorem findIncompleteTransactions_eq (entries : List JournalEntry) (depth : Nat) :
    findIncompleteTransactions entries depth = inside markKind depth entries := by
  induction entries generalizing depth with
  | nil => rfl
  | cons entry entries ih =>
      rw [findIncompleteTransactions, inside_cons, next]
      cases htype : entry.type with
      | beginCheckpoint | endCheckpoint | commit | abort => simp [markKind, htype, ih]
      | _ =>
          simp only [markKind, htype, ih, true_and]
          split <;> rfl

/-- The scan finds the data entries behind every `BeginCheckpoint` that nothing closes, and so none where
everything is closed. -/
structure ReportsIncomplete (journal : JournalManager) : Prop where
  exact : findIncompleteTransactions journal.entries = unclosed markKind journal.entries
  none_of_closed : AllClosed markKind journal.entries →
    findIncompleteTransactions journal.entries = [] ∧ (analyze journal).entriesSkipped = 0

theorem entriesSkipped_analyze (journal : JournalManager) :
    (analyze journal).entriesSkipped = (findIncompleteTransactions journal.entries).length := by
  rw [analyze]
  split
  next hnil => rw [hnil]; rfl
  next => rfl

/-- **When the scan finds the incomplete transactions**: when every checkpoint with a data entry stays
open. -/
theorem reportsIncomplete_iff (journal : JournalManager) :
    ReportsIncomplete journal ↔ OpenAtPlain markKind 0 journal.entries := by
  have hscan : findIncompleteTransactions journal.entries = inside markKind 0 journal.entries :=
    findIncompleteTransactions_eq _ _
  rw [← inside_eq_unclosed_iff, ← hscan]
  refine ⟨ReportsIncomplete.exact, fun heq => ⟨heq, fun hclosed => ?_⟩⟩
  have hnil := heq.trans (unclosed_eq_nil hclosed)
  rw [entriesSkipped_analyze, hnil]
  exact ⟨rfl, rfl⟩

/-- One committed transaction with one entry: the entry is called incomplete. -/
theorem not_reportsIncomplete_committed :
    AllClosed markKind ((new {}).run Platform.reference
        [.beginCheckpoint {}, .logDelete 7 {}, .commit {} {}]).entries
      ∧ (analyze ((new {}).run Platform.reference
        [.beginCheckpoint {}, .logDelete 7 {}, .commit {} {}])).entriesSkipped = 1
      ∧ ¬ ReportsIncomplete ((new {}).run Platform.reference
        [.beginCheckpoint {}, .logDelete 7 {}, .commit {} {}]) := by
  have hclosed : AllClosed markKind ((new {}).run Platform.reference
      [.beginCheckpoint {}, .logDelete 7 {}, .commit {} {}]).entries := by decide
  have hskipped : (analyze ((new {}).run Platform.reference
      [.beginCheckpoint {}, .logDelete 7 {}, .commit {} {}])).entriesSkipped = 1 := by decide
  refine ⟨hclosed, hskipped, ?_⟩
  intro h
  rw [(h.none_of_closed hclosed).2] at hskipped
  cases hskipped

end Recovery

end NebulaFS
