import NebulaFS.Proof.JournalRuns

/-!
# What recovery replays

A client uses the journal in transactions: `beginCheckpoint`, any number of log calls, and `commit`
or `abort`. `recover` decides in one forward pass: a data entry is applied when a `beginCheckpoint`
is open before it, and the record that closes the transaction comes later. So it applies the data
entries of every transaction, aborted ones included (`applied_run`), and it replays committed work
only exactly when no aborted transaction got a data entry into the journal.
-/

namespace NebulaFS

namespace Recovery

open JournalManager

/-! ### Transactions -/

inductive DataCall
  | create (id : EntryID) (data : Bytes) (now : Timestamp)
  | update (id : EntryID) (data : Bytes) (now : Timestamp)
  | delete (id : EntryID) (now : Timestamp)
  | writeBlock (chunk : ChunkDescriptor) (now : Timestamp)
deriving DecidableEq

def DataCall.toLogging : DataCall → LoggingCall
  | create id data now => .logCreate id data now
  | update id data now => .logUpdate id data now
  | delete id now => .logDelete id now
  | writeBlock chunk now => .logWriteBlock chunk now

inductive Closing
  | commit (endNow now : Timestamp)
  | abort (now : Timestamp)
deriving DecidableEq

def Closing.toLogging : Closing → LoggingCall
  | commit endNow now => .commit endNow now
  | abort now => .abort now

def Closing.isAbort : Closing → Bool
  | commit _ _ => false
  | abort _ => true

structure Transaction where
  beginNow : Timestamp
  body : List DataCall
  closing : Closing
deriving DecidableEq

def Transaction.calls (transaction : Transaction) : List LoggingCall :=
  .beginCheckpoint transaction.beginNow
    :: (transaction.body.map DataCall.toLogging ++ [transaction.closing.toLogging])

section

variable (platform : Platform)

def runTransactions (journal : JournalManager) (transactions : List Transaction) : JournalManager :=
  journal.run platform (transactions.flatMap Transaction.calls)

/-- The data entries a transaction added to the journal it ran on. -/
def dataEntries (journal : JournalManager) (transaction : Transaction) : List JournalEntry :=
  ((journal.run platform transaction.calls).entries.drop journal.entries.length).filter
    (·.type.isData)

/-- The data entries of the transactions closed by `commit`, in journal order. -/
def committedEntries (journal : JournalManager) : List Transaction → List JournalEntry
  | [] => []
  | transaction :: transactions =>
      (if transaction.closing.isAbort then [] else dataEntries platform journal transaction)
        ++ committedEntries (journal.run platform transaction.calls) transactions

def record (entry : JournalEntry) (calls : List JournalEntry) :
    Option String × List JournalEntry :=
  (none, calls ++ [entry])

/-- The entries `recover` calls `applyEntry` on, in order. -/
def replayed (config : RecoveryConfig) (journal : JournalManager) : List JournalEntry :=
  (recover platform config journal record []).2.2

end

/-! ### The forward pass -/

/-- The entries the loop of `recover` applies: those behind an open `beginCheckpoint`. -/
def applied : Bool → List JournalEntry → List JournalEntry
  | _, [] => []
  | active, entry :: entries =>
      match entry.type with
      | .beginCheckpoint => applied true entries
      | .endCheckpoint | .commit | .abort => applied false entries
      | _ => if active then entry :: applied active entries else applied active entries

theorem recoverLoop_record (config : RecoveryConfig) (entries : List JournalEntry)
    (result : RecoveryResult) (active : Bool) (calls : List JournalEntry) :
    ∃ result', recoverLoop config false record entries result active calls
      = (.ok result', calls ++ applied active entries) := by
  induction entries generalizing result active calls with
  | nil => exact ⟨result, by simp [recoverLoop, applied]⟩
  | cons entry entries ih =>
      rw [recoverLoop, if_neg (by simp), applied]
      cases entry.type with
      | beginCheckpoint => exact ih _ _ _
      | endCheckpoint => exact ih _ _ _
      | commit => exact ih _ _ _
      | abort => exact ih _ _ _
      | _ =>
          cases active with
          | false => exact ih _ _ _
          | true =>
              obtain ⟨result', heq⟩ := ih
                { result with entriesReplayed := result.entriesReplayed + 1 } true
                (calls ++ [entry])
              exact ⟨result', by simpa [record] using heq⟩

theorem replayed_eq_applied {platform : Platform} {journal : JournalManager}
    (h : journal.verifyIntegrity platform = true) (config : RecoveryConfig) :
    replayed platform config journal = applied false journal.entries := by
  obtain ⟨result, hloop⟩ := recoverLoop_record config journal.entries
    { entriesSkipped := (analyze journal).entriesSkipped
      entriesCorrupt := (analyze journal).entriesCorrupt } false []
  rw [replayed, recover, h]
  simp only [Bool.not_true]
  rw [hloop]
  rfl

theorem applied_true_of_isData {entries : List JournalEntry}
    (h : ∀ entry ∈ entries, entry.type.isData) (rest : List JournalEntry) :
    applied true (entries ++ rest) = entries ++ applied true rest := by
  induction entries with
  | nil => rfl
  | cons entry entries ih =>
      have hentry := h entry List.mem_cons_self
      have hentries := ih fun other hother => h other (List.mem_cons_of_mem _ hother)
      rw [List.cons_append, applied, hentries]
      cases htype : entry.type with
      | beginCheckpoint | endCheckpoint | commit | abort => simp [htype, JournalEntryType.isData] at hentry
      | _ => rfl

def Closes (marks : List JournalEntry) : Prop :=
  marks ≠ [] ∧ ∀ mark ∈ marks,
    mark.type = .endCheckpoint ∨ mark.type = .commit ∨ mark.type = .abort

theorem applied_of_closes {marks : List JournalEntry} (h : Closes marks) (active : Bool)
    (rest : List JournalEntry) : applied active (marks ++ rest) = applied false rest := by
  obtain ⟨hne, hmarks⟩ := h
  induction marks generalizing active with
  | nil => exact absurd rfl hne
  | cons mark marks ih =>
      have hstep : applied active (mark :: (marks ++ rest)) = applied false (marks ++ rest) := by
        rcases hmarks mark List.mem_cons_self with htype | htype | htype <;> simp [applied, htype]
      rw [List.cons_append, hstep]
      rcases marks with _ | ⟨next, marks⟩
      · rfl
      · exact ih false (by simp) fun other hother => hmarks other (List.mem_cons_of_mem _ hother)

theorem filter_isData_of_closes {marks : List JournalEntry} (h : Closes marks) :
    marks.filter (·.type.isData) = [] := by
  rw [List.filter_eq_nil_iff]
  intro mark hmark
  rcases h.2 mark hmark with htype | htype | htype <;> simp [htype, JournalEntryType.isData]

/-! ### One transaction -/

section

variable (platform : Platform)

theorem step_toLogging (call : DataCall) :
    ∃ type data now, type.isData = true ∧ ∀ journal : JournalManager,
      journal.step platform call.toLogging = journal.logNew platform type data now := by
  cases call with
  | create id data now => exact ⟨_, _, now, rfl, fun _ => rfl⟩
  | update id data now => exact ⟨_, _, now, rfl, fun _ => rfl⟩
  | delete id now => exact ⟨_, _, now, rfl, fun _ => rfl⟩
  | writeBlock chunk now => exact ⟨_, _, now, rfl, fun _ => rfl⟩

theorem run_body (journal : JournalManager) (body : List DataCall) :
    ∃ logged : List JournalEntry,
      (journal.run platform (body.map DataCall.toLogging)).entries = journal.entries ++ logged
      ∧ (journal.run platform (body.map DataCall.toLogging)).inCheckpoint = journal.inCheckpoint
      ∧ (∀ entry ∈ logged, entry.type.isData = true)
      ∧ (logged = [] ↔ body = [] ∨ journal.isJournalFull = true) := by
  induction body generalizing journal with
  | nil => exact ⟨[], by simp [run]⟩
  | cons call body ih =>
      obtain ⟨type, data, now, hdata, hstep⟩ := step_toLogging platform call
      rw [List.map_cons, run_cons, hstep]
      obtain ⟨logged, hentries, hopen, hall, hempty⟩ := ih (journal.logNew platform type data now).1
      rw [(logNew_flags platform journal type data now).2] at hopen
      cases hfull : journal.isJournalFull with
      | true =>
          rw [logNew_of_full platform hfull] at hentries hopen hempty ⊢
          refine ⟨logged, hentries, hopen, hall, ?_⟩
          have hstill : ({ journal with sequence := journal.sequence + 1 } :
            JournalManager).isJournalFull = true := hfull
          simp [hempty, hstill]
      | false =>
          obtain ⟨entry, htype, -, hentry, -⟩ := logNew_of_not_full platform hfull type data now
          refine ⟨entry :: logged, ?_, hopen, ?_, by simp⟩
          · rw [hentries, hentry]
            simp
          · intro other hother
            rcases List.mem_cons.mp hother with rfl | hother
            · rw [htype, hdata]
            · exact hall other hother

theorem step_closing {journal : JournalManager} (hopen : journal.inCheckpoint = true)
    (closing : Closing) :
    ∃ marks, Closes marks
      ∧ (journal.step platform closing.toLogging).1.entries = journal.entries ++ marks
      ∧ (journal.step platform closing.toLogging).1.inCheckpoint = false := by
  cases closing with
  | commit endNow now =>
      rw [Closing.toLogging, step, commit, if_pos hopen]
      refine ⟨[(journal.createEntry .endCheckpoint [] endNow).1,
        ((journal.createEntry .endCheckpoint [] endNow).2.createEntry .commit [] now).1], ?_, ?_, rfl⟩
      · exact ⟨List.cons_ne_nil _ _, by simp [createEntry]⟩
      · simp [pushMark, createEntry]
  | abort now => exact ⟨_, ⟨List.cons_ne_nil _ _, by simp⟩, rfl, rfl⟩

theorem run_transaction {journal : JournalManager} (hclosed : journal.inCheckpoint = false)
    (transaction : Transaction) :
    ∃ mark marks, mark.type = .beginCheckpoint ∧ Closes marks
      ∧ (journal.run platform transaction.calls).entries
        = journal.entries ++ mark :: (dataEntries platform journal transaction ++ marks)
      ∧ (journal.run platform transaction.calls).inCheckpoint = false
      ∧ (∀ entry ∈ dataEntries platform journal transaction, entry.type.isData = true)
      ∧ (dataEntries platform journal transaction = []
        ↔ transaction.body = [] ∨ journal.isJournalFull = true) := by
  have hbegin : (journal.step platform (.beginCheckpoint transaction.beginNow)).1
      = { journal.pushMark .beginCheckpoint transaction.beginNow with
          inCheckpoint := true, needsRecovery := true } := by
    simp [step, beginCheckpoint, hclosed]
  obtain ⟨logged, hlogged, hopen, hall, hempty⟩ := run_body platform
    (journal.step platform (.beginCheckpoint transaction.beginNow)).1 transaction.body
  rw [hbegin] at hlogged hopen hempty
  obtain ⟨marks, hcloses, hmarks, hafter⟩ := step_closing platform hopen transaction.closing
  have hrun : journal.run platform transaction.calls
      = ((JournalManager.run platform { journal.pushMark .beginCheckpoint transaction.beginNow with
          inCheckpoint := true, needsRecovery := true }
          (transaction.body.map DataCall.toLogging)).step platform
            transaction.closing.toLogging).1 := by
    rw [Transaction.calls, run_cons, run_append_singleton, hbegin]
  rw [hlogged, ← hrun] at hmarks
  rw [← hrun] at hafter
  set mark := (journal.createEntry .beginCheckpoint [] transaction.beginNow).1
  have hentries : (journal.run platform transaction.calls).entries
      = journal.entries ++ mark :: (logged ++ marks) := by
    rw [hmarks]
    simp [pushMark, createEntry, mark]
  have hdata : dataEntries platform journal transaction = logged := by
    rw [dataEntries, hentries, List.drop_left, List.filter_cons_of_neg (by simp [mark,
      createEntry, JournalEntryType.isData]), List.filter_append, filter_isData_of_closes hcloses,
      List.append_nil, List.filter_eq_self]
    exact hall
  rw [hdata]
  exact ⟨mark, marks, rfl, hcloses, hentries, hafter, hall, hempty⟩

/-! ### Every transaction -/

def loggedEntries (journal : JournalManager) : List Transaction → List JournalEntry
  | [] => []
  | transaction :: transactions =>
      dataEntries platform journal transaction
        ++ loggedEntries (journal.run platform transaction.calls) transactions

theorem runTransactions_cons (journal : JournalManager) (transaction : Transaction)
    (transactions : List Transaction) :
    runTransactions platform journal (transaction :: transactions)
      = runTransactions platform (journal.run platform transaction.calls) transactions := by
  rw [runTransactions, List.flatMap_cons, run_append, runTransactions]

theorem applied_runTransactions {journal : JournalManager} (hclosed : journal.inCheckpoint = false)
    (transactions : List Transaction) :
    ∃ added, (runTransactions platform journal transactions).entries = journal.entries ++ added
      ∧ applied false added = loggedEntries platform journal transactions := by
  induction transactions generalizing journal with
  | nil => exact ⟨[], by simp [runTransactions, run], rfl⟩
  | cons transaction transactions ih =>
      obtain ⟨mark, marks, hmark, hcloses, hentries, hafter, hall, -⟩ :=
        run_transaction platform hclosed transaction
      obtain ⟨added, hadded, happlied⟩ := ih hafter
      refine ⟨mark :: (dataEntries platform journal transaction ++ (marks ++ added)), ?_, ?_⟩
      · rw [runTransactions_cons, hadded, hentries]
        simp
      · rw [loggedEntries, ← happlied, applied, hmark, applied_true_of_isData hall,
          applied_of_closes hcloses]

/-- No aborted transaction got a data entry into the journal. -/
def AbortsNothing (journal : JournalManager) : List Transaction → Prop
  | [] => True
  | transaction :: transactions =>
      (transaction.closing.isAbort → transaction.body = [] ∨ journal.isJournalFull = true)
        ∧ AbortsNothing (journal.run platform transaction.calls) transactions

theorem abortsNothing_iff (journal : JournalManager) (transactions : List Transaction) :
    AbortsNothing platform journal transactions
      ↔ ∀ before transaction after, transactions = before ++ transaction :: after →
          transaction.closing.isAbort →
          transaction.body = []
            ∨ (runTransactions platform journal before).isJournalFull = true := by
  induction transactions generalizing journal with
  | nil => simp [AbortsNothing]
  | cons head tail ih =>
      rw [AbortsNothing, ih]
      constructor
      · rintro ⟨hhead, htail⟩ before transaction after hsplit habort
        cases before with
        | nil =>
            obtain ⟨rfl, -⟩ := List.cons.inj hsplit
            exact hhead habort
        | cons first before =>
            obtain ⟨rfl, hrest⟩ := List.cons.inj hsplit
            rw [runTransactions_cons]
            exact htail before transaction after hrest habort
      · intro h
        refine ⟨h [] head tail rfl, ?_⟩
        intro before transaction after hsplit habort
        rw [← runTransactions_cons]
        exact h (head :: before) transaction after (by rw [hsplit]; rfl) habort

theorem committedEntries_sublist (journal : JournalManager) (transactions : List Transaction) :
    (committedEntries platform journal transactions).Sublist
      (loggedEntries platform journal transactions) := by
  induction transactions generalizing journal with
  | nil => exact List.Sublist.refl _
  | cons transaction transactions ih =>
      rw [committedEntries, loggedEntries]
      refine List.Sublist.append ?_ (ih _)
      split
      · exact List.nil_sublist _
      · exact List.Sublist.refl _

theorem loggedEntries_eq_committedEntries_iff {journal : JournalManager}
    (hclosed : journal.inCheckpoint = false) (transactions : List Transaction) :
    loggedEntries platform journal transactions = committedEntries platform journal transactions
      ↔ AbortsNothing platform journal transactions := by
  induction transactions generalizing journal with
  | nil => simp [loggedEntries, committedEntries, AbortsNothing]
  | cons transaction transactions ih =>
      obtain ⟨-, -, -, -, -, hafter, -, hempty⟩ := run_transaction platform hclosed transaction
      rw [AbortsNothing, ← ih hafter, loggedEntries, committedEntries, ← hempty]
      cases transaction.closing.isAbort with
      | false => simp
      | true =>
          have hlength := (committedEntries_sublist platform
            (journal.run platform transaction.calls) transactions).length_le
          simp only [if_true, List.nil_append, forall_const]
          constructor
          · intro heq
            -- the aborted entries make the left side longer
            have hnil : dataEntries platform journal transaction = [] := by
              have := congrArg List.length heq
              rw [List.length_append] at this
              exact List.eq_nil_of_length_eq_zero (by omega)
            rw [hnil, List.nil_append] at heq
            exact ⟨hnil, heq⟩
          · rintro ⟨hnil, heq⟩
            rw [hnil, heq, List.nil_append]

theorem runTransactions_verifyIntegrity (config : JournalConfig) (fd : Int)
    (transactions : List Transaction) :
    (runTransactions platform (new config fd) transactions).verifyIntegrity platform = true := by
  refine ((unsigned_new config fd).run platform (.inr ?_)).verifyIntegrity platform
  intro call hcall entry heq
  obtain ⟨transaction, -, hin⟩ := List.mem_flatMap.mp hcall
  rw [heq, Transaction.calls, List.mem_cons, List.mem_append, List.mem_map,
    List.mem_singleton] at hin
  rcases hin with hin | ⟨data, -, hin⟩ | hin
  · cases hin
  · cases data <;> cases hin
  · cases hclosing : transaction.closing <;> rw [hclosing] at hin <;> cases hin

/-- **When recovery replays committed work only.** After any sequence of transactions the entries
handed to `applyEntry` are exactly the data entries of the committed ones if and only if no aborted
transaction logged anything: its body was empty, or the journal was already full when it began. -/
theorem replayed_eq_committedEntries_iff (config : JournalConfig) (fd : Int)
    (recovery : RecoveryConfig) (transactions : List Transaction) :
    replayed platform recovery (runTransactions platform (new config fd) transactions)
        = committedEntries platform (new config fd) transactions
      ↔ ∀ before transaction after, transactions = before ++ transaction :: after →
          transaction.closing.isAbort →
          transaction.body = []
            ∨ (runTransactions platform (new config fd) before).isJournalFull = true := by
  have hclosed : (new config fd).inCheckpoint = false := rfl
  obtain ⟨added, hadded, happlied⟩ := applied_runTransactions platform hclosed transactions
  have hentries : (runTransactions platform (new config fd) transactions).entries = added := hadded
  rw [replayed_eq_applied (runTransactions_verifyIntegrity platform config fd transactions),
    hentries, happlied, loggedEntries_eq_committedEntries_iff platform hclosed, abortsNothing_iff]

/-- One aborted transaction with one create in it: nothing is committed and the create is replayed. -/
theorem replayed_ne_committedEntries_abort :
    committedEntries Platform.reference (new {}) [⟨{}, [.create 1 [] {}], .abort {}⟩] = []
      ∧ (replayed Platform.reference {}
          (runTransactions Platform.reference (new {})
            [⟨{}, [.create 1 [] {}], .abort {}⟩])).map (fun entry => (entry.type, entry.data))
        = [(.createEntry, [1])] := by
  decide +kernel

end

end Recovery

end NebulaFS
