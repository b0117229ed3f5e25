import NebulaFS.Proof.RecoveryReplay

/-!
# What recovery reports

The answers of `applyEntry` are counted and listed, and do not keep `recover` from clearing the
journal and reporting success (`honest_iff`). The integrity check inside the loop is about the whole
journal, so one bad entry makes the best-effort strategy skip all of them (`skipsOnlyCorrupt_iff`).
-/

namespace NebulaFS

namespace Recovery

variable {σ : Type} (applyEntry : JournalEntry → σ → Option String × σ)

/-! ### The calls of the callback -/

/-- The callback, with a list beside its state of what it was called with and what it answered. -/
def recording (entry : JournalEntry) (state : σ × List (JournalEntry × Option String)) :
    Option String × (σ × List (JournalEntry × Option String)) :=
  let (answer, after) := applyEntry entry state.1
  (answer, (after, state.2 ++ [(entry, answer)]))

/-- What the callback answers to the entries, one after the other. -/
def answers : List JournalEntry → σ → List (JournalEntry × Option String)
  | [], _ => []
  | entry :: entries, state =>
      let (answer, after) := applyEntry entry state
      (entry, answer) :: answers entries after

theorem map_fst_answers (entries : List JournalEntry) (state : σ) :
    (answers applyEntry entries state).map Prod.fst = entries := by
  induction entries generalizing state with
  | nil => rfl
  | cons entry entries ih => exact congrArg (entry :: ·) (ih _)

section

variable (platform : Platform) (config : RecoveryConfig) (journal : JournalManager) (state : σ)

/-- The calls that `recover` makes, with their answers. -/
def calls : List (JournalEntry × Option String) :=
  (recover platform config journal (recording applyEntry) (state, [])).2.2.2

/-- Success means that no call of the callback failed, and a failed call leaves the journal its
entries. -/
def Honest : Prop :=
  ((recover platform config journal applyEntry state).2.1.success = true →
      ∀ call ∈ calls applyEntry platform config journal state, call.2 = none)
    ∧ ((∃ call ∈ calls applyEntry platform config journal state, call.2 ≠ none) →
      (recover platform config journal applyEntry state).1.entries = journal.entries)

/-- The entry does not have its own checksum. -/
def fails (entry : JournalEntry) : Bool :=
  JournalManager.entryDigest platform journal.checksum entry ≠ entry.checksum

/-- The callback gets the entries inside a checkpoint that have their checksum, and the others are
counted as corrupt. -/
structure SkipsOnlyCorrupt : Prop where
  calls_eq : (calls applyEntry platform config journal state).map Prod.fst
    = (applied false journal.entries).filter fun entry => !fails platform journal entry
  entriesCorrupt : (recover platform config journal applyEntry state).2.1.entriesCorrupt
    = journal.entries.countP (fails platform journal)

end

/-! ### The loop -/

variable {corrupt : Bool}

/-- Where the check does not stop it, the loop calls the callback on what it applies. -/
theorem recoverLoop_recording (config : RecoveryConfig)
    (h : ¬ (config.validateChecksums ∧ corrupt)) (entries : List JournalEntry)
    (result : RecoveryResult) (active : Bool) (state : σ) (log : List (JournalEntry × Option String)) :
    ∃ result' after, recoverLoop config corrupt applyEntry entries result active state
        = (.ok result', after)
      ∧ recoverLoop config corrupt (recording applyEntry) entries result active (state, log)
        = (.ok result', (after, log ++ answers applyEntry (applied active entries) state))
      ∧ (config.strategy = .bestEffort → result'.entriesCorrupt = result.entriesCorrupt) := by
  induction entries generalizing result active state log with
  | nil => exact ⟨result, state, rfl, by simp [recoverLoop, applied, answers], fun _ => rfl⟩
  | cons entry entries ih =>
      rw [recoverLoop, recoverLoop, if_neg h, if_neg h, applied]
      cases entry.type with
      | beginCheckpoint => exact ih _ _ _ _
      | endCheckpoint => exact ih _ _ _ _
      | commit => exact ih _ _ _ _
      | abort => exact ih _ _ _ _
      | _ =>
          cases active with
          | false => exact ih _ _ _ _
          | true =>
              simp only [if_true, recording, answers]
              rcases applyEntry entry state with ⟨_ | message, after⟩
              · obtain ⟨result', last, hplain, hrecorded, hcount⟩ := ih
                  { result with entriesReplayed := result.entriesReplayed + 1 } true after
                  (log ++ [(entry, none)])
                exact ⟨result', last, hplain, by simpa using hrecorded, hcount⟩
              · by_cases hbest : config.strategy = .bestEffort
                · simp only [if_pos hbest]
                  obtain ⟨result', last, hplain, hrecorded, hcount⟩ := ih
                    { result with entriesSkipped := result.entriesSkipped + 1 } true after
                    (log ++ [(entry, some message)])
                  exact ⟨result', last, hplain, by simpa using hrecorded, hcount⟩
                · simp only [if_neg hbest]
                  obtain ⟨result', last, hplain, hrecorded, -⟩ := ih
                    { result with
                      errors := result.errors
                        ++ [toParseError .ioError .init entry.sequence message]
                      entriesCorrupt := result.entriesCorrupt + 1 } true after
                    (log ++ [(entry, some message)])
                  exact ⟨result', last, hplain, by simpa using hrecorded,
                    fun hother => absurd hother hbest⟩

/-- The best-effort strategy skips every entry of a journal that fails the check. -/
theorem recoverLoop_skips (config : RecoveryConfig)
    (h : config.validateChecksums ∧ corrupt) (hbest : config.strategy = .bestEffort)
    (entries : List JournalEntry)
    (result : RecoveryResult) (active : Bool) (state : σ) :
    recoverLoop config corrupt applyEntry entries result active state
      = (.ok { result with entriesCorrupt := result.entriesCorrupt + entries.length }, state) := by
  induction entries generalizing result with
  | nil => rfl
  | cons entry entries ih =>
      rw [recoverLoop, if_pos h]
      simp only [hbest]
      rw [ih, List.length_cons, Nat.add_assoc, Nat.add_comm 1]

/-- The automatic strategy gives up at the first entry of such a journal. -/
theorem recoverLoop_stops (config : RecoveryConfig)
    (h : config.validateChecksums ∧ corrupt) (hautomatic : config.strategy = .automatic)
    {entries : List JournalEntry} (hne : entries ≠ []) (result : RecoveryResult) (active : Bool)
    (state : σ) :
    ∃ result', recoverLoop config corrupt applyEntry entries result active state
        = (.error result', state)
      ∧ result'.success = false := by
  cases entries with
  | nil => exact absurd rfl hne
  | cons entry entries =>
      rw [recoverLoop, if_pos h]
      simp only [hautomatic]
      exact ⟨_, rfl, rfl⟩

theorem applied_sublist (active : Bool) (entries : List JournalEntry) :
    (applied active entries).Sublist entries := by
  induction entries generalizing active with
  | nil => exact List.Sublist.slnil
  | cons entry entries ih =>
      rw [applied]
      cases entry.type with
      | beginCheckpoint => exact (ih true).cons entry
      | endCheckpoint | commit | abort => exact (ih false).cons entry
      | _ =>
          cases active with
          | false => exact (ih false).cons entry
          | true => exact (ih true).cons_cons entry

theorem entries_ne_nil_of_corrupt {platform : Platform} {journal : JournalManager}
    (h : journal.verifyIntegrity platform = false) : journal.entries ≠ [] := by
  intro hnil
  rw [JournalManager.verifyIntegrity, hnil] at h
  cases h

theorem verifyIntegrity_eq_true_iff (platform : Platform) (journal : JournalManager) :
    journal.verifyIntegrity platform = true
      ↔ ∀ entry ∈ journal.entries, fails platform journal entry = false := by
  simp [JournalManager.verifyIntegrity, fails]

/-! ### Results -/

section

variable (platform : Platform) (journal : JournalManager) (state : σ)

/-- What is left of `recover` when the check does not stop it. -/
theorem recover_of_sound (config : RecoveryConfig)
    (h : ¬ (config.validateChecksums ∧ !journal.verifyIntegrity platform)) :
    ∃ result after, recover platform config journal applyEntry state
        = (if config.strategy = .automatic then journal.clear else journal, result, after)
      ∧ result.success = true
      ∧ (config.strategy = .bestEffort → result.entriesCorrupt = 0)
      ∧ calls applyEntry platform config journal state
        = answers applyEntry (applied false journal.entries) state := by
  have hanalysis : (analyze journal).entriesCorrupt = 0 := by
    unfold analyze
    split <;> rfl
  obtain ⟨result, after, hplain, hrecorded, hcount⟩ := recoverLoop_recording applyEntry config h
    journal.entries
    { entriesSkipped := (analyze journal).entriesSkipped
      entriesCorrupt := (analyze journal).entriesCorrupt } false state []
  have hcalls : calls applyEntry platform config journal state
      = answers applyEntry (applied false journal.entries) state := by
    rw [calls, recover]
    simp only [hrecorded]
    rfl
  rw [recover]
  simp only [hplain]
  exact ⟨_, after, rfl, rfl, fun hbest => (hcount hbest).trans hanalysis, hcalls⟩

theorem recover_of_stopped (config : RecoveryConfig)
    (h : config.validateChecksums ∧ !journal.verifyIntegrity platform)
    (hautomatic : config.strategy = .automatic) :
    (recover platform config journal applyEntry state).2.1.success = false
      ∧ calls applyEntry platform config journal state = [] := by
  have hne : journal.entries ≠ [] :=
    entries_ne_nil_of_corrupt (by simpa using h.2)
  obtain ⟨result, hplain, hfailure⟩ := recoverLoop_stops applyEntry config h hautomatic hne
    { entriesSkipped := (analyze journal).entriesSkipped
      entriesCorrupt := (analyze journal).entriesCorrupt } false state
  obtain ⟨recorded, hrecorded, -⟩ := recoverLoop_stops (recording applyEntry) config h hautomatic hne
    { entriesSkipped := (analyze journal).entriesSkipped
      entriesCorrupt := (analyze journal).entriesCorrupt } false (state, [])
  rw [calls, recover, recover]
  simp only [hplain, hrecorded]
  exact ⟨hfailure, trivial⟩

theorem recover_of_skipped (config : RecoveryConfig)
    (h : config.validateChecksums ∧ !journal.verifyIntegrity platform)
    (hbest : config.strategy = .bestEffort) :
    (recover platform config journal applyEntry state).2.1.entriesCorrupt = journal.entries.length
      ∧ calls applyEntry platform config journal state = [] := by
  have hanalysis : (analyze journal).entriesCorrupt = 0 := by
    unfold analyze
    split <;> rfl
  rw [calls, recover, recover]
  simp only [recoverLoop_skips _ config h hbest, hanalysis, Nat.zero_add]
  exact ⟨trivial, trivial⟩

/-- **When the success of a recovery is honest.** Under the automatic strategy it is just when the
journal fails the integrity check, so that no call is made, or the callback takes every data entry
inside a checkpoint. -/
theorem honest_iff (validateChecksums : Bool) :
    Honest applyEntry platform { strategy := .automatic, validateChecksums := validateChecksums }
        journal state
      ↔ (validateChecksums = true ∧ journal.verifyIntegrity platform = false)
        ∨ ∀ call ∈ answers applyEntry (applied false journal.entries) state, call.2 = none := by
  by_cases hcheck : validateChecksums = true ∧ journal.verifyIntegrity platform = false
  · have hstop : validateChecksums ∧ !journal.verifyIntegrity platform :=
      ⟨hcheck.1, by rw [hcheck.2]; rfl⟩
    refine ⟨fun _ => .inl hcheck, fun _ => ?_⟩
    obtain ⟨hsuccess, hcalls⟩ := recover_of_stopped applyEntry platform journal state
      { strategy := .automatic, validateChecksums := validateChecksums } hstop rfl
    rw [Honest, hsuccess, hcalls]
    exact ⟨fun h => (by cases h), fun ⟨_, hcall, _⟩ => (by cases hcall)⟩
  · have hsound : ¬ (validateChecksums ∧ !journal.verifyIntegrity platform) := by
      rw [Bool.not_eq_true_eq_eq_false]
      exact hcheck
    obtain ⟨result, after, heq, hsuccess, -, hcalls⟩ := recover_of_sound applyEntry platform
      journal state { strategy := .automatic, validateChecksums := validateChecksums } hsound
    rw [Honest, heq, hcalls, or_iff_right hcheck]
    constructor
    · intro h
      exact h.1 hsuccess
    · intro h
      exact ⟨fun _ => h, fun ⟨call, hcall, hfailed⟩ => absurd (h call hcall) hfailed⟩

/-- A callback that answers an error to every entry: the create was not applied, and the journal that
would bring it back is gone. -/
theorem not_honest_refusing :
    ¬ Honest (fun _ _ => (some "input/output error", ())) Platform.reference {}
        (runTransactions Platform.reference (JournalManager.new {})
          [⟨{}, [.create 1 [] {}], .commit {} {}⟩]) () := by
  intro h
  have hkept := h.2 (by decide +kernel)
  exact absurd hkept (by decide +kernel)

/-- **When the best effort skips only what is corrupt.** It does just when no entry of the journal
is corrupt, or all of them are. -/
theorem skipsOnlyCorrupt_iff :
    SkipsOnlyCorrupt applyEntry platform { strategy := .bestEffort, validateChecksums := true }
        journal state
      ↔ (∀ entry ∈ journal.entries, fails platform journal entry = false)
        ∨ ∀ entry ∈ journal.entries, fails platform journal entry = true := by
  rw [← verifyIntegrity_eq_true_iff]
  cases hverify : journal.verifyIntegrity platform with
  | true =>
      refine ⟨fun _ => .inl rfl, fun _ => ?_⟩
      have hgood := (verifyIntegrity_eq_true_iff platform journal).mp hverify
      obtain ⟨result, after, heq, -, hcount, hcalls⟩ := recover_of_sound applyEntry platform
        journal state { strategy := .bestEffort, validateChecksums := true } (by simp [hverify])
      constructor
      · rw [hcalls, map_fst_answers]
        symm
        apply List.filter_eq_self.mpr
        intro entry hentry
        rw [hgood entry ((applied_sublist false journal.entries).subset hentry)]
        rfl
      · rw [heq]
        refine (hcount rfl).trans (Eq.symm ?_)
        apply List.countP_eq_zero.mpr
        intro entry hentry
        rw [hgood entry hentry]
        decide
  | false =>
      obtain ⟨hcount, hcalls⟩ := recover_of_skipped applyEntry platform journal state
        { strategy := .bestEffort, validateChecksums := true } ⟨rfl, by rw [hverify]; rfl⟩ rfl
      constructor
      · intro h
        right
        have hcorrupt := h.entriesCorrupt
        rw [hcount] at hcorrupt
        exact List.countP_eq_length.mp hcorrupt.symm
      · rintro (h | h)
        · cases h
        · constructor
          · rw [hcalls]
            symm
            apply List.filter_eq_nil_iff.mpr
            intro entry hentry
            rw [h entry ((applied_sublist false journal.entries).subset hentry)]
            decide
          · rw [hcount]
            exact (List.countP_eq_length.mpr h).symm

/-- Two creates in one checkpoint, the second with another checksum than its own: neither is handed
to the callback. -/
theorem not_skipsOnlyCorrupt_oneAltered :
    ¬ SkipsOnlyCorrupt (fun _ _ => (none, ())) Platform.reference
        { strategy := .bestEffort, validateChecksums := true }
        { entries :=
            [{ type := .beginCheckpoint },
              { type := .createEntry, sequence := 1, data := [1] },
              { type := .createEntry, sequence := 2, data := [2],
                checksum := List.Vector.replicate 32 1 },
              { type := .commit, sequence := 3 }] } () := by
  intro h
  exact absurd h.calls_eq (by decide +kernel)

end

end Recovery

end NebulaFS
