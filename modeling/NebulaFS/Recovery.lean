import NebulaFS.Journal

/-!
# Recovery from a journal

`filesystem/Recovery.cpp`. `recover` walks over the journal once, hands every entry it finds inside a
transaction to the caller's `applyEntry`, and clears the journal under the automatic strategy. The
caller's callback is a function that threads its own state and returns the message of its error, if
any.
-/

namespace NebulaFS

inductive RecoveryStrategy
  | automatic
  | manual
  | bestEffort
deriving DecidableEq

structure RecoveryConfig where
  strategy : RecoveryStrategy := .automatic
  validateChecksums : Bool := true
deriving DecidableEq

structure RecoveryResult where
  success : Bool := false
  entriesReplayed : Nat := 0
  entriesSkipped : Nat := 0
  entriesCorrupt : Nat := 0
  errors : List ParseError := []
  summary : String := ""
deriving DecidableEq

namespace Recovery

def checkpointRound (state : Int × Bool) (entry : JournalEntry) : Int × Bool :=
  match entry.type with
  | .beginCheckpoint => (state.1 + 1, state.2)
  | .endCheckpoint => (state.1 - 1, state.2)
  | .commit | .abort => (state.1, true)
  | _ => state

def isCheckpointConsistent (entries : List JournalEntry) : Bool :=
  let (checkpointDepth, hasCommit) := entries.foldl checkpointRound (0, false)
  checkpointDepth = 0 && hasCommit

def findIncompleteTransactions : List JournalEntry → (depth : Nat := 0) → List JournalEntry
  | [], _ => []
  | entry :: entries, depth =>
      match entry.type with
      | .beginCheckpoint => findIncompleteTransactions entries (depth + 1)
      | .endCheckpoint | .commit | .abort => findIncompleteTransactions entries (depth - 1)
      | _ =>
          if 0 < depth then entry :: findIncompleteTransactions entries depth
          else findIncompleteTransactions entries depth

def analyze (journal : JournalManager) : RecoveryResult :=
  if journal.entries = [] then
    { success := true, summary := "No journal entries to analyze" }
  else
    let success := isCheckpointConsistent journal.entries
    let skipped := (findIncompleteTransactions journal.entries).length
    let replayed := journal.entries.countP fun entry =>
      entry.type ≠ .beginCheckpoint ∧ entry.type ≠ .endCheckpoint
    let verdict := if success then "Consistent" else "Inconsistent"
    { success := success
      entriesReplayed := replayed
      entriesSkipped := skipped
      summary :=
        s!"Analysis complete: {replayed} entries, {skipped} skipped, 0 corrupt. {verdict}" }

section

variable {σ : Type} (config : RecoveryConfig) (corrupt : Bool)
  (applyEntry : JournalEntry → σ → Option String × σ)

/-- The loop of `recover`, with `corrupt` for the journal failing its integrity check, which the
source evaluates again in every round. An early return is an `error`. -/
def recoverLoop : List JournalEntry → RecoveryResult → Bool → σ →
    Except RecoveryResult RecoveryResult × σ
  | [], result, _, state => (.ok result, state)
  | entry :: entries, result, inActiveTransaction, state =>
      if config.validateChecksums ∧ corrupt then
        let result := { result with entriesCorrupt := result.entriesCorrupt + 1 }
        match config.strategy with
        | .bestEffort => recoverLoop entries result inActiveTransaction state
        | .manual =>
            let error := toParseError .journalCorrupt .init entry.sequence "corrupt journal entry"
            recoverLoop entries { result with errors := result.errors ++ [error] }
              inActiveTransaction state
        | .automatic =>
            (.error { result with success := false, summary := "Recovery failed: corrupt journal" },
              state)
      else
        let replayed := { result with entriesReplayed := result.entriesReplayed + 1 }
        match entry.type with
        | .beginCheckpoint => recoverLoop entries result true state
        | .endCheckpoint | .commit | .abort => recoverLoop entries result false state
        | _ =>
            if inActiveTransaction then
              match applyEntry entry state with
              | (none, state) => recoverLoop entries replayed inActiveTransaction state
              | (some message, state) =>
                  if config.strategy = .bestEffort then
                    recoverLoop entries
                      { result with entriesSkipped := result.entriesSkipped + 1 }
                      inActiveTransaction state
                  else
                    let error := toParseError .ioError .init entry.sequence message
                    recoverLoop entries
                      { result with
                        errors := result.errors ++ [error]
                        entriesCorrupt := result.entriesCorrupt + 1 }
                      inActiveTransaction state
            else recoverLoop entries replayed inActiveTransaction state

end

def recover {σ : Type} (platform : Platform) (config : RecoveryConfig) (journal : JournalManager)
    (applyEntry : JournalEntry → σ → Option String × σ) (state : σ) :
    JournalManager × RecoveryResult × σ :=
  let analysis := analyze journal
  let result : RecoveryResult :=
    { entriesSkipped := analysis.entriesSkipped, entriesCorrupt := analysis.entriesCorrupt }
  match recoverLoop config (!journal.verifyIntegrity platform) applyEntry journal.entries result
      false state with
  | (.error result, state) => (journal, result, state)
  | (.ok result, state) =>
      let journal := if config.strategy = .automatic then journal.clear else journal
      let replayed := result.entriesReplayed
      let skipped := result.entriesSkipped
      let corrupt := result.entriesCorrupt
      (journal,
        { result with
          success := true
          summary :=
            s!"Recovery complete: {replayed} replayed, {skipped} skipped, {corrupt} corrupt" },
        state)

def needsRecovery (journal : JournalManager) : Bool :=
  journal.needsRecovery || journal.hasUncommitted

/-- In seconds. -/
def estimateRecoveryTime (journal : JournalManager) : Nat :=
  if journal.entryCount = 0 then 0 else journal.entryCount / 10000 + 1

end Recovery

end NebulaFS
