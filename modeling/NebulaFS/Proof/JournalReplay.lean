import NebulaFS.Proof.JournalRuns
import NebulaFS.Proof.VarIntLemmas

/-!
# What the entries of a journal tell

A call appends at most two entries, and their types tell what it did to the open checkpoint (`Emits`). So
replaying the entries of a run restores the flag. The numbers of the entries come from a counter of 64
bits, and a call that a full journal refuses draws one too. They are in order as long as the counter has
not come round (`replay_agrees`).
-/

namespace NebulaFS

namespace JournalManager

variable (platform : Platform) {journal : JournalManager}

namespace LoggingCall

/-- The journal makes the entries of the call, as it does for every call but `log`. -/
def makesEntries : LoggingCall → Bool
  | log _ => false
  | _ => true

/-- How often the call runs `createEntry`. -/
def drawn (journal : JournalManager) : LoggingCall → Nat
  | log _ => 0
  | beginCheckpoint _ => if journal.inCheckpoint then 0 else 1
  | endCheckpoint _ => if journal.inCheckpoint then 1 else 0
  | commit _ _ => if journal.inCheckpoint then 2 else 1
  | _ => 1

end LoggingCall

def numbersDrawn (journal : JournalManager) : List LoggingCall → Nat
  | [] => 0
  | call :: calls =>
      call.drawn journal + numbersDrawn (journal.step platform call).1 calls

def replay (journal : JournalManager) (entries : List JournalEntry) : JournalManager :=
  entries.foldl (fun journal entry => (journal.replayEntry entry).1) journal

/-! ### What a call appends -/

/-- The types of the entries that a call appends, with whether a checkpoint is open before and after. -/
inductive Emits : Bool → List JournalEntryType → Bool → Prop
  | nothing (opened : Bool) : Emits opened [] opened
  | data (opened : Bool) (type : JournalEntryType) (hdata : type.isData = true) :
      Emits opened [type] opened
  | begins : Emits false [.beginCheckpoint] true
  | ends : Emits true [.endCheckpoint] false
  | commits : Emits false [.commit] false
  | endsAndCommits : Emits true [.endCheckpoint, .commit] false
  | aborts (opened : Bool) : Emits opened [.abort] false

/-- The numbers of the entries are the first ones from `sequence` on. -/
def NumberedFrom (sequence : UInt64) (added : List JournalEntry) : Prop :=
  added.map (·.sequence) = (List.range added.length).map fun i => sequence + UInt64.ofNat i

/-- What one call does to the journal. -/
structure Appends (journal : JournalManager) (drawn : Nat) (added : List JournalEntry)
    (after : JournalManager) : Prop where
  entries_eq : after.entries = journal.entries ++ added
  emits : Emits journal.inCheckpoint (added.map (·.type)) after.inCheckpoint
  numbered : NumberedFrom journal.sequence added
  length_le : added.length ≤ drawn
  sequence_eq : after.sequence = journal.sequence + UInt64.ofNat drawn

theorem appends_logNew {type : JournalEntryType} (hdata : type.isData = true) (data : Bytes)
    (now : Timestamp) :
    ∃ added, Appends journal 1 added (journal.logNew platform type data now).1 := by
  have hflag := (logNew_flags platform journal type data now).2
  cases hfull : journal.isJournalFull with
  | true =>
      rw [logNew_of_full platform hfull]
      exact ⟨[], (List.append_nil _).symm, Emits.nothing _, rfl, Nat.zero_le _, rfl⟩
  | false =>
      obtain ⟨entry, htype, hsequence, hentries, hnext⟩ :=
        logNew_of_not_full platform hfull type data now
      refine ⟨[entry], hentries, ?_, ?_, Nat.le_refl 1, hnext⟩
      · rw [hflag, List.map_singleton, htype]
        exact Emits.data _ type hdata
      · simp [NumberedFrom, hsequence]

/-- A mark is appended whatever the flag. -/
theorem appends_pushMark (type : JournalEntryType) (now : Timestamp) {open' : Bool}
    (hemits : Emits journal.inCheckpoint [type] open') (needs : Bool) :
    Appends journal 1 [(journal.createEntry type [] now).1]
      { journal.pushMark type now with inCheckpoint := open', needsRecovery := needs } :=
  ⟨rfl, hemits, by simp [NumberedFrom, createEntry], Nat.le_refl 1, rfl⟩

theorem appends_nothing : Appends journal 0 [] journal :=
  ⟨(List.append_nil _).symm, Emits.nothing _, rfl, Nat.le_refl 0, by simp⟩

/-- **What a call appends** and what it does to the checkpoint and the counter. -/
theorem exists_appends (journal : JournalManager) {call : LoggingCall}
    (hcall : call.makesEntries = true) :
    ∃ added, Appends journal (call.drawn journal) added (journal.step platform call).1 := by
  cases call with
  | beginCheckpoint now =>
      rw [step, beginCheckpoint, LoggingCall.drawn]
      cases hopen : journal.inCheckpoint with
      | true => exact ⟨[], appends_nothing⟩
      | false => exact ⟨_, appends_pushMark _ now (hopen ▸ Emits.begins) true⟩
  | endCheckpoint now =>
      rw [step, endCheckpoint, LoggingCall.drawn]
      cases hopen : journal.inCheckpoint with
      | true => exact ⟨_, appends_pushMark _ now (hopen ▸ Emits.ends) _⟩
      | false => exact ⟨[], appends_nothing⟩
  | log entry => cases hcall
  | logCreate id data now => exact appends_logNew platform rfl _ now
  | logUpdate id data now => exact appends_logNew platform rfl _ now
  | logDelete id now => exact appends_logNew platform rfl _ now
  | logWriteBlock chunk now => exact appends_logNew platform rfl _ now
  | commit endNow now =>
      rw [step, commit, LoggingCall.drawn]
      cases hopen : journal.inCheckpoint with
      | true =>
          have hemits : Emits journal.inCheckpoint [.endCheckpoint, .commit] false := by
            rw [hopen]
            exact Emits.endsAndCommits
          refine ⟨[(journal.createEntry .endCheckpoint [] endNow).1,
            ((journal.createEntry .endCheckpoint [] endNow).2.createEntry .commit [] now).1],
            List.append_assoc _ _ _, hemits, ?_, Nat.le_refl 2, UInt64.add_assoc _ _ _⟩
          simp [NumberedFrom, List.range_succ, createEntry]
      | false =>
          have hemits : Emits journal.inCheckpoint [.commit] journal.inCheckpoint := by
            rw [hopen]
            exact Emits.commits
          exact ⟨_, appends_pushMark _ now hemits false⟩
  | abort now => exact ⟨_, appends_pushMark _ now (Emits.aborts _) true⟩

/-! ### The flag -/

def flagAfter (opened : Bool) : JournalEntryType → Bool
  | .beginCheckpoint => true
  | .endCheckpoint | .commit | .abort => false
  | _ => opened

theorem Emits.flagAfter_eq {opened closed : Bool} {types : List JournalEntryType}
    (h : Emits opened types closed) : types.foldl flagAfter opened = closed := by
  cases h with
  | data _ type hdata =>
      cases type with
      | beginCheckpoint | endCheckpoint | commit | abort => cases hdata
      | _ => rfl
  | _ => rfl

theorem replay_inCheckpoint (journal : JournalManager) (entries : List JournalEntry) :
    (journal.replay entries).inCheckpoint
      = (entries.map (·.type)).foldl flagAfter journal.inCheckpoint := by
  induction entries generalizing journal with
  | nil => rfl
  | cons entry entries ih =>
      have hentry : (journal.replayEntry entry).1.inCheckpoint
          = flagAfter journal.inCheckpoint entry.type := by
        rw [replayEntry]
        cases entry.type <;> rfl
      rw [List.map_cons, List.foldl_cons, ← hentry]
      exact ih _

/-- A fresh journal comes to the flag of this one when it replays its entries. -/
def Restored (journal : JournalManager) : Prop :=
  (journal.entries.map (·.type)).foldl flagAfter false = journal.inCheckpoint

theorem Restored.step (h : journal.Restored) {call : LoggingCall}
    (hcall : call.makesEntries = true) : (journal.step platform call).1.Restored := by
  obtain ⟨added, happends⟩ := exists_appends platform journal hcall
  rw [Restored] at h ⊢
  rw [happends.entries_eq, List.map_append, List.foldl_append, h]
  exact happends.emits.flagAfter_eq

theorem Restored.run (h : journal.Restored) {calls : List LoggingCall}
    (hcalls : ∀ call ∈ calls, call.makesEntries = true) :
    (journal.run platform calls).Restored := by
  induction calls generalizing journal with
  | nil => exact h
  | cons call calls ih =>
      obtain ⟨hcall, hrest⟩ := List.forall_mem_cons.mp hcalls
      rw [run_cons]
      exact ih (h.step platform hcall) hrest

/-! ### The numbers -/

/-- After `n` draws the counter stands at `n`, and the entries have smaller numbers, in order. -/
structure Numbered (journal : JournalManager) (n : Nat) : Prop where
  sequence_eq : journal.sequence = UInt64.ofNat n
  sorted : (journal.entries.map (·.sequence.toNat)).Pairwise (· < ·)
  below : ∀ entry ∈ journal.entries, entry.sequence.toNat < n

theorem NumberedFrom.map_toNat {n : Nat} {added : List JournalEntry}
    (h : NumberedFrom (UInt64.ofNat n) added) (hfits : n + added.length < 2 ^ 64) :
    added.map (·.sequence.toNat) = (List.range added.length).map (n + ·) := by
  have hnumbers : added.map (·.sequence.toNat) = (added.map (·.sequence)).map UInt64.toNat := by
    rw [List.map_map]
    rfl
  rw [hnumbers, h, List.map_map]
  apply List.map_congr_left
  intro i hi
  have hlt := List.mem_range.mp hi
  simp only [Function.comp_apply, UInt64.toNat_add, UInt64.toNat_ofNat']
  omega

theorem Numbered.appends {n drawn : Nat} {added : List JournalEntry} {after : JournalManager}
    (h : journal.Numbered n) (happends : Appends journal drawn added after)
    (hfits : n + drawn < 2 ^ 64) : after.Numbered (n + drawn) := by
  have hlength := happends.length_le
  have hnumbered := happends.numbered
  rw [h.sequence_eq] at hnumbered
  have hnumbers := hnumbered.map_toNat (by omega)
  have hadded : ∀ entry ∈ added, ∃ i < added.length, entry.sequence.toNat = n + i := by
    intro entry hentry
    have hmem : entry.sequence.toNat ∈ added.map (·.sequence.toNat) := List.mem_map_of_mem hentry
    rw [hnumbers] at hmem
    obtain ⟨i, hi, heq⟩ := List.mem_map.mp hmem
    exact ⟨i, List.mem_range.mp hi, heq.symm⟩
  constructor
  case sequence_eq =>
      rw [happends.sequence_eq, h.sequence_eq, UInt64.ofNat_add]
  case sorted =>
      rw [happends.entries_eq, List.map_append, List.pairwise_append]
      refine ⟨h.sorted, ?_, ?_⟩
      · rw [hnumbers, List.pairwise_map]
        exact List.pairwise_lt_range.imp fun hlt => Nat.add_lt_add_left hlt n
      · intro old hold new hnew
        obtain ⟨entry, hentry, rfl⟩ := List.mem_map.mp hold
        obtain ⟨other, hother, rfl⟩ := List.mem_map.mp hnew
        have hbelow := h.below entry hentry
        obtain ⟨i, -, heq⟩ := hadded other hother
        omega
  case below =>
      intro entry hentry
      rw [happends.entries_eq] at hentry
      rcases List.mem_append.mp hentry with hold | hnew
      · have hbelow := h.below entry hold
        omega
      · obtain ⟨i, hi, heq⟩ := hadded entry hnew
        omega

theorem Numbered.run {n : Nat} (h : journal.Numbered n) {calls : List LoggingCall}
    (hcalls : ∀ call ∈ calls, call.makesEntries = true)
    (hfits : n + numbersDrawn platform journal calls < 2 ^ 64) :
    (journal.run platform calls).Numbered (n + numbersDrawn platform journal calls) := by
  induction calls generalizing journal n with
  | nil => exact h
  | cons call calls ih =>
      obtain ⟨hcall, hrest⟩ := List.forall_mem_cons.mp hcalls
      obtain ⟨added, happends⟩ := exists_appends platform journal hcall
      rw [numbersDrawn, ← Nat.add_assoc] at hfits ⊢
      rw [run_cons]
      exact ih (h.appends happends (by omega)) hrest hfits

/-- **What the entries of a run tell.** A fresh journal that replays them has the flag of the journal,
whatever calls were refused. As long as fewer than `2 ^ 64` numbers have been drawn, those of the entries
are in order and below the counter. Every point of a run is the end of a run. -/
theorem replay_agrees (config : JournalConfig) (fd : Int) {calls : List LoggingCall}
    (hcalls : ∀ call ∈ calls, call.makesEntries = true) (freshConfig : JournalConfig)
    (freshFd : Int) :
    ((new freshConfig freshFd).replay ((new config fd).run platform calls).entries).hasUncommitted
        = ((new config fd).run platform calls).hasUncommitted
      ∧ (numbersDrawn platform (new config fd) calls < 2 ^ 64 →
        (((new config fd).run platform calls).entries.map (·.sequence)).Pairwise (· < ·)
          ∧ ∀ entry ∈ ((new config fd).run platform calls).entries,
            entry.sequence < ((new config fd).run platform calls).sequence) := by
  have hfresh : (new config fd).Restored := rfl
  have hnumbered : (new config fd).Numbered 0 :=
    ⟨rfl, List.Pairwise.nil, fun _ hentry => absurd hentry List.not_mem_nil⟩
  refine ⟨?_, ?_⟩
  · rw [hasUncommitted, replay_inCheckpoint]
    exact hfresh.run platform hcalls
  · intro hfits
    have hrun := hnumbered.run platform hcalls (by rwa [Nat.zero_add])
    rw [Nat.zero_add] at hrun
    constructor
    · rw [List.pairwise_map]
      exact (List.pairwise_map.mp hrun.sorted).imp fun hlt => UInt64.lt_iff_toNat_lt.mpr hlt
    · intro entry hentry
      rw [UInt64.lt_iff_toNat_lt, hrun.sequence_eq, toNat_ofNat_of_lt hfits]
      exact hrun.below entry hentry

/-- A transaction with a payload, cut off by an abort. -/
theorem replay_agrees_aborted :
    ((new {}).replay ((new {}).run Platform.reference
          [.beginCheckpoint {}, .logDelete 7 {}, .abort {}]).entries).hasUncommitted = false
      ∧ ((new {}).run Platform.reference
          [.beginCheckpoint {}, .logDelete 7 {}, .abort {}]).entries.map (·.sequence) = [0, 1, 2]
      ∧ (((new {}).run Platform.reference
          [.beginCheckpoint {}, .logDelete 7 {}, .abort {}]).entries.map (·.sequence)).Pairwise
            (· < ·) := by
  have hcalls : ∀ call ∈ [LoggingCall.beginCheckpoint {}, .logDelete 7 {}, .abort {}],
      call.makesEntries = true := by decide
  have hagrees := replay_agrees Platform.reference {} (-1) hcalls {} (-1)
  exact ⟨hagrees.1, by decide, (hagrees.2 (by decide)).1⟩

theorem run_replicate_of_full (hfull : journal.isJournalFull = true) (n : Nat) :
    journal.run platform (List.replicate n (.logDelete 7 {}))
      = { journal with sequence := journal.sequence + UInt64.ofNat n } := by
  induction n generalizing journal with
  | zero => simp [run]
  | succ n ih =>
      have hstep : (journal.step platform (.logDelete 7 {})).1
          = { journal with sequence := journal.sequence + 1 } := logNew_of_full platform hfull _ _ _
      have hstill : ({ journal with sequence := journal.sequence + 1 } :
          JournalManager).isJournalFull = true := hfull
      have hcount : journal.sequence + UInt64.ofNat (n + 1) = journal.sequence + 1 + UInt64.ofNat n := by
        rw [Nat.add_comm, UInt64.ofNat_add, ← UInt64.add_assoc]
        rfl
      rw [List.replicate_succ, run_cons, hstep, ih hstill, hcount]

/-- An open checkpoint in a journal without room, and deletions that are all refused. -/
def refusedDeletions (n : Nat) : JournalManager :=
  (new { maxJournalSize := 0 }).run Platform.reference
    (.beginCheckpoint {} :: List.replicate n (.logDelete 7 {}))

theorem refusedDeletions_eq (n : Nat) :
    (refusedDeletions n).entries.map (·.sequence) = [0]
      ∧ (refusedDeletions n).sequence = 1 + UInt64.ofNat n := by
  have hfull : ((new { maxJournalSize := 0 }).step Platform.reference
      (.beginCheckpoint {})).1.isJournalFull = true := by decide
  rw [refusedDeletions, run_cons, run_replicate_of_full Platform.reference hfull]
  exact ⟨rfl, rfl⟩

/-- The last of `2 ^ 64` draws brings the counter back to the number of the first entry. -/
theorem not_below_comeRound :
    (refusedDeletions (2 ^ 64 - 1)).entries.map (·.sequence) = [0]
      ∧ (refusedDeletions (2 ^ 64 - 1)).sequence = 0
      ∧ ¬ ∀ entry ∈ (refusedDeletions (2 ^ 64 - 1)).entries,
        entry.sequence < (refusedDeletions (2 ^ 64 - 1)).sequence := by
  obtain ⟨hentries, hsequence⟩ := refusedDeletions_eq (2 ^ 64 - 1)
  have hzero : (1 : UInt64) + UInt64.ofNat (2 ^ 64 - 1) = 0 := by decide
  rw [hzero] at hsequence
  refine ⟨hentries, hsequence, ?_⟩
  intro hbelow
  obtain ⟨entry, hentry, -⟩ := List.map_eq_singleton_iff.mp hentries
  have hlt := hbelow entry (by rw [hentry]; exact List.mem_singleton_self entry)
  rw [hsequence] at hlt
  exact absurd hlt UInt64.not_lt_zero

end JournalManager

end NebulaFS
