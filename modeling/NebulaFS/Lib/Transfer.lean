import Mathlib.Data.List.Basic

/-!
# Moving a list through partial calls

A call that takes elements off a stream, or puts some on one, moves as many as it likes of those it is
asked for, is interrupted, or fails. `receive` and `transmit` are the loops that call until everything
is through. A schedule says what becomes of each call; behind its end every call moves all it can. On
a steady schedule neither loop shows how the calls cut the list, and on any schedule what was moved is
a prefix of what was to be moved.
-/

namespace Transfer

variable {α : Type*}

/-- What becomes of one call. -/
inductive Call
  | moves (count : Nat)
  | interrupted
  | fails (errno : Nat)
deriving DecidableEq

/-- The call gets on, or is made again. -/
def Call.Steady : Call → Prop
  | .moves count => 0 < count
  | .interrupted => True
  | .fails _ => False

def Steady (schedule : List Call) : Prop := ∀ call ∈ schedule, call.Steady

inductive Failure
  | system (errno : Nat)
  /-- A call on the way in moved nothing: the other side has closed the stream. -/
  | closed
deriving DecidableEq

/-- How a loop ends, with what is left of the stream and of the schedule. -/
structure Received (α : Type*) where
  result : Except Failure (List α)
  incoming : List α
  schedule : List Call

def receive : (schedule : List Call) → (incoming : List α) → (size : Nat) →
    (received : List α) → Received α
  | [], incoming, size, received =>
      if size ≤ incoming.length then ⟨.ok (received ++ incoming.take size), incoming.drop size, []⟩
      else ⟨.error .closed, [], []⟩
  | call :: schedule, incoming, size, received =>
      if size = 0 then ⟨.ok received, incoming, call :: schedule⟩
      else
        match call with
        | .interrupted => receive schedule incoming size received
        | .fails errno => ⟨.error (.system errno), incoming, schedule⟩
        | .moves count =>
            let n := min count (min size incoming.length)
            if n = 0 then ⟨.error .closed, incoming, schedule⟩
            else receive schedule (incoming.drop n) (size - n) (received ++ incoming.take n)

structure Transmitted (α : Type*) where
  failure : Option Failure
  sent : List α
  schedule : List Call

def transmit : (schedule : List Call) → (data : List α) → (sent : List α) → Transmitted α
  | [], data, sent => ⟨none, sent ++ data, []⟩
  | call :: schedule, data, sent =>
      if data = [] then ⟨none, sent, call :: schedule⟩
      else
        match call with
        | .interrupted => transmit schedule data sent
        | .fails errno => ⟨some (.system errno), sent, schedule⟩
        | .moves count =>
            transmit schedule (data.drop (min count data.length))
              (sent ++ data.take (min count data.length))

variable {schedule : List Call} {incoming received data sent : List α} {size : Nat}

theorem Steady.tail {call : Call} (h : Steady (call :: schedule)) : Steady schedule :=
  fun other hother => h other (List.mem_cons_of_mem _ hother)

/-- Whatever the calls do, a loop that gets everything has the front of the stream, and leaves the
rest. -/
theorem receive_ok (h : (receive schedule incoming size received).result = .ok data) :
    size ≤ incoming.length ∧ data = received ++ incoming.take size
      ∧ (receive schedule incoming size received).incoming = incoming.drop size := by
  induction schedule generalizing incoming size received with
  | nil =>
      rw [receive] at h ⊢
      by_cases hsize : size ≤ incoming.length
      · rw [if_pos hsize] at h ⊢
        exact ⟨hsize, (Except.ok.inj h).symm, rfl⟩
      · rw [if_neg hsize] at h
        cases h
  | cons call schedule ih =>
      rw [receive.eq_def] at h ⊢
      simp only at h ⊢
      by_cases hzero : size = 0
      · rw [if_pos hzero] at h ⊢
        subst hzero
        exact ⟨Nat.zero_le _, by rw [← Except.ok.inj h, List.take_zero, List.append_nil], rfl⟩
      · rw [if_neg hzero] at h ⊢
        cases call with
        | interrupted => exact ih h
        | fails errno => cases h
        | moves count =>
            simp only at h ⊢
            by_cases hnone : min count (min size incoming.length) = 0
            · rw [if_pos hnone] at h
              cases h
            · rw [if_neg hnone] at h ⊢
              obtain ⟨hle, hdata, hrest⟩ := ih h
              rw [List.length_drop] at hle
              refine ⟨by omega, ?_, ?_⟩
              · rw [hdata, List.append_assoc, ← List.take_add, Nat.add_sub_cancel' (by omega)]
              · rw [hrest, List.drop_drop, Nat.add_sub_cancel' (by omega)]

/-- The calls that are left to make were on the schedule. -/
theorem receive_schedule_suffix :
    (receive schedule incoming size received).schedule <:+ schedule := by
  induction schedule generalizing incoming size received with
  | nil =>
      rw [receive]
      split <;> exact List.suffix_rfl
  | cons call schedule ih =>
      have htail := List.suffix_cons call schedule
      rw [receive.eq_def]
      simp only
      split
      · exact List.suffix_rfl
      · cases call with
        | interrupted => exact ih.trans htail
        | fails errno => exact htail
        | moves count =>
            simp only
            split
            · exact htail
            · exact ih.trans htail

theorem Steady.of_suffix {rest : List Call} (h : Steady schedule) (hrest : rest <:+ schedule) :
    Steady rest :=
  fun call hcall => h call (hrest.subset hcall)

/-- On steady calls the loop gets everything that is there. -/
theorem receive_of_steady (hsteady : Steady schedule) (hsize : size ≤ incoming.length) :
    (receive schedule incoming size received).result = .ok (received ++ incoming.take size) := by
  induction schedule generalizing incoming size received with
  | nil => rw [receive, if_pos hsize]
  | cons call schedule ih =>
      rw [receive.eq_def]
      simp only
      by_cases hzero : size = 0
      · rw [if_pos hzero, hzero, List.take_zero, List.append_nil]
      · rw [if_neg hzero]
        have hcall := hsteady call (List.mem_cons_self ..)
        cases call with
        | interrupted => exact ih hsteady.tail hsize
        | fails errno => exact hcall.elim
        | moves count =>
            have hcount : 0 < count := hcall
            simp only
            rw [if_neg (by omega), ih hsteady.tail (by rw [List.length_drop]; omega),
              List.append_assoc, ← List.take_add, Nat.add_sub_cancel' (by omega)]

/-- What got out is the front of what was to go, and all of it unless a call failed. -/
theorem transmit_cases :
    ∃ front, (transmit schedule data sent).sent = sent ++ front ∧ front <+: data
      ∧ ((transmit schedule data sent).failure = none → front = data) := by
  induction schedule generalizing data sent with
  | nil => exact ⟨data, rfl, List.prefix_rfl, fun _ => rfl⟩
  | cons call schedule ih =>
      rw [transmit.eq_def]
      simp only
      by_cases hempty : data = []
      · rw [if_pos hempty]
        exact ⟨[], (List.append_nil _).symm, List.nil_prefix, fun _ => hempty.symm⟩
      · rw [if_neg hempty]
        cases call with
        | interrupted => exact ih
        | fails errno => exact ⟨[], (List.append_nil _).symm, List.nil_prefix, nofun⟩
        | moves count =>
            obtain ⟨front, hsent, hfront, hall⟩ := @ih (data.drop (min count data.length))
              (sent ++ data.take (min count data.length))
            refine ⟨data.take (min count data.length) ++ front, ?_, ?_, fun hnone => ?_⟩
            · rw [hsent, List.append_assoc]
            · conv_rhs => rw [← List.take_append_drop (min count data.length) data]
              exact (List.prefix_append_right_inj _).mpr hfront
            · rw [hall hnone, List.take_append_drop]

theorem transmit_failure_of_steady (hsteady : Steady schedule) :
    (transmit schedule data sent).failure = none := by
  induction schedule generalizing data sent with
  | nil => rfl
  | cons call schedule ih =>
      rw [transmit.eq_def]
      simp only
      by_cases hempty : data = []
      · rw [if_pos hempty]
      · rw [if_neg hempty]
        have hcall := hsteady call (List.mem_cons_self ..)
        cases call with
        | interrupted => exact ih hsteady.tail
        | fails errno => exact hcall.elim
        | moves count => exact ih hsteady.tail

end Transfer
