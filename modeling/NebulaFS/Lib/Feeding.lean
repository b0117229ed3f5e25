import Mathlib.Data.List.Basic

/-!
# Machines that are fed in pieces

A machine takes input from a buffer that grows: `extend` puts a piece behind the buffer, and `move`
makes one move with what is there, says that there is none to make, or fails. After every piece the
machine is driven as far as it gets. If a move, once it can be made, stays the same move however far
the buffer extends behind it, then what comes out does not depend on where the input was cut
(`feedAll_view`). The machine need not meet this in all it does: it is enough for a `view` of it, as
long as the moves do not look at the rest.
-/

namespace Feeding

variable {σ τ ε α : Type*}

/-- Moves until there is none to make. -/
def drive (move : σ → Except ε (Option σ)) : Nat → σ → Except ε σ
  | 0, state => .ok state
  | fuel + 1, state =>
      match move state with
      | .error e => .error e
      | .ok none => .ok state
      | .ok (some after) => drive move fuel after

def feedAll (move : σ → Except ε (Option σ)) (extend : σ → List α → σ) (fuel : Nat) :
    σ → List (List α) → Except ε σ
  | state, [] => .ok state
  | state, piece :: pieces =>
      match drive move fuel (extend state piece) with
      | .error e => .error e
      | .ok after => feedAll move extend fuel after pieces

section Runs

variable {move : σ → Except ε (Option σ)} {extend : σ → List α → σ} {fuel : Nat}

theorem feedAll_append (state : σ) (pieces more : List (List α)) :
    feedAll move extend fuel state (pieces ++ more)
      = (feedAll move extend fuel state pieces).bind fun after =>
        feedAll move extend fuel after more := by
  induction pieces generalizing state with
  | nil => rfl
  | cons piece pieces ih =>
      rw [List.cons_append, feedAll, feedAll]
      cases drive move fuel (extend state piece) with
      | error e => rfl
      | ok after => exact ih after

/-- A run that fails does so at one of the pieces. -/
theorem exists_of_feedAll_error {state : σ} {pieces : List (List α)} {e : ε}
    (h : feedAll move extend fuel state pieces = .error e) :
    ∃ before piece later reached, pieces = before ++ piece :: later
      ∧ feedAll move extend fuel state before = .ok reached
      ∧ drive move fuel (extend reached piece) = .error e := by
  induction pieces generalizing state with
  | nil => cases h
  | cons piece pieces ih =>
      rw [feedAll] at h
      cases hdrive : drive move fuel (extend state piece) with
      | error e' =>
          rw [hdrive] at h
          obtain rfl := Except.error.inj h
          exact ⟨[], piece, pieces, state, rfl, rfl, hdrive⟩
      | ok after =>
          rw [hdrive] at h
          obtain ⟨before, failing, later, reached, rfl, hbefore, hfailing⟩ := ih h
          refine ⟨piece :: before, failing, later, reached, rfl, ?_, hfailing⟩
          rw [feedAll, hdrive]
          exact hbefore

end Runs

section Invariants

variable {move : σ → Except ε (Option σ)} {extend : σ → List α → σ} {fuel : Nat}

theorem drive_invariant {P : σ → Prop}
    (hmove : ∀ state after, P state → move state = .ok (some after) → P after)
    {state after : σ} (h : P state) (hdrive : drive move fuel state = .ok after) : P after := by
  induction fuel generalizing state with
  | zero =>
      obtain rfl := Except.ok.inj hdrive
      exact h
  | succ fuel ih =>
      rw [drive] at hdrive
      rcases hresult : move state with e | _ | next
      · rw [hresult] at hdrive
        cases hdrive
      · rw [hresult] at hdrive
        obtain rfl := Except.ok.inj hdrive
        exact h
      · rw [hresult] at hdrive
        exact ih (hmove state next h hresult) hdrive

/-- What the moves and the pieces preserve of the state and the input so far holds in the end. -/
theorem feedAll_invariant {P : List α → σ → Prop}
    (hextend : ∀ fed state piece, P fed state → P (fed ++ piece) (extend state piece))
    (hmove : ∀ fed state after, P fed state → move state = .ok (some after) → P fed after)
    {state after : σ} (fed : List α) {pieces : List (List α)} (h : P fed state)
    (hfeed : feedAll move extend fuel state pieces = .ok after) : P (fed ++ pieces.flatten) after := by
  induction pieces generalizing state fed with
  | nil =>
      obtain rfl := Except.ok.inj hfeed
      simpa using h
  | cons piece pieces ih =>
      rw [feedAll] at hfeed
      cases hdrive : drive move fuel (extend state piece) with
      | error e =>
          rw [hdrive] at hfeed
          cases hfeed
      | ok next =>
          rw [hdrive] at hfeed
          have hnext : P (fed ++ piece) next :=
            drive_invariant (hmove (fed ++ piece)) (hextend fed state piece h) hdrive
          rw [List.flatten_cons, ← List.append_assoc]
          exact ih (fed ++ piece) hnext hfeed

end Invariants

/-- A machine whose moves go up in rank, and whose moves are those of any longer buffer as far as the
view goes. -/
structure Uncut (move : σ → Except ε (Option σ)) (extend : σ → List α → σ) (view : σ → τ)
    (rank : σ → Nat) (fuel : Nat) : Prop where
  extend_extend : ∀ state first second,
    extend (extend state first) second = extend state (first ++ second)
  rank_extend : ∀ state piece, rank (extend state piece) = rank state
  rank_lt : ∀ state after, move state = .ok (some after) → rank state < rank after
  rank_bound : ∀ state after, move state = .ok (some after) → rank after < fuel
  view_move : ∀ state other, view state = view other →
    (move state).map (Option.map view) = (move other).map (Option.map view)
  view_extend : ∀ state other piece, view state = view other →
    view (extend state piece) = view (extend other piece)
  move_extend : ∀ state after piece, move state = .ok (some after) →
    (move (extend state piece)).map (Option.map view) = .ok (some (view (extend after piece)))
  error_extend : ∀ state e piece, move state = .error e → move (extend state piece) = .error e

namespace Uncut

variable {move : σ → Except ε (Option σ)} {extend : σ → List α → σ} {view : σ → τ}
  {rank : σ → Nat} {fuel : Nat}

/-- What the two moves of states with one view come to. -/
theorem move_cases (h : Uncut move extend view rank fuel) {state other : σ}
    (hview : view state = view other) :
    (∃ e, move state = .error e ∧ move other = .error e)
    ∨ (move state = .ok none ∧ move other = .ok none)
    ∨ ∃ after after', move state = .ok (some after) ∧ move other = .ok (some after')
      ∧ view after = view after' := by
  have hsame := h.view_move state other hview
  rcases hstate : move state with e | _ | after <;> rcases hother : move other with e' | _ | after' <;>
    rw [hstate, hother] at hsame <;> simp [Except.map] at hsame
  · exact .inl ⟨e, rfl, by rw [hsame]⟩
  · exact .inr (.inl ⟨rfl, rfl⟩)
  · exact .inr (.inr ⟨after, after', rfl, rfl, hsame⟩)

/-- States with one view are driven to states with one view. -/
theorem drive_view (h : Uncut move extend view rank fuel) {state other : σ}
    (hview : view state = view other) (n : Nat) :
    (drive move n state).map view = (drive move n other).map view := by
  induction n generalizing state other with
  | zero => exact congrArg Except.ok hview
  | succ n ih =>
      rw [drive, drive]
      rcases h.move_cases hview with ⟨e, hstate, hother⟩ | ⟨hstate, hother⟩ |
        ⟨after, after', hstate, hother, hafter⟩
      · rw [hstate, hother]
      · rw [hstate, hother]
        exact congrArg Except.ok hview
      · rw [hstate, hother]
        exact ih hafter

/-- Enough fuel is enough: no move leads beyond the rank `fuel`. -/
theorem drive_eq_of_le (h : Uncut move extend view rank fuel) {state : σ} {n m : Nat}
    (hn : fuel ≤ n + rank state) (hm : fuel ≤ m + rank state) (hrank : rank state < fuel) :
    drive move n state = drive move m state := by
  induction n generalizing state m with
  | zero => omega
  | succ n ih =>
      cases m with
      | zero => omega
      | succ m =>
          rw [drive, drive]
          rcases hmove : move state with e | _ | after
          · rfl
          · rfl
          · have hlt := h.rank_lt state after hmove
            exact ih (by omega) (by omega) (h.rank_bound state after hmove)

/-- Driving on after a piece is driving once with the piece there from the start. -/
theorem drive_extend (h : Uncut move extend view rank fuel) {state : σ} (hrank : rank state < fuel)
    (piece : List α) {n : Nat} (hn : fuel ≤ n + rank state) :
    ((drive move n state).bind fun after => drive move fuel (extend after piece)).map view
      = (drive move fuel (extend state piece)).map view := by
  induction n generalizing state with
  | zero => omega
  | succ n ih =>
      rw [drive]
      rcases hmove : move state with e | _ | after
      · obtain ⟨m, hm⟩ : ∃ m, fuel = m + 1 := ⟨fuel - 1, by omega⟩
        have herror := h.error_extend state e piece hmove
        rw [hm, drive, herror]
        rfl
      · rfl
      · have hlt := h.rank_lt state after hmove
        have hbound := h.rank_bound state after hmove
        have hextended := h.move_extend state after piece hmove
        obtain ⟨m, hm⟩ : ∃ m, fuel = m + 1 := ⟨fuel - 1, by omega⟩
        -- the extended state makes the same move, up to the view
        obtain ⟨other, hother, hview⟩ : ∃ other, move (extend state piece) = .ok (some other)
            ∧ view other = view (extend after piece) := by
          rcases hresult : move (extend state piece) with e | _ | other <;>
            rw [hresult] at hextended <;> simp [Except.map] at hextended
          exact ⟨other, rfl, hextended⟩
        have hranks : rank (extend after piece) = rank after := h.rank_extend after piece
        calc ((drive move n after).bind fun last => drive move fuel (extend last piece)).map view
            = (drive move fuel (extend after piece)).map view := ih hbound (by omega)
          _ = (drive move m (extend after piece)).map view := by
              rw [h.drive_eq_of_le (n := fuel) (m := m) (by omega) (by omega) (by omega)]
          _ = (drive move m other).map view := (h.drive_view hview m).symm
          _ = (drive move fuel (extend state piece)).map view := by
              rw [hm, drive, hother]

theorem rank_drive (h : Uncut move extend view rank fuel) {state after : σ} {n : Nat}
    (hrank : rank state < fuel) (hdrive : drive move n state = .ok after) : rank after < fuel :=
  drive_invariant (P := fun state => rank state < fuel)
    (fun state next _ hmove => h.rank_bound state next hmove) hrank hdrive

/-- **The cuts do not matter.** Fed in pieces, the machine comes to the view that it comes to with all
of the input at once. -/
theorem feedAll_view (h : Uncut move extend view rank fuel) {state : σ} (hrank : rank state < fuel)
    {piece : List α} {pieces : List (List α)} :
    (feedAll move extend fuel state (piece :: pieces)).map view
      = (drive move fuel (extend state (piece :: pieces).flatten)).map view := by
  induction pieces generalizing state piece with
  | nil =>
      rw [feedAll, List.flatten_singleton]
      cases drive move fuel (extend state piece) with
      | error e => rfl
      | ok after => rfl
  | cons next pieces ih =>
      rw [feedAll, List.flatten_cons, ← h.extend_extend]
      have hextended : rank (extend state piece) < fuel := by
        rw [h.rank_extend]
        exact hrank
      rw [← h.drive_extend hextended (next :: pieces).flatten (Nat.le_add_right _ _)]
      cases hdrive : drive move fuel (extend state piece) with
      | error e => rfl
      | ok after => exact ih (h.rank_drive hextended hdrive)

end Uncut

end Feeding
