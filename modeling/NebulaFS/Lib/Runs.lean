import Mathlib.Data.List.Basic

/-!
# Runs of a machine

`Along step P` says that `P` holds at every step of a run, of the state before the step and the input
of the step. The machine is a relation, so that a step may also fail to end. A property of every step
can be traded for a condition on the state before it: if the two are equivalent wherever an invariant
holds, and the invariant survives the steps that meet the condition, then they are equivalent over
whole runs (`along_iff_of_invariant`).
-/

namespace Runs

variable {σ ι : Type*} {step : σ → ι → σ → Prop} {next : σ → ι → σ}

def Along (step : σ → ι → σ → Prop) (P : σ → ι → Prop) : σ → List ι → Prop
  | _, [] => True
  | state, input :: inputs =>
      P state input ∧ ∀ after, step state input after → Along step P after inputs

/-- A condition on the runs of a program can be evaluated. -/
instance decidableAlong {ε : Type*} (program : σ → ι → Except ε σ) (P : σ → ι → Prop)
    [∀ state input, Decidable (P state input)] : (state : σ) → (inputs : List ι) →
      Decidable (Along (fun state input after => program state input = .ok after) P state inputs)
  | _, [] => isTrue trivial
  | state, input :: inputs =>
      match hresult : program state input with
      | .error _ =>
          decidable_of_iff (P state input) (by simp [Along, hresult])
      | .ok after =>
          haveI := decidableAlong program P after inputs
          decidable_of_iff (P state input
              ∧ Along (fun state input after => program state input = .ok after) P after inputs)
            (by simp [Along, hresult])

instance decidableAlongNext (next : σ → ι → σ) (P : σ → ι → Prop)
    [∀ state input, Decidable (P state input)] : (state : σ) → (inputs : List ι) →
      Decidable (Along (fun state input after => next state input = after) P state inputs)
  | _, [] => isTrue trivial
  | state, input :: inputs =>
      haveI := decidableAlongNext next P (next state input) inputs
      decidable_of_iff (P state input
          ∧ Along (fun state input after => next state input = after) P (next state input) inputs)
        (by simp [Along])

instance decidableAlongOption (next : σ → ι → Option σ) (P : σ → ι → Prop)
    [∀ state input, Decidable (P state input)] : (state : σ) → (inputs : List ι) →
      Decidable (Along (fun state input after => next state input = some after) P state inputs)
  | _, [] => isTrue trivial
  | state, input :: inputs =>
      match hresult : next state input with
      | none =>
          decidable_of_iff (P state input) (by simp [Along, hresult])
      | some after =>
          haveI := decidableAlongOption next P after inputs
          decidable_of_iff (P state input
              ∧ Along (fun state input after => next state input = some after) P after inputs)
            (by simp [Along, hresult])

/-- Where the inputs of a run keep to a side condition, the equivalence is needed under it only. -/
theorem along_iff_of_side {P Q R : σ → ι → Prop} (Inv : σ → Prop)
    (hiff : ∀ state input, Inv state → R state input → (P state input ↔ Q state input))
    (hstep : ∀ state input after, Inv state → R state input → Q state input →
      step state input after → Inv after)
    {state : σ} (hstate : Inv state) {inputs : List ι} (hside : Along step R state inputs) :
    Along step P state inputs ↔ Along step Q state inputs := by
  induction inputs generalizing state with
  | nil => exact Iff.rfl
  | cons input inputs ih =>
      obtain ⟨hinput, hrest⟩ := hside
      simp only [Along]
      rw [hiff state input hstate hinput]
      apply and_congr_right
      intro hcondition
      apply forall_congr'
      intro after
      apply imp_congr_right
      intro hafter
      exact ih (hstep state input after hstate hinput hcondition hafter) (hrest after hafter)

theorem along_trivial (state : σ) (inputs : List ι) :
    Along step (fun _ _ => True) state inputs := by
  induction inputs generalizing state with
  | nil => exact trivial
  | cons input inputs ih => exact ⟨trivial, fun after _ => ih after⟩

theorem along_of_forall {R : ι → Prop} {inputs : List ι} (h : ∀ input ∈ inputs, R input)
    (state : σ) : Along step (fun _ input => R input) state inputs := by
  induction inputs generalizing state with
  | nil => exact trivial
  | cons input inputs ih =>
      refine ⟨h input List.mem_cons_self, ?_⟩
      intro after _
      exact ih (fun other hmem => h other (List.mem_cons_of_mem _ hmem)) after

theorem along_iff_of_invariant {P Q : σ → ι → Prop} (Inv : σ → Prop)
    (hiff : ∀ state input, Inv state → (P state input ↔ Q state input))
    (hstep : ∀ state input after, Inv state → Q state input → step state input after → Inv after)
    {state : σ} (hstate : Inv state) (inputs : List ι) :
    Along step P state inputs ↔ Along step Q state inputs :=
  along_iff_of_side Inv (fun state input hstate _ => hiff state input hstate)
    (fun state input after hstate _ => hstep state input after hstate) hstate
    (along_trivial state inputs)

/-- A condition on the state before each step is enough for a property of each step. -/
theorem along_of_invariant {P Q : σ → ι → Prop} (Inv : σ → Prop)
    (hinput : ∀ state input, Inv state → Q state input → P state input)
    (hstep : ∀ state input after, Inv state → Q state input → step state input after → Inv after)
    {state : σ} (hstate : Inv state) {inputs : List ι} (h : Along step Q state inputs) :
    Along step P state inputs := by
  induction inputs generalizing state with
  | nil => exact trivial
  | cons input inputs ih =>
      refine ⟨hinput state input hstate h.1, ?_⟩
      intro after hafter
      exact ih (hstep state input after hstate h.1 hafter) (h.2 after hafter)

/-- What holds of every state that a run goes through. -/
theorem along_next_iff {P : σ → Prop} {state : σ} (hstate : P state) (inputs : List ι) :
    Along (fun state input after => next state input = after)
        (fun state input => P (next state input)) state inputs
      ↔ ∀ n, P ((inputs.take n).foldl next state) := by
  induction inputs generalizing state with
  | nil => simp [Along, hstate]
  | cons input inputs ih =>
      simp only [Along, forall_eq']
      constructor
      · rintro ⟨hinput, hrest⟩ n
        cases n with
        | zero => exact hstate
        | succ n => exact (ih hinput).mp hrest n
      · intro hall
        have hinput : P (next state input) := hall 1
        refine ⟨hinput, (ih hinput).mpr ?_⟩
        intro n
        exact hall (n + 1)

theorem foldl_of_invariant {P : σ → Prop} (hnext : ∀ state input, P state → P (next state input))
    {state : σ} (hstate : P state) (inputs : List ι) : P (inputs.foldl next state) := by
  induction inputs generalizing state with
  | nil => exact hstate
  | cons input inputs ih => exact ih (hnext state input hstate)

/-- The same where the steps meet a condition. -/
theorem foldl_of_side {Q : σ → ι → Prop} (Inv : σ → Prop)
    (hnext : ∀ state input, Inv state → Q state input → Inv (next state input))
    {state : σ} (hstate : Inv state) {inputs : List ι}
    (hside : Along (fun state input after => next state input = after) Q state inputs) :
    Inv (inputs.foldl next state) := by
  induction inputs generalizing state with
  | nil => exact hstate
  | cons input inputs ih => exact ih (hnext state input hstate hside.1) (hside.2 _ rfl)

/-- The same for a machine that may refuse a step. -/
theorem foldlM_of_invariant {next : σ → ι → Option σ} {Q : σ → ι → Prop} (Inv : σ → Prop)
    (hnext : ∀ state input after, Inv state → Q state input → next state input = some after →
      Inv after)
    {state final : σ} (hstate : Inv state) {inputs : List ι}
    (hside : Along (fun state input after => next state input = some after) Q state inputs)
    (hrun : inputs.foldlM next state = some final) : Inv final := by
  induction inputs generalizing state with
  | nil =>
      obtain rfl : state = final := Option.some.inj hrun
      exact hstate
  | cons input inputs ih =>
      rw [List.foldlM_cons] at hrun
      obtain ⟨after, hafter, hrest⟩ := Option.bind_eq_some_iff.mp hrun
      exact ih (hnext state input after hstate hside.1 hafter) (hside.2 after hafter) hrest

/-- A fold whose inputs touch one key each, all of them different ones. -/
theorem foldl_at_key {κ β : Type*} (look : σ → κ → β) (key : ι → κ) (effect : ι → β → β)
    {inputs : List ι}
    (hself : ∀ input ∈ inputs, ∀ state,
      look (next state input) (key input) = effect input (look state (key input)))
    (hother : ∀ input ∈ inputs, ∀ state other, other ≠ key input →
      look (next state input) other = look state other)
    (hnodup : (inputs.map key).Nodup) (state : σ) :
    (∀ input ∈ inputs,
        look (inputs.foldl next state) (key input) = effect input (look state (key input)))
      ∧ ∀ other, other ∉ inputs.map key → look (inputs.foldl next state) other = look state other := by
  induction inputs generalizing state with
  | nil => exact ⟨fun _ hmem => absurd hmem List.not_mem_nil, fun _ _ => rfl⟩
  | cons head inputs ih =>
      obtain ⟨hhead, hrest⟩ := List.nodup_cons.mp hnodup
      obtain ⟨htouched, huntouched⟩ := ih
        (fun input hmem => hself input (List.mem_cons_of_mem _ hmem))
        (fun input hmem => hother input (List.mem_cons_of_mem _ hmem)) hrest (next state head)
      constructor
      · intro input hmem
        rw [List.foldl_cons]
        rcases List.mem_cons.mp hmem with rfl | hmem
        · rw [huntouched _ hhead, hself input List.mem_cons_self]
        · have hne : key input ≠ key head := by
            intro heq
            exact hhead (heq ▸ List.mem_map_of_mem hmem)
          rw [htouched input hmem, hother head List.mem_cons_self _ _ hne]
      · intro other hmem
        rw [List.map_cons, List.mem_cons, not_or] at hmem
        rw [List.foldl_cons, huntouched other hmem.2, hother head List.mem_cons_self _ _ hmem.1]

end Runs
