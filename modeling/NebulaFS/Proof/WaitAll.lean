import Mathlib.Data.List.Count
import NebulaFS.Lib.Runs
import NebulaFS.ThreadPool

/-!
# What `waitAll` waits for

A task is in a queue, in the hands of a worker, or finished (`Accounted`). In the hands of a worker
that has not counted it, `waitAll` cannot see it: it returns too early only if it loads a count of zero
while a worker has popped and not counted, or a worker pops between the load and the sizes
(`waited_of_quiet`).
-/

namespace NebulaFS

/-- Whether `activeTasks_` counts the worker. -/
def Worker.counted : Worker → Bool
  | .idle => false
  | .popped _ => false
  | .running _ => true
  | .ended _ => true

namespace ThreadPool

/-- Whoever returned from `waitAll` finds every task finished that was enqueued before the call. -/
def Waited (pool : ThreadPool) : Prop :=
  pool.waiter = .returned → ∀ task < pool.before, task ∈ pool.finished

/-- The step does not open the window between pop and count to the waiter. -/
def Quiet (pool : ThreadPool) : Action → Prop
  | .load => pool.activeTasks = 0 → ∀ task < pool.before, .popped task ∉ pool.workers
  | .pop _ => pool.waiter = .loaded → ∀ task ∈ pool.takeTask.map Prod.fst, pool.before ≤ task
  | _ => True

instance (pool : ThreadPool) (action : Action) : Decidable (pool.Quiet action) := by
  cases action <;> unfold Quiet <;> infer_instance

/-- The actions of the schedule, each with the state it happens in. -/
def Along (P : ThreadPool → Action → Prop) (pool : ThreadPool) (schedule : List Action) : Prop :=
  Runs.Along (fun pool action after => pool.next action = some after) P pool schedule

def Queued (pool : ThreadPool) (task : Nat) : Prop :=
  task ∈ pool.highPriorityQueue ∨ task ∈ pool.taskQueue

def Held (pool : ThreadPool) (task : Nat) : Prop :=
  .popped task ∈ pool.workers ∨ .running task ∈ pool.workers

/-- The invariant of the pool in a quiet schedule. -/
structure Accounted (pool : ThreadPool) : Prop where
  counted : pool.activeTasks = pool.workers.countP Worker.counted
  somewhere : ∀ task < pool.enqueued, task ∈ pool.finished ∨ pool.Queued task ∨ pool.Held task
  before_le : pool.before ≤ pool.enqueued
  loaded : pool.waiter = .loaded → ∀ task < pool.before, task ∈ pool.finished ∨ pool.Queued task
  waited : pool.Waited

/-! ### One worker moves on -/

theorem mem_set_of_ne {α : Type*} {l : List α} {i : Nat} {old new x : α} (hold : l[i]? = some old)
    (hx : x ∈ l) (hne : x ≠ old) : x ∈ l.set i new := by
  obtain ⟨j, hj⟩ := List.mem_iff_getElem?.mp hx
  apply List.mem_iff_getElem?.mpr
  refine ⟨j, ?_⟩
  have hij : i ≠ j := by
    rintro rfl
    rw [hold] at hj
    exact hne (Option.some.inj hj).symm
  rw [List.getElem?_set_ne hij, hj]

theorem mem_set_self {α : Type*} {l : List α} {i : Nat} {old : α} (hold : l[i]? = some old)
    (new : α) : new ∈ l.set i new := by
  obtain ⟨hi, -⟩ := List.getElem?_eq_some_iff.mp hold
  exact List.mem_set hi new

theorem countP_set_of_getElem? {workers : List Worker} {i : Nat} {old : Worker}
    (hold : workers[i]? = some old) (new : Worker) :
    (workers.set i new).countP Worker.counted + (if old.counted then 1 else 0)
      = workers.countP Worker.counted + (if new.counted then 1 else 0) := by
  obtain ⟨hi, hget⟩ := List.getElem?_eq_some_iff.mp hold
  rw [List.countP_set hi, hget]
  have hpos : old.counted = true → 0 < workers.countP Worker.counted := by
    intro hcounted
    apply List.countP_pos_iff.mpr
    exact ⟨old, List.mem_of_getElem? hold, hcounted⟩
  cases hcounted : old.counted with
  | false => simp
  | true =>
      have := hpos hcounted
      simp only [if_true]
      omega

/-- What `takeTask` takes was queued, and everything else stays. -/
theorem takeTask_spec {pool rest : ThreadPool} {task : Nat}
    (htake : pool.takeTask = some (task, rest)) :
    (∀ other, pool.Queued other → other = task ∨ rest.Queued other)
      ∧ rest = { pool with
          taskQueue := rest.taskQueue, highPriorityQueue := rest.highPriorityQueue } := by
  unfold takeTask at htake
  split at htake
  next head tail hhigh =>
      cases htake
      refine ⟨?_, rfl⟩
      intro other hqueued
      simp only [Queued, hhigh, List.mem_cons] at hqueued ⊢
      exact or_assoc.mp hqueued
  next head tail hhigh hlow =>
      cases htake
      refine ⟨?_, by rw [hhigh]⟩
      intro other hqueued
      simp only [Queued, hhigh, hlow, List.not_mem_nil, false_or, List.mem_cons] at hqueued ⊢
      exact hqueued
  next => cases htake

namespace Accounted

variable {pool : ThreadPool}

theorem new (numThreads : Nat) : (ThreadPool.new numThreads).Accounted where
  counted := by simp [ThreadPool.new, List.countP_replicate, Worker.counted]
  somewhere := fun task htask => absurd htask (Nat.not_lt_zero task)
  before_le := Nat.le_refl 0
  loaded := fun hloaded => by cases hloaded
  waited := fun hreturned => by cases hreturned

theorem enqueue (h : pool.Accounted) {after : ThreadPool}
    (hafter : pool.next .enqueue = some after) : after.Accounted := by
  obtain rfl := Option.some.inj hafter
  have hqueued : ∀ task, pool.Queued task →
      task ∈ pool.highPriorityQueue ∨ task ∈ pool.taskQueue ++ [pool.enqueued] :=
    fun task => Or.imp_right (List.mem_append_left _)
  constructor
  case counted => exact h.counted
  case before_le => exact Nat.le_succ_of_le h.before_le
  case waited => exact h.waited
  case loaded =>
      intro hloaded task htask
      exact (h.loaded hloaded task htask).imp_right (hqueued task)
  case somewhere =>
      intro task htask
      rcases Nat.lt_succ_iff_lt_or_eq.mp htask with hold | rfl
      · exact (h.somewhere task hold).imp_right (Or.imp_left (hqueued task))
      · exact Or.inr (Or.inl (Or.inr (by simp)))

theorem pop (h : pool.Accounted) {i : Nat} (hquiet : pool.Quiet (.pop i)) {after : ThreadPool}
    (hafter : pool.next (.pop i) = some after) : after.Accounted := by
  simp only [next] at hafter
  split at hafter
  next task rest hworker htake =>
      obtain rfl := Option.some.inj hafter
      obtain ⟨hqueued, hrest⟩ := takeTask_spec htake
      have hheld : ∀ other, pool.Held other →
          ({ rest with workers := pool.workers.set i (.popped task) } : ThreadPool).Held other :=
        fun other => Or.imp (fun hmem => mem_set_of_ne hworker hmem (by simp))
          (fun hmem => mem_set_of_ne hworker hmem (by simp))
      rw [hrest]
      constructor
      case counted =>
          have hcount := countP_set_of_getElem? hworker (.popped task)
          simp only [Worker.counted, Bool.false_eq_true, if_false, Nat.add_zero] at hcount
          exact h.counted.trans hcount.symm
      case before_le => exact h.before_le
      case waited => exact h.waited
      case somewhere =>
          intro other hother
          rcases h.somewhere other hother with hfinished | hwaiting | hworking
          · exact Or.inl hfinished
          · rcases hqueued other hwaiting with rfl | hstill
            · exact Or.inr (Or.inr (Or.inl (mem_set_self hworker _)))
            · exact Or.inr (Or.inl hstill)
          · exact Or.inr (Or.inr (hheld other hworking))
      case loaded =>
          intro hloaded other hother
          have hnew : pool.before ≤ task := hquiet hloaded task (by simp [htake])
          rcases h.loaded hloaded other hother with hfinished | hwaiting
          · exact Or.inl hfinished
          · rcases hqueued other hwaiting with rfl | hstill
            · exact absurd hother (Nat.not_lt.mpr hnew)
            · exact Or.inr hstill
  next => cases hafter

theorem count (h : pool.Accounted) {i : Nat} {after : ThreadPool}
    (hafter : pool.next (.count i) = some after) : after.Accounted := by
  simp only [next] at hafter
  split at hafter
  next task hworker =>
      obtain rfl := Option.some.inj hafter
      constructor
      case counted =>
          have hcount := countP_set_of_getElem? hworker (.running task)
          simp only [Worker.counted, Bool.false_eq_true, if_false, if_true, Nat.add_zero] at hcount
          rw [hcount, h.counted]
      case before_le => exact h.before_le
      case waited => exact h.waited
      case loaded => exact h.loaded
      case somewhere =>
          intro other hother
          refine (h.somewhere other hother).imp_right (Or.imp_right ?_)
          rintro (hpopped | hrunning)
          · by_cases hsame : other = task
            · exact Or.inr (hsame ▸ mem_set_self hworker _)
            · exact Or.inl (mem_set_of_ne hworker hpopped (by simpa using hsame))
          · exact Or.inr (mem_set_of_ne hworker hrunning (by simp))
  next => cases hafter

theorem finish (h : pool.Accounted) {i : Nat} {after : ThreadPool}
    (hafter : pool.next (.finish i) = some after) : after.Accounted := by
  simp only [next] at hafter
  split at hafter
  next task hworker =>
      obtain rfl := Option.some.inj hafter
      constructor
      case counted =>
          have hcount := countP_set_of_getElem? hworker (.ended task)
          simp only [Worker.counted, if_true] at hcount
          exact h.counted.trans (Nat.add_right_cancel hcount).symm
      case before_le => exact h.before_le
      case waited =>
          intro hreturned other hother
          exact List.mem_cons_of_mem _ (h.waited hreturned other hother)
      case loaded =>
          intro hloaded other hother
          exact (h.loaded hloaded other hother).imp_left (List.mem_cons_of_mem _)
      case somewhere =>
          intro other hother
          rcases h.somewhere other hother with hfinished | hwaiting | hpopped | hrunning
          · exact Or.inl (List.mem_cons_of_mem _ hfinished)
          · exact Or.inr (Or.inl hwaiting)
          · exact Or.inr (Or.inr (Or.inl (mem_set_of_ne hworker hpopped (by simp))))
          · by_cases hsame : other = task
            · exact Or.inl (hsame ▸ List.mem_cons_self)
            · exact Or.inr (Or.inr (Or.inr (mem_set_of_ne hworker hrunning (by simpa using hsame))))
  next => cases hafter

theorem uncount (h : pool.Accounted) {i : Nat} {after : ThreadPool}
    (hafter : pool.next (.uncount i) = some after) : after.Accounted := by
  simp only [next] at hafter
  split at hafter
  next task hworker =>
      obtain rfl := Option.some.inj hafter
      constructor
      case counted =>
          have hcount := countP_set_of_getElem? hworker .idle
          simp only [Worker.counted, Bool.false_eq_true, if_false, if_true, Nat.add_zero] at hcount
          have hcounted := h.counted
          change pool.activeTasks - 1 = (pool.workers.set i .idle).countP Worker.counted
          omega
      case before_le => exact h.before_le
      case waited => exact h.waited
      case loaded => exact h.loaded
      case somewhere =>
          intro other hother
          refine (h.somewhere other hother).imp_right (Or.imp_right ?_)
          exact Or.imp (fun hmem => mem_set_of_ne hworker hmem (by simp))
            (fun hmem => mem_set_of_ne hworker hmem (by simp))
  next => cases hafter

/-! ### The waiter moves on -/

theorem waitAll (h : pool.Accounted) {after : ThreadPool}
    (hafter : pool.next .waitAll = some after) : after.Accounted := by
  simp only [next] at hafter
  split at hafter
  next =>
      obtain rfl := Option.some.inj hafter
      exact {
        counted := h.counted
        somewhere := h.somewhere
        before_le := Nat.le_refl _
        loaded := fun hloaded => by cases hloaded
        waited := fun hreturned => by cases hreturned }
  next => cases hafter

/-- A count of zero says that nothing is running; that nothing is popped either is the quiet of the
load. -/
theorem load (h : pool.Accounted) (hquiet : pool.Quiet .load) {after : ThreadPool}
    (hafter : pool.next .load = some after) : after.Accounted := by
  simp only [next] at hafter
  split at hafter
  next =>
      obtain rfl := Option.some.inj hafter
      constructor
      case counted => exact h.counted
      case somewhere => exact h.somewhere
      case before_le => exact h.before_le
      case waited =>
          intro hreturned
          change (if 0 < pool.activeTasks then Waiter.looping else .loaded) = .returned at hreturned
          split at hreturned <;> cases hreturned
      case loaded =>
          intro hloaded task htask
          change (if 0 < pool.activeTasks then Waiter.looping else .loaded) = .loaded at hloaded
          have hzero : pool.activeTasks = 0 := by
            by_contra hactive
            rw [if_pos (Nat.pos_of_ne_zero hactive)] at hloaded
            cases hloaded
          rcases h.somewhere task (Nat.lt_of_lt_of_le htask h.before_le) with
            hfinished | hwaiting | hpopped | hrunning
          · exact Or.inl hfinished
          · exact Or.inr hwaiting
          · exact absurd hpopped (hquiet hzero task htask)
          · have hcounted := List.countP_eq_zero.mp (h.counted.symm.trans hzero) _ hrunning
            exact absurd rfl hcounted
  next => cases hafter

theorem readSizes (h : pool.Accounted) {after : ThreadPool}
    (hafter : pool.next .readSizes = some after) : after.Accounted := by
  simp only [next] at hafter
  split at hafter
  next hwaiter =>
      obtain rfl := Option.some.inj hafter
      constructor
      case counted => exact h.counted
      case somewhere => exact h.somewhere
      case before_le => exact h.before_le
      case loaded =>
          intro hloaded
          change (if 0 < pool.pendingTasks then Waiter.looping else .returned) = .loaded at hloaded
          split at hloaded <;> cases hloaded
      case waited =>
          intro hreturned task htask
          change (if 0 < pool.pendingTasks then Waiter.looping else .returned) = .returned at hreturned
          have hempty : pool.pendingTasks = 0 := by
            by_contra hpending
            rw [if_pos (Nat.pos_of_ne_zero hpending)] at hreturned
            cases hreturned
          obtain ⟨hlow, hhigh⟩ := Nat.add_eq_zero_iff.mp hempty
          rcases h.loaded hwaiter task htask with hfinished | hhigher | hlower
          · exact hfinished
          · rw [List.length_eq_zero_iff.mp hhigh] at hhigher
            cases hhigher
          · rw [List.length_eq_zero_iff.mp hlow] at hlower
            cases hlower
  next => cases hafter

theorem next (h : pool.Accounted) {action : Action} (hquiet : pool.Quiet action)
    {after : ThreadPool} (hafter : pool.next action = some after) : after.Accounted := by
  cases action with
  | enqueue => exact h.enqueue hafter
  | pop i => exact h.pop hquiet hafter
  | count i => exact h.count hafter
  | finish i => exact h.finish hafter
  | uncount i => exact h.uncount hafter
  | waitAll => exact h.waitAll hafter
  | load => exact h.load hquiet hafter
  | readSizes => exact h.readSizes hafter

end Accounted

/-- Any number of workers, any interleaving: a pool that a quiet schedule leads to has waited. -/
theorem waited_of_quiet (numThreads : Nat) (schedule : List Action)
    (hquiet : (new numThreads).Along Quiet schedule) (pool : ThreadPool)
    (hrun : (new numThreads).run schedule = some pool) : pool.Waited := by
  have haccounted : pool.Accounted :=
    Runs.foldlM_of_invariant Accounted
      (fun _ _ _ h hquiet hafter => h.next hquiet hafter) (Accounted.new numThreads) hquiet hrun
  exact haccounted.waited

instance (P : ThreadPool → Action → Prop) [∀ pool action, Decidable (P pool action)]
    (pool : ThreadPool) (schedule : List Action) : Decidable (pool.Along P schedule) :=
  Runs.decidableAlongOption next P pool schedule

/-- The waiter returns at once while nothing is enqueued, and again only after the first task. -/
theorem waited_of_quiet_oneWorker :
    ({ new 1 with enqueued := 1, before := 1, finished := [0], waiter := .returned } :
      ThreadPool).Waited :=
  waited_of_quiet 1
    [.waitAll, .load, .readSizes, .enqueue, .waitAll, .load, .readSizes, .pop 0, .count 0, .load,
      .finish 0, .uncount 0, .load, .readSizes]
    (by decide) _ (by decide)

/-- The waiter loads a count of zero, a worker pops the only task, and the queues are empty. -/
theorem not_waited_between :
    ¬ ∀ (numThreads : Nat) (schedule : List Action) (pool : ThreadPool),
      (new numThreads).run schedule = some pool → pool.Waited := by
  intro hall
  have hwaited := hall 1 [.enqueue, .waitAll, .load, .pop 0, .readSizes]
    { new 1 with
      workers := [.popped 0], waiter := .returned, enqueued := 1, before := 1 } (by decide)
  exact absurd (hwaited rfl 0 Nat.one_pos) List.not_mem_nil

end ThreadPool

end NebulaFS
