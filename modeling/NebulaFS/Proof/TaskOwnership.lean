import NebulaFS.Lib.Runs
import NebulaFS.Scheduler

/-!
# Who deletes a task

Every task has one owner: the thread that enqueues it, a queue, or the worker that runs it, which
deletes it. The scheduler owns nothing until the end. Its pointers dangle between a deletion and the
`markDone` behind it, and the address may have been given out again by then; but equal addresses are
as good as each other to `markDone`, so that what is tracked stays within what is owned and what was just
deleted (`Owned`). When the pool is destroyed nothing was just deleted, and the destructor of the
scheduler deletes owned tasks, each once.
-/

namespace NebulaFS

open Ownership

def Caller.holds : Caller → List Address
  | .outside => []
  | .created task => [task]
  | .tracked task => [task]

/-- What a thread holds and has shown to the scheduler. -/
def Caller.shown : Caller → List Address
  | .outside => []
  | .created _ => []
  | .tracked task => [task]

namespace PoolThread

def holds : PoolThread → List Address
  | .popped task => [task]
  | .running task => [task]
  | .ran task => [task]
  | .idle => []
  | .deleted _ => []
  | .marked => []
  | .stopped => []

def justDeleted : PoolThread → List Address
  | .deleted task => [task]
  | .idle => []
  | .popped _ => []
  | .running _ => []
  | .ran _ => []
  | .marked => []
  | .stopped => []

end PoolThread

namespace TaskPool

/-- The tasks past the threads that enqueue them. -/
def inside (pool : TaskPool) : List Address :=
  pool.taskQueue ++ (pool.highPriorityQueue ++ pool.workers.flatMap PoolThread.holds)

def owners (pool : TaskPool) : List Address := pool.callers.flatMap Caller.holds ++ pool.inside

def shown (pool : TaskPool) : List Address :=
  pool.callers.flatMap Caller.shown ++ (pool.inside ++ pool.workers.flatMap PoolThread.justDeleted)

/-- The invariant of the pool. What is tracked is what was shown, unless tasks came in that nobody
tracks. -/
structure Owned (untracked : Bool) (pool : TaskPool) : Prop where
  owns : pool.heap.Owns pool.owners []
  within : ∀ a, pool.scheduler.tracked.count a ≤ pool.shown.count a
  exactly : untracked = false → ∀ a, pool.shown.count a ≤ pool.scheduler.tracked.count a

/-! ### What one step does -/

/-- The step of each action, with what it needs. -/
inductive Stepped (pool : TaskPool) : Action → TaskPool → Prop
  | create {i task} (hcaller : pool.callers[i]? = some .outside) (hfree : task ∉ pool.heap.live) :
      Stepped pool (.create i task)
        { pool with
          callers := pool.callers.set i (.created task), heap := pool.heap.allocate task }
  | track {i task} (hcaller : pool.callers[i]? = some (.created task)) :
      Stepped pool (.track i)
        { pool with
          callers := pool.callers.set i (.tracked task), scheduler := pool.scheduler.track task }
  | push {i task} (hcaller : pool.callers[i]? = some (.tracked task)) :
      Stepped pool (.push i)
        { pool with
          callers := pool.callers.set i .outside, taskQueue := pool.taskQueue ++ [task] }
  | enqueueTask {task} (hfree : task ∉ pool.heap.live) :
      Stepped pool (.enqueueTask task)
        { pool with heap := pool.heap.allocate task, taskQueue := pool.taskQueue ++ [task] }
  | pop {i task rest} (hworker : pool.workers[i]? = some .idle)
      (htake : pool.takeTask = some (task, rest)) :
      Stepped pool (.pop i) { rest with workers := pool.workers.set i (.popped task) }
  | count {i task} (hworker : pool.workers[i]? = some (.popped task)) :
      Stepped pool (.count i)
        { pool with
          workers := pool.workers.set i (.running task), activeTasks := pool.activeTasks + 1 }
  | finish {i task} (hworker : pool.workers[i]? = some (.running task)) :
      Stepped pool (.finish i)
        { pool with workers := pool.workers.set i (.ran task), heap := pool.heap.use task }
  | delete {i task} (hworker : pool.workers[i]? = some (.ran task)) :
      Stepped pool (.delete i)
        { pool with workers := pool.workers.set i (.deleted task), heap := pool.heap.delete task }
  | markDone {i task} (hworker : pool.workers[i]? = some (.deleted task)) :
      Stepped pool (.markDone i)
        { pool with
          workers := pool.workers.set i .marked, scheduler := pool.scheduler.markDone task }
  | uncount {i} (hworker : pool.workers[i]? = some .marked) :
      Stepped pool (.uncount i)
        { pool with workers := pool.workers.set i .idle, activeTasks := pool.activeTasks - 1 }
  | leave {i} (hworker : pool.workers[i]? = some .idle) :
      Stepped pool (.leave i) { pool with workers := pool.workers.set i .stopped }
  | shutdown : Stepped pool .shutdown { pool with running := false }
  | waitAll (hwaiter : pool.waiter = .outside ∨ pool.waiter = .returned) :
      Stepped pool .waitAll { pool with waiter := .looping }
  | load (hwaiter : pool.waiter = .looping) :
      Stepped pool .load
        { pool with waiter := if 0 < pool.activeTasks then .looping else .loaded }
  | readSizes (hwaiter : pool.waiter = .loaded) :
      Stepped pool .readSizes
        { pool with waiter := if 0 < pool.pendingTasks then .looping else .returned }

variable {pool after rest : TaskPool} {action : Action} {untracked : Bool} {task : Address} {i : Nat}

theorem stepped (h : pool.next action = some after) : Stepped pool action after := by
  cases action <;> simp only [next] at h
  case create i task =>
      split at h
      next hcaller =>
          split at h
          · cases h
          · obtain rfl := Option.some.inj h
            exact .create hcaller ‹_›
      next => cases h
  case track i =>
      split at h
      next task hcaller => obtain rfl := Option.some.inj h; exact .track hcaller
      next => cases h
  case push i =>
      split at h
      next task hcaller => obtain rfl := Option.some.inj h; exact .push hcaller
      next => cases h
  case enqueueTask task =>
      split at h
      · cases h
      · obtain rfl := Option.some.inj h
        exact .enqueueTask ‹_›
  case pop i =>
      split at h
      next task rest hworker htake =>
          split at h
          · obtain rfl := Option.some.inj h
            exact .pop hworker htake
          · cases h
      next => cases h
  case count i =>
      split at h
      next task hworker => obtain rfl := Option.some.inj h; exact .count hworker
      next => cases h
  case finish i =>
      split at h
      next task hworker => obtain rfl := Option.some.inj h; exact .finish hworker
      next => cases h
  case delete i =>
      split at h
      next task hworker => obtain rfl := Option.some.inj h; exact .delete hworker
      next => cases h
  case markDone i =>
      split at h
      next task hworker => obtain rfl := Option.some.inj h; exact .markDone hworker
      next => cases h
  case uncount i =>
      split at h
      next hworker => obtain rfl := Option.some.inj h; exact .uncount hworker
      next => cases h
  case leave i =>
      split at h
      next hworker =>
          split at h
          · cases h
          · obtain rfl := Option.some.inj h
            exact .leave hworker
      next => cases h
  case shutdown => obtain rfl := Option.some.inj h; exact .shutdown
  case waitAll =>
      split at h
      next hwaiter => obtain rfl := Option.some.inj h; exact .waitAll hwaiter
      next => cases h
  case load =>
      split at h
      next hwaiter => obtain rfl := Option.some.inj h; exact .load hwaiter
      next => cases h
  case readSizes =>
      split at h
      next hwaiter => obtain rfl := Option.some.inj h; exact .readSizes hwaiter
      next => cases h

/-- The task that is taken is the front of one queue, and nothing else changes. -/
theorem takeTask_cases (h : pool.takeTask = some (task, rest)) :
    (∃ tail, pool.highPriorityQueue = task :: tail ∧ rest = { pool with highPriorityQueue := tail })
    ∨ (pool.highPriorityQueue = [] ∧ ∃ tail, pool.taskQueue = task :: tail
      ∧ rest = { pool with taskQueue := tail }) := by
  unfold takeTask at h
  split at h
  next head tail hhigh => cases h; exact .inl ⟨tail, hhigh, rfl⟩
  next head tail hhigh hlow => cases h; exact .inr ⟨hhigh, tail, hlow, rfl⟩
  next => cases h

/-! ### The invariant -/

theorem owned_new (numCallers numThreads : Nat) (untracked : Bool) :
    Owned untracked (new numCallers numThreads) := by
  have howners : (new numCallers numThreads).owners = [] := by
    simp [owners, inside, new, Caller.holds, PoolThread.holds]
  have hshown : (new numCallers numThreads).shown = [] := by
    simp [shown, inside, new, Caller.shown, PoolThread.holds, PoolThread.justDeleted]
  refine ⟨?_, fun a => Nat.zero_le _, fun _ a => ?_⟩
  · rw [howners]
    exact Heap.owns_empty
  · rw [hshown]
    exact Nat.zero_le _

/-- A step of a worker that changes neither what is live nor what is tracked. -/
theorem Owned.moveWorker (h : Owned untracked pool) {old : PoolThread}
    (hworker : pool.workers[i]? = some old) (new : PoolThread) (hholds : new.holds = old.holds)
    (hdeleted : new.justDeleted = old.justDeleted) (activeTasks : Nat) :
    Owned untracked { pool with workers := pool.workers.set i new, activeTasks := activeTasks } := by
  have hsame : ∀ a, ((pool.workers.set i new).flatMap PoolThread.holds).count a
      = (pool.workers.flatMap PoolThread.holds).count a := by
    intro a
    have hmove := count_flatMap_set PoolThread.holds hworker new a
    rw [hholds] at hmove
    omega
  have hsameDeleted : ∀ a, ((pool.workers.set i new).flatMap PoolThread.justDeleted).count a
      = (pool.workers.flatMap PoolThread.justDeleted).count a := by
    intro a
    have hmove := count_flatMap_set PoolThread.justDeleted hworker new a
    rw [hdeleted] at hmove
    omega
  have hshown : ∀ a, ({ pool with
      workers := pool.workers.set i new, activeTasks := activeTasks } : TaskPool).shown.count a
      = pool.shown.count a := by
    intro a
    simp only [shown, inside, List.count_append, hsame, hsameDeleted]
  refine ⟨h.owns.congr fun a => ?_, fun a => ?_, fun htracked a => ?_⟩
  · simp only [owners, inside, List.count_append, hsame]
  · rw [hshown]
    exact h.within a
  · rw [hshown]
    exact h.exactly htracked a

theorem Owned.waiting (h : Owned untracked pool) (running : Bool) (waiter : Waiter) :
    Owned untracked { pool with running := running, waiter := waiter } :=
  ⟨h.owns, h.within, h.exactly⟩

theorem Owned.create (h : Owned untracked pool) (hcaller : pool.callers[i]? = some .outside)
    (hfree : task ∉ pool.heap.live) :
    Owned untracked { pool with
      callers := pool.callers.set i (.created task), heap := pool.heap.allocate task } := by
  have hshown : ∀ a, ({ pool with
      callers := pool.callers.set i (.created task)
      heap := pool.heap.allocate task } : TaskPool).shown.count a = pool.shown.count a := by
    intro a
    have hmove := count_flatMap_set Caller.shown hcaller (.created task) a
    simp only [Caller.shown, List.count_nil] at hmove
    simp only [shown, inside, List.count_append]
    omega
  refine ⟨(h.owns.allocate hfree).congr fun a => ?_, fun a => ?_, fun htracked a => ?_⟩
  · have hmove := count_flatMap_set Caller.holds hcaller (.created task) a
    simp only [Caller.holds, List.count_nil] at hmove
    rw [count_cons_split]
    simp only [owners, inside, List.count_append, List.count_nil]
    omega
  · rw [hshown]
    exact h.within a
  · rw [hshown]
    exact h.exactly htracked a

theorem Owned.track (h : Owned untracked pool) (hcaller : pool.callers[i]? = some (.created task)) :
    Owned untracked { pool with
      callers := pool.callers.set i (.tracked task), scheduler := pool.scheduler.track task } := by
  have hshown : ∀ a, ({ pool with
      callers := pool.callers.set i (.tracked task)
      scheduler := pool.scheduler.track task } : TaskPool).shown.count a
      = pool.shown.count a + [task].count a := by
    intro a
    have hmove := count_flatMap_set Caller.shown hcaller (.tracked task) a
    simp only [Caller.shown, List.count_nil] at hmove
    simp only [shown, inside, List.count_append]
    omega
  refine ⟨h.owns.congr fun a => ?_, fun a => ?_, fun htracked a => ?_⟩
  · have hmove := count_flatMap_set Caller.holds hcaller (.tracked task) a
    simp only [Caller.holds] at hmove
    simp only [owners, inside, List.count_append, List.count_nil]
    omega
  · rw [hshown, Scheduler.track, List.count_append]
    exact Nat.add_le_add_right (h.within a) _
  · rw [hshown, Scheduler.track, List.count_append]
    exact Nat.add_le_add_right (h.exactly htracked a) _

theorem Owned.push (h : Owned untracked pool) (hcaller : pool.callers[i]? = some (.tracked task)) :
    Owned untracked { pool with
      callers := pool.callers.set i .outside, taskQueue := pool.taskQueue ++ [task] } := by
  have hshown : ∀ a, ({ pool with
      callers := pool.callers.set i .outside
      taskQueue := pool.taskQueue ++ [task] } : TaskPool).shown.count a = pool.shown.count a := by
    intro a
    have hmove := count_flatMap_set Caller.shown hcaller .outside a
    simp only [Caller.shown, List.count_nil] at hmove
    simp only [shown, inside, List.count_append]
    omega
  refine ⟨h.owns.congr fun a => ?_, fun a => ?_, fun htracked a => ?_⟩
  · have hmove := count_flatMap_set Caller.holds hcaller .outside a
    simp only [Caller.holds, List.count_nil] at hmove
    simp only [owners, inside, List.count_append, List.count_nil]
    omega
  · rw [hshown]
    exact h.within a
  · rw [hshown]
    exact h.exactly htracked a

theorem Owned.enqueueTask (h : Owned true pool) (hfree : task ∉ pool.heap.live) :
    Owned true { pool with
      heap := pool.heap.allocate task, taskQueue := pool.taskQueue ++ [task] } := by
  refine ⟨(h.owns.allocate hfree).congr fun a => ?_, fun a => ?_, nofun⟩
  · rw [count_cons_split]
    simp only [owners, inside, List.count_append, List.count_nil]
    omega
  · have hwithin := h.within a
    simp only [shown, inside, List.count_append] at hwithin ⊢
    omega

theorem Owned.pop (h : Owned untracked pool) (hworker : pool.workers[i]? = some .idle)
    (htake : pool.takeTask = some (task, rest)) :
    Owned untracked { rest with workers := pool.workers.set i (.popped task) } := by
  have hinside : ∀ a, ({ rest with
      workers := pool.workers.set i (.popped task) } : TaskPool).inside.count a
      = pool.inside.count a := by
    intro a
    have hmove := count_flatMap_set PoolThread.holds hworker (.popped task) a
    simp only [PoolThread.holds, List.count_nil] at hmove
    rcases takeTask_cases htake with ⟨tail, hqueue, rfl⟩ | ⟨-, tail, hqueue, rfl⟩
    all_goals
      rw [← List.singleton_append] at hqueue
      simp only [inside, hqueue, List.count_append]
      omega
  have hdeleted : ∀ a, ((pool.workers.set i (.popped task)).flatMap PoolThread.justDeleted).count a
      = (pool.workers.flatMap PoolThread.justDeleted).count a := fun a =>
    count_flatMap_set PoolThread.justDeleted hworker (.popped task) a
  obtain ⟨hcallers, hscheduler, hheap⟩ : rest.callers = pool.callers
      ∧ rest.scheduler = pool.scheduler ∧ rest.heap = pool.heap := by
    rcases takeTask_cases htake with ⟨tail, -, rfl⟩ | ⟨-, tail, -, rfl⟩ <;> exact ⟨rfl, rfl, rfl⟩
  have hshown : ∀ a, ({ rest with
      workers := pool.workers.set i (.popped task) } : TaskPool).shown.count a
      = pool.shown.count a := by
    intro a
    simp only [shown, List.count_append, hinside, hdeleted]
    rw [hcallers]
  refine ⟨?_, fun a => ?_, fun htracked a => ?_⟩
  · have howns : rest.heap.Owns pool.owners [] := hheap ▸ h.owns
    refine howns.congr fun a => ?_
    simp only [owners, List.count_append, hinside]
    rw [hcallers]
  · rw [hshown]
    exact hscheduler ▸ h.within a
  · rw [hshown]
    exact hscheduler ▸ h.exactly htracked a

theorem Owned.delete (h : Owned untracked pool) (hworker : pool.workers[i]? = some (.ran task)) :
    Owned untracked { pool with
      workers := pool.workers.set i (.deleted task), heap := pool.heap.delete task } := by
  have hholds : ∀ a, ((pool.workers.set i (.deleted task)).flatMap PoolThread.holds).count a
      + [task].count a = (pool.workers.flatMap PoolThread.holds).count a := fun a =>
    count_flatMap_set PoolThread.holds hworker (.deleted task) a
  have hdeleted : ∀ a,
      ((pool.workers.set i (.deleted task)).flatMap PoolThread.justDeleted).count a
      = (pool.workers.flatMap PoolThread.justDeleted).count a + [task].count a := fun a =>
    count_flatMap_set PoolThread.justDeleted hworker (.deleted task) a
  have hshown : ∀ a, ({ pool with
      workers := pool.workers.set i (.deleted task)
      heap := pool.heap.delete task } : TaskPool).shown.count a = pool.shown.count a := by
    intro a
    have hone := hholds a
    have htwo := hdeleted a
    simp only [shown, inside, List.count_append]
    omega
  have howns : pool.heap.Owns (task :: ({ pool with
      workers := pool.workers.set i (.deleted task) } : TaskPool).owners) [] := by
    refine h.owns.congr fun a => ?_
    have hone := hholds a
    rw [count_cons_split]
    simp only [owners, inside, List.count_append]
    omega
  refine ⟨howns.delete, fun a => ?_, fun htracked a => ?_⟩
  · rw [hshown]
    exact h.within a
  · rw [hshown]
    exact h.exactly htracked a

/-- The scheduler may strike off the pointer of another task at the same address, but not more pointers
than it should. -/
theorem Owned.markDone (h : Owned untracked pool)
    (hworker : pool.workers[i]? = some (.deleted task)) :
    Owned untracked { pool with
      workers := pool.workers.set i .marked, scheduler := pool.scheduler.markDone task } := by
  have hholds : ∀ a, ((pool.workers.set i .marked).flatMap PoolThread.holds).count a
      = (pool.workers.flatMap PoolThread.holds).count a := fun a =>
    count_flatMap_set PoolThread.holds hworker .marked a
  have hshown : ∀ a, ({ pool with
      workers := pool.workers.set i .marked
      scheduler := pool.scheduler.markDone task } : TaskPool).shown.count a + [task].count a
      = pool.shown.count a := by
    intro a
    have hdeleted := count_flatMap_set PoolThread.justDeleted hworker .marked a
    have hsame := hholds a
    simp only [PoolThread.justDeleted, List.count_nil] at hdeleted
    simp only [shown, inside, List.count_append]
    omega
  have hcount : ∀ a, [task].count a = if task == a then 1 else 0 := fun a => by
    rw [List.count_cons, List.count_nil, Nat.zero_add]
  have herase : ∀ a, (pool.scheduler.markDone task).tracked.count a
      = pool.scheduler.tracked.count a - [task].count a := fun a => by
    rw [Scheduler.markDone, List.count_erase, hcount]
  refine ⟨h.owns.congr fun a => ?_, fun a => ?_, fun htracked a => ?_⟩
  · simp only [owners, inside, List.count_append, hholds]
  · have hwithin := h.within a
    have hone := hshown a
    rw [herase]
    omega
  · have hexactly := h.exactly htracked a
    have hone := hshown a
    rw [herase]
    omega

theorem Owned.step (h : Owned untracked pool)
    (haction : ∀ task, action = .enqueueTask task → untracked = true)
    (hnext : pool.next action = some after) : Owned untracked after := by
  cases stepped hnext with
  | create hcaller hfree => exact h.create hcaller hfree
  | track hcaller => exact h.track hcaller
  | push hcaller => exact h.push hcaller
  | enqueueTask hfree =>
      obtain rfl := haction _ rfl
      exact h.enqueueTask hfree
  | pop hworker htake => exact h.pop hworker htake
  | count hworker => exact h.moveWorker hworker (.running _) rfl rfl _
  | @finish i task hworker =>
      have howner : task ∈ pool.owners := by
        have hmem := mem_flatMap_of_getElem? PoolThread.holds hworker (List.mem_singleton_self task)
        simp only [owners, inside, List.mem_append]
        exact .inr (.inr (.inr hmem))
      rw [h.owns.use howner]
      exact h.moveWorker hworker (.ran task) rfl rfl pool.activeTasks
  | delete hworker => exact h.delete hworker
  | markDone hworker => exact h.markDone hworker
  | uncount hworker => exact h.moveWorker hworker .idle rfl rfl _
  | leave hworker => exact h.moveWorker hworker .stopped rfl rfl pool.activeTasks
  | shutdown => exact h.waiting _ _
  | waitAll hwaiter => exact h.waiting _ _
  | load hwaiter => exact h.waiting _ _
  | readSizes hwaiter => exact h.waiting _ _

theorem owned_run {numCallers numThreads : Nat} {schedule : List Action}
    (hrun : (new numCallers numThreads).run schedule = some pool)
    (huntracked : untracked = true ∨ ∀ task, .enqueueTask task ∉ schedule) : Owned untracked pool := by
  have hside : Runs.Along (fun pool action after => next pool action = some after)
      (fun _ action => ∀ task, action = .enqueueTask task → untracked = true)
      (new numCallers numThreads) schedule := by
    refine Runs.along_of_forall (fun action hmem task heq => ?_) _
    rcases huntracked with htrue | hnone
    · exact htrue
    · exact (hnone task (heq ▸ hmem)).elim
  exact Runs.foldlM_of_invariant (Owned untracked)
    (fun _ _ _ h haction hnext => h.step haction hnext) (owned_new _ _ _) hside hrun

/-! ### The end of the scheduler -/

/-- Nothing is left outside the queues of a pool that is destroyed. -/
theorem Joined.shown_eq (h : pool.Joined) :
    pool.shown = pool.taskQueue ++ pool.highPriorityQueue ∧ pool.owners = pool.shown := by
  have hcallers : pool.callers.flatMap Caller.holds = []
      ∧ pool.callers.flatMap Caller.shown = [] := by
    constructor <;> refine List.flatMap_eq_nil_iff.mpr fun caller hcaller => ?_
    all_goals rw [h.1 caller hcaller]; rfl
  have hworkers : pool.workers.flatMap PoolThread.holds = []
      ∧ pool.workers.flatMap PoolThread.justDeleted = [] := by
    constructor <;> refine List.flatMap_eq_nil_iff.mpr fun worker hworker => ?_
    all_goals rw [h.2 worker hworker]; rfl
  simp only [owners, TaskPool.shown, inside, hcallers, hworkers, List.append_nil, List.nil_append,
    and_self]

theorem Owned.destroy_sound (h : Owned untracked pool) (hjoined : pool.Joined) :
    (pool.scheduler.destroy pool.heap).faulty = false := by
  have hwithin : ∀ a, pool.scheduler.tracked.count a ≤ pool.owners.count a := fun a => by
    rw [hjoined.shown_eq.2]
    exact h.within a
  refine (Heap.deleteAll_sound_iff h.owns.sound h.owns.nodup _).mpr ⟨?_, fun a ha => ?_⟩
  · refine List.nodup_iff_count_le_one.mpr fun a => ?_
    have hone := h.owns.count_le_one a
    have hle := hwithin a
    omega
  · have hpos := List.count_pos_iff.mpr ha
    exact h.owns.mem (List.count_pos_iff.mp (Nat.lt_of_lt_of_le hpos (hwithin a)))

theorem Owned.destroy_all (h : Owned false pool) (hjoined : pool.Joined) :
    (pool.scheduler.destroy pool.heap).live = [] := by
  have hall : pool.heap.Owns (pool.scheduler.tracked ++ []) [] := by
    refine h.owns.congr fun a => ?_
    have hwithin := h.within a
    have hexactly := h.exactly rfl a
    rw [hjoined.shown_eq.2, List.append_nil]
    omega
  exact hall.deleteAll.live_eq_nil

theorem Owned.dangling (h : Owned untracked pool)
    (hnext : pool.scheduler.nextScheduled = some task) :
    task ∈ pool.heap.live ∨ .deleted task ∈ pool.workers := by
  have hpos := List.count_pos_iff.mpr (List.mem_of_head? hnext)
  have hshown : task ∈ pool.shown :=
    List.count_pos_iff.mp (Nat.lt_of_lt_of_le hpos (h.within task))
  simp only [shown, List.mem_append] at hshown
  rcases hshown with hcaller | hinside | hdeleted
  · obtain ⟨caller, hmem, htask⟩ := List.mem_flatMap.mp hcaller
    refine .inl (h.owns.mem (List.mem_append_left _ (List.mem_flatMap.mpr ⟨caller, hmem, ?_⟩)))
    cases caller with
    | outside => exact htask
    | created other => cases htask
    | tracked other => exact htask
  · exact .inl (h.owns.mem (List.mem_append_right _ hinside))
  · obtain ⟨worker, hmem, htask⟩ := List.mem_flatMap.mp hdeleted
    cases worker with
    | deleted other =>
        obtain rfl := List.mem_singleton.mp htask
        exact .inr hmem
    | _ => cases htask

/-- **The life of a task.** However the threads take turns and wherever the allocator puts new tasks, no
task is run after its deletion or deleted twice, not even by the destructor of the scheduler; what the
scheduler hands out dangles only while a worker is between the deletion and `markDone`; and once the pool
is destroyed, that destructor deletes whatever is left, if every task came in through `enqueue`. -/
theorem tasks_deleted_once {numCallers numThreads : Nat} {schedule : List Action}
    (hrun : (new numCallers numThreads).run schedule = some pool) :
    pool.heap.faulty = false
      ∧ (∀ task, pool.scheduler.nextScheduled = some task →
        task ∈ pool.heap.live ∨ .deleted task ∈ pool.workers)
      ∧ (pool.Joined → (pool.scheduler.destroy pool.heap).faulty = false
        ∧ ((∀ task, .enqueueTask task ∉ schedule) →
          (pool.scheduler.destroy pool.heap).live = [])) := by
  have howned : Owned true pool := owned_run hrun (.inl rfl)
  refine ⟨howned.owns.sound, fun task => howned.dangling, fun hjoined =>
    ⟨howned.destroy_sound hjoined, fun hnone => ?_⟩⟩
  have hexact : Owned false pool := owned_run hrun (.inr hnone)
  exact hexact.destroy_all hjoined

/-- A worker has deleted its task at 7 when another task is put there; the scheduler strikes off the
pointer that is as good. The second task is left to the destructor. -/
theorem tasks_deleted_once_reused :
    let schedule : List Action :=
      [.create 0 7, .track 0, .push 0, .pop 0, .count 0, .finish 0, .delete 0, .create 1 7, .track 1,
        .markDone 0, .push 1, .uncount 0, .shutdown, .leave 0]
    ∃ pool, (new 2 1).run schedule = some pool ∧ pool.Joined ∧ pool.scheduler.tracked = [7]
      ∧ pool.heap.faulty = false
      ∧ (∀ task, pool.scheduler.nextScheduled = some task →
        task ∈ pool.heap.live ∨ .deleted task ∈ pool.workers)
      ∧ (pool.Joined → (pool.scheduler.destroy pool.heap).faulty = false
        ∧ ((∀ task, .enqueueTask task ∉ schedule) →
          (pool.scheduler.destroy pool.heap).live = [])) := by
  intro schedule
  have hrun : (new 2 1).run schedule = some
      { callers := [.outside, .outside], workers := [.stopped], taskQueue := [7]
        scheduler := { tracked := [7] }, heap := { live := [7] }, running := false } := by decide
  exact ⟨_, hrun, by simp [Joined], rfl, tasks_deleted_once hrun⟩

end TaskPool

end NebulaFS
