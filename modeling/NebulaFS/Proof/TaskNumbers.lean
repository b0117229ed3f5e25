import NebulaFS.Proof.TaskOwnership

/-!
# The pool of pointers is the pool of numbers

`ThreadPool` numbers the tasks, and the code has addresses, which the allocator gives out again. The
two take the same steps all the same: while a task is in a queue or about to run nothing else lies at
its address, so the address stands for its number (`Simulates`), and what a worker has run needs no
name. The numbered pool hands the tasks out in the order in which they came, each of them once.
-/

namespace NebulaFS

open Ownership

/-- How a worker appears when its task, if it is still to be run, is known by number. -/
def PoolThread.Erases (names : Address → Nat) : PoolThread → Worker → Prop
  | .idle, worker => worker = .idle
  | .popped task, worker => worker = .popped (names task)
  | .running task, worker => worker = .running (names task)
  | .ran _, worker => ∃ task, worker = .ended task
  | .deleted _, worker => ∃ task, worker = .ended task
  | .marked, worker => ∃ task, worker = .ended task
  | .stopped, worker => worker = .idle

namespace TaskPool

/-- The steps that the numbered pool has too. -/
def Action.erase : Action → Option ThreadPool.Action
  | .push _ => some .enqueue
  | .enqueueTask _ => some .enqueue
  | .pop i => some (.pop i)
  | .count i => some (.count i)
  | .finish i => some (.finish i)
  | .uncount i => some (.uncount i)
  | .waitAll => some .waitAll
  | .load => some .load
  | .readSizes => some .readSizes
  | .create _ _ => none
  | .track _ => none
  | .delete _ => none
  | .markDone _ => none
  | .leave _ => none
  | .shutdown => none

structure SimulatesBy (names : Address → Nat) (pool : TaskPool) (numbered : ThreadPool) : Prop where
  taskQueue : numbered.taskQueue = pool.taskQueue.map names
  highPriorityQueue : numbered.highPriorityQueue = pool.highPriorityQueue.map names
  workers : ∀ (i : Nat) (worker : PoolThread), pool.workers[i]? = some worker →
    ∃ other, numbered.workers[i]? = some other ∧ worker.Erases names other
  activeTasks : numbered.activeTasks = pool.activeTasks
  waiter : numbered.waiter = pool.waiter

def Simulates (pool : TaskPool) (numbered : ThreadPool) : Prop :=
  ∃ names, SimulatesBy names pool numbered

variable {pool after rest : TaskPool} {numbered : ThreadPool} {names : Address → Nat}
  {action : Action} {task : Address} {i : Nat}

theorem erases_set {old : PoolThread} {workers : List PoolThread} {others : List Worker}
    (hworkers : ∀ (i : Nat) (worker : PoolThread), workers[i]? = some worker →
      ∃ other, others[i]? = some other ∧ worker.Erases names other)
    (hold : workers[i]? = some old) (new : PoolThread) (other : Worker)
    (hnew : new.Erases names other) :
    ∀ (j : Nat) (worker : PoolThread), (workers.set i new)[j]? = some worker →
      ∃ found, (others.set i other)[j]? = some found ∧ worker.Erases names found := by
  intro j worker hworker
  by_cases hij : i = j
  · subst hij
    obtain ⟨there, hthere, -⟩ := hworkers i old hold
    have hi : i < workers.length := (List.getElem?_eq_some_iff.mp hold).1
    have hi' : i < others.length := (List.getElem?_eq_some_iff.mp hthere).1
    rw [List.getElem?_set_self hi] at hworker
    obtain rfl := Option.some.inj hworker
    exact ⟨other, List.getElem?_set_self hi', hnew⟩
  · rw [List.getElem?_set_ne hij] at hworker ⊢
    exact hworkers j worker hworker

/-- A step of a worker that the numbered pool does not have. -/
theorem SimulatesBy.silent (h : SimulatesBy names pool numbered) {old : PoolThread}
    (hworker : pool.workers[i]? = some old) (new : PoolThread)
    (herases : ∀ other, old.Erases names other → new.Erases names other)
    (heap : Heap Address) (scheduler : Scheduler) :
    SimulatesBy names { pool with
      workers := pool.workers.set i new, heap := heap, scheduler := scheduler } numbered := by
  obtain ⟨other, hother, hold⟩ := h.workers i old hworker
  refine ⟨h.taskQueue, h.highPriorityQueue, fun j worker hj => ?_, h.activeTasks, h.waiter⟩
  obtain ⟨found, hfound, hfits⟩ := erases_set h.workers hworker new other (herases other hold) j worker hj
  refine ⟨found, ?_, hfits⟩
  have hsame : numbered.workers.set i other = numbered.workers := by
    obtain ⟨hi, rfl⟩ := List.getElem?_eq_some_iff.mp hother
    exact List.set_getElem_self hi
  rwa [hsame] at hfound

/-- A name for an address that nothing the numbered pool sees lies at. -/
theorem SimulatesBy.rename (h : SimulatesBy names pool numbered) (hfresh : task ∉ pool.inside)
    (number : Nat) : SimulatesBy (Function.update names task number) pool numbered := by
  simp only [inside, List.mem_append, not_or] at hfresh
  obtain ⟨hlow, hhigh, hheld⟩ := hfresh
  have hmap : ∀ queue : List Address, task ∉ queue →
      queue.map (Function.update names task number) = queue.map names := fun queue hqueue =>
    List.map_congr_left fun other hother =>
      Function.update_of_ne (fun heq : other = task => hqueue (heq ▸ hother)) _ _
  refine ⟨by rw [hmap _ hlow, h.taskQueue], by rw [hmap _ hhigh, h.highPriorityQueue],
    fun j worker hj => ?_, h.activeTasks, h.waiter⟩
  obtain ⟨other, hother, herases⟩ := h.workers j worker hj
  refine ⟨other, hother, ?_⟩
  have hkeeps : ∀ held ∈ worker.holds, Function.update names task number held = names held :=
    fun held hmem => Function.update_of_ne
      (fun heq : held = task =>
        hheld (heq ▸ mem_flatMap_of_getElem? PoolThread.holds hj hmem)) _ _
  cases worker with
  | popped held =>
      have hheldName := hkeeps held (List.mem_singleton_self held)
      exact herases.trans (by rw [hheldName])
  | running held =>
      have hheldName := hkeeps held (List.mem_singleton_self held)
      exact herases.trans (by rw [hheldName])
  | _ => exact herases

theorem SimulatesBy.enqueue (h : SimulatesBy names pool numbered) (hfresh : task ∉ pool.inside)
    (callers : List Caller) (heap : Heap Address) :
    ∃ later, numbered.next .enqueue = some later
      ∧ Simulates { pool with
          callers := callers, heap := heap, taskQueue := pool.taskQueue ++ [task] } later := by
  have hrenamed := h.rename hfresh numbered.enqueued
  refine ⟨_, rfl, Function.update names task numbered.enqueued, ?_, hrenamed.highPriorityQueue,
    hrenamed.workers, h.activeTasks, h.waiter⟩
  simp only [List.map_append, List.map_singleton, Function.update_self]
  rw [hrenamed.taskQueue]

theorem SimulatesBy.pop (h : SimulatesBy names pool numbered)
    (hworker : pool.workers[i]? = some .idle) (htake : pool.takeTask = some (task, rest)) :
    ∃ later, numbered.next (.pop i) = some later
      ∧ SimulatesBy names { rest with workers := pool.workers.set i (.popped task) } later := by
  obtain ⟨other, hother, rfl⟩ := h.workers i .idle hworker
  have hworkers := erases_set h.workers hworker (.popped task) (.popped (names task)) rfl
  rcases takeTask_cases htake with ⟨tail, hqueue, rfl⟩ | ⟨hnone, tail, hqueue, rfl⟩
  · have hhigh : numbered.highPriorityQueue = names task :: tail.map names := by
      rw [h.highPriorityQueue, hqueue, List.map_cons]
    refine ⟨{ numbered with
        highPriorityQueue := tail.map names
        workers := numbered.workers.set i (.popped (names task)) }, ?_, h.taskQueue, rfl, hworkers,
      h.activeTasks, h.waiter⟩
    simp only [ThreadPool.next, ThreadPool.takeTask, hother, hhigh]
  · have hhigh : numbered.highPriorityQueue = [] := by
      rw [h.highPriorityQueue, hnone, List.map_nil]
    have hlow : numbered.taskQueue = names task :: tail.map names := by
      rw [h.taskQueue, hqueue, List.map_cons]
    refine ⟨{ numbered with
        taskQueue := tail.map names
        workers := numbered.workers.set i (.popped (names task)) }, ?_, rfl, h.highPriorityQueue,
      hworkers, h.activeTasks, h.waiter⟩
    simp only [ThreadPool.next, ThreadPool.takeTask, hother, hhigh, hlow]

/-- What the numbered pool does at a step: nothing, or the step that goes by the same name. -/
def Follows (action : Option ThreadPool.Action) (numbered later : ThreadPool) : Prop :=
  action.elim (later = numbered) fun action => numbered.next action = some later

theorem Simulates.step (h : Simulates pool numbered) (howned : Owned true pool)
    (hnext : pool.next action = some after) :
    ∃ later, Follows action.erase numbered later ∧ Simulates after later := by
  obtain ⟨names, h⟩ := h
  cases stepped hnext with
  | create hcaller hfree =>
      exact ⟨numbered, rfl, names, h.taskQueue, h.highPriorityQueue, h.workers, h.activeTasks,
        h.waiter⟩
  | track hcaller =>
      exact ⟨numbered, rfl, names, h.taskQueue, h.highPriorityQueue, h.workers, h.activeTasks,
        h.waiter⟩
  | @push i task hcaller =>
      have hfresh : task ∉ pool.inside := by
        intro hinside
        have hcallers := List.count_pos_iff.mpr
          (mem_flatMap_of_getElem? Caller.holds hcaller (List.mem_singleton_self task))
        have hmore := List.count_pos_iff.mpr hinside
        have hone := howned.owns.count_le_one task
        rw [owners, List.count_append] at hone
        omega
      exact h.enqueue hfresh _ pool.heap
  | @enqueueTask task hfree =>
      have hfresh : task ∉ pool.inside := fun hinside =>
        howned.owns.not_mem hfree (List.mem_append_right _ hinside)
      exact h.enqueue hfresh pool.callers _
  | pop hworker htake =>
      obtain ⟨later, hlater, hsimulates⟩ := h.pop hworker htake
      exact ⟨later, hlater, names, hsimulates⟩
  | @count i task hworker =>
      obtain ⟨other, hother, rfl⟩ := h.workers i _ hworker
      refine ⟨{ numbered with
          workers := numbered.workers.set i (.running (names task))
          activeTasks := numbered.activeTasks + 1 }, ?_, names, h.taskQueue, h.highPriorityQueue,
        erases_set h.workers hworker (.running task) _ rfl, ?_, h.waiter⟩
      · simp only [Follows, Action.erase, Option.elim, ThreadPool.next, hother]
      · simp only [h.activeTasks]
  | @finish i task hworker =>
      obtain ⟨other, hother, rfl⟩ := h.workers i _ hworker
      refine ⟨{ numbered with
          workers := numbered.workers.set i (.ended (names task))
          finished := names task :: numbered.finished }, ?_, names, h.taskQueue,
        h.highPriorityQueue, erases_set h.workers hworker (.ran task) _ ⟨names task, rfl⟩,
        h.activeTasks, h.waiter⟩
      simp only [Follows, Action.erase, Option.elim, ThreadPool.next, hother]
  | delete hworker =>
      exact ⟨numbered, rfl, names, h.silent hworker (.deleted _) (fun _ herases => herases) _
        pool.scheduler⟩
  | markDone hworker =>
      exact ⟨numbered, rfl, names, h.silent hworker .marked (fun _ herases => herases) pool.heap _⟩
  | @uncount i hworker =>
      obtain ⟨other, hother, number, rfl⟩ := h.workers i _ hworker
      refine ⟨{ numbered with
          workers := numbered.workers.set i .idle
          activeTasks := numbered.activeTasks - 1 }, ?_, names, h.taskQueue, h.highPriorityQueue,
        erases_set h.workers hworker .idle _ rfl, ?_, h.waiter⟩
      · simp only [Follows, Action.erase, Option.elim, ThreadPool.next, hother]
      · simp only [h.activeTasks]
  | leave hworker =>
      exact ⟨numbered, rfl, names, h.silent hworker .stopped (fun _ herases => herases) pool.heap
        pool.scheduler⟩
  | shutdown =>
      exact ⟨numbered, rfl, names, h.taskQueue, h.highPriorityQueue, h.workers, h.activeTasks,
        h.waiter⟩
  | waitAll hwaiter =>
      refine ⟨{ numbered with waiter := .looping, before := numbered.enqueued }, ?_, names,
        h.taskQueue, h.highPriorityQueue, h.workers, h.activeTasks, rfl⟩
      simp only [Follows, Action.erase, Option.elim, ThreadPool.next, h.waiter, hwaiter, if_true]
  | load hwaiter =>
      refine ⟨{ numbered with waiter := if 0 < pool.activeTasks then .looping else .loaded }, ?_,
        names, h.taskQueue, h.highPriorityQueue, h.workers, h.activeTasks, rfl⟩
      simp only [Follows, Action.erase, Option.elim, ThreadPool.next, h.waiter, hwaiter, if_true,
        h.activeTasks]
  | readSizes hwaiter =>
      have hpending : numbered.pendingTasks = pool.pendingTasks := by
        rw [ThreadPool.pendingTasks, pendingTasks, h.taskQueue, h.highPriorityQueue, List.length_map,
          List.length_map]
      refine ⟨{ numbered with waiter := if 0 < pool.pendingTasks then .looping else .returned }, ?_,
        names, h.taskQueue, h.highPriorityQueue, h.workers, h.activeTasks, rfl⟩
      simp only [Follows, Action.erase, Option.elim, ThreadPool.next, h.waiter, hwaiter, if_true,
        hpending]

theorem simulates_new (numCallers numThreads : Nat) :
    Simulates (new numCallers numThreads) (ThreadPool.new numThreads) := by
  refine ⟨fun _ => 0, rfl, rfl, fun i worker hworker => ?_, rfl, rfl⟩
  have hi : i < numThreads := by
    have hlength := (List.getElem?_eq_some_iff.mp hworker).1
    rwa [new, List.length_replicate] at hlength
  rw [new, List.getElem?_replicate, if_pos hi] at hworker
  obtain rfl := Option.some.inj hworker
  exact ⟨.idle, by rw [ThreadPool.new, List.getElem?_replicate, if_pos hi], rfl⟩

/-- **The pool of pointers is the pool of numbers.** -/
theorem simulates_run {numCallers numThreads : Nat} {schedule : List Action}
    (hrun : (new numCallers numThreads).run schedule = some pool) :
    ∃ numbered, (ThreadPool.new numThreads).run (schedule.filterMap Action.erase) = some numbered
      ∧ Simulates pool numbered := by
  have hsteps : ∀ (schedule : List Action) (start : TaskPool) (numbered : ThreadPool),
      Owned true start → Simulates start numbered → start.run schedule = some pool →
      ∃ later, numbered.run (schedule.filterMap Action.erase) = some later
        ∧ Simulates pool later := by
    intro schedule
    induction schedule with
    | nil =>
        intro start numbered _ hsimulates hrun
        obtain rfl : start = pool := Option.some.inj hrun
        exact ⟨numbered, rfl, hsimulates⟩
    | cons action schedule ih =>
        intro start numbered howned hsimulates hrun
        rw [run, List.foldlM_cons] at hrun
        obtain ⟨after, hnext, hrest⟩ := Option.bind_eq_some_iff.mp hrun
        obtain ⟨later, hfollows, hlater⟩ := hsimulates.step howned hnext
        obtain ⟨final, hfinal, hend⟩ := ih after later (howned.step (fun _ _ => rfl) hnext) hlater hrest
        refine ⟨final, ?_, hend⟩
        cases herase : action.erase with
        | none =>
            rw [herase] at hfollows
            rw [List.filterMap_cons_none herase, ← hfinal, show later = numbered from hfollows]
        | some step =>
            rw [herase] at hfollows
            have hstep : numbered.next step = some later := hfollows
            rw [List.filterMap_cons_some herase, ThreadPool.run, List.foldlM_cons, hstep]
            exact hfinal
  exact hsteps schedule _ _ (owned_new _ _ _) (simulates_new _ _) hrun

end TaskPool

/-! ### The order of the numbers -/

/-- The task that a worker has taken and not run to its end. -/
def Worker.takes : Worker → List Nat
  | .popped task => [task]
  | .running task => [task]
  | .idle => []
  | .ended _ => []

namespace ThreadPool

/-- The queue holds what was enqueued and not handed out, in order; the numbers handed out, and no others,
are each with one worker, or run. -/
structure HandsOut (handed : Nat) (pool : ThreadPool) : Prop where
  noneHigh : pool.highPriorityQueue = []
  queue : pool.taskQueue = List.range' handed (pool.enqueued - handed)
  handed_le : handed ≤ pool.enqueued
  once : ∀ task, pool.finished.count task + (pool.workers.flatMap Worker.takes).count task
    = if task < handed then 1 else 0

variable {pool after : ThreadPool} {action : Action} {handed i : Nat}

theorem handsOut_new (numThreads : Nat) : HandsOut 0 (new numThreads) := by
  refine ⟨rfl, rfl, Nat.le_refl 0, fun task => ?_⟩
  have hnone : (new numThreads).workers.flatMap Worker.takes = [] :=
    List.flatMap_eq_nil_iff.mpr fun worker hworker => by
      rw [List.eq_of_mem_replicate hworker]
      rfl
  rw [hnone]
  exact (if_neg (Nat.not_lt_zero task)).symm

theorem HandsOut.moveWorker (h : HandsOut handed pool) {old : Worker}
    (hworker : pool.workers[i]? = some old) (new : Worker) (finished : List Nat)
    (hcount : ∀ task, finished.count task + (Worker.takes new).count task
      = pool.finished.count task + (Worker.takes old).count task) (activeTasks : Nat) :
    HandsOut handed { pool with
      workers := pool.workers.set i new, activeTasks := activeTasks, finished := finished } := by
  refine ⟨h.noneHigh, h.queue, h.handed_le, fun task => ?_⟩
  have hmove := count_flatMap_set Worker.takes hworker new task
  have hbound := h.once task
  have hsame := hcount task
  simp only
  omega

theorem HandsOut.pop (h : HandsOut handed pool) (hnext : pool.next (.pop i) = some after) :
    HandsOut (handed + 1) after := by
  simp only [next] at hnext
  split at hnext
  next taken rest hworker htake =>
      obtain rfl := Option.some.inj hnext
      rw [takeTask, h.noneHigh] at htake
      cases hqueue : pool.taskQueue with
      | nil =>
          rw [hqueue] at htake
          cases htake
      | cons head tail =>
          rw [hqueue] at htake
          cases htake
          have hrange := h.queue
          have hle := h.handed_le
          obtain ⟨left, hleft⟩ : ∃ left, pool.enqueued - handed = left + 1 := by
            refine ⟨pool.enqueued - handed - 1, ?_⟩
            by_contra hnone
            rw [show pool.enqueued - handed = 0 by omega, hqueue] at hrange
            cases hrange
          rw [hqueue, hleft, List.range'_succ] at hrange
          obtain ⟨rfl, htail⟩ := List.cons.inj hrange
          refine ⟨rfl, ?_, by simp only; omega, fun task => ?_⟩
          · simp only [htail]
            congr 1
            omega
          · have hmove := count_flatMap_set Worker.takes hworker (.popped taken) task
            have hbound := h.once task
            simp only [Worker.takes, List.count_nil, List.count_singleton] at hmove
            simp only
            by_cases hsame : task = taken
            · subst hsame
              rw [if_neg (Nat.lt_irrefl _)] at hbound
              simp only [beq_self_eq_true, if_true] at hmove
              rw [if_pos (Nat.lt_succ_self _)]
              omega
            · have hother : (taken == task) = false := by simpa using fun h => hsame h.symm
              simp only [hother, Bool.false_eq_true, if_false] at hmove
              split at hbound <;> split <;> omega
  next => cases hnext

/-- The tasks that a schedule hands out. -/
def popCount (schedule : List Action) : Nat :=
  schedule.countP fun action => action matches .pop _

theorem popCount_cons (action : Action) (schedule : List Action) :
    popCount (action :: schedule) = popCount [action] + popCount schedule := by
  rw [popCount, popCount, popCount, ← List.countP_append]
  rfl

theorem HandsOut.step (h : HandsOut handed pool) (hnext : pool.next action = some after) :
    HandsOut (handed + popCount [action]) after := by
  cases action with
  | pop i => exact h.pop hnext
  | enqueue =>
      obtain rfl := Option.some.inj hnext
      refine ⟨h.noneHigh, ?_, Nat.le_succ_of_le h.handed_le, h.once⟩
      have hle := h.handed_le
      have hlast : pool.enqueued = handed + 1 * (pool.enqueued - handed) := by omega
      have hmore : pool.enqueued + 1 - handed = pool.enqueued - handed + 1 := Nat.succ_sub hle
      change pool.taskQueue ++ [pool.enqueued] = List.range' handed (pool.enqueued + 1 - handed)
      rw [h.queue, hmore, List.range'_concat, ← hlast]
  | count i =>
      simp only [next] at hnext
      split at hnext
      next task hworker =>
          obtain rfl := Option.some.inj hnext
          exact h.moveWorker hworker (.running task) pool.finished (fun _ => rfl) _
      next => cases hnext
  | finish i =>
      simp only [next] at hnext
      split at hnext
      next task hworker =>
          obtain rfl := Option.some.inj hnext
          refine h.moveWorker hworker (.ended task) (task :: pool.finished) (fun other => ?_)
            pool.activeTasks
          rw [count_cons_split]
          simp only [Worker.takes, List.count_nil]
          omega
      next => cases hnext
  | uncount i =>
      simp only [next] at hnext
      split at hnext
      next task hworker =>
          obtain rfl := Option.some.inj hnext
          exact h.moveWorker hworker .idle pool.finished (fun _ => rfl) _
      next => cases hnext
  | waitAll =>
      simp only [next] at hnext
      split at hnext
      · obtain rfl := Option.some.inj hnext
        exact ⟨h.noneHigh, h.queue, h.handed_le, h.once⟩
      · cases hnext
  | load =>
      simp only [next] at hnext
      split at hnext
      · obtain rfl := Option.some.inj hnext
        exact ⟨h.noneHigh, h.queue, h.handed_le, h.once⟩
      · cases hnext
  | readSizes =>
      simp only [next] at hnext
      split at hnext
      · obtain rfl := Option.some.inj hnext
        exact ⟨h.noneHigh, h.queue, h.handed_le, h.once⟩
      · cases hnext

theorem HandsOut.run (h : HandsOut handed pool) {schedule : List Action}
    (hrun : pool.run schedule = some after) : HandsOut (handed + popCount schedule) after := by
  induction schedule generalizing pool handed with
  | nil =>
      obtain rfl : pool = after := Option.some.inj hrun
      exact h
  | cons action schedule ih =>
      rw [ThreadPool.run, List.foldlM_cons] at hrun
      obtain ⟨later, hnext, hrest⟩ := Option.bind_eq_some_iff.mp hrun
      have hlater := ih (h.step hnext) hrest
      rwa [Nat.add_assoc, ← popCount_cons] at hlater

end ThreadPool

/-- **Tasks are run in order and once.** Whatever the threads do and wherever tasks are put on the heap,
the pool is at the end of the same steps of a pool of numbers, in which the queue holds the tasks that
were not handed out in the order they came, each one handed out was run or is with a worker, once, and
no other is. -/
theorem TaskPool.numbered_run {numCallers numThreads : Nat} {schedule : List TaskPool.Action}
    {pool : TaskPool} (hrun : (TaskPool.new numCallers numThreads).run schedule = some pool) :
    let handed := ThreadPool.popCount (schedule.filterMap TaskPool.Action.erase)
    ∃ numbered, (ThreadPool.new numThreads).run (schedule.filterMap TaskPool.Action.erase)
        = some numbered
      ∧ TaskPool.Simulates pool numbered
      ∧ numbered.taskQueue = List.range' handed (numbered.enqueued - handed)
      ∧ (numbered.finished ++ numbered.workers.flatMap Worker.takes).Nodup
      ∧ ∀ task, task ∈ numbered.finished ++ numbered.workers.flatMap Worker.takes ↔ task < handed := by
  intro handed
  obtain ⟨numbered, hnumbered, hsimulates⟩ := TaskPool.simulates_run hrun
  have hhands := (ThreadPool.handsOut_new numThreads).run hnumbered
  rw [Nat.zero_add] at hhands
  refine ⟨numbered, hnumbered, hsimulates, hhands.queue, ?_, fun task => ?_⟩
  · refine List.nodup_iff_count_le_one.mpr fun task => ?_
    rw [List.count_append, hhands.once task]
    split <;> omega
  · rw [← List.count_pos_iff, List.count_append, hhands.once task]
    split <;> omega

/-- Two tasks that lay at one address. -/
theorem TaskPool.numbered_run_reused :
    let schedule : List TaskPool.Action :=
      [.create 0 7, .track 0, .push 0, .pop 0, .count 0, .finish 0, .delete 0, .create 1 7, .track 1,
        .push 1, .pop 1, .markDone 0]
    let handed := ThreadPool.popCount (schedule.filterMap TaskPool.Action.erase)
    ∃ pool, (TaskPool.new 2 2).run schedule = some pool
      ∧ ∃ numbered, (ThreadPool.new 2).run (schedule.filterMap TaskPool.Action.erase) = some numbered
        ∧ TaskPool.Simulates pool numbered
        ∧ numbered.taskQueue = List.range' handed (numbered.enqueued - handed)
        ∧ (numbered.finished ++ numbered.workers.flatMap Worker.takes).Nodup
        ∧ ∀ task, task ∈ numbered.finished ++ numbered.workers.flatMap Worker.takes
          ↔ task < handed := by
  intro schedule handed
  have hrun : (TaskPool.new 2 2).run schedule = some
      { callers := [.outside, .outside], workers := [.marked, .popped 7]
        scheduler := { tracked := [7] }, heap := { live := [7] }, activeTasks := 1 } := by decide
  exact ⟨_, hrun, TaskPool.numbered_run hrun⟩

end NebulaFS
