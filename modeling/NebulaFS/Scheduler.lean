import NebulaFS.Lib.Ownership
import NebulaFS.ThreadPool

/-!
# The tasks of the thread pool as objects on the heap

`network/ThreadPool.cpp` with its pointers. `enqueue` makes a task, tracks it with the scheduler and
pushes it; a worker deletes the task it has run and tells the scheduler afterwards, when the address
may belong to another task already. The destructor of the scheduler, at the end of the process,
deletes what is still tracked. Threads take turns as in `ThreadPool`, which knows the tasks by number.
-/

namespace NebulaFS

open Ownership

/-- Where an object lies. The allocator may give any address that is free. -/
abbrev Address := Nat

structure Scheduler where
  tracked : List Address := []
deriving DecidableEq

namespace Scheduler

def track (scheduler : Scheduler) (task : Address) : Scheduler :=
  { tracked := scheduler.tracked ++ [task] }

def nextScheduled (scheduler : Scheduler) : Option Address := scheduler.tracked.head?

/-- The first pointer that compares equal is removed. -/
def markDone (scheduler : Scheduler) (task : Address) : Scheduler :=
  { tracked := scheduler.tracked.erase task }

/-- The destructor. -/
def destroy (scheduler : Scheduler) (heap : Heap Address) : Heap Address :=
  heap.deleteAll scheduler.tracked

end Scheduler

/-- A thread of the application, in `enqueue` or not. -/
inductive Caller
  | outside
  | created (task : Address)
  | tracked (task : Address)
deriving DecidableEq

/-- A worker between two of its steps. -/
inductive PoolThread
  | idle
  | popped (task : Address)
  | running (task : Address)
  | ran (task : Address)
  /-- The task is deleted, and the scheduler does not know. -/
  | deleted (task : Address)
  | marked
  | stopped
deriving DecidableEq

structure TaskPool where
  callers : List Caller
  workers : List PoolThread
  taskQueue : List Address := []
  highPriorityQueue : List Address := []
  scheduler : Scheduler := {}
  heap : Heap Address := {}
  activeTasks : Nat := 0
  running : Bool := true
  waiter : Waiter := .outside
deriving DecidableEq

namespace TaskPool

inductive Action
  /-- `new Task`, at this address. -/
  | create (caller : Nat) (task : Address)
  | track (caller : Nat)
  | push (caller : Nat)
  /-- `enqueueTask` of a task that the caller has made and gives away. -/
  | enqueueTask (task : Address)
  | pop (worker : Nat)
  | count (worker : Nat)
  | finish (worker : Nat)
  | delete (worker : Nat)
  | markDone (worker : Nat)
  | uncount (worker : Nat)
  | leave (worker : Nat)
  /-- What the destructor of the pool does before it joins. -/
  | shutdown
  | waitAll
  | load
  | readSizes
deriving DecidableEq

def new (numCallers numThreads : Nat) : TaskPool :=
  { callers := List.replicate numCallers .outside, workers := List.replicate numThreads .idle }

def pendingTasks (pool : TaskPool) : Nat := pool.taskQueue.length + pool.highPriorityQueue.length

def takeTask (pool : TaskPool) : Option (Address × TaskPool) :=
  match pool.highPriorityQueue, pool.taskQueue with
  | task :: rest, _ => some (task, { pool with highPriorityQueue := rest })
  | [], task :: rest => some (task, { pool with taskQueue := rest })
  | [], [] => none

/-- One step, `none` where the thread is not at it. -/
def next (pool : TaskPool) : Action → Option TaskPool
  | .create i task =>
      match pool.callers[i]? with
      | some .outside =>
          if task ∈ pool.heap.live then none
          else
            some { pool with
              callers := pool.callers.set i (.created task)
              heap := pool.heap.allocate task }
      | _ => none
  | .track i =>
      match pool.callers[i]? with
      | some (.created task) =>
          some { pool with
            callers := pool.callers.set i (.tracked task)
            scheduler := pool.scheduler.track task }
      | _ => none
  | .push i =>
      match pool.callers[i]? with
      | some (.tracked task) =>
          some { pool with
            callers := pool.callers.set i .outside
            taskQueue := pool.taskQueue ++ [task] }
      | _ => none
  | .enqueueTask task =>
      if task ∈ pool.heap.live then none
      else
        some { pool with
          heap := pool.heap.allocate task
          taskQueue := pool.taskQueue ++ [task] }
  | .pop i =>
      match pool.workers[i]?, pool.takeTask with
      | some .idle, some (task, rest) =>
          if pool.running then some { rest with workers := pool.workers.set i (.popped task) }
          else none
      | _, _ => none
  | .count i =>
      match pool.workers[i]? with
      | some (.popped task) =>
          some { pool with
            workers := pool.workers.set i (.running task)
            activeTasks := pool.activeTasks + 1 }
      | _ => none
  | .finish i =>
      match pool.workers[i]? with
      | some (.running task) =>
          some { pool with
            workers := pool.workers.set i (.ran task)
            heap := pool.heap.use task }
      | _ => none
  | .delete i =>
      match pool.workers[i]? with
      | some (.ran task) =>
          some { pool with
            workers := pool.workers.set i (.deleted task)
            heap := pool.heap.delete task }
      | _ => none
  | .markDone i =>
      match pool.workers[i]? with
      | some (.deleted task) =>
          some { pool with
            workers := pool.workers.set i .marked
            scheduler := pool.scheduler.markDone task }
      | _ => none
  | .uncount i =>
      match pool.workers[i]? with
      | some .marked =>
          some { pool with
            workers := pool.workers.set i .idle
            activeTasks := pool.activeTasks - 1 }
      | _ => none
  | .leave i =>
      match pool.workers[i]? with
      | some .idle =>
          if pool.running then none else some { pool with workers := pool.workers.set i .stopped }
      | _ => none
  | .shutdown => some { pool with running := false }
  | .waitAll =>
      if pool.waiter = .outside ∨ pool.waiter = .returned then some { pool with waiter := .looping }
      else none
  | .load =>
      if pool.waiter = .looping then
        some { pool with waiter := if 0 < pool.activeTasks then .looping else .loaded }
      else none
  | .readSizes =>
      if pool.waiter = .loaded then
        some { pool with waiter := if 0 < pool.pendingTasks then .looping else .returned }
      else none

def run (pool : TaskPool) (schedule : List Action) : Option TaskPool := schedule.foldlM next pool

/-- The pool is destroyed: every worker is joined, and nobody enqueues. -/
def Joined (pool : TaskPool) : Prop :=
  (∀ caller ∈ pool.callers, caller = .outside) ∧ ∀ worker ∈ pool.workers, worker = .stopped

end TaskPool

end NebulaFS
