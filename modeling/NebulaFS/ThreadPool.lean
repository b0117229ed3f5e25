import Mathlib.Data.List.Basic

/-!
# The thread pool

`network/ThreadPool.cpp` as a machine whose steps are what one thread does between two others. Tasks
are numbered in the order of their `enqueue`. A worker takes a task off the queues under the mutex and
counts it in `activeTasks_` only after that; `waitAll` reads the count first and the queues second.
-/

namespace NebulaFS

/-- A worker between two of its steps. -/
inductive Worker
  | idle
  /-- It has popped a task and has not counted it yet. -/
  | popped (task : Nat)
  | running (task : Nat)
  /-- The task has ended and is still counted. -/
  | ended (task : Nat)
deriving DecidableEq

/-- The thread that calls `waitAll`. -/
inductive Waiter
  | outside
  /-- About to load `activeTasks_`. -/
  | looping
  /-- It has loaded zero and is about to read the sizes of the queues. -/
  | loaded
  | returned
deriving DecidableEq

structure ThreadPool where
  workers : List Worker
  taskQueue : List Nat := []
  highPriorityQueue : List Nat := []
  activeTasks : Nat := 0
  waiter : Waiter := .outside
  /-- How many tasks were enqueued. -/
  enqueued : Nat := 0
  /-- How many were when `waitAll` was called. -/
  before : Nat := 0
  /-- The tasks that have ended. -/
  finished : List Nat := []
deriving DecidableEq

namespace ThreadPool

inductive Action
  | enqueue
  | pop (worker : Nat)
  | count (worker : Nat)
  | finish (worker : Nat)
  | uncount (worker : Nat)
  | waitAll
  | load
  | readSizes
deriving DecidableEq

def new (numThreads : Nat) : ThreadPool := { workers := List.replicate numThreads .idle }

def pendingTasks (pool : ThreadPool) : Nat :=
  pool.taskQueue.length + pool.highPriorityQueue.length

/-- The task that a worker is to pop, and the pool without it. -/
def takeTask (pool : ThreadPool) : Option (Nat × ThreadPool) :=
  match pool.highPriorityQueue, pool.taskQueue with
  | task :: rest, _ => some (task, { pool with highPriorityQueue := rest })
  | [], task :: rest => some (task, { pool with taskQueue := rest })
  | [], [] => none

/-- One step, `none` where the thread is not at it. -/
def next (pool : ThreadPool) : Action → Option ThreadPool
  | .enqueue =>
      some { pool with
        taskQueue := pool.taskQueue ++ [pool.enqueued]
        enqueued := pool.enqueued + 1 }
  | .pop i =>
      match pool.workers[i]?, pool.takeTask with
      | some .idle, some (task, rest) =>
          some { rest with workers := pool.workers.set i (.popped task) }
      | _, _ => none
  | .count i =>
      match pool.workers[i]? with
      | some (.popped task) =>
          some { pool with
            workers := pool.workers.set i (.running task)
            activeTasks := pool.activeTasks + 1 }
      | _ => none
  | .finish i =>
      match pool.workers[i]? with
      | some (.running task) =>
          some { pool with
            workers := pool.workers.set i (.ended task)
            finished := task :: pool.finished }
      | _ => none
  | .uncount i =>
      match pool.workers[i]? with
      | some (.ended _) =>
          some { pool with
            workers := pool.workers.set i .idle
            activeTasks := pool.activeTasks - 1 }
      | _ => none
  | .waitAll =>
      if pool.waiter = .outside ∨ pool.waiter = .returned then
        some { pool with waiter := .looping, before := pool.enqueued }
      else none
  | .load =>
      if pool.waiter = .looping then
        some { pool with waiter := if 0 < pool.activeTasks then .looping else .loaded }
      else none
  | .readSizes =>
      if pool.waiter = .loaded then
        some { pool with waiter := if 0 < pool.pendingTasks then .looping else .returned }
      else none

def run (pool : ThreadPool) (schedule : List Action) : Option ThreadPool :=
  schedule.foldlM next pool

end ThreadPool

end NebulaFS
