import Mathlib.Data.Finset.Card
import NebulaFS.Lib.Runs
import NebulaFS.Types

/-!
# The block allocator

`utils/Allocator.cpp`. `createPool` locks the mutex of the allocator, which is not recursive: the
constructor makes a pool, and `allocate` on an empty free list and `reset`, which hold the mutex
already, never return. Addresses are numbers; the free list is kept with its back first.
-/

namespace NebulaFS

/-- The memory of a pool, by the address it begins at and its size, and the blocks in it. -/
structure AllocatorPool where
  memory : Nat
  memorySize : Nat
  blocks : List Nat
deriving DecidableEq

structure Allocator where
  blockSize : Nat
  poolSize : Nat
  pools : List AllocatorPool
  freeList : List Nat
  allocated : Finset Nat
deriving DecidableEq

namespace Allocator

/-- The addresses of the blocks of a pool whose memory begins at `base`. -/
def poolBlocks (blockSize poolSize base : Nat) : List Nat :=
  (List.range poolSize).map fun i => base + i * blockSize

/-- The size of the memory is a product of two `size_t`. -/
def addPool (allocator : Allocator) (base : Nat) : Allocator :=
  let pool : AllocatorPool :=
    { memory := base
      memorySize := allocator.blockSize * allocator.poolSize % wordSize
      blocks := poolBlocks allocator.blockSize allocator.poolSize base }
  { allocator with
    pools := allocator.pools ++ [pool]
    freeList := pool.blocks.reverse ++ allocator.freeList }

/-- Nothing if the lock is never got, as it is held by the caller. -/
def createPool (allocator : Allocator) (locked : Bool) (base : Nat) : Option Allocator :=
  if locked then none else some (allocator.addPool base)

def new (blockSize poolSize base : Nat) : Allocator :=
  addPool { blockSize := blockSize, poolSize := poolSize, pools := [], freeList := [], allocated := ∅ }
    base

def freeCount (allocator : Allocator) : Nat := allocator.freeList.length

def totalAllocated (allocator : Allocator) : Nat := allocator.allocated.card

/-- A block, if the call returns; `base` is where a new pool would lie. -/
def allocate (allocator : Allocator) (base : Nat) : Option (Nat × Allocator) := do
  let allocator ← if allocator.freeList = [] then allocator.createPool true base else some allocator
  match allocator.freeList with
  | [] => none
  | ptr :: rest =>
      some (ptr, { allocator with freeList := rest, allocated := insert ptr allocator.allocated })

def deallocate (allocator : Allocator) (ptr : Option Nat) : Allocator :=
  match ptr with
  | none => allocator
  | some ptr =>
      { allocator with
        freeList := ptr :: allocator.freeList
        allocated := allocator.allocated.erase ptr }

def reset (allocator : Allocator) (base : Nat) : Option Allocator :=
  createPool { allocator with freeList := [], allocated := ∅, pools := [] } true base

inductive Op
  | allocate (base : Nat)
  | deallocate (ptr : Option Nat)
  | reset (base : Nat)
deriving DecidableEq

/-- A block that was handed out, and whether it was out already. -/
structure Handed where
  ptr : Nat
  out : Bool
deriving DecidableEq

structure Run where
  allocator : Allocator
  handed : List Handed := []
  /-- Every call so far has returned. -/
  returns : Bool := true
deriving DecidableEq

def step (run : Run) (op : Op) : Run :=
  if ¬ run.returns then run
  else
    match op with
    | .allocate base =>
        match run.allocator.allocate base with
        | none => { run with returns := false }
        | some (ptr, allocator) =>
            { run with
              allocator := allocator
              handed := run.handed ++ [{ ptr := ptr, out := ptr ∈ run.allocator.allocated }] }
    | .deallocate ptr => { run with allocator := run.allocator.deallocate ptr }
    | .reset base =>
        match run.allocator.reset base with
        | none => { run with returns := false }
        | some allocator => { run with allocator := allocator }

def after (allocator : Allocator) (ops : List Op) : Run :=
  ops.foldl step { allocator := allocator }

end Allocator

end NebulaFS
