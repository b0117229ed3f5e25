import Mathlib.Data.List.Perm.Basic
import NebulaFS.Allocator

/-!
# What the allocator hands out

As long as only blocks that are out are given back, the free list and the tracked blocks are the pool
(`Partition`): a block handed out was free, and the allocator hangs exactly when all are out.
`deallocate` does not check that the block is out. One block given back that was not, and some sequence
of calls to `allocate` alone hands out a block that is out or none of the pool (`Doubled`).
-/

namespace NebulaFS

namespace Allocator

variable {run : Run} {op : Op} {ops : List Op} {allocator : Allocator} {pool : List Nat} {ptr : Nat}

/-- Only what is out is given back. -/
def GivesBackOut (run : Run) (op : Op) : Prop :=
  ∀ ptr, op = .deallocate (some ptr) → ptr ∈ run.allocator.allocated

def Disciplined (run : Run) (ops : List Op) : Prop :=
  Runs.Along (fun run op after => step run op = after) GivesBackOut run ops

/-- A block of the pool that was not out. -/
def Good (pool : List Nat) (handed : Handed) : Prop := handed.out = false ∧ handed.ptr ∈ pool

structure Partition (pool : List Nat) (run : Run) : Prop where
  nodup : run.allocator.freeList.Nodup
  mem_iff : ∀ ptr, ptr ∈ run.allocator.freeList ∨ ptr ∈ run.allocator.allocated ↔ ptr ∈ pool
  apart : ∀ ptr ∈ run.allocator.freeList, ptr ∉ run.allocator.allocated
  good : ∀ handed ∈ run.handed, Good pool handed

/-- A block counts twice, or is on the free list and not of the pool. -/
inductive Doubled (pool : List Nat) (run : Run) : Prop
  | handed (handed : Handed) (hmem : handed ∈ run.handed) (hbad : ¬ Good pool handed)
  | freeTwice (ptr : Nat) (hcount : 2 ≤ run.allocator.freeList.count ptr)
  | freeAndOut (ptr : Nat) (hfree : ptr ∈ run.allocator.freeList)
      (hout : ptr ∈ run.allocator.allocated)
  | foreign (ptr : Nat) (hfree : ptr ∈ run.allocator.freeList) (hpool : ptr ∉ pool)

theorem nodup_poolBlocks {blockSize : Nat} (hblock : 0 < blockSize) (poolSize base : Nat) :
    (poolBlocks blockSize poolSize base).Nodup := by
  refine List.Nodup.map ?_ List.nodup_range
  intro i j hij
  exact Nat.eq_of_mul_eq_mul_right hblock (Nat.add_left_cancel hij)

theorem partition_new {blockSize : Nat} (hblock : 0 < blockSize) (poolSize base : Nat) :
    Partition (poolBlocks blockSize poolSize base)
      { allocator := new blockSize poolSize base } := by
  refine ⟨?_, fun ptr => ?_, fun ptr _ => Finset.notMem_empty ptr, fun _ h => by cases h⟩
  · simpa [new, addPool] using nodup_poolBlocks hblock poolSize base
  · simp [new, addPool]

/-! ### The steps -/

theorem allocate_of_nil (hfree : allocator.freeList = []) (base : Nat) :
    allocator.allocate base = none := by
  rw [allocate, if_pos hfree]
  rfl

theorem allocate_of_cons {rest : List Nat} (hfree : allocator.freeList = ptr :: rest) (base : Nat) :
    allocator.allocate base
      = some (ptr, { allocator with
          freeList := rest, allocated := insert ptr allocator.allocated }) := by
  rw [allocate, if_neg (by simp [hfree])]
  simp [hfree]

theorem step_of_hung (h : run.returns = false) (op : Op) : step run op = run :=
  if_pos (by simp [h])

theorem step_reset (h : run.returns = true) (base : Nat) :
    step run (.reset base) = { run with returns := false } :=
  if_neg (by simp [h])

theorem step_deallocate (h : run.returns = true) (ptr : Option Nat) :
    step run (.deallocate ptr) = { run with allocator := run.allocator.deallocate ptr } :=
  if_neg (by simp [h])

theorem step_allocate_of_nil (h : run.returns = true) (hfree : run.allocator.freeList = [])
    (base : Nat) : step run (.allocate base) = { run with returns := false } := by
  rw [step, if_neg (by simp [h])]
  simp only [allocate_of_nil hfree]

theorem step_allocate_of_cons (h : run.returns = true) {rest : List Nat}
    (hfree : run.allocator.freeList = ptr :: rest) (base : Nat) :
    step run (.allocate base)
      = { run with
          allocator := { run.allocator with
            freeList := rest, allocated := insert ptr run.allocator.allocated }
          handed := run.handed ++ [{ ptr := ptr, out := ptr ∈ run.allocator.allocated }] } := by
  rw [step, if_neg (by simp [h])]
  simp only [allocate_of_cons hfree]

/-! ### A disciplined run -/

theorem Partition.step (h : Partition pool run) (hout : GivesBackOut run op) :
    Partition pool (step run op) := by
  cases hreturns : run.returns with
  | false => rwa [step_of_hung hreturns]
  | true =>
      cases op with
      | reset base =>
          rw [step_reset hreturns]
          exact ⟨h.nodup, h.mem_iff, h.apart, h.good⟩
      | allocate base =>
          cases hfree : run.allocator.freeList with
          | nil =>
              rw [step_allocate_of_nil hreturns hfree]
              exact ⟨h.nodup, h.mem_iff, h.apart, h.good⟩
          | cons ptr rest =>
              obtain ⟨hfresh, hrest⟩ := List.nodup_cons.mp (hfree ▸ h.nodup)
              have hptr : ptr ∈ run.allocator.freeList := hfree ▸ List.mem_cons_self ..
              rw [step_allocate_of_cons hreturns hfree]
              refine ⟨hrest, fun other => ?_, fun other hother => ?_, fun handed hhanded => ?_⟩
              · have hmem := h.mem_iff other
                rw [hfree, List.mem_cons] at hmem
                simp only [Finset.mem_insert]
                rw [← hmem]
                tauto
              · have hold := h.apart other (hfree ▸ List.mem_cons_of_mem _ hother)
                simp only [Finset.mem_insert, not_or]
                exact ⟨fun heq => hfresh (heq ▸ hother), hold⟩
              · rcases List.mem_append.mp hhanded with hold | hnew
                · exact h.good handed hold
                · rw [List.mem_singleton.mp hnew]
                  exact ⟨by simpa using h.apart ptr hptr, (h.mem_iff ptr).mp (.inl hptr)⟩
      | deallocate given =>
          rw [step_deallocate hreturns]
          cases given with
          | none => exact ⟨h.nodup, h.mem_iff, h.apart, h.good⟩
          | some ptr =>
              have hptr : ptr ∈ run.allocator.allocated := hout ptr rfl
              refine ⟨?_, fun other => ?_, fun other hother => ?_, h.good⟩
              · exact List.nodup_cons.mpr ⟨fun hfree => h.apart ptr hfree hptr, h.nodup⟩
              · have hmem := h.mem_iff other
                simp only [deallocate, List.mem_cons, Finset.mem_erase]
                rw [← hmem]
                by_cases hother : other = ptr
                · simp [hother, hptr]
                · simp [hother]
              · simp only [deallocate, List.mem_cons, Finset.mem_erase, not_and] at hother ⊢
                intro hne
                rcases hother with heq | hold
                · exact (hne heq).elim
                · exact h.apart other hold

theorem Partition.after (h : Partition pool run) (hdisciplined : Disciplined run ops) :
    Partition pool (ops.foldl Allocator.step run) :=
  Runs.foldl_of_side (Partition pool) (fun _ _ hpartition hout => hpartition.step hout) h
    hdisciplined

theorem Partition.freeCount_add (h : Partition pool run) (hpool : pool.Nodup) :
    run.allocator.freeCount + run.allocator.totalAllocated = pool.length := by
  have hunion : run.allocator.freeList.toFinset ∪ run.allocator.allocated = pool.toFinset := by
    ext ptr
    simpa using h.mem_iff ptr
  have hdisjoint : Disjoint run.allocator.freeList.toFinset run.allocator.allocated :=
    Finset.disjoint_left.mpr fun ptr hfree => h.apart ptr (List.mem_toFinset.mp hfree)
  rw [freeCount, totalAllocated, ← List.toFinset_card_of_nodup h.nodup,
    ← Finset.card_union_of_disjoint hdisjoint, hunion, List.toFinset_card_of_nodup hpool]

/-! ### An undisciplined step -/

theorem Partition.doubled (h : Partition pool run) (hreturns : run.returns = true)
    (hout : ¬ GivesBackOut run op) : Doubled pool (Allocator.step run op) := by
  unfold GivesBackOut at hout
  push Not at hout
  obtain ⟨ptr, rfl, hptr⟩ := hout
  rw [step_deallocate hreturns]
  by_cases hfree : ptr ∈ run.allocator.freeList
  · have hcount := List.count_pos_iff.mpr hfree
    refine .freeTwice ptr ?_
    simp only [deallocate, List.count_cons_self]
    omega
  · refine .foreign ptr (List.mem_cons_self ..) fun hpool => ?_
    exact ((h.mem_iff ptr).mpr hpool).elim hfree hptr

theorem Doubled.step (h : Doubled pool run) (op : Op) : Doubled pool (step run op) := by
  cases hreturns : run.returns with
  | false => rwa [step_of_hung hreturns]
  | true =>
      cases op with
      | reset base =>
          rw [step_reset hreturns]
          cases h with
          | handed handed hmem hbad => exact .handed handed hmem hbad
          | freeTwice ptr hcount => exact .freeTwice ptr hcount
          | freeAndOut ptr hfree hout => exact .freeAndOut ptr hfree hout
          | foreign ptr hfree hpool => exact .foreign ptr hfree hpool
      | deallocate given =>
          rw [step_deallocate hreturns]
          cases given with
          | none =>
              cases h with
              | handed handed hmem hbad => exact .handed handed hmem hbad
              | freeTwice ptr hcount => exact .freeTwice ptr hcount
              | freeAndOut ptr hfree hout => exact .freeAndOut ptr hfree hout
              | foreign ptr hfree hpool => exact .foreign ptr hfree hpool
          | some given =>
              cases h with
              | handed handed hmem hbad => exact .handed handed hmem hbad
              | freeTwice ptr hcount =>
                  exact .freeTwice ptr (hcount.trans List.count_le_count_cons)
              | freeAndOut ptr hfree hout =>
                  by_cases hgiven : ptr = given
                  · subst hgiven
                    refine .freeTwice ptr ?_
                    have hcount := List.count_pos_iff.mpr hfree
                    simp only [deallocate, List.count_cons_self]
                    omega
                  · exact .freeAndOut ptr (List.mem_cons_of_mem _ hfree)
                      (Finset.mem_erase.mpr ⟨hgiven, hout⟩)
              | foreign ptr hfree hpool =>
                  exact .foreign ptr (List.mem_cons_of_mem _ hfree) hpool
      | allocate base =>
          cases hlist : run.allocator.freeList with
          | nil =>
              rw [step_allocate_of_nil hreturns hlist]
              cases h with
              | handed handed hmem hbad => exact .handed handed hmem hbad
              | freeTwice ptr hcount => exact .freeTwice ptr hcount
              | freeAndOut ptr hfree hout => exact .freeAndOut ptr hfree hout
              | foreign ptr hfree hpool => exact .foreign ptr hfree hpool
          | cons head rest =>
              rw [step_allocate_of_cons hreturns hlist]
              have hnew : ({ ptr := head, out := head ∈ run.allocator.allocated } : Handed)
                  ∈ run.handed ++ [{ ptr := head, out := head ∈ run.allocator.allocated }] := by
                simp
              cases h with
              | handed handed hmem hbad =>
                  exact .handed handed (List.mem_append_left _ hmem) hbad
              | freeTwice ptr hcount =>
                  rw [hlist] at hcount
                  by_cases hhead : ptr = head
                  · subst hhead
                    have hpos : 0 < rest.count ptr := by
                      rw [List.count_cons_self] at hcount
                      omega
                    exact .freeAndOut ptr (List.count_pos_iff.mp hpos)
                      (Finset.mem_insert_self ..)
                  · rw [List.count_cons_of_ne (Ne.symm hhead)] at hcount
                    exact .freeTwice ptr hcount
              | freeAndOut ptr hfree hout =>
                  rw [hlist, List.mem_cons] at hfree
                  rcases hfree with rfl | hfree
                  · exact .handed _ hnew fun hgood => by simp [Good, hout] at hgood
                  · exact .freeAndOut ptr hfree (Finset.mem_insert_of_mem hout)
              | foreign ptr hfree hpool =>
                  rw [hlist, List.mem_cons] at hfree
                  rcases hfree with rfl | hfree
                  · exact .handed _ hnew fun hgood => hpool hgood.2
                  · exact .foreign ptr hfree hpool

/-! ### Whole runs -/

theorem returns_step (h : (step run op).returns = true) : run.returns = true := by
  cases hreturns : run.returns with
  | true => rfl
  | false => rw [step_of_hung hreturns, hreturns] at h; exact h

theorem returns_foldl (h : (ops.foldl step run).returns = true) : run.returns = true := by
  induction ops generalizing run with
  | nil => exact h
  | cons op ops ih => exact returns_step (ih h)

theorem Doubled.foldl (h : Doubled pool run) (ops : List Op) :
    Doubled pool (ops.foldl Allocator.step run) :=
  Runs.foldl_of_invariant (fun _ op hdoubled => hdoubled.step op) h ops

theorem Partition.doubled_of_not (h : Partition pool run)
    (hreturns : (ops.foldl Allocator.step run).returns = true) (hout : ¬ Disciplined run ops) :
    Doubled pool (ops.foldl Allocator.step run) := by
  induction ops generalizing run with
  | nil => exact (hout trivial).elim
  | cons op ops ih =>
      by_cases hop : GivesBackOut run op
      · refine ih (h.step hop) hreturns fun hrest => hout ⟨hop, ?_⟩
        rintro _ rfl
        exact hrest
      · exact (h.doubled (returns_step (returns_foldl hreturns)) hop).foldl ops

/-- As many calls to `allocate` as there are blocks on the free list empty it. -/
theorem freeList_allocate_all (hreturns : run.returns = true) (base : Nat) :
    ((List.replicate run.allocator.freeList.length (.allocate base)).foldl step run).allocator.freeList
      = [] := by
  generalize hn : run.allocator.freeList.length = n
  induction n generalizing run with
  | zero => exact List.eq_nil_of_length_eq_zero hn
  | succ n ih =>
      obtain ⟨ptr, rest, hfree⟩ := List.exists_cons_of_length_eq_add_one hn
      rw [List.replicate_succ, List.foldl_cons, step_allocate_of_cons hreturns hfree]
      refine ih hreturns ?_
      rw [hfree, List.length_cons] at hn
      exact Nat.succ.inj hn

theorem Doubled.bad_of_nil (h : Doubled pool run) (hfree : run.allocator.freeList = []) :
    ∃ handed ∈ run.handed, ¬ Good pool handed := by
  cases h with
  | handed handed hmem hbad => exact ⟨handed, hmem, hbad⟩
  | freeTwice ptr hcount => simp [hfree] at hcount
  | freeAndOut ptr hmem => simp [hfree] at hmem
  | foreign ptr hmem => simp [hfree] at hmem

theorem disciplined_append_allocate (h : Disciplined run ops) (base n : Nat) :
    Disciplined run (ops ++ List.replicate n (.allocate base)) := by
  induction ops generalizing run with
  | nil =>
      refine Runs.along_of_invariant (fun _ => True) ?_ (fun _ _ _ _ _ _ => trivial) trivial
        (Runs.along_of_forall (R := fun op => op = .allocate base)
          (fun op hop => List.eq_of_mem_replicate hop) run)
      rintro state op - rfl ptr hop
      cases hop
  | cons op ops ih => exact ⟨h.1, fun after hafter => ih (h.2 after hafter)⟩

/-- Whether the callers gave back only what was out decides whether the allocator will ever hand out a
block that is out or none of its own. -/
theorem fresh_forever_iff {blockSize : Nat} (hblock : 0 < blockSize) (poolSize base fresh : Nat)
    (hreturns : (after (new blockSize poolSize base) ops).returns = true) :
    (∀ n, ∀ handed ∈ (after (new blockSize poolSize base)
        (ops ++ List.replicate n (.allocate fresh))).handed,
          Good (poolBlocks blockSize poolSize base) handed)
      ↔ Disciplined { allocator := new blockSize poolSize base } ops := by
  have hpartition := partition_new hblock poolSize base
  constructor
  · intro hgood
    by_contra hout
    have hdoubled := hpartition.doubled_of_not hreturns hout
    obtain ⟨handed, hmem, hbad⟩ :=
      (hdoubled.foldl _).bad_of_nil (freeList_allocate_all hreturns fresh)
    rw [← List.foldl_append] at hmem
    exact hbad (hgood _ handed hmem)
  · intro hdisciplined n
    exact (hpartition.after (disciplined_append_allocate hdisciplined fresh n)).good

theorem fresh_forever_iff_givenBack :
    (∀ n, ∀ handed ∈ (after (new 64 2 4096)
        ([.allocate 0, .deallocate (some 4160)] ++ List.replicate n (.allocate 0))).handed,
          Good (poolBlocks 64 2 4096) handed)
      ↔ Disciplined { allocator := new 64 2 4096 } [.allocate 0, .deallocate (some 4160)] :=
  fresh_forever_iff (by decide) 2 4096 0 (by decide)

/-- Two blocks that do not overlap. -/
def Apart (blockSize : Nat) (left right : Nat) : Prop :=
  left + blockSize ≤ right ∨ right + blockSize ≤ left

theorem apart_of_mem {blockSize poolSize base left right : Nat}
    (hleft : left ∈ poolBlocks blockSize poolSize base)
    (hright : right ∈ poolBlocks blockSize poolSize base) (hne : left ≠ right) :
    Apart blockSize left right := by
  obtain ⟨i, -, rfl⟩ := List.mem_map.mp hleft
  obtain ⟨j, -, rfl⟩ := List.mem_map.mp hright
  rcases Nat.lt_trichotomy i j with hlt | rfl | hlt
  · have hmul := Nat.mul_le_mul_right blockSize (Nat.succ_le_of_lt hlt)
    rw [Nat.succ_mul] at hmul
    exact .inl (by omega)
  · exact (hne rfl).elim
  · have hmul := Nat.mul_le_mul_right blockSize (Nat.succ_le_of_lt hlt)
    rw [Nat.succ_mul] at hmul
    exact .inr (by omega)

theorem bounds_of_mem {blockSize poolSize base ptr : Nat}
    (hptr : ptr ∈ poolBlocks blockSize poolSize base) :
    base ≤ ptr ∧ ptr + blockSize ≤ base + blockSize * poolSize := by
  obtain ⟨i, hi, rfl⟩ := List.mem_map.mp hptr
  have hmul := Nat.mul_le_mul_right blockSize (Nat.succ_le_of_lt (List.mem_range.mp hi))
  rw [Nat.succ_mul, Nat.mul_comm poolSize] at hmul
  exact ⟨by omega, by omega⟩

theorem memory_step {pool : AllocatorPool} (h : run.allocator.pools = [pool]) (op : Op) :
    (step run op).allocator.pools = [pool] := by
  cases hreturns : run.returns with
  | false => rwa [step_of_hung hreturns]
  | true =>
      cases op with
      | reset base => rwa [step_reset hreturns]
      | deallocate given =>
          rw [step_deallocate hreturns]
          cases given <;> exact h
      | allocate base =>
          cases hfree : run.allocator.freeList with
          | nil => rwa [step_allocate_of_nil hreturns hfree]
          | cons ptr rest => rwa [step_allocate_of_cons hreturns hfree]

/-- The blocks that are out lie in the one pool, apart from each other; with the free ones they are all
of it, and the call that would need another pool never returns. -/
theorem disciplined_run {blockSize poolSize : Nat} (base fresh : Nat) (hblock : 0 < blockSize)
    (hsize : blockSize * poolSize < wordSize)
    (hdisciplined : Disciplined { allocator := new blockSize poolSize base } ops) :
    let allocator := (after (new blockSize poolSize base) ops).allocator
    allocator.freeCount + allocator.totalAllocated = poolSize
      ∧ (∀ ptr ∈ allocator.allocated, ∀ pool ∈ allocator.pools,
          pool.memory ≤ ptr ∧ ptr + blockSize ≤ pool.memory + pool.memorySize)
      ∧ (∀ left ∈ allocator.allocated, ∀ right ∈ allocator.allocated,
          left ≠ right → Apart blockSize left right)
      ∧ (allocator.allocate fresh = none ↔ allocator.totalAllocated = poolSize) := by
  intro allocator
  have hpartition := (partition_new hblock poolSize base).after hdisciplined
  have htotal : allocator.freeCount + allocator.totalAllocated = poolSize := by
    refine (hpartition.freeCount_add (nodup_poolBlocks hblock poolSize base)).trans ?_
    rw [poolBlocks, List.length_map, List.length_range]
  have hmem : ∀ ptr ∈ allocator.allocated, ptr ∈ poolBlocks blockSize poolSize base :=
    fun ptr hptr => (hpartition.mem_iff ptr).mp (.inr hptr)
  have hpools : allocator.pools = (new blockSize poolSize base).pools :=
    Runs.foldl_of_invariant
      (P := fun run : Run => run.allocator.pools = (new blockSize poolSize base).pools)
      (fun _ op h => memory_step h op) rfl ops
  refine ⟨htotal, fun ptr hptr pool hpool => ?_, fun left hleft right hright hne => ?_, ?_⟩
  · rw [hpools] at hpool
    obtain rfl := List.mem_singleton.mp hpool
    have hbounds := bounds_of_mem (hmem ptr hptr)
    rwa [← Nat.mod_eq_of_lt hsize] at hbounds
  · exact apart_of_mem (hmem left hleft) (hmem right hright) hne
  · have hfree : allocator.freeCount = 0 ↔ allocator.freeList = [] := List.length_eq_zero_iff
    constructor
    · intro hnone
      cases hlist : allocator.freeList with
      | nil =>
          have hzero := hfree.mpr hlist
          omega
      | cons ptr rest => rw [allocate_of_cons hlist] at hnone; cases hnone
    · intro hall
      exact allocate_of_nil (hfree.mp (by omega)) fresh

theorem disciplined_run_givenBack :
    let allocator := (after (new 64 2 4096) [.allocate 0, .deallocate (some 4160)]).allocator
    allocator.freeCount + allocator.totalAllocated = 2
      ∧ (∀ ptr ∈ allocator.allocated, ∀ pool ∈ allocator.pools,
          pool.memory ≤ ptr ∧ ptr + 64 ≤ pool.memory + pool.memorySize)
      ∧ (∀ left ∈ allocator.allocated, ∀ right ∈ allocator.allocated,
          left ≠ right → Apart 64 left right)
      ∧ (allocator.allocate 0 = none ↔ allocator.totalAllocated = 2) := by
  refine disciplined_run 4096 0 (by decide) (by decide) ⟨?_, ?_⟩
  · rintro ptr hop
    cases hop
  · rintro _ rfl
    refine ⟨?_, fun _ _ => trivial⟩
    rintro ptr hop
    cases hop
    decide

end Allocator

end NebulaFS
