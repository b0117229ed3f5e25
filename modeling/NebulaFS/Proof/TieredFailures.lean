import NebulaFS.Proof.TieredStorageLemmas

/-!
# The tiered store over backends that fail

Any call of a backend may fail here. Making room moves the block at the back of the queue to the cold
tier, and a victim that cannot be moved is forgotten by the store although nobody named it: `forgotten`
lists these victims for every call, and `held_step_of_ne` says that a call changes nothing else for the
other blocks. A write that fails has dropped the cold copy of its block, and may have forgotten the
block, before it fails.
-/

namespace NebulaFS

namespace TieredStorageManager

variable {η γ : Type} {hot : η → BlockMap} {cold : γ → BlockMap}
  {manager after : TieredStorageManager η γ}

/-- What `readBlock` answers while the backends answer reads. -/
def healthyRead (hot : η → BlockMap) (cold : γ → BlockMap) (manager : TieredStorageManager η γ)
    (blockId : UInt64) : StorageResult Bytes :=
  readAnswer (manager.held hot cold blockId)

variable [IStorageBackend η] [IStorageBackend γ]

theorem readBlock_eq_healthyRead (hhot : Healthy hot) (hcold : Healthy cold)
    (manager : TieredStorageManager η γ) (blockId : UInt64) (promoteToHot : Bool) :
    (manager.readBlock blockId promoteToHot).2 = manager.healthyRead hot cold blockId := by
  unfold readBlock healthyRead
  rcases htier : manager.blockTiers.lookup blockId with _ | tier
  · rw [held_of_none htier]
    rfl
  · cases tier with
    | hotMemory =>
        have hanswer := hhot manager.hotTier blockId
        rw [held_of_hot htier, ← hanswer]
        rcases IStorageBackend.readBlock manager.hotTier blockId with ⟨state, e | data⟩
        · rfl
        · rfl
    | coldDisk =>
        have hanswer := hcold manager.coldTier blockId
        rw [held_of_cold htier, ← hanswer]
        rcases IStorageBackend.readBlock manager.coldTier blockId with ⟨state, e | data⟩
        · rfl
        · rfl

/-! ### The queue in every reachable state -/

theorem queued_writeBlock (hhot : Atomic hot) (hcold : Atomic cold) (hqueued : Queued hot manager)
    (blockId : UInt64) (data : Bytes) : Queued hot (manager.writeBlock blockId data).1 := by
  have hroom := (spilled_makeRoom hhot hcold (queued_dropCold hqueued blockId)).queued
  rcases writeBlock_cases hhot cold manager blockId data with ⟨-, halike⟩ | ⟨-, hplaced, -⟩
  · exact halike.queued hroom
  · exact hplaced.queued hroom

theorem queued_promoteBlock (hhot : Atomic hot) (hcold : Atomic cold)
    (hqueued : Queued hot manager) (blockId : UInt64) :
    Queued hot (manager.promoteBlock blockId).1 := by
  have hread := (alike_afterColdRead hcold manager blockId).queued hqueued
  have hroom := (spilled_makeRoom hhot hcold hread).queued
  rcases promoteBlock_cases hhot hcold manager blockId with
    ⟨-, hsame⟩ | ⟨data, -, halike | ⟨hplaced, -⟩⟩
  · rw [hsame]
    exact hread
  · exact halike.queued hroom
  · exact hplaced.queued hroom

theorem queued_readBlock (hhot : Atomic hot) (hcold : Atomic cold) (hqueued : Queued hot manager)
    (blockId : UInt64) (promoteToHot : Bool) :
    Queued hot (manager.readBlock blockId promoteToHot).1 := by
  rcases readBlock_cases hhot hcold manager blockId promoteToHot with
    ⟨-, -, data, -, hpromoted⟩ | ⟨-, htouched⟩
  · rw [hpromoted]
    exact queued_promoteBlock hhot hcold
      ((alike_afterColdRead hcold manager blockId).queued hqueued) blockId
  · exact htouched.queued hqueued

theorem queued_deleteBlock (hhot : Atomic hot) (hcold : Atomic cold) (hqueued : Queued hot manager)
    (blockId : UInt64) : Queued hot (manager.deleteBlock blockId).1 := by
  rcases deleteBlock_cases hhot hcold hqueued blockId with ⟨-, hsame⟩ | ⟨-, hdeleted⟩
  · rw [hsame]
    exact hqueued
  · exact hdeleted.queued hqueued

theorem queued_step (hhot : Atomic hot) (hcold : Atomic cold) (hqueued : Queued hot manager)
    (call : Call) : Queued hot (manager.step call).1 := by
  cases call with
  | writeBlock blockId data => exact queued_writeBlock hhot hcold hqueued blockId data
  | readBlock blockId promoteToHot => exact queued_readBlock hhot hcold hqueued blockId promoteToHot
  | readSpan blockId offset length =>
      exact (touched_readSpan hhot hcold manager blockId offset length).queued hqueued
  | deleteBlock blockId => exact queued_deleteBlock hhot hcold hqueued blockId
  | hasBlock blockId => exact hqueued

omit [IStorageBackend η] [IStorageBackend γ] in
theorem queued_of_empty (htiers : manager.blockTiers = ∅) (hqueue : manager.hotLruQueue = []) :
    Queued hot manager := by
  refine ⟨by simp [hqueue], ?_, ?_⟩
  · intro blockId
    simp [hqueue, htiers]
  · intro blockId htier
    simp [htiers] at htier

theorem alike_sync (hhot : Atomic hot) (hcold : Atomic cold) (manager : TieredStorageManager η γ) :
    Alike hot cold manager manager.sync.1 :=
  ⟨rfl, rfl, hhot.sync_contents manager.hotTier, hcold.sync_contents manager.coldTier, rfl⟩

theorem queued_of_reachable (hhot : Atomic hot) (hcold : Atomic cold)
    (h : manager.Reachable) : Queued hot manager := by
  induction h with
  | new hotTier coldTier maxHotBlocks => exact queued_of_empty rfl rfl
  | step _ call ih => exact queued_step hhot hcold ih call
  | demoteBlock _ blockId ih => exact queued_demoteBlock hhot hcold ih blockId
  | promoteBlock _ blockId ih => exact queued_promoteBlock hhot hcold ih blockId
  | spillHotToCold _ blocksToSpill ih => exact queued_spillLoop hhot hcold _ blocksToSpill _ ih
  | sync _ ih =>
      exact (alike_sync hhot hcold _).queued ih
  | clear _ ih => exact queued_of_empty rfl rfl

theorem Reachable.run (h : manager.Reachable) (calls : List Call) :
    (manager.run calls).Reachable := by
  induction calls generalizing manager with
  | nil => exact h
  | cons call calls ih => exact ih (h.step call)

/-- Two memory backends with these capacities. -/
def memoryTiers (hotBytes coldBytes : UInt64) (maxHotBlocks : Nat) : TieredStorageManager
    (MemoryStorageBackend Platform.reference) (MemoryStorageBackend Platform.reference) :=
  new (MemoryStorageBackend.new hotBytes) (MemoryStorageBackend.new coldBytes) maxHotBlocks

theorem reachable_memoryTiers (hotBytes coldBytes : UInt64) (maxHotBlocks : Nat)
    (calls : List Call) : ((memoryTiers hotBytes coldBytes maxHotBlocks).run calls).Reachable :=
  (Reachable.new _ _ _).run calls

/-! ### The other blocks -/

def Call.blockId : Call → UInt64
  | .writeBlock blockId _ => blockId
  | .readBlock blockId _ => blockId
  | .readSpan blockId _ _ => blockId
  | .deleteBlock blockId => blockId
  | .hasBlock blockId => blockId

/-- The victims that a call forgets: a write makes room once it has dropped the cold copy, and a read
makes room when it promotes a block that it has read from the cold tier. -/
def forgotten (manager : TieredStorageManager η γ) : Call → List UInt64
  | .writeBlock blockId _ => (manager.dropCold blockId).forgottenVictims
  | .readBlock blockId promoteToHot =>
      let first := manager.afterColdRead blockId
      if (manager.blockTiers.lookup blockId = some .coldDisk ∧ promoteToHot = true
            ∧ (IStorageBackend.readBlock manager.coldTier blockId).2.isOk)
          ∧ (IStorageBackend.readBlock first.coldTier blockId).2.isOk then
        (first.afterColdRead blockId).forgottenVictims
      else []
  | .readSpan _ _ _ => []
  | .deleteBlock _ => []
  | .hasBlock _ => []

omit [IStorageBackend η] [IStorageBackend γ] in
theorem Spilled.held_eq_ite {gone : List UInt64} (h : Spilled hot cold gone manager after)
    (blockId : UInt64) :
    after.held hot cold blockId
      = if blockId ∈ gone then none else manager.held hot cold blockId := by
  split
  · next hgone => exact held_of_none (h.forgot blockId hgone)
  · next hgone => exact h.held_eq blockId hgone

theorem held_writeBlock_of_ne (hhot : Atomic hot) (hcold : Atomic cold)
    (hqueued : Queued hot manager) {blockId other : UInt64} (data : Bytes)
    (hne : other ≠ blockId) :
    (manager.writeBlock blockId data).1.held hot cold other
      = if other ∈ (manager.dropCold blockId).forgottenVictims then none
        else manager.held hot cold other := by
  have hroom := (spilled_makeRoom hhot hcold (queued_dropCold hqueued blockId)).held_eq_ite other
  rw [held_dropCold_of_ne hcold manager hne] at hroom
  rw [← hroom]
  rcases writeBlock_cases hhot cold manager blockId data with ⟨-, halike⟩ | ⟨-, hplaced, -⟩
  · exact halike.held_eq other
  · exact hplaced.held_of_ne hne

theorem held_promoteBlock_of_ne (hhot : Atomic hot) (hcold : Atomic cold)
    (hqueued : Queued hot manager) {blockId other : UInt64} (hne : other ≠ blockId) :
    (manager.promoteBlock blockId).1.held hot cold other
      = if (IStorageBackend.readBlock manager.coldTier blockId).2.isOk
          ∧ other ∈ (manager.afterColdRead blockId).forgottenVictims then none
        else manager.held hot cold other := by
  have hread : Alike hot cold manager (manager.afterColdRead blockId) :=
    alike_afterColdRead hcold manager blockId
  have hroom := (spilled_makeRoom hhot hcold (hread.queued hqueued)).held_eq_ite other
  rw [hread.held_eq other] at hroom
  rcases promoteBlock_cases hhot hcold manager blockId with
    ⟨⟨e, herror⟩, hsame⟩ | ⟨data, hok, hcases⟩
  · rw [hsame, herror, hread.held_eq other]
    simp [Except.isOk, Except.toBool]
  · have hafter : (manager.promoteBlock blockId).1.held hot cold other
        = (manager.afterColdRead blockId).makeRoom.held hot cold other := by
      rcases hcases with halike | ⟨hplaced, -⟩
      · exact halike.held_eq other
      · exact hplaced.held_of_ne hne
    rw [hafter, hroom, hok]
    simp [Except.isOk, Except.toBool]

theorem held_readBlock_of_ne (hhot : Atomic hot) (hcold : Atomic cold)
    (hqueued : Queued hot manager) {blockId other : UInt64} (promoteToHot : Bool)
    (hne : other ≠ blockId) :
    (manager.readBlock blockId promoteToHot).1.held hot cold other
      = if other ∈ manager.forgotten (.readBlock blockId promoteToHot) then none
        else manager.held hot cold other := by
  have hread : Alike hot cold manager (manager.afterColdRead blockId) :=
    alike_afterColdRead hcold manager blockId
  rcases readBlock_cases hhot hcold manager blockId promoteToHot with
    ⟨htier, hpromote, data, hok, hafter⟩ | ⟨hnot, htouched⟩
  · rw [hafter, held_promoteBlock_of_ne hhot hcold (hread.queued hqueued) hne, hread.held_eq other]
    have hfirst : (IStorageBackend.readBlock manager.coldTier blockId).2.isOk := by
      rw [hok]
      rfl
    by_cases hsecond : (IStorageBackend.readBlock (manager.afterColdRead blockId).coldTier
        blockId).2.isOk
    · simp [forgotten, htier, hpromote, hfirst, hsecond]
    · simp [forgotten, hsecond]
  · have hnone : manager.forgotten (.readBlock blockId promoteToHot) = [] := by
      rw [forgotten]
      apply if_neg
      rintro ⟨⟨htier, hpromote, hok⟩, -⟩
      refine hnot ⟨htier, hpromote, ?_⟩
      rcases hresult : (IStorageBackend.readBlock manager.coldTier blockId).2 with e | data
      · rw [hresult] at hok
        cases hok
      · exact ⟨data, rfl⟩
    rw [hnone, if_neg List.not_mem_nil]
    exact htouched.held_eq other

/-- A call on one block changes what the store holds for another one only by forgetting it. -/
theorem held_step_of_ne (hhot : Atomic hot) (hcold : Atomic cold) (hqueued : Queued hot manager)
    (call : Call) {other : UInt64} (hne : other ≠ call.blockId) :
    (manager.step call).1.held hot cold other
      = if other ∈ manager.forgotten call then none else manager.held hot cold other := by
  cases call with
  | writeBlock blockId data => exact held_writeBlock_of_ne hhot hcold hqueued data hne
  | readBlock blockId promoteToHot =>
      exact held_readBlock_of_ne hhot hcold hqueued promoteToHot hne
  | readSpan blockId offset length =>
      rw [forgotten, if_neg List.not_mem_nil]
      exact (touched_readSpan hhot hcold manager blockId offset length).held_eq other
  | deleteBlock blockId =>
      rw [forgotten, if_neg List.not_mem_nil]
      change (manager.deleteBlock blockId).1.held hot cold other = _
      rcases deleteBlock_cases hhot hcold hqueued blockId with ⟨-, hsame⟩ | ⟨-, hdeleted⟩
      · rw [hsame]
      · exact hdeleted.held_of_ne hne
  | hasBlock blockId =>
      rw [forgotten, if_neg List.not_mem_nil]
      rfl

theorem mem_queue_of_forgotten_call {call : Call} {victimId : UInt64}
    (h : victimId ∈ manager.forgotten call) : victimId ∈ manager.hotLruQueue := by
  cases call with
  | writeBlock blockId data =>
      rw [← hotLruQueue_dropCold manager blockId]
      exact mem_queue_of_forgotten h
  | readBlock blockId promoteToHot =>
      simp only [forgotten] at h
      split at h
      · have hmem := mem_queue_of_forgotten h
        exact hmem
      · cases h
  | readSpan blockId offset length => cases h
  | deleteBlock blockId => cases h
  | hasBlock blockId => cases h

omit [IStorageBackend η] [IStorageBackend γ] in
theorem Queued.held_isSome (h : Queued hot manager) {blockId : UInt64}
    (hmem : blockId ∈ manager.hotLruQueue) :
    ∃ data, manager.held hot cold blockId = some data := by
  have htier := (h.mem_iff blockId).mp hmem
  rw [held_of_hot htier]
  exact Finmap.mem_iff.mp (h.stored blockId htier)

/-- Every other block that could be read before the call can be read after it, with its content. -/
def SparesOthers (hot : η → BlockMap) (cold : γ → BlockMap) (manager : TieredStorageManager η γ)
    (call : Call) : Prop :=
  ∀ other, other ≠ call.blockId → ∀ data, manager.healthyRead hot cold other = .ok data →
    (manager.step call).1.healthyRead hot cold other = .ok data

/-- **No bystander is lost, unless a victim cannot be moved.** -/
theorem sparesOthers_iff_forgotten (hhot : Atomic hot) (hcold : Atomic cold)
    (h : manager.Reachable) (call : Call) :
    manager.SparesOthers hot cold call
      ↔ ∀ victimId ∈ manager.forgotten call, victimId = call.blockId := by
  have hqueued := queued_of_reachable hhot hcold h
  simp only [SparesOthers, healthyRead, readAnswer_eq_ok_iff]
  constructor
  · intro hspares victimId hforgotten
    by_contra hne
    obtain ⟨data, hheld⟩ := hqueued.held_isSome (mem_queue_of_forgotten_call hforgotten)
    have hafter := hspares victimId hne data hheld
    rw [held_step_of_ne hhot hcold hqueued call hne, if_pos hforgotten] at hafter
    cases hafter
  · intro hvictims other hne data hheld
    have hnot : other ∉ manager.forgotten call := fun hforgotten => hne (hvictims other hforgotten)
    rw [held_step_of_ne hhot hcold hqueued call hne, if_neg hnot]
    exact hheld

theorem sparesOthers_of_roomy_cold_tier :
    ((memoryTiers 64 64 1).run [.writeBlock 1 [1]]).SparesOthers MemoryStorageBackend.contents
      MemoryStorageBackend.contents (.writeBlock 2 [2]) := by
  have hnone : ((memoryTiers 64 64 1).run [.writeBlock 1 [1]]).forgotten (.writeBlock 2 [2]) = [] := by
    decide
  rw [sparesOthers_iff_forgotten MemoryStorageBackend.atomic_contents
    MemoryStorageBackend.atomic_contents (reachable_memoryTiers 64 64 1 _), hnone]
  intro victimId hmem
  cases hmem

/-- With a cold tier that takes nothing, a write of the second block loses the first. -/
theorem write_loses_bystander :
    ((memoryTiers 64 0 1).run [.writeBlock 1 [1]]).Reachable
      ∧ (((memoryTiers 64 0 1).run [.writeBlock 1 [1]]).readBlock 1).2 = .ok [1]
      ∧ (((memoryTiers 64 0 1).run [.writeBlock 1 [1], .writeBlock 2 [2]]).readBlock 1).2
        = .error .notFound
      ∧ ¬ ((memoryTiers 64 0 1).run [.writeBlock 1 [1]]).SparesOthers
        MemoryStorageBackend.contents MemoryStorageBackend.contents (.writeBlock 2 [2]) := by
  have hbefore : (((memoryTiers 64 0 1).run [.writeBlock 1 [1]]).readBlock 1).2 = .ok [1] := by
    decide
  have hafter : (((memoryTiers 64 0 1).run [.writeBlock 1 [1], .writeBlock 2 [2]]).readBlock 1).2
      = .error .notFound := by
    decide
  refine ⟨reachable_memoryTiers 64 0 1 _, hbefore, hafter, ?_⟩
  intro hspares
  rw [readBlock_eq_healthyRead MemoryStorageBackend.healthy_contents
    MemoryStorageBackend.healthy_contents] at hbefore hafter
  have hlost := (hspares 1 (by decide) [1] hbefore).symm.trans hafter
  cases hlost

/-! ### A write that fails -/

theorem held_writeBlock_of_failure (hhot : Atomic hot) (hcold : Atomic cold)
    (hqueued : Queued hot manager) {blockId : UInt64} {data : Bytes}
    (hfailed : (manager.writeBlock blockId data).2 ≠ .success) :
    (manager.writeBlock blockId data).1.held hot cold blockId
      = if blockId ∈ manager.forgotten (.writeBlock blockId data) then none
        else (manager.dropCold blockId).held hot cold blockId := by
  have hroom := (spilled_makeRoom hhot hcold (queued_dropCold hqueued blockId)).held_eq_ite blockId
  rcases writeBlock_cases hhot cold manager blockId data with ⟨-, halike⟩ | ⟨hok, -⟩
  · rw [halike.held_eq blockId, hroom]
    rfl
  · exact absurd hok hfailed

omit [IStorageBackend η] in
/-- Dropping the cold copy matters to a block that the store names as cold. -/
theorem held_dropCold_self_iff (hcold : Atomic cold) (manager : TieredStorageManager η γ)
    (blockId : UInt64) :
    (manager.dropCold blockId).held hot cold blockId = manager.held hot cold blockId
      ↔ ¬ (manager.blockTiers.lookup blockId = some .coldDisk
        ∧ blockId ∈ cold manager.coldTier
        ∧ (IStorageBackend.deleteBlock manager.coldTier blockId).2 = .success) := by
  by_cases htier : manager.blockTiers.lookup blockId = some .coldDisk
  · have htier' : (manager.dropCold blockId).blockTiers.lookup blockId = some .coldDisk := by
      rw [blockTiers_dropCold, htier]
    rw [held_of_cold htier, held_of_cold htier', dropCold]
    by_cases hmem : blockId ∈ cold manager.coldTier
    · obtain ⟨data, hdata⟩ := Finmap.mem_iff.mp hmem
      rw [if_pos ((hcold.has_iff _ _).mpr hmem)]
      by_cases hstatus : (IStorageBackend.deleteBlock manager.coldTier blockId).2 = .success
      · simp [htier, hmem, hstatus, hcold.delete_success hstatus, hdata]
      · simp [hstatus, hcold.delete_failure hstatus]
    · rw [if_neg (fun hhas => hmem ((hcold.has_iff _ _).mp hhas))]
      simp [hmem]
  · have hsame : (manager.dropCold blockId).held hot cold blockId
        = manager.held hot cold blockId := by
      unfold held
      rw [blockTiers_dropCold, hotTier_dropCold]
      rcases hlookup : manager.blockTiers.lookup blockId with _ | tier
      · rfl
      · cases tier with
        | hotMemory => rfl
        | coldDisk => exact absurd hlookup htier
    simp [htier, hsame]

/-- **A failed write changes nothing for its block, unless it has dropped the cold copy or forgotten
the block before it fails.** -/
theorem failed_write_keeps_block_iff (hhot : Atomic hot) (hcold : Atomic cold)
    (h : manager.Reachable) (blockId : UInt64) (data : Bytes)
    (hfailed : (manager.writeBlock blockId data).2 ≠ .success) :
    (manager.writeBlock blockId data).1.healthyRead hot cold blockId
        = manager.healthyRead hot cold blockId
      ↔ ¬ (manager.blockTiers.lookup blockId = some .coldDisk
          ∧ blockId ∈ cold manager.coldTier
          ∧ (IStorageBackend.deleteBlock manager.coldTier blockId).2 = .success)
        ∧ blockId ∉ manager.forgotten (.writeBlock blockId data) := by
  have hqueued := queued_of_reachable hhot hcold h
  rw [healthyRead, healthyRead, readAnswer_injective.eq_iff,
    held_writeBlock_of_failure hhot hcold hqueued hfailed]
  by_cases hforgotten : blockId ∈ manager.forgotten (.writeBlock blockId data)
  · obtain ⟨found, hheld⟩ := hqueued.held_isSome (mem_queue_of_forgotten_call hforgotten)
    rw [if_pos hforgotten, hheld]
    simp [hforgotten]
  · rw [if_neg hforgotten, held_dropCold_self_iff hcold]
    simp [hforgotten]

/-- A write that the hot tier refuses, of a block that was only there. -/
theorem failed_write_keeps_hot_block :
    (((memoryTiers 2 64 2).run [.writeBlock 1 [1]]).writeBlock 1 [1, 1, 1]).2 ≠ .success
      ∧ (((memoryTiers 2 64 2).run [.writeBlock 1 [1]]).writeBlock 1 [1, 1, 1]).1.healthyRead
          MemoryStorageBackend.contents MemoryStorageBackend.contents 1
        = ((memoryTiers 2 64 2).run [.writeBlock 1 [1]]).healthyRead
          MemoryStorageBackend.contents MemoryStorageBackend.contents 1 := by
  have hfailed : (((memoryTiers 2 64 2).run [.writeBlock 1 [1]]).writeBlock 1 [1, 1, 1]).2
      ≠ .success := by
    decide
  refine ⟨hfailed, ?_⟩
  rw [failed_write_keeps_block_iff MemoryStorageBackend.atomic_contents
    MemoryStorageBackend.atomic_contents (reachable_memoryTiers 2 64 2 _) 1 [1, 1, 1] hfailed]
  refine ⟨?_, by decide⟩
  rintro ⟨htier, -⟩
  revert htier
  decide

/-- The same write once the block has been moved to the cold tier: the block is gone. -/
theorem failed_write_loses_cold_block :
    ((memoryTiers 2 64 1).run [.writeBlock 1 [1], .writeBlock 2 [2]]).Reachable
      ∧ (((memoryTiers 2 64 1).run [.writeBlock 1 [1], .writeBlock 2 [2]]).writeBlock 1
        [1, 1, 1]).2 = .capacityExceeded
      ∧ (((memoryTiers 2 64 1).run [.writeBlock 1 [1], .writeBlock 2 [2]]).readBlock 1).2
        = .ok [1]
      ∧ ((((memoryTiers 2 64 1).run [.writeBlock 1 [1], .writeBlock 2 [2]]).writeBlock 1
        [1, 1, 1]).1.readBlock 1).2 = .error .notFound := by
  refine ⟨reachable_memoryTiers 2 64 1 _, ?_, ?_, ?_⟩
  all_goals decide

end TieredStorageManager

end NebulaFS
