import NebulaFS.Proof.BackendContract
import NebulaFS.TieredStorage

/-!
# What a tiered store holds

`held` is what the store would answer for a block if its backends did not fail: the content in the
tier that the map names. The invariant `Queued` holds whatever fails: the queue lists the blocks of
the hot tier without repetition, and these are really there. Moving a victim either changes no
contents or puts the victim into the cold tier (`demoteBlock_cases`).
-/

namespace NebulaFS

namespace TieredStorageManager

variable {η γ : Type}

section

variable (hot : η → BlockMap) (cold : γ → BlockMap)

/-- What the tier that the map names holds for a block. -/
def held (manager : TieredStorageManager η γ) (blockId : UInt64) : Option Bytes :=
  match manager.blockTiers.lookup blockId with
  | none => none
  | some .hotMemory => (hot manager.hotTier).lookup blockId
  | some .coldDisk => (cold manager.coldTier).lookup blockId

structure Queued (manager : TieredStorageManager η γ) : Prop where
  nodup : manager.hotLruQueue.Nodup
  mem_iff : ∀ blockId, blockId ∈ manager.hotLruQueue
    ↔ manager.blockTiers.lookup blockId = some .hotMemory
  stored : ∀ blockId, manager.blockTiers.lookup blockId = some .hotMemory →
    blockId ∈ hot manager.hotTier

/-- Only states of the backends may differ, and not in their contents. -/
structure Alike (manager after : TieredStorageManager η γ) : Prop where
  blockTiers : after.blockTiers = manager.blockTiers
  queue : after.hotLruQueue = manager.hotLruQueue
  hot : hot after.hotTier = hot manager.hotTier
  cold : cold after.coldTier = cold manager.coldTier
  maxHotBlocks : after.maxHotBlocks = manager.maxHotBlocks

/-- A block with this content has been moved to the cold tier. -/
structure Demoted (blockId : UInt64) (data : Bytes) (manager after : TieredStorageManager η γ) :
    Prop where
  blockTiers : after.blockTiers = manager.blockTiers.insert blockId .coldDisk
  queue : after.hotLruQueue = manager.hotLruQueue.erase blockId
  hot : ∀ other, other ≠ blockId →
    (hot after.hotTier).lookup other = (hot manager.hotTier).lookup other
  cold : cold after.coldTier = (cold manager.coldTier).insert blockId data
  maxHotBlocks : after.maxHotBlocks = manager.maxHotBlocks

/-- A block with this content has been put into the hot tier and to the front of the queue. -/
structure Placed (blockId : UInt64) (data : Bytes) (manager after : TieredStorageManager η γ) :
    Prop where
  blockTiers : after.blockTiers = manager.blockTiers.insert blockId .hotMemory
  queue : after.hotLruQueue = blockId :: manager.hotLruQueue.erase blockId
  hot : hot after.hotTier = (hot manager.hotTier).insert blockId data
  cold : ∀ other, other ≠ blockId →
    (cold after.coldTier).lookup other = (cold manager.coldTier).lookup other
  maxHotBlocks : after.maxHotBlocks = manager.maxHotBlocks

end

variable {hot : η → BlockMap} {cold : γ → BlockMap} {manager after : TieredStorageManager η γ}

theorem held_of_none {blockId : UInt64} (h : manager.blockTiers.lookup blockId = none) :
    manager.held hot cold blockId = none := by
  rw [held, h]

theorem held_of_hot {blockId : UInt64} (h : manager.blockTiers.lookup blockId = some .hotMemory) :
    manager.held hot cold blockId = (hot manager.hotTier).lookup blockId := by
  rw [held, h]

theorem held_of_cold {blockId : UInt64} (h : manager.blockTiers.lookup blockId = some .coldDisk) :
    manager.held hot cold blockId = (cold manager.coldTier).lookup blockId := by
  rw [held, h]

/-- Two stores that name the same tier for a block, and hold the same there, hold the same. -/
theorem held_congr {blockId : UInt64}
    (htier : after.blockTiers.lookup blockId = manager.blockTiers.lookup blockId)
    (hhot : (hot after.hotTier).lookup blockId = (hot manager.hotTier).lookup blockId)
    (hcold : (cold after.coldTier).lookup blockId = (cold manager.coldTier).lookup blockId) :
    after.held hot cold blockId = manager.held hot cold blockId := by
  rw [held, held, htier, hhot, hcold]

theorem Alike.held_eq (h : Alike hot cold manager after) (blockId : UInt64) :
    after.held hot cold blockId = manager.held hot cold blockId := by
  apply held_congr
  · rw [h.blockTiers]
  · rw [h.hot]
  · rw [h.cold]

theorem Alike.queued (h : Alike hot cold manager after) (hqueued : Queued hot manager) :
    Queued hot after := by
  refine ⟨?_, ?_, ?_⟩
  · rw [h.queue]
    exact hqueued.nodup
  · intro blockId
    rw [h.queue, h.blockTiers]
    exact hqueued.mem_iff blockId
  · intro blockId htier
    rw [h.blockTiers] at htier
    rw [h.hot]
    exact hqueued.stored blockId htier

theorem Demoted.held_of_ne {blockId other : UInt64} {data : Bytes}
    (h : Demoted hot cold blockId data manager after) (hne : other ≠ blockId) :
    after.held hot cold other = manager.held hot cold other := by
  apply held_congr
  · rw [h.blockTiers, AList.lookup_insert_ne hne]
  · exact h.hot other hne
  · rw [h.cold, Finmap.lookup_insert_of_ne _ hne]

theorem Demoted.held_self {blockId : UInt64} {data : Bytes}
    (h : Demoted hot cold blockId data manager after) :
    after.held hot cold blockId = some data := by
  have htier : after.blockTiers.lookup blockId = some .coldDisk := by
    rw [h.blockTiers, AList.lookup_insert]
  rw [held_of_cold htier, h.cold, Finmap.lookup_insert]

theorem Placed.held_of_ne {blockId other : UInt64} {data : Bytes}
    (h : Placed hot cold blockId data manager after) (hne : other ≠ blockId) :
    after.held hot cold other = manager.held hot cold other := by
  apply held_congr
  · rw [h.blockTiers, AList.lookup_insert_ne hne]
  · rw [h.hot, Finmap.lookup_insert_of_ne _ hne]
  · exact h.cold other hne

theorem Placed.held_self {blockId : UInt64} {data : Bytes}
    (h : Placed hot cold blockId data manager after) :
    after.held hot cold blockId = some data := by
  have htier : after.blockTiers.lookup blockId = some .hotMemory := by
    rw [h.blockTiers, AList.lookup_insert]
  rw [held_of_hot htier, h.hot, Finmap.lookup_insert]

theorem Placed.queued {blockId : UInt64} {data : Bytes}
    (h : Placed hot cold blockId data manager after) (hqueued : Queued hot manager) :
    Queued hot after := by
  refine ⟨?_, ?_, ?_⟩
  · rw [h.queue, List.nodup_cons]
    exact ⟨hqueued.nodup.not_mem_erase, hqueued.nodup.erase _⟩
  · intro other
    rw [h.queue, h.blockTiers, List.mem_cons, hqueued.nodup.mem_erase_iff]
    by_cases heq : other = blockId
    · subst heq
      simp
    · rw [AList.lookup_insert_ne heq, ← hqueued.mem_iff other]
      simp [heq]
  · intro other htier
    rw [h.hot, Finmap.mem_insert]
    by_cases heq : other = blockId
    · exact .inl heq
    · rw [h.blockTiers, AList.lookup_insert_ne heq] at htier
      exact .inr (hqueued.stored other htier)

/-- A read of a hot block brings it to the front of the queue. -/
theorem Queued.touch (hqueued : Queued hot manager) {blockId : UInt64}
    (htier : manager.blockTiers.lookup blockId = some .hotMemory)
    (htiers : after.blockTiers = manager.blockTiers)
    (hqueue : after.hotLruQueue = blockId :: manager.hotLruQueue.erase blockId)
    (hhot : hot after.hotTier = hot manager.hotTier) : Queued hot after := by
  have hmem : blockId ∈ manager.hotLruQueue := (hqueued.mem_iff blockId).mpr htier
  refine ⟨?_, ?_, ?_⟩
  · rw [hqueue, List.nodup_cons]
    exact ⟨hqueued.nodup.not_mem_erase, hqueued.nodup.erase _⟩
  · intro other
    rw [hqueue, (List.perm_cons_erase hmem).symm.mem_iff, htiers]
    exact hqueued.mem_iff other
  · intro other hother
    rw [htiers] at hother
    rw [hhot]
    exact hqueued.stored other hother

/-- A block that is taken off the queue and is no longer named as hot. -/
theorem Queued.remove (hqueued : Queued hot manager) {blockId : UInt64}
    (hself : after.blockTiers.lookup blockId ≠ some .hotMemory)
    (htiers : ∀ other, other ≠ blockId →
      after.blockTiers.lookup other = manager.blockTiers.lookup other)
    (hqueue : after.hotLruQueue = manager.hotLruQueue.erase blockId)
    (hhot : ∀ other, other ≠ blockId →
      (hot after.hotTier).lookup other = (hot manager.hotTier).lookup other) :
    Queued hot after := by
  refine ⟨?_, ?_, ?_⟩
  · rw [hqueue]
    exact hqueued.nodup.erase _
  · intro other
    rw [hqueue, hqueued.nodup.mem_erase_iff]
    by_cases heq : other = blockId
    · subst heq
      simp [hself]
    · rw [htiers other heq, hqueued.mem_iff other]
      simp [heq]
  · intro other hother
    have hne : other ≠ blockId := by
      intro heq
      subst heq
      exact hself hother
    rw [htiers other hne] at hother
    have hstored := hqueued.stored other hother
    rw [Finmap.mem_iff] at hstored ⊢
    rw [hhot other hne]
    exact hstored

theorem Demoted.queued {blockId : UInt64} {data : Bytes}
    (h : Demoted hot cold blockId data manager after) (hqueued : Queued hot manager) :
    Queued hot after := by
  have hself : after.blockTiers.lookup blockId ≠ some .hotMemory := by
    rw [h.blockTiers, AList.lookup_insert]
    simp
  refine hqueued.remove hself ?_ h.queue h.hot
  intro other hne
  rw [h.blockTiers, AList.lookup_insert_ne hne]

/-! ### Moving blocks -/

variable [IStorageBackend η] [IStorageBackend γ]

/-- Either nothing changes, or the block is in the cold tier afterwards. -/
theorem demoteBlock_cases (hhot : Atomic hot) (hcold : Atomic cold)
    (manager : TieredStorageManager η γ) (blockId : UInt64) :
    ((manager.demoteBlock blockId).2 ≠ .success
      ∧ Alike hot cold manager (manager.demoteBlock blockId).1)
    ∨ ((manager.demoteBlock blockId).2 = .success
      ∧ ∃ data, (hot manager.hotTier).lookup blockId = some data
        ∧ Demoted hot cold blockId data manager (manager.demoteBlock blockId).1) := by
  have hsame := hhot.read_contents manager.hotTier blockId
  unfold demoteBlock
  rcases hread : IStorageBackend.readBlock manager.hotTier blockId with ⟨state, e | data⟩
  · rw [hread] at hsame
    have herror : e ≠ .success := hhot.read_error (congrArg Prod.snd hread)
    exact .inl ⟨herror, rfl, rfl, hsame, rfl, rfl⟩
  · rw [hread] at hsame
    have hlookup := hhot.read_ok (congrArg Prod.snd hread)
    dsimp only
    by_cases hstatus : (IStorageBackend.writeBlock manager.coldTier blockId data).2 = .success
    · have hcontents := hcold.write_success hstatus
      rcases hwrite : IStorageBackend.writeBlock manager.coldTier blockId data with ⟨next, status⟩
      rw [hwrite] at hstatus hcontents
      subst hstatus
      refine .inr ⟨rfl, data, hlookup, rfl, rfl, ?_, hcontents, rfl⟩
      intro other hne
      change (hot (IStorageBackend.deleteBlock state blockId).1).lookup other = _
      rw [hhot.lookup_delete_of_ne state hne, hsame]
    · have hcontents := hcold.write_failure hstatus
      rcases hwrite : IStorageBackend.writeBlock manager.coldTier blockId data with ⟨next, status⟩
      rw [hwrite] at hstatus hcontents
      cases status with
      | success => exact absurd rfl hstatus
      | _ => exact .inl ⟨hstatus, rfl, rfl, hsame, hcontents, rfl⟩

section DropCold

omit [IStorageBackend η]

@[simp]
theorem blockTiers_dropCold (manager : TieredStorageManager η γ) (blockId : UInt64) :
    (manager.dropCold blockId).blockTiers = manager.blockTiers := by
  unfold dropCold
  split <;> rfl

@[simp]
theorem hotLruQueue_dropCold (manager : TieredStorageManager η γ) (blockId : UInt64) :
    (manager.dropCold blockId).hotLruQueue = manager.hotLruQueue := by
  unfold dropCold
  split <;> rfl

@[simp]
theorem hotTier_dropCold (manager : TieredStorageManager η γ) (blockId : UInt64) :
    (manager.dropCold blockId).hotTier = manager.hotTier := by
  unfold dropCold
  split <;> rfl

@[simp]
theorem maxHotBlocks_dropCold (manager : TieredStorageManager η γ) (blockId : UInt64) :
    (manager.dropCold blockId).maxHotBlocks = manager.maxHotBlocks := by
  unfold dropCold
  split <;> rfl

theorem lookup_dropCold_of_ne (hcold : Atomic cold) (manager : TieredStorageManager η γ)
    {blockId other : UInt64} (hne : other ≠ blockId) :
    (cold (manager.dropCold blockId).coldTier).lookup other
      = (cold manager.coldTier).lookup other := by
  unfold dropCold
  split
  · exact hcold.lookup_delete_of_ne manager.coldTier hne
  · rfl

theorem held_dropCold_of_ne (hcold : Atomic cold) (manager : TieredStorageManager η γ)
    {blockId other : UInt64} (hne : other ≠ blockId) :
    (manager.dropCold blockId).held hot cold other = manager.held hot cold other := by
  apply held_congr
  · rw [blockTiers_dropCold]
  · rw [hotTier_dropCold]
  · exact lookup_dropCold_of_ne hcold manager hne

theorem queued_dropCold (hqueued : Queued hot manager) (blockId : UInt64) :
    Queued hot (manager.dropCold blockId) := by
  refine ⟨?_, ?_, ?_⟩
  · rw [hotLruQueue_dropCold]
    exact hqueued.nodup
  · rw [hotLruQueue_dropCold, blockTiers_dropCold]
    exact hqueued.mem_iff
  · rw [hotTier_dropCold, blockTiers_dropCold]
    exact hqueued.stored

end DropCold

/-- The victims at the back of the queue that the backends refuse to move, up to the first one that
they move. -/
def refused (hotTier : η) (coldTier : γ) : List UInt64 → List UInt64
  | [] => []
  | victimId :: victims =>
      match IStorageBackend.readBlock hotTier victimId with
      | (hotTier, .error _) => victimId :: refused hotTier coldTier victims
      | (hotTier, .ok data) =>
          match IStorageBackend.writeBlock coldTier victimId data with
          | (_, .success) => []
          | (coldTier, _) => victimId :: refused hotTier coldTier victims

theorem refused_of_success {victimId : UInt64} (h : (manager.demoteBlock victimId).2 = .success)
    (hhot : Atomic hot) (victims : List UInt64) :
    refused manager.hotTier manager.coldTier (victimId :: victims) = [] := by
  unfold demoteBlock at h
  unfold refused
  rcases hread : IStorageBackend.readBlock manager.hotTier victimId with ⟨state, e | data⟩
  · rw [hread] at h
    exact absurd h (hhot.read_error (congrArg Prod.snd hread))
  · rw [hread] at h
    dsimp only at h ⊢
    rcases hwrite : IStorageBackend.writeBlock manager.coldTier victimId data with ⟨next, status⟩
    rw [hwrite] at h
    cases status with
    | success => rfl
    | _ => cases h

theorem refused_of_failure {victimId : UInt64} (h : (manager.demoteBlock victimId).2 ≠ .success)
    (victims : List UInt64) :
    refused manager.hotTier manager.coldTier (victimId :: victims)
      = victimId :: refused (manager.demoteBlock victimId).1.hotTier
          (manager.demoteBlock victimId).1.coldTier victims := by
  unfold demoteBlock at h ⊢
  rw [refused]
  rcases hread : IStorageBackend.readBlock manager.hotTier victimId with ⟨state, e | data⟩
  · rfl
  · rw [hread] at h
    dsimp only at h ⊢
    rcases hwrite : IStorageBackend.writeBlock manager.coldTier victimId data with ⟨next, status⟩
    rw [hwrite] at h
    cases status with
    | success => exact absurd rfl h
    | _ => rfl

/-- One block is moved, and the victims before it that cannot be moved are forgotten. -/
structure Spilled (hot : η → BlockMap) (cold : γ → BlockMap) (gone : List UInt64)
    (manager after : TieredStorageManager η γ) : Prop where
  maxHotBlocks : after.maxHotBlocks = manager.maxHotBlocks
  queued : Queued hot after
  forgot : ∀ blockId ∈ gone, after.blockTiers.lookup blockId = none
  named : ∀ blockId, blockId ∉ gone →
    (after.blockTiers.lookup blockId = none ↔ manager.blockTiers.lookup blockId = none)
  held_eq : ∀ blockId, blockId ∉ gone →
    after.held hot cold blockId = manager.held hot cold blockId

omit [IStorageBackend η] [IStorageBackend γ] in
theorem Spilled.refl (hqueued : Queued hot manager) : Spilled hot cold [] manager manager where
  maxHotBlocks := rfl
  queued := hqueued
  forgot := by simp
  named := fun _ _ => Iff.rfl
  held_eq := fun _ _ => rfl

omit [IStorageBackend η] [IStorageBackend γ] in
theorem Spilled.of_demoted {blockId : UInt64} {data : Bytes} (hqueued : Queued hot manager)
    (hmem : blockId ∈ manager.hotLruQueue)
    (hlookup : (hot manager.hotTier).lookup blockId = some data)
    (h : Demoted hot cold blockId data manager after) : Spilled hot cold [] manager after where
  maxHotBlocks := h.maxHotBlocks
  queued := h.queued hqueued
  forgot := by simp
  named := by
    intro other _
    rw [h.blockTiers]
    by_cases heq : other = blockId
    · subst heq
      rw [AList.lookup_insert, (hqueued.mem_iff other).mp hmem]
      simp
    · rw [AList.lookup_insert_ne heq]
  held_eq := by
    intro other _
    by_cases heq : other = blockId
    · subst heq
      rw [h.held_self, held_of_hot ((hqueued.mem_iff other).mp hmem), hlookup]
    · exact h.held_of_ne heq

omit [IStorageBackend η] [IStorageBackend γ] in
/-- A victim that stays where it is, but that the store no longer names. -/
theorem Queued.forget {victimId : UInt64} (hqueued : Queued hot manager)
    (hlast : manager.hotLruQueue.getLast? = some victimId) :
    Queued hot { manager with
      hotLruQueue := manager.hotLruQueue.dropLast
      blockTiers := manager.blockTiers.erase victimId } := by
  have hqueue := List.dropLast_append_getLast? victimId hlast
  have hnodup := hqueued.nodup
  rw [← hqueue, List.nodup_append] at hnodup
  have hnot : victimId ∉ manager.hotLruQueue.dropLast := by
    intro hin
    exact hnodup.2.2 victimId hin victimId (List.mem_singleton_self victimId) rfl
  apply hqueued.remove
  · rw [AList.lookup_erase]
    simp
  · intro other hne
    exact AList.lookup_erase_ne hne
  · calc manager.hotLruQueue.dropLast
        = (manager.hotLruQueue.dropLast ++ [victimId]).erase victimId := by
          rw [List.erase_append_right _ hnot, List.erase_cons_head, List.append_nil]
      _ = manager.hotLruQueue.erase victimId := by rw [hqueue]
  · intro other _
    rfl

theorem spillLoop_of_success {manager : TieredStorageManager η γ} {victimId : UInt64}
    (hlast : manager.hotLruQueue.getLast? = some victimId)
    (h : (manager.demoteBlock victimId).2 = .success) (fuel blocksToSpill : Nat) :
    spillLoop (fuel + 1) (blocksToSpill + 1) manager
      = spillLoop fuel blocksToSpill (manager.demoteBlock victimId).1 := by
  rw [spillLoop, hlast]
  dsimp only
  rcases hdemote : manager.demoteBlock victimId with ⟨next, status⟩
  rw [hdemote] at h
  cases h
  rfl

theorem spillLoop_of_failure {manager : TieredStorageManager η γ} {victimId : UInt64}
    (hlast : manager.hotLruQueue.getLast? = some victimId)
    (h : (manager.demoteBlock victimId).2 ≠ .success) (fuel blocksToSpill : Nat) :
    spillLoop (fuel + 1) (blocksToSpill + 1) manager
      = spillLoop fuel (blocksToSpill + 1) { (manager.demoteBlock victimId).1 with
          hotLruQueue := (manager.demoteBlock victimId).1.hotLruQueue.dropLast
          blockTiers := (manager.demoteBlock victimId).1.blockTiers.erase victimId } := by
  rw [spillLoop, hlast]
  dsimp only
  rcases hdemote : manager.demoteBlock victimId with ⟨next, status⟩
  rw [hdemote] at h
  cases status with
  | success => exact absurd rfl h
  | _ => rfl

theorem spillLoop_zero (fuel : Nat) (manager : TieredStorageManager η γ) :
    spillLoop fuel 0 manager = manager := by
  cases fuel with
  | zero => rfl
  | succ fuel => rfl

theorem reverse_of_getLast? {queue : List UInt64} {victimId : UInt64}
    (hlast : queue.getLast? = some victimId) :
    queue.reverse = victimId :: queue.dropLast.reverse := by
  have hqueue := List.dropLast_append_getLast? victimId hlast
  calc queue.reverse = (queue.dropLast ++ [victimId]).reverse := by rw [hqueue]
    _ = victimId :: queue.dropLast.reverse := List.reverse_concat

omit [IStorageBackend η] [IStorageBackend γ] in
/-- `given` is the store after an attempt to move the victim, `left` the same without the victim. -/
theorem Spilled.of_forgotten {given left : TieredStorageManager η γ} {gone : List UInt64}
    {victimId : UInt64} (h : Spilled hot cold gone left after) (halike : Alike hot cold manager given)
    (hmax : left.maxHotBlocks = given.maxHotBlocks)
    (htiers : left.blockTiers = given.blockTiers.erase victimId)
    (hhot : left.hotTier = given.hotTier) (hcold : left.coldTier = given.coldTier) :
    Spilled hot cold (victimId :: gone) manager after where
  maxHotBlocks := h.maxHotBlocks.trans (hmax.trans halike.maxHotBlocks)
  queued := h.queued
  forgot := by
    intro blockId hmem
    by_cases hgone : blockId ∈ gone
    · exact h.forgot blockId hgone
    · have heq : blockId = victimId := (List.mem_cons.mp hmem).resolve_right hgone
      rw [h.named blockId hgone, htiers, heq, AList.lookup_erase]
  named := by
    intro blockId hnot
    rw [List.mem_cons, not_or] at hnot
    rw [h.named blockId hnot.2, htiers, AList.lookup_erase_ne hnot.1, halike.blockTiers]
  held_eq := by
    intro blockId hnot
    rw [List.mem_cons, not_or] at hnot
    rw [h.held_eq blockId hnot.2]
    apply held_congr
    · rw [htiers, AList.lookup_erase_ne hnot.1, halike.blockTiers]
    · rw [hhot, halike.hot]
    · rw [hcold, halike.cold]

/-- The induction is on the length of the queue: the loop ends at the first victim that is moved, and
before that every round takes a forgotten victim off the queue. -/
theorem spilled_spillLoop (hhot : Atomic hot) (hcold : Atomic cold) (fuel : Nat)
    (manager : TieredStorageManager η γ) (hfuel : manager.hotLruQueue.length = fuel)
    (hqueued : Queued hot manager) :
    Spilled hot cold (refused manager.hotTier manager.coldTier manager.hotLruQueue.reverse) manager
      (spillLoop fuel 1 manager) := by
  induction fuel generalizing manager with
  | zero =>
      rw [List.length_eq_zero_iff.mp hfuel]
      exact Spilled.refl hqueued
  | succ fuel ih =>
      have hne : manager.hotLruQueue ≠ [] := List.ne_nil_of_length_eq_add_one hfuel
      obtain ⟨victimId, hlast⟩ := Option.isSome_iff_exists.mp (List.getLast?_isSome.mpr hne)
      have hmem : victimId ∈ manager.hotLruQueue := List.mem_of_getLast? hlast
      rw [reverse_of_getLast? hlast]
      rcases demoteBlock_cases hhot hcold manager victimId with
        ⟨hfailed, halike⟩ | ⟨hmoved, data, hlookup, hdemoted⟩
      · rw [spillLoop_of_failure hlast hfailed, refused_of_failure hfailed, halike.queue]
        have hlast' : (manager.demoteBlock victimId).1.hotLruQueue.getLast? = some victimId := by
          rw [halike.queue, hlast]
        have hforget := (halike.queued hqueued).forget hlast'
        rw [halike.queue] at hforget
        have hspilled := ih _ (by simp [hfuel]) hforget
        exact hspilled.of_forgotten halike rfl rfl rfl rfl
      · rw [spillLoop_of_success hlast hmoved, spillLoop_zero, refused_of_success hmoved hhot]
        exact Spilled.of_demoted hqueued hmem hlookup hdemoted

/-- The victims that the store forgets when it makes room. -/
def forgottenVictims (manager : TieredStorageManager η γ) : List UInt64 :=
  if manager.maxHotBlocks ≤ manager.hotLruQueue.length then
    refused manager.hotTier manager.coldTier manager.hotLruQueue.reverse
  else []

theorem spilled_makeRoom (hhot : Atomic hot) (hcold : Atomic cold) (hqueued : Queued hot manager) :
    Spilled hot cold manager.forgottenVictims manager manager.makeRoom := by
  unfold forgottenVictims makeRoom
  split
  · exact spilled_spillLoop hhot hcold _ manager rfl hqueued
  · exact Spilled.refl hqueued

theorem refused_subset (hotTier : η) (coldTier : γ) (victims : List UInt64) :
    refused hotTier coldTier victims ⊆ victims := by
  induction victims generalizing hotTier coldTier with
  | nil => exact List.Subset.refl []
  | cons victimId victims ih =>
      unfold refused
      rcases IStorageBackend.readBlock hotTier victimId with ⟨state, e | data⟩
      · exact List.cons_subset_cons victimId (ih state coldTier)
      · dsimp only
        rcases IStorageBackend.writeBlock coldTier victimId data with ⟨next, status⟩
        cases status with
        | success => exact List.nil_subset _
        | _ => exact List.cons_subset_cons victimId (ih state next)

theorem mem_queue_of_forgotten {blockId : UInt64} (h : blockId ∈ manager.forgottenVictims) :
    blockId ∈ manager.hotLruQueue := by
  unfold forgottenVictims at h
  split at h
  · exact List.mem_reverse.mp (refused_subset _ _ _ h)
  · cases h

/-! ### Every call keeps the queue in order -/

theorem queued_demoteBlock (hhot : Atomic hot) (hcold : Atomic cold) (hqueued : Queued hot manager)
    (blockId : UInt64) : Queued hot (manager.demoteBlock blockId).1 := by
  rcases demoteBlock_cases hhot hcold manager blockId with ⟨-, halike⟩ | ⟨-, data, -, hdemoted⟩
  · exact halike.queued hqueued
  · exact hdemoted.queued hqueued

theorem queued_spillLoop (hhot : Atomic hot) (hcold : Atomic cold) (fuel blocksToSpill : Nat)
    (manager : TieredStorageManager η γ) (hqueued : Queued hot manager) :
    Queued hot (spillLoop fuel blocksToSpill manager) := by
  induction fuel generalizing manager blocksToSpill with
  | zero => exact hqueued
  | succ fuel ih =>
      cases blocksToSpill with
      | zero => exact hqueued
      | succ blocksToSpill =>
          cases hlast : manager.hotLruQueue.getLast? with
          | none =>
              rw [spillLoop, hlast]
              exact hqueued
          | some victimId =>
              have hnext := queued_demoteBlock hhot hcold hqueued victimId
              rcases demoteBlock_cases hhot hcold manager victimId with
                ⟨hfailed, halike⟩ | ⟨hmoved, -⟩
              · rw [spillLoop_of_failure hlast hfailed]
                apply ih
                apply hnext.forget
                rw [halike.queue, hlast]
              · rw [spillLoop_of_success hlast hmoved]
                exact ih _ _ hnext

/-! ### What a call does -/

theorem writeBlock_cases (hhot : Atomic hot) (cold : γ → BlockMap)
    (manager : TieredStorageManager η γ) (blockId : UInt64) (data : Bytes) :
    ((manager.writeBlock blockId data).2 ≠ .success
      ∧ Alike hot cold (manager.dropCold blockId).makeRoom (manager.writeBlock blockId data).1)
    ∨ ((manager.writeBlock blockId data).2 = .success
      ∧ Placed hot cold blockId data (manager.dropCold blockId).makeRoom
        (manager.writeBlock blockId data).1
      ∧ (manager.writeBlock blockId data).1.coldTier
        = (manager.dropCold blockId).makeRoom.coldTier) := by
  unfold writeBlock
  generalize (manager.dropCold blockId).makeRoom = room
  dsimp only
  by_cases hstatus : (IStorageBackend.writeBlock room.hotTier blockId data).2 = .success
  · have hcontents := hhot.write_success hstatus
    rcases hwrite : IStorageBackend.writeBlock room.hotTier blockId data with ⟨next, status⟩
    rw [hwrite] at hstatus hcontents
    cases hstatus
    exact .inr ⟨rfl, ⟨rfl, rfl, hcontents, fun _ _ => rfl, rfl⟩, rfl⟩
  · have hcontents := hhot.write_failure hstatus
    rcases hwrite : IStorageBackend.writeBlock room.hotTier blockId data with ⟨next, status⟩
    rw [hwrite] at hstatus hcontents
    cases status with
    | success => exact absurd rfl hstatus
    | _ => exact .inl ⟨hstatus, rfl, rfl, hcontents, rfl, rfl⟩

/-- The store with the state that a read of the block leaves in the cold tier. -/
def afterColdRead (manager : TieredStorageManager η γ) (blockId : UInt64) :
    TieredStorageManager η γ :=
  { manager with coldTier := (IStorageBackend.readBlock manager.coldTier blockId).1 }

omit [IStorageBackend η] in
theorem alike_afterColdRead (hcold : Atomic cold) (manager : TieredStorageManager η γ)
    (blockId : UInt64) : Alike hot cold manager (manager.afterColdRead blockId) :=
  ⟨rfl, rfl, rfl, hcold.read_contents manager.coldTier blockId, rfl⟩

theorem promoteBlock_cases (hhot : Atomic hot) (hcold : Atomic cold)
    (manager : TieredStorageManager η γ) (blockId : UInt64) :
    ((∃ e, (IStorageBackend.readBlock manager.coldTier blockId).2 = .error e)
      ∧ (manager.promoteBlock blockId).1 = manager.afterColdRead blockId)
    ∨ ∃ data, (IStorageBackend.readBlock manager.coldTier blockId).2 = .ok data
      ∧ (Alike hot cold (manager.afterColdRead blockId).makeRoom (manager.promoteBlock blockId).1
        ∨ (Placed hot cold blockId data (manager.afterColdRead blockId).makeRoom
            (manager.promoteBlock blockId).1
          ∧ (manager.promoteBlock blockId).1.coldTier = (IStorageBackend.deleteBlock
            (manager.afterColdRead blockId).makeRoom.coldTier blockId).1)) := by
  unfold promoteBlock afterColdRead
  rcases hread : IStorageBackend.readBlock manager.coldTier blockId with ⟨state, e | data⟩
  · exact .inl ⟨⟨e, rfl⟩, rfl⟩
  · refine .inr ⟨data, rfl, ?_⟩
    dsimp only
    generalize makeRoom { manager with coldTier := state } = room
    by_cases hstatus : (IStorageBackend.writeBlock room.hotTier blockId data).2 = .success
    · have hcontents := hhot.write_success hstatus
      rcases hwrite : IStorageBackend.writeBlock room.hotTier blockId data with ⟨next, status⟩
      rw [hwrite] at hstatus hcontents
      cases hstatus
      refine .inr ⟨⟨rfl, rfl, hcontents, ?_, rfl⟩, rfl⟩
      intro other hne
      exact hcold.lookup_delete_of_ne room.coldTier hne
    · have hcontents := hhot.write_failure hstatus
      rcases hwrite : IStorageBackend.writeBlock room.hotTier blockId data with ⟨next, status⟩
      rw [hwrite] at hstatus hcontents
      cases status with
      | success => exact absurd rfl hstatus
      | _ => exact .inl ⟨rfl, rfl, hcontents, rfl, rfl⟩

/-- A block is read and at most brought to the front of the queue. -/
structure Touched (hot : η → BlockMap) (cold : γ → BlockMap) (blockId : UInt64)
    (manager after : TieredStorageManager η γ) : Prop where
  blockTiers : after.blockTiers = manager.blockTiers
  queue : after.hotLruQueue = manager.hotLruQueue
    ∨ (manager.blockTiers.lookup blockId = some .hotMemory
      ∧ after.hotLruQueue = blockId :: manager.hotLruQueue.erase blockId)
  hot : hot after.hotTier = hot manager.hotTier
  cold : cold after.coldTier = cold manager.coldTier
  maxHotBlocks : after.maxHotBlocks = manager.maxHotBlocks

omit [IStorageBackend η] [IStorageBackend γ] in
theorem Touched.held_eq {blockId : UInt64} (h : Touched hot cold blockId manager after)
    (other : UInt64) : after.held hot cold other = manager.held hot cold other := by
  apply held_congr
  · rw [h.blockTiers]
  · rw [h.hot]
  · rw [h.cold]

omit [IStorageBackend η] [IStorageBackend γ] in
theorem Touched.queued {blockId : UInt64} (h : Touched hot cold blockId manager after)
    (hqueued : Queued hot manager) : Queued hot after := by
  rcases h.queue with hqueue | ⟨htier, hqueue⟩
  · exact Alike.queued ⟨h.blockTiers, hqueue, h.hot, h.cold, h.maxHotBlocks⟩ hqueued
  · exact hqueued.touch htier h.blockTiers hqueue h.hot

/-- A read of a cold block may go on to promote it. -/
theorem readBlock_cases (hhot : Atomic hot) (hcold : Atomic cold)
    (manager : TieredStorageManager η γ) (blockId : UInt64) (promoteToHot : Bool) :
    (manager.blockTiers.lookup blockId = some .coldDisk ∧ promoteToHot = true
      ∧ ∃ data, (IStorageBackend.readBlock manager.coldTier blockId).2 = .ok data
        ∧ manager.readBlock blockId promoteToHot
          = (((manager.afterColdRead blockId).promoteBlock blockId).1, .ok data))
    ∨ (¬ (manager.blockTiers.lookup blockId = some .coldDisk ∧ promoteToHot = true
        ∧ ∃ data, (IStorageBackend.readBlock manager.coldTier blockId).2 = .ok data)
      ∧ Touched hot cold blockId manager (manager.readBlock blockId promoteToHot).1) := by
  unfold readBlock
  rcases htier : manager.blockTiers.lookup blockId with _ | tier
  · exact .inr ⟨by simp, rfl, .inl rfl, rfl, rfl, rfl⟩
  · cases tier with
    | hotMemory =>
        refine .inr ⟨by simp, ?_⟩
        have hsame := hhot.read_contents manager.hotTier blockId
        rcases hread : IStorageBackend.readBlock manager.hotTier blockId with ⟨state, e | data⟩
        · rw [hread] at hsame
          exact ⟨rfl, .inl rfl, hsame, rfl, rfl⟩
        · rw [hread] at hsame
          exact ⟨rfl, .inr ⟨htier, rfl⟩, hsame, rfl, rfl⟩
    | coldDisk =>
        have hsame := hcold.read_contents manager.coldTier blockId
        unfold afterColdRead
        rcases hread : IStorageBackend.readBlock manager.coldTier blockId with ⟨state, e | data⟩
        · rw [hread] at hsame
          exact .inr ⟨by simp, rfl, .inl rfl, rfl, hsame, rfl⟩
        · rw [hread] at hsame
          cases promoteToHot with
          | false => exact .inr ⟨by simp, rfl, .inl rfl, rfl, hsame, rfl⟩
          | true => exact .inl ⟨rfl, rfl, data, rfl, rfl⟩

theorem touched_readSpan (hhot : Atomic hot) (hcold : Atomic cold)
    (manager : TieredStorageManager η γ) (blockId offset length : UInt64) :
    Touched hot cold blockId manager (manager.readSpan blockId offset length).1 := by
  unfold readSpan
  rcases manager.blockTiers.lookup blockId with _ | tier
  · exact ⟨rfl, .inl rfl, rfl, rfl, rfl⟩
  · cases tier with
    | hotMemory => exact ⟨rfl, .inl rfl, hhot.span_contents _ _ _ _, rfl, rfl⟩
    | coldDisk => exact ⟨rfl, .inl rfl, rfl, hcold.span_contents _ _ _ _, rfl⟩

/-- A block that the store names is forgotten, whether or not its tier lets go of it. -/
structure Deleted (hot : η → BlockMap) (cold : γ → BlockMap) (blockId : UInt64)
    (manager after : TieredStorageManager η γ) : Prop where
  blockTiers : after.blockTiers = manager.blockTiers.erase blockId
  queue : after.hotLruQueue = manager.hotLruQueue.erase blockId
  hot : ∀ other, other ≠ blockId →
    (hot after.hotTier).lookup other = (hot manager.hotTier).lookup other
  cold : ∀ other, other ≠ blockId →
    (cold after.coldTier).lookup other = (cold manager.coldTier).lookup other
  maxHotBlocks : after.maxHotBlocks = manager.maxHotBlocks

omit [IStorageBackend η] [IStorageBackend γ] in
theorem Deleted.held_of_ne {blockId other : UInt64} (h : Deleted hot cold blockId manager after)
    (hne : other ≠ blockId) : after.held hot cold other = manager.held hot cold other := by
  apply held_congr
  · rw [h.blockTiers, AList.lookup_erase_ne hne]
  · exact h.hot other hne
  · exact h.cold other hne

omit [IStorageBackend η] [IStorageBackend γ] in
theorem Deleted.queued {blockId : UInt64} (h : Deleted hot cold blockId manager after)
    (hqueued : Queued hot manager) : Queued hot after := by
  have hself : after.blockTiers.lookup blockId ≠ some .hotMemory := by
    rw [h.blockTiers, AList.lookup_erase]
    simp
  refine hqueued.remove hself ?_ h.queue h.hot
  intro other hne
  rw [h.blockTiers, AList.lookup_erase_ne hne]

theorem deleteBlock_cases (hhot : Atomic hot) (hcold : Atomic cold) (hqueued : Queued hot manager)
    (blockId : UInt64) :
    (manager.blockTiers.lookup blockId = none
      ∧ manager.deleteBlock blockId = (manager, .notFound))
    ∨ (manager.blockTiers.lookup blockId ≠ none
      ∧ Deleted hot cold blockId manager (manager.deleteBlock blockId).1) := by
  unfold deleteBlock
  rcases htier : manager.blockTiers.lookup blockId with _ | tier
  · exact .inl ⟨rfl, rfl⟩
  · refine .inr ⟨by simp, ?_⟩
    cases tier with
    | hotMemory =>
        refine ⟨rfl, rfl, ?_, fun _ _ => rfl, rfl⟩
        intro other hne
        exact hhot.lookup_delete_of_ne manager.hotTier hne
    | coldDisk =>
        have hnot : blockId ∉ manager.hotLruQueue := by
          rw [hqueued.mem_iff, htier]
          simp
        refine ⟨rfl, (List.erase_of_not_mem hnot).symm, fun _ _ => rfl, ?_, rfl⟩
        intro other hne
        exact hcold.lookup_delete_of_ne manager.coldTier hne

end TieredStorageManager

end NebulaFS
