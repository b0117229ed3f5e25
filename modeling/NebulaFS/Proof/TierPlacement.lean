import NebulaFS.Proof.TieredRefinement

/-!
# Where the tiered store keeps a block

A block lies in the tier that the store names, and in no other (`InPlace`), as long as no write is of
the very block that it spills to make room: such a write moves the old content to the cold tier after
it has looked for a copy there, and leaves it behind (`oneTier_run_iff`).
-/

namespace NebulaFS

namespace TieredStorageManager

variable {η γ : Type} {hot : η → BlockMap} {cold : γ → BlockMap}
  {manager after : TieredStorageManager η γ}

/-- A block lies in the tier that the store names, and not in the other one. -/
def InPlace (hot : η → BlockMap) (cold : γ → BlockMap) (manager : TieredStorageManager η γ)
    (blockId : UInt64) : Prop :=
  (blockId ∈ hot manager.hotTier ↔ manager.blockTiers.lookup blockId = some .hotMemory)
    ∧ (blockId ∈ cold manager.coldTier ↔ manager.blockTiers.lookup blockId = some .coldDisk)

theorem mem_congr {contents other : BlockMap} {blockId : UInt64}
    (h : contents.lookup blockId = other.lookup blockId) : blockId ∈ contents ↔ blockId ∈ other := by
  rw [← Finmap.lookup_isSome, ← Finmap.lookup_isSome, h]

theorem InPlace.congr {blockId : UInt64} (h : InPlace hot cold manager blockId)
    (htier : after.blockTiers.lookup blockId = manager.blockTiers.lookup blockId)
    (hhot : (hot after.hotTier).lookup blockId = (hot manager.hotTier).lookup blockId)
    (hcold : (cold after.coldTier).lookup blockId = (cold manager.coldTier).lookup blockId) :
    InPlace hot cold after blockId := by
  unfold InPlace
  rw [htier, mem_congr hhot, mem_congr hcold]
  exact h

theorem Alike.inPlace {blockId : UInt64} (h : Alike hot cold manager after)
    (hplace : InPlace hot cold manager blockId) : InPlace hot cold after blockId := by
  apply hplace.congr
  · rw [h.blockTiers]
  · rw [h.hot]
  · rw [h.cold]

theorem Touched.inPlace {blockId other : UInt64} (h : Touched hot cold blockId manager after)
    (hplace : InPlace hot cold manager other) : InPlace hot cold after other := by
  apply hplace.congr
  · rw [h.blockTiers]
  · rw [h.hot]
  · rw [h.cold]

theorem Placed.inPlace_of_ne {blockId other : UInt64} {data : Bytes}
    (h : Placed hot cold blockId data manager after) (hne : other ≠ blockId)
    (hplace : InPlace hot cold manager other) : InPlace hot cold after other := by
  apply hplace.congr
  · rw [h.blockTiers, AList.lookup_insert_ne hne]
  · rw [h.hot, Finmap.lookup_insert_of_ne _ hne]
  · exact h.cold other hne

theorem Placed.inPlace_self_iff {blockId : UInt64} {data : Bytes}
    (h : Placed hot cold blockId data manager after) :
    InPlace hot cold after blockId ↔ blockId ∉ cold after.coldTier := by
  unfold InPlace
  rw [h.blockTiers, AList.lookup_insert, h.hot]
  simp

variable [IStorageBackend η] [IStorageBackend γ] {span : Bytes → UInt64 → UInt64 → SpanResult}

omit [IStorageBackend η] in
theorem not_mem_dropCold (hcold : Infallible cold span) (manager : TieredStorageManager η γ)
    (blockId : UInt64) : blockId ∉ cold (manager.dropCold blockId).coldTier := by
  unfold dropCold
  split
  · exact hcold.not_mem_delete manager.coldTier blockId
  · next hhas =>
    intro hmem
    exact hhas ((hcold.has_iff _ _).mpr hmem)

theorem not_mem_hot_demoteBlock (hhot : Infallible hot span) (hcold : Infallible cold span)
    {victimId : UInt64} (hmem : victimId ∈ hot manager.hotTier) :
    victimId ∉ hot (manager.demoteBlock victimId).1.hotTier := by
  obtain ⟨data, hdata⟩ := Finmap.mem_iff.mp hmem
  have hread := hhot.read hdata
  have hwrite := hcold.write manager.coldTier victimId data
  unfold demoteBlock
  rcases hresult : IStorageBackend.readBlock manager.hotTier victimId with ⟨state, result⟩
  rw [hresult] at hread
  cases hread
  dsimp only
  rcases hstatus : IStorageBackend.writeBlock manager.coldTier victimId data with ⟨next, status⟩
  rw [hstatus] at hwrite
  cases hwrite
  exact hhot.not_mem_delete state victimId

/-- Moving a block leaves it in the cold tier only, and the others where they are. -/
theorem inPlace_demoteBlock (hhot : Infallible hot span) (hcold : Infallible cold span)
    {victimId : UInt64} (hmem : victimId ∈ hot manager.hotTier) {blockId : UInt64}
    (hplace : blockId ≠ victimId → InPlace hot cold manager blockId) :
    InPlace hot cold (manager.demoteBlock victimId).1 blockId := by
  rcases demoteBlock_cases hhot.toAtomic hcold.toAtomic manager victimId with
    ⟨hfailed, -⟩ | ⟨-, data, -, hdemoted⟩
  · exact absurd (demoteBlock_of_stored hhot hcold hmem) hfailed
  · by_cases heq : blockId = victimId
    · subst heq
      unfold InPlace
      rw [hdemoted.blockTiers, AList.lookup_insert, hdemoted.cold]
      simp [not_mem_hot_demoteBlock hhot hcold hmem]
    · apply (hplace heq).congr
      · rw [hdemoted.blockTiers, AList.lookup_insert_ne heq]
      · exact hdemoted.hot blockId heq
      · rw [hdemoted.cold, Finmap.lookup_insert_of_ne _ heq]

/-- What making room does: it moves the block at the back of a full queue, or nothing. -/
theorem makeRoom_cases (hhot : Infallible hot span) (hcold : Infallible cold span)
    (hqueued : Queued hot manager) (hmax : 1 ≤ manager.maxHotBlocks) :
    (¬ manager.maxHotBlocks ≤ manager.hotLruQueue.length ∧ manager.makeRoom = manager)
    ∨ ∃ victimId data, manager.maxHotBlocks ≤ manager.hotLruQueue.length
      ∧ manager.hotLruQueue.getLast? = some victimId
      ∧ victimId ∈ hot manager.hotTier
      ∧ manager.makeRoom = (manager.demoteBlock victimId).1
      ∧ Demoted hot cold victimId data manager manager.makeRoom := by
  by_cases hfull : manager.maxHotBlocks ≤ manager.hotLruQueue.length
  · obtain ⟨victimId, hlast⟩ := getLast?_of_full hmax hfull
    obtain ⟨hroom, hmoved⟩ := makeRoom_of_full hhot hcold hqueued hlast hfull
    have hmem : victimId ∈ manager.hotLruQueue := List.mem_of_getLast? hlast
    have hstored := hqueued.stored victimId ((hqueued.mem_iff victimId).mp hmem)
    rcases demoteBlock_cases hhot.toAtomic hcold.toAtomic manager victimId with
      ⟨hfailed, -⟩ | ⟨-, data, -, hdemoted⟩
    · exact absurd hmoved hfailed
    · exact .inr ⟨victimId, data, hfull, hlast, hstored, hroom, hroom ▸ hdemoted⟩
  · exact .inl ⟨hfull, if_neg hfull⟩

theorem inPlace_makeRoom (hhot : Infallible hot span) (hcold : Infallible cold span)
    (hqueued : Queued hot manager) (hmax : 1 ≤ manager.maxHotBlocks) {blockId : UInt64}
    (hplace : InPlace hot cold manager blockId) : InPlace hot cold manager.makeRoom blockId := by
  rcases makeRoom_cases hhot hcold hqueued hmax with
    ⟨-, hsame⟩ | ⟨victimId, data, -, -, hstored, hroom, -⟩
  · rw [hsame]
    exact hplace
  · rw [hroom]
    exact inPlace_demoteBlock hhot hcold hstored fun _ => hplace

/-! ### Every call but one kind -/

/-- A write of the block that it has to spill. -/
def OverwritesVictim (manager : TieredStorageManager η γ) : Call → Prop
  | .writeBlock blockId _ => manager.maxHotBlocks ≤ manager.hotLruQueue.length
      ∧ manager.hotLruQueue.getLast? = some blockId
  | _ => False

/-- The cold tier holds the block that is about to be written exactly if the block has just been
spilled. -/
theorem mem_cold_makeRoom_iff (hhot : Infallible hot span) (hcold : Infallible cold span)
    (hqueued : Queued hot manager) (hmax : 1 ≤ manager.maxHotBlocks) (blockId : UInt64) :
    blockId ∈ cold (manager.dropCold blockId).makeRoom.coldTier
      ↔ manager.maxHotBlocks ≤ manager.hotLruQueue.length
        ∧ manager.hotLruQueue.getLast? = some blockId := by
  have hdropped := not_mem_dropCold hcold manager blockId
  have hmaxDropped : 1 ≤ (manager.dropCold blockId).maxHotBlocks := by
    rwa [maxHotBlocks_dropCold]
  rcases makeRoom_cases hhot hcold (queued_dropCold hqueued blockId) hmaxDropped with
    ⟨hfull, hsame⟩ | ⟨victimId, data, hfull, hlast, -, -, hdemoted⟩
  · rw [maxHotBlocks_dropCold, hotLruQueue_dropCold] at hfull
    rw [hsame]
    simp [hdropped, hfull]
  · rw [maxHotBlocks_dropCold, hotLruQueue_dropCold] at hfull
    rw [hotLruQueue_dropCold] at hlast
    rw [hdemoted.cold, Finmap.mem_insert]
    simp only [hdropped, or_false, hfull, hlast, true_and, Option.some.injEq]
    exact eq_comm

theorem inPlace_writeBlock_iff (hhot : Infallible hot span) (hcold : Infallible cold span)
    (hqueued : Queued hot manager) (hmax : 1 ≤ manager.maxHotBlocks)
    (hplace : ∀ blockId, InPlace hot cold manager blockId) (blockId : UInt64) (data : Bytes) :
    (∀ other, InPlace hot cold (manager.writeBlock blockId data).1 other)
      ↔ ¬ (manager.maxHotBlocks ≤ manager.hotLruQueue.length
        ∧ manager.hotLruQueue.getLast? = some blockId) := by
  have hmaxDropped : 1 ≤ (manager.dropCold blockId).maxHotBlocks := by
    rwa [maxHotBlocks_dropCold]
  rcases writeBlock_cases hhot.toAtomic cold manager blockId data with
    ⟨hfailed, -⟩ | ⟨-, hplaced, hcoldTier⟩
  · exact absurd (writeBlock_status hhot manager blockId data) hfailed
  · rw [← mem_cold_makeRoom_iff hhot hcold hqueued hmax, ← hcoldTier, ← hplaced.inPlace_self_iff]
    constructor
    · intro hall
      exact hall blockId
    · intro hself other
      by_cases heq : other = blockId
      · rw [heq]
        exact hself
      · apply hplaced.inPlace_of_ne heq
        apply inPlace_makeRoom hhot hcold (queued_dropCold hqueued blockId) hmaxDropped
        apply (hplace other).congr
        · rw [blockTiers_dropCold]
        · rw [hotTier_dropCold]
        · exact lookup_dropCold_of_ne hcold.toAtomic manager heq

theorem inPlace_promoteBlock (hhot : Infallible hot span) (hcold : Infallible cold span)
    (hqueued : Queued hot manager) (hmax : 1 ≤ manager.maxHotBlocks)
    (hplace : ∀ blockId, InPlace hot cold manager blockId) (blockId other : UInt64) :
    InPlace hot cold (manager.promoteBlock blockId).1 other := by
  have hread : Alike hot cold manager (manager.afterColdRead blockId) :=
    alike_afterColdRead hcold.toAtomic manager blockId
  have hmaxRead : 1 ≤ (manager.afterColdRead blockId).maxHotBlocks := hmax
  have hroom : ∀ id, InPlace hot cold (manager.afterColdRead blockId).makeRoom id := by
    intro id
    exact inPlace_makeRoom hhot hcold (hread.queued hqueued) hmaxRead (hread.inPlace (hplace id))
  rcases promoteBlock_cases hhot.toAtomic hcold.toAtomic manager blockId with
    ⟨-, hsame⟩ | ⟨data, -, halike | ⟨hplaced, hcoldTier⟩⟩
  · rw [hsame]
    exact hread.inPlace (hplace other)
  · exact halike.inPlace (hroom other)
  · by_cases heq : other = blockId
    · rw [heq, hplaced.inPlace_self_iff, hcoldTier]
      exact hcold.not_mem_delete _ blockId
    · exact hplaced.inPlace_of_ne heq (hroom other)

theorem inPlace_readBlock (hhot : Infallible hot span) (hcold : Infallible cold span)
    (hqueued : Queued hot manager) (hmax : 1 ≤ manager.maxHotBlocks)
    (hplace : ∀ blockId, InPlace hot cold manager blockId) (blockId other : UInt64)
    (promoteToHot : Bool) :
    InPlace hot cold (manager.readBlock blockId promoteToHot).1 other := by
  rcases readBlock_cases hhot.toAtomic hcold.toAtomic manager blockId promoteToHot with
    ⟨-, -, data, -, hafter⟩ | ⟨-, htouched⟩
  · have hread : Alike hot cold manager (manager.afterColdRead blockId) :=
      alike_afterColdRead hcold.toAtomic manager blockId
    have hmaxRead : 1 ≤ (manager.afterColdRead blockId).maxHotBlocks := hmax
    rw [hafter]
    exact inPlace_promoteBlock hhot hcold (hread.queued hqueued) hmaxRead
      (fun id => hread.inPlace (hplace id)) blockId other
  · exact htouched.inPlace (hplace other)

theorem inPlace_deleteBlock (hhot : Infallible hot span) (hcold : Infallible cold span)
    (hqueued : Queued hot manager) (hplace : ∀ blockId, InPlace hot cold manager blockId)
    (blockId other : UInt64) : InPlace hot cold (manager.deleteBlock blockId).1 other := by
  rcases deleteBlock_cases hhot.toAtomic hcold.toAtomic hqueued blockId with
    ⟨-, hsame⟩ | ⟨hnamed, hdeleted⟩
  · rw [hsame]
    exact hplace other
  · by_cases heq : other = blockId
    · have hself := hplace blockId
      have htiers := hdeleted.blockTiers
      subst heq
      unfold InPlace
      rw [htiers, AList.lookup_erase]
      unfold deleteBlock
      rcases htier : manager.blockTiers.lookup other with _ | tier
      · exact absurd htier hnamed
      · unfold InPlace at hself
        rw [htier] at hself
        cases tier with
        | hotMemory => simp [hself.2, hhot.not_mem_delete]
        | coldDisk => simp [hself.1, hcold.not_mem_delete]
    · apply (hplace other).congr
      · rw [hdeleted.blockTiers, AList.lookup_erase_ne heq]
      · exact hdeleted.hot other heq
      · exact hdeleted.cold other heq

theorem inPlace_step_iff (hhot : Infallible hot span) (hcold : Infallible cold span)
    (hqueued : Queued hot manager) (hmax : 1 ≤ manager.maxHotBlocks)
    (hplace : ∀ blockId, InPlace hot cold manager blockId) (call : Call) :
    (∀ other, InPlace hot cold (manager.step call).1 other) ↔ ¬ manager.OverwritesVictim call := by
  cases call with
  | writeBlock blockId data => exact inPlace_writeBlock_iff hhot hcold hqueued hmax hplace blockId data
  | readBlock blockId promoteToHot =>
      refine iff_of_true ?_ not_false
      intro other
      exact inPlace_readBlock hhot hcold hqueued hmax hplace blockId other promoteToHot
  | readSpan blockId offset length =>
      refine iff_of_true ?_ not_false
      intro other
      exact (touched_readSpan hhot.toAtomic hcold.toAtomic manager blockId offset length).inPlace
        (hplace other)
  | deleteBlock blockId =>
      refine iff_of_true ?_ not_false
      intro other
      exact inPlace_deleteBlock hhot hcold hqueued hplace blockId other
  | hasBlock blockId => exact iff_of_true hplace not_false

/-! ### Runs -/

/-- Every block lies in the tier that the store names, the queue lists the hot ones, and the tiers
together count as many blocks as the store names. -/
structure OneTier (hot : η → BlockMap) (cold : γ → BlockMap) (manager : TieredStorageManager η γ) :
    Prop where
  inPlace : ∀ blockId, InPlace hot cold manager blockId
  queue : ∀ blockId, blockId ∈ manager.hotLruQueue
    ↔ manager.blockTiers.lookup blockId = some .hotMemory
  stats : manager.stats.hotBlocks + manager.stats.coldBlocks = manager.blockTiers.keys.length

theorem stats_of_inPlace (hhot : Infallible hot span) (hcold : Infallible cold span)
    (hplace : ∀ blockId, InPlace hot cold manager blockId) :
    manager.stats.hotBlocks + manager.stats.coldBlocks = manager.blockTiers.keys.length := by
  have hdisjoint : Disjoint (hot manager.hotTier).keys (cold manager.coldTier).keys := by
    rw [Finset.disjoint_left]
    intro blockId hinHot hinCold
    rw [Finmap.mem_keys] at hinHot hinCold
    have htier := (hplace blockId).1.mp hinHot
    rw [(hplace blockId).2.mp hinCold] at htier
    cases htier
  have hkeys : (hot manager.hotTier).keys ∪ (cold manager.coldTier).keys
      = manager.blockTiers.keys.toFinset := by
    ext blockId
    rw [Finset.mem_union, Finmap.mem_keys, Finmap.mem_keys, (hplace blockId).1, (hplace blockId).2,
      List.mem_toFinset, ← AList.mem_keys, ← AList.lookup_isSome]
    rcases manager.blockTiers.lookup blockId with _ | tier
    · simp
    · cases tier with
      | hotMemory => simp
      | coldDisk => simp
  calc manager.stats.hotBlocks + manager.stats.coldBlocks
      = (hot manager.hotTier).keys.card + (cold manager.coldTier).keys.card := by
        rw [← hhot.totalBlocks, ← hcold.totalBlocks]
        rfl
    _ = ((hot manager.hotTier).keys ∪ (cold manager.coldTier).keys).card :=
        (Finset.card_union_of_disjoint hdisjoint).symm
    _ = manager.blockTiers.keys.length := by
        rw [hkeys, List.toFinset_card_of_nodup manager.blockTiers.keys_nodup]

theorem oneTier_iff_inPlace (hhot : Infallible hot span) (hcold : Infallible cold span)
    (hqueued : Queued hot manager) :
    OneTier hot cold manager ↔ ∀ blockId, InPlace hot cold manager blockId := by
  constructor
  · intro h
    exact h.inPlace
  · intro hplace
    exact ⟨hplace, hqueued.mem_iff, stats_of_inPlace hhot hcold hplace⟩

/-- **One tier per block**, in a run that writes no block while it is the one to be spilled, and only
in such a run. -/
theorem oneTier_run_iff (hhot : Infallible hot span) (hcold : Infallible cold span)
    {hotTier : η} {coldTier : γ} (hhotEmpty : hot hotTier = ∅) (hcoldEmpty : cold coldTier = ∅)
    {maxHotBlocks : Nat} (hmax : 1 ≤ maxHotBlocks) (calls : List Call) :
    (∀ n, OneTier hot cold ((new hotTier coldTier maxHotBlocks).run (calls.take n)))
      ↔ Runs.Along (fun manager call after => (manager.step call).1 = after)
        (fun manager call => ¬ manager.OverwritesVictim call) (new hotTier coldTier maxHotBlocks)
        calls := by
  let Inv (manager : TieredStorageManager η γ) : Prop :=
    (∀ blockId, InPlace hot cold manager blockId)
      ∧ 1 ≤ manager.maxHotBlocks ∧ ∃ map, RefinesOn hot cold (fun _ => True) map manager
  have hiff : ∀ manager call, Inv manager →
      (OneTier hot cold (manager.step call).1 ↔ ¬ manager.OverwritesVictim call) := by
    rintro manager call ⟨hplace, hroom, map, hrefines⟩
    have hqueued := queued_step hhot.toAtomic hcold.toAtomic hrefines.queued call
    rw [oneTier_iff_inPlace hhot hcold hqueued]
    exact inPlace_step_iff hhot hcold hrefines.queued hroom hplace call
  have hnext : ∀ manager call after, Inv manager → ¬ manager.OverwritesVictim call →
      (manager.step call).1 = after → Inv after := by
    rintro manager call after hinv hsafe rfl
    have hafter := (hiff manager call hinv).mpr hsafe
    obtain ⟨-, hroom, map, hrefines⟩ := hinv
    obtain ⟨-, hrefinesNext, hkept⟩ := hrefines.step hhot hcold hroom call
    exact ⟨hafter.inPlace, hkept ▸ hroom, _, hrefinesNext⟩
  have hplaceNew : ∀ blockId, InPlace hot cold (new hotTier coldTier maxHotBlocks) blockId := by
    intro blockId
    unfold InPlace new
    rw [hhotEmpty, hcoldEmpty]
    simp [Finmap.notMem_empty]
  have hnew : RefinesOn hot cold (fun _ => True) ∅ (new hotTier coldTier maxHotBlocks) :=
    refines_new hotTier coldTier maxHotBlocks
  have hone : OneTier hot cold (new hotTier coldTier maxHotBlocks) :=
    (oneTier_iff_inPlace hhot hcold hnew.queued).mpr hplaceNew
  rw [← Runs.along_iff_of_invariant Inv hiff hnext ⟨hplaceNew, hmax, ∅, hnew⟩ calls,
    Runs.along_next_iff hone calls]
  rfl

/-- Two blocks in a hot tier of one, without an overwrite. -/
theorem oneTier_of_two_blocks :
    OneTier Unlimited.contents Unlimited.contents
      ((new (Unlimited.new : Unlimited Platform.reference)
        (Unlimited.new : Unlimited Platform.reference) 1).run
        [.writeBlock 1 [1], .writeBlock 2 [2], .readBlock 1 true]) := by
  have hsafe : Runs.Along (fun manager call after => (manager.step call).1 = after)
      (fun manager call => ¬ manager.OverwritesVictim call)
      (new (Unlimited.new : Unlimited Platform.reference)
        (Unlimited.new : Unlimited Platform.reference) 1)
      [.writeBlock 1 [1], .writeBlock 2 [2], .readBlock 1 true] := by
    simp only [Runs.Along, OverwritesVictim, forall_eq']
    decide
  exact (oneTier_run_iff Unlimited.infallible Unlimited.infallible rfl rfl (le_refl 1) _).mpr hsafe 3

/-- A hot tier of one, and its block is written twice: the first content stays in the cold tier. -/
theorem overwrite_leaves_cold_copy :
    let manager := (new (Unlimited.new : Unlimited Platform.reference)
      (Unlimited.new : Unlimited Platform.reference) 1).run [.writeBlock 1 [1], .writeBlock 1 [2]]
    manager.blockTiers.lookup 1 = some .hotMemory
      ∧ IStorageBackend.hasBlock manager.coldTier 1 = true
      ∧ manager.stats.hotBlocks + manager.stats.coldBlocks = 2
      ∧ manager.blockTiers.keys.length = 1
      ∧ ¬ OneTier Unlimited.contents Unlimited.contents manager := by
  refine ⟨by decide, by decide, by decide, by decide, ?_⟩
  intro hone
  have hcount := hone.stats
  revert hcount
  decide

end TieredStorageManager

end NebulaFS
