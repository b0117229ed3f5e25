import NebulaFS.Lib.Runs
import NebulaFS.Proof.TieredFailures

/-!
# The tiered store over backends that never fail

Seen from outside the store is a map from blocks to contents (`answers_eq_mapAnswers`): where a block
lies, and what else is still in a tier, cannot be told from the answers. A write passes through a state
in which its own block is held nowhere, so the invariant `RefinesOn` is stated for a set of blocks.
-/

namespace NebulaFS

/-! ### The map -/

section

variable (span : Bytes → UInt64 → UInt64 → SpanResult)

/-- The calls of the store on a map. -/
def mapStep (map : BlockMap) : TieredStorageManager.Call → BlockMap × TieredStorageManager.Answer
  | .writeBlock blockId data => (map.insert blockId data, .status .success)
  | .readBlock blockId _ => (map, .block (readAnswer (map.lookup blockId)))
  | .readSpan blockId offset length =>
      (map, .span (match map.lookup blockId with
        | none => .error (.returned .notFound)
        | some data => span data offset length))
  | .deleteBlock blockId =>
      (map.erase blockId, .status (if blockId ∈ map then .success else .notFound))
  | .hasBlock blockId => (map, .present (decide (blockId ∈ map)))

def mapAnswers (map : BlockMap) :
    List TieredStorageManager.Call → List TieredStorageManager.Answer
  | [] => []
  | call :: calls => (mapStep span map call).2 :: mapAnswers (mapStep span map call).1 calls

end

namespace TieredStorageManager

variable {η γ : Type} {hot : η → BlockMap} {cold : γ → BlockMap} {map : BlockMap}
  {manager after : TieredStorageManager η γ}

/-- On the blocks of `ids` the store holds what the map holds, and it names no other ones. -/
structure RefinesOn (hot : η → BlockMap) (cold : γ → BlockMap) (ids : UInt64 → Prop)
    (map : BlockMap) (manager : TieredStorageManager η γ) : Prop where
  queued : Queued hot manager
  bounded : manager.hotLruQueue.length ≤ manager.maxHotBlocks
  held_eq : ∀ blockId, ids blockId → manager.held hot cold blockId = map.lookup blockId
  named : ∀ blockId, ids blockId →
    (manager.blockTiers.lookup blockId = none ↔ map.lookup blockId = none)

theorem RefinesOn.alike {ids : UInt64 → Prop} (h : RefinesOn hot cold ids map manager)
    (halike : Alike hot cold manager after) : RefinesOn hot cold ids map after where
  queued := halike.queued h.queued
  bounded := by
    rw [halike.queue, halike.maxHotBlocks]
    exact h.bounded
  held_eq := by
    intro blockId hid
    rw [halike.held_eq, h.held_eq blockId hid]
  named := by
    intro blockId hid
    rw [halike.blockTiers, h.named blockId hid]

theorem RefinesOn.spilled {ids : UInt64 → Prop} (h : RefinesOn hot cold ids map manager)
    (hspilled : Spilled hot cold [] manager after)
    (hbounded : after.hotLruQueue.length ≤ after.maxHotBlocks) :
    RefinesOn hot cold ids map after where
  queued := hspilled.queued
  bounded := hbounded
  held_eq := by
    intro blockId hid
    rw [hspilled.held_eq blockId List.not_mem_nil, h.held_eq blockId hid]
  named := by
    intro blockId hid
    rw [hspilled.named blockId List.not_mem_nil, h.named blockId hid]

theorem RefinesOn.placed {blockId : UInt64} {data : Bytes}
    (h : RefinesOn hot cold (· ≠ blockId) map manager)
    (hroom : manager.hotLruQueue.length < manager.maxHotBlocks)
    (hplaced : Placed hot cold blockId data manager after) :
    RefinesOn hot cold (fun _ => True) (map.insert blockId data) after where
  queued := hplaced.queued h.queued
  bounded := by
    have herase := List.length_erase_le (a := blockId) (l := manager.hotLruQueue)
    rw [hplaced.queue, hplaced.maxHotBlocks, List.length_cons]
    omega
  held_eq := by
    intro other _
    by_cases heq : other = blockId
    · rw [heq, hplaced.held_self, Finmap.lookup_insert]
    · rw [hplaced.held_of_ne heq, Finmap.lookup_insert_of_ne _ heq, h.held_eq other heq]
  named := by
    intro other _
    rw [hplaced.blockTiers]
    by_cases heq : other = blockId
    · rw [heq, AList.lookup_insert, Finmap.lookup_insert]
      simp
    · rw [AList.lookup_insert_ne heq, Finmap.lookup_insert_of_ne _ heq, h.named other heq]

theorem RefinesOn.touched {blockId : UInt64} (h : RefinesOn hot cold (fun _ => True) map manager)
    (htouched : Touched hot cold blockId manager after) :
    RefinesOn hot cold (fun _ => True) map after where
  queued := htouched.queued h.queued
  bounded := by
    rw [htouched.maxHotBlocks]
    rcases htouched.queue with hqueue | ⟨htier, hqueue⟩
    · rw [hqueue]
      exact h.bounded
    · have hmem := (h.queued.mem_iff blockId).mpr htier
      rw [hqueue, ← (List.perm_cons_erase hmem).length_eq]
      exact h.bounded
  held_eq := by
    intro other hid
    rw [htouched.held_eq, h.held_eq other hid]
  named := by
    intro other hid
    rw [htouched.blockTiers, h.named other hid]

theorem RefinesOn.deleted {blockId : UInt64} (h : RefinesOn hot cold (fun _ => True) map manager)
    (hdeleted : Deleted hot cold blockId manager after) :
    RefinesOn hot cold (fun _ => True) (map.erase blockId) after where
  queued := hdeleted.queued h.queued
  bounded := by
    have herase := List.length_erase_le (a := blockId) (l := manager.hotLruQueue)
    have hbounded := h.bounded
    rw [hdeleted.queue, hdeleted.maxHotBlocks]
    omega
  held_eq := by
    intro other hid
    by_cases heq : other = blockId
    · have hnone : after.blockTiers.lookup blockId = none := by
        rw [hdeleted.blockTiers, AList.lookup_erase]
      rw [heq, Finmap.lookup_erase, held_of_none hnone]
    · rw [hdeleted.held_of_ne heq, Finmap.lookup_erase_ne heq, h.held_eq other hid]
  named := by
    intro other hid
    rw [hdeleted.blockTiers]
    by_cases heq : other = blockId
    · rw [heq, AList.lookup_erase, Finmap.lookup_erase]
      simp
    · rw [AList.lookup_erase_ne heq, Finmap.lookup_erase_ne heq, h.named other hid]

/-! ### Making room -/

variable [IStorageBackend η] [IStorageBackend γ] {span : Bytes → UInt64 → UInt64 → SpanResult}

theorem demoteBlock_of_stored (hhot : Infallible hot span) (hcold : Infallible cold span)
    {blockId : UInt64} (hmem : blockId ∈ hot manager.hotTier) :
    (manager.demoteBlock blockId).2 = .success := by
  obtain ⟨data, hdata⟩ := Finmap.mem_iff.mp hmem
  have hread := hhot.read hdata
  have hwrite := hcold.write manager.coldTier blockId data
  unfold demoteBlock
  rcases hresult : IStorageBackend.readBlock manager.hotTier blockId with ⟨state, result⟩
  rw [hresult] at hread
  cases hread
  dsimp only
  rcases hstatus : IStorageBackend.writeBlock manager.coldTier blockId data with ⟨next, status⟩
  rw [hstatus] at hwrite
  cases hwrite
  rfl

/-- A full store has a block to spill, and moves it. -/
theorem makeRoom_of_full (hhot : Infallible hot span) (hcold : Infallible cold span)
    (hqueued : Queued hot manager) {victimId : UInt64}
    (hlast : manager.hotLruQueue.getLast? = some victimId)
    (hfull : manager.maxHotBlocks ≤ manager.hotLruQueue.length) :
    manager.makeRoom = (manager.demoteBlock victimId).1
      ∧ (manager.demoteBlock victimId).2 = .success := by
  have hmem : victimId ∈ manager.hotLruQueue := List.mem_of_getLast? hlast
  have hmoved : (manager.demoteBlock victimId).2 = .success :=
    demoteBlock_of_stored hhot hcold (hqueued.stored victimId ((hqueued.mem_iff victimId).mp hmem))
  refine ⟨?_, hmoved⟩
  obtain ⟨fuel, hfuel⟩ := Nat.exists_eq_add_of_lt (List.length_pos_of_mem hmem)
  rw [makeRoom, if_pos hfull, spillHotToCold, hfuel, Nat.zero_add,
    spillLoop_of_success hlast hmoved, spillLoop_zero]

omit [IStorageBackend η] [IStorageBackend γ] in
theorem getLast?_of_full (hmax : 1 ≤ manager.maxHotBlocks)
    (hfull : manager.maxHotBlocks ≤ manager.hotLruQueue.length) :
    ∃ victimId, manager.hotLruQueue.getLast? = some victimId := by
  apply Option.isSome_iff_exists.mp
  rw [List.getLast?_isSome]
  apply List.ne_nil_of_length_pos
  omega

theorem forgottenVictims_eq_nil (hhot : Infallible hot span) (hcold : Infallible cold span)
    (hqueued : Queued hot manager) : manager.forgottenVictims = [] := by
  unfold forgottenVictims
  split
  · rcases hlast : manager.hotLruQueue.getLast? with _ | victimId
    · rw [List.getLast?_eq_none_iff.mp hlast]
      rfl
    · have hmem : victimId ∈ manager.hotLruQueue := List.mem_of_getLast? hlast
      have hstored := hqueued.stored victimId ((hqueued.mem_iff victimId).mp hmem)
      rw [reverse_of_getLast? hlast]
      exact refused_of_success (demoteBlock_of_stored hhot hcold hstored) hhot.toAtomic _
  · rfl

theorem RefinesOn.makeRoom {ids : UInt64 → Prop} (hhot : Infallible hot span)
    (hcold : Infallible cold span) (hmax : 1 ≤ manager.maxHotBlocks)
    (h : RefinesOn hot cold ids map manager) :
    RefinesOn hot cold ids map manager.makeRoom
      ∧ manager.makeRoom.hotLruQueue.length < manager.makeRoom.maxHotBlocks := by
  have hspilled := spilled_makeRoom hhot.toAtomic hcold.toAtomic h.queued
  rw [forgottenVictims_eq_nil hhot hcold h.queued] at hspilled
  have hroom : manager.makeRoom.hotLruQueue.length < manager.makeRoom.maxHotBlocks := by
    rw [hspilled.maxHotBlocks]
    by_cases hfull : manager.maxHotBlocks ≤ manager.hotLruQueue.length
    · obtain ⟨victimId, hlast⟩ := getLast?_of_full hmax hfull
      obtain ⟨hroom, hmoved⟩ := makeRoom_of_full hhot hcold h.queued hlast hfull
      rw [hroom]
      rcases demoteBlock_cases hhot.toAtomic hcold.toAtomic manager victimId with
        ⟨hfailed, -⟩ | ⟨-, data, -, hdemoted⟩
      · exact absurd hmoved hfailed
      · have hbounded := h.bounded
        rw [hdemoted.queue, List.length_erase_of_mem (List.mem_of_getLast? hlast)]
        omega
    · rw [TieredStorageManager.makeRoom, if_neg hfull]
      omega
  exact ⟨h.spilled hspilled (le_of_lt hroom), hroom⟩

/-! ### The store refines the map -/

theorem RefinesOn.promoteBlock (hhot : Infallible hot span) (hcold : Infallible cold span)
    (hmax : 1 ≤ manager.maxHotBlocks) (h : RefinesOn hot cold (fun _ => True) map manager)
    {blockId : UInt64} {data : Bytes} (htier : manager.blockTiers.lookup blockId = some .coldDisk)
    (hok : (IStorageBackend.readBlock manager.coldTier blockId).2 = .ok data) :
    RefinesOn hot cold (fun _ => True) map (manager.promoteBlock blockId).1
      ∧ (manager.promoteBlock blockId).1.maxHotBlocks = manager.maxHotBlocks := by
  have hread : Alike hot cold manager (manager.afterColdRead blockId) :=
    alike_afterColdRead hcold.toAtomic manager blockId
  have hmaxRead : 1 ≤ (manager.afterColdRead blockId).maxHotBlocks := hmax
  obtain ⟨hroom, hlt⟩ := (h.alike hread).makeRoom hhot hcold hmaxRead
  have hmaxRoom : (manager.afterColdRead blockId).makeRoom.maxHotBlocks = manager.maxHotBlocks :=
    (spilled_makeRoom hhot.toAtomic hcold.toAtomic (hread.queued h.queued)).maxHotBlocks
  rcases promoteBlock_cases hhot.toAtomic hcold.toAtomic manager blockId with
    ⟨⟨e, herror⟩, -⟩ | ⟨found, hfound, halike | ⟨hplaced, -⟩⟩
  · cases herror.symm.trans hok
  · exact ⟨hroom.alike halike, halike.maxHotBlocks.trans hmaxRoom⟩
  · have hlookup : map.lookup blockId = some found := by
      rw [← h.held_eq blockId trivial, held_of_cold htier]
      exact hcold.read_ok hfound
    have hinsert : map.insert blockId found = map := by
      apply Finmap.ext_lookup
      intro other
      by_cases heq : other = blockId
      · rw [heq, Finmap.lookup_insert, hlookup]
      · rw [Finmap.lookup_insert_of_ne _ heq]
    have hothers : RefinesOn hot cold (· ≠ blockId) map
        (manager.afterColdRead blockId).makeRoom :=
      ⟨hroom.queued, hroom.bounded, fun other _ => hroom.held_eq other trivial,
        fun other _ => hroom.named other trivial⟩
    have hafter := hothers.placed hlt hplaced
    rw [hinsert] at hafter
    exact ⟨hafter, hplaced.maxHotBlocks.trans hmaxRoom⟩

theorem writeBlock_status (hhot : Infallible hot span) (manager : TieredStorageManager η γ)
    (blockId : UInt64) (data : Bytes) : (manager.writeBlock blockId data).2 = .success := by
  have hwrite := hhot.write (manager.dropCold blockId).makeRoom.hotTier blockId data
  unfold writeBlock
  generalize (manager.dropCold blockId).makeRoom = room at hwrite
  dsimp only
  rcases hresult : IStorageBackend.writeBlock room.hotTier blockId data with ⟨next, status⟩
  rw [hresult] at hwrite
  cases hwrite
  rfl

theorem refines_writeBlock (hhot : Infallible hot span) (hcold : Infallible cold span)
    (hmax : 1 ≤ manager.maxHotBlocks) (h : RefinesOn hot cold (fun _ => True) map manager)
    (blockId : UInt64) (data : Bytes) :
    (manager.writeBlock blockId data).2 = .success
      ∧ RefinesOn hot cold (fun _ => True) (map.insert blockId data)
        (manager.writeBlock blockId data).1
      ∧ (manager.writeBlock blockId data).1.maxHotBlocks = manager.maxHotBlocks := by
  have hdropped : RefinesOn hot cold (· ≠ blockId) map (manager.dropCold blockId) := by
    refine ⟨queued_dropCold h.queued blockId, ?_, ?_, ?_⟩
    · rw [hotLruQueue_dropCold, maxHotBlocks_dropCold]
      exact h.bounded
    · intro other hne
      rw [held_dropCold_of_ne hcold.toAtomic manager hne, h.held_eq other trivial]
    · intro other _
      rw [blockTiers_dropCold, h.named other trivial]
  obtain ⟨hroom, hlt⟩ := hdropped.makeRoom hhot hcold (by rwa [maxHotBlocks_dropCold])
  have hmaxRoom := (spilled_makeRoom hhot.toAtomic hcold.toAtomic hdropped.queued).maxHotBlocks
  rw [maxHotBlocks_dropCold] at hmaxRoom
  rcases writeBlock_cases hhot.toAtomic cold manager blockId data with
    ⟨hfailed, -⟩ | ⟨hok, hplaced, -⟩
  · exact absurd (writeBlock_status hhot manager blockId data) hfailed
  · exact ⟨hok, hroom.placed hlt hplaced, hplaced.maxHotBlocks.trans hmaxRoom⟩

omit [IStorageBackend η] [IStorageBackend γ] in
/-- A block that the map holds lies in the tier that the store names. -/
theorem RefinesOn.stored (h : RefinesOn hot cold (fun _ => True) map manager) {blockId : UInt64}
    {tier : TierLevel} (htier : manager.blockTiers.lookup blockId = some tier) :
    ∃ data, map.lookup blockId = some data ∧ manager.held hot cold blockId = some data := by
  have hnamed := h.named blockId trivial
  rw [htier] at hnamed
  rcases hlookup : map.lookup blockId with _ | data
  · cases hnamed.mpr hlookup
  · refine ⟨data, rfl, ?_⟩
    rw [h.held_eq blockId trivial, hlookup]

theorem RefinesOn.readBlock_answer (hhot : Infallible hot span) (hcold : Infallible cold span)
    (h : RefinesOn hot cold (fun _ => True) map manager) (blockId : UInt64) (promoteToHot : Bool) :
    (manager.readBlock blockId promoteToHot).2 = readAnswer (map.lookup blockId) := by
  unfold readBlock
  rcases htier : manager.blockTiers.lookup blockId with _ | tier
  · rw [(h.named blockId trivial).mp htier]
    rfl
  · obtain ⟨data, hlookup, hheld⟩ := h.stored htier
    rw [hlookup]
    cases tier with
    | hotMemory =>
        rw [held_of_hot htier] at hheld
        have hread := hhot.read hheld
        rcases hresult : IStorageBackend.readBlock manager.hotTier blockId with ⟨state, result⟩
        rw [hresult] at hread
        cases hread
        rfl
    | coldDisk =>
        rw [held_of_cold htier] at hheld
        have hread := hcold.read hheld
        rcases hresult : IStorageBackend.readBlock manager.coldTier blockId with ⟨state, result⟩
        rw [hresult] at hread
        cases hread
        rfl

theorem RefinesOn.readSpan_answer (hhot : Infallible hot span) (hcold : Infallible cold span)
    (h : RefinesOn hot cold (fun _ => True) map manager) (blockId offset length : UInt64) :
    Answer.span (manager.readSpan blockId offset length).2
      = (mapStep span map (.readSpan blockId offset length)).2 := by
  simp only [mapStep]
  unfold readSpan
  rcases htier : manager.blockTiers.lookup blockId with _ | tier
  · rw [(h.named blockId trivial).mp htier]
  · obtain ⟨data, hlookup, hheld⟩ := h.stored htier
    rw [hlookup]
    cases tier with
    | hotMemory =>
        rw [held_of_hot htier] at hheld
        exact congrArg Answer.span (hhot.readSpan hheld offset length)
    | coldDisk =>
        rw [held_of_cold htier] at hheld
        exact congrArg Answer.span (hcold.readSpan hheld offset length)

theorem RefinesOn.deleteBlock_answer (hhot : Infallible hot span) (hcold : Infallible cold span)
    (h : RefinesOn hot cold (fun _ => True) map manager) (blockId : UInt64) :
    (manager.deleteBlock blockId).2 = if blockId ∈ map then .success else .notFound := by
  unfold deleteBlock
  rcases htier : manager.blockTiers.lookup blockId with _ | tier
  · rw [if_neg]
    rw [← Finmap.lookup_eq_none]
    exact (h.named blockId trivial).mp htier
  · obtain ⟨data, hlookup, hheld⟩ := h.stored htier
    rw [if_pos (Finmap.mem_of_lookup_eq_some hlookup)]
    cases tier with
    | hotMemory =>
        rw [held_of_hot htier] at hheld
        exact hhot.delete (Finmap.mem_of_lookup_eq_some hheld)
    | coldDisk =>
        rw [held_of_cold htier] at hheld
        exact hcold.delete (Finmap.mem_of_lookup_eq_some hheld)

theorem RefinesOn.readBlock (hhot : Infallible hot span) (hcold : Infallible cold span)
    (hmax : 1 ≤ manager.maxHotBlocks) (h : RefinesOn hot cold (fun _ => True) map manager)
    (blockId : UInt64) (promoteToHot : Bool) :
    RefinesOn hot cold (fun _ => True) map (manager.readBlock blockId promoteToHot).1
      ∧ (manager.readBlock blockId promoteToHot).1.maxHotBlocks = manager.maxHotBlocks := by
  rcases readBlock_cases hhot.toAtomic hcold.toAtomic manager blockId promoteToHot with
    ⟨htier, -, data, hok, hafter⟩ | ⟨-, htouched⟩
  · have hread : Alike hot cold manager (manager.afterColdRead blockId) :=
      alike_afterColdRead hcold.toAtomic manager blockId
    have hlookup : (cold (manager.afterColdRead blockId).coldTier).lookup blockId = some data := by
      rw [hread.cold]
      exact hcold.read_ok hok
    have hmaxRead : 1 ≤ (manager.afterColdRead blockId).maxHotBlocks := hmax
    have htierRead : (manager.afterColdRead blockId).blockTiers.lookup blockId
        = some .coldDisk := htier
    rw [hafter]
    exact (h.alike hread).promoteBlock hhot hcold hmaxRead htierRead (hcold.read hlookup)
  · exact ⟨h.touched htouched, htouched.maxHotBlocks⟩

theorem RefinesOn.step (hhot : Infallible hot span) (hcold : Infallible cold span)
    (hmax : 1 ≤ manager.maxHotBlocks) (h : RefinesOn hot cold (fun _ => True) map manager)
    (call : Call) :
    (manager.step call).2 = (mapStep span map call).2
      ∧ RefinesOn hot cold (fun _ => True) (mapStep span map call).1 (manager.step call).1
      ∧ (manager.step call).1.maxHotBlocks = manager.maxHotBlocks := by
  cases call with
  | writeBlock blockId data =>
      obtain ⟨hok, hafter, hkept⟩ := refines_writeBlock hhot hcold hmax h blockId data
      exact ⟨congrArg Answer.status hok, hafter, hkept⟩
  | readBlock blockId promoteToHot =>
      have hanswer := h.readBlock_answer hhot hcold blockId promoteToHot
      exact ⟨congrArg Answer.block hanswer, h.readBlock hhot hcold hmax blockId promoteToHot⟩
  | readSpan blockId offset length =>
      have htouched := touched_readSpan hhot.toAtomic hcold.toAtomic manager blockId offset length
      exact ⟨h.readSpan_answer hhot hcold blockId offset length, h.touched htouched,
        htouched.maxHotBlocks⟩
  | deleteBlock blockId =>
      refine ⟨congrArg Answer.status (h.deleteBlock_answer hhot hcold blockId), ?_⟩
      simp only [TieredStorageManager.step, mapStep]
      rcases deleteBlock_cases hhot.toAtomic hcold.toAtomic h.queued blockId with
        ⟨htier, hsame⟩ | ⟨-, hdeleted⟩
      · have herase : map.erase blockId = map := by
          apply Finmap.ext_lookup
          intro other
          by_cases heq : other = blockId
          · rw [heq, Finmap.lookup_erase, (h.named blockId trivial).mp htier]
          · rw [Finmap.lookup_erase_ne heq]
        rw [hsame, herase]
        exact ⟨h, rfl⟩
      · exact ⟨h.deleted hdeleted, hdeleted.maxHotBlocks⟩
  | hasBlock blockId =>
      refine ⟨congrArg Answer.present ?_, h, rfl⟩
      rw [hasBlock, Bool.eq_iff_iff, Option.isSome_iff_ne_none, decide_eq_true_iff, ne_eq,
        h.named blockId trivial, Finmap.lookup_eq_none, not_not]

omit [IStorageBackend η] [IStorageBackend γ] in
theorem refines_new (hotTier : η) (coldTier : γ) (maxHotBlocks : Nat) :
    RefinesOn hot cold (fun _ => True) ∅ (new hotTier coldTier maxHotBlocks) where
  queued := queued_of_empty rfl rfl
  bounded := Nat.zero_le _
  held_eq := fun _ _ => rfl
  named := fun _ _ => ⟨fun _ => rfl, fun _ => rfl⟩

theorem RefinesOn.answers_eq (hhot : Infallible hot span) (hcold : Infallible cold span)
    (hmax : 1 ≤ manager.maxHotBlocks) (h : RefinesOn hot cold (fun _ => True) map manager)
    (calls : List Call) : manager.answers calls = mapAnswers span map calls := by
  induction calls generalizing manager map with
  | nil => rfl
  | cons call calls ih =>
      obtain ⟨hanswer, hafter, hkept⟩ := h.step hhot hcold hmax call
      rw [answers, mapAnswers, hanswer, ih (by rwa [hkept]) hafter]

theorem RefinesOn.run (hhot : Infallible hot span) (hcold : Infallible cold span)
    (hmax : 1 ≤ manager.maxHotBlocks) (h : RefinesOn hot cold (fun _ => True) map manager)
    (calls : List Call) :
    ∃ map, RefinesOn hot cold (fun _ => True) map (manager.run calls)
      ∧ (manager.run calls).maxHotBlocks = manager.maxHotBlocks := by
  let Inv (state : TieredStorageManager η γ) : Prop :=
    ∃ map, RefinesOn hot cold (fun _ => True) map state
      ∧ state.maxHotBlocks = manager.maxHotBlocks
  have hstep : ∀ (state : TieredStorageManager η γ) (call : Call), Inv state →
      Inv (state.step call).1 := by
    rintro state call ⟨map, hstate, hkept⟩
    obtain ⟨-, hafter, hsame⟩ := hstate.step hhot hcold (hkept ▸ hmax) call
    exact ⟨_, hafter, hsame.trans hkept⟩
  exact Runs.foldl_of_invariant hstep ⟨map, h, rfl⟩ calls

/-- **The tiered store is a map.** -/
theorem answers_eq_mapAnswers (hhot : Infallible hot span) (hcold : Infallible cold span)
    (hotTier : η) (coldTier : γ) {maxHotBlocks : Nat} (hmax : 1 ≤ maxHotBlocks)
    (calls : List Call) :
    (new hotTier coldTier maxHotBlocks).answers calls = mapAnswers span ∅ calls
      ∧ ∀ n, ((new hotTier coldTier maxHotBlocks).run (calls.take n)).hotLruQueue.length
          ≤ maxHotBlocks
        ∧ ((new hotTier coldTier maxHotBlocks).run (calls.take n)).hotLruQueue.Nodup := by
  have hnew : RefinesOn hot cold (fun _ => True) ∅ (new hotTier coldTier maxHotBlocks) :=
    refines_new hotTier coldTier maxHotBlocks
  refine ⟨hnew.answers_eq hhot hcold hmax calls, ?_⟩
  intro n
  obtain ⟨map, hafter, hkept⟩ := hnew.run hhot hcold hmax (calls.take n)
  have hbounded := hafter.bounded
  rw [hkept] at hbounded
  exact ⟨hbounded, hafter.queued.nodup⟩

/-- Two blocks in a hot tier of one: the first is spilled, overwritten and read back. -/
theorem answers_of_two_blocks :
    (new (Unlimited.new : Unlimited Platform.reference)
        (Unlimited.new : Unlimited Platform.reference) 1).answers
        [.writeBlock 1 [1], .writeBlock 2 [2], .writeBlock 1 [3], .readBlock 2 true]
      = mapAnswers MemoryStorageBackend.spanOf ∅
        [.writeBlock 1 [1], .writeBlock 2 [2], .writeBlock 1 [3], .readBlock 2 true] :=
  (answers_eq_mapAnswers Unlimited.infallible Unlimited.infallible Unlimited.new Unlimited.new
    (le_refl 1) _).1

end TieredStorageManager

end NebulaFS
