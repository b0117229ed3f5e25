import Mathlib.Data.Finmap
import NebulaFS.StorageBackend

/-!
# What a backend promises

A backend is seen through its contents, a finite map. `Atomic` is what every backend keeps to: a call
that reports success acts like the same call on the map, and a call that reports an error leaves the
contents as they were. Which calls fail is left open, so that a pattern of failures is a choice of
backend. An `Infallible` backend never fails. The memory backend is atomic (`atomic_contents`), and
with the largest capacity a `size_t` can hold it is infallible (`Unlimited.infallible`).
-/

namespace NebulaFS

open Cursor

abbrev BlockMap := Finmap fun _ : UInt64 => Bytes

/-- The answer to a read of a block that a map holds or does not hold. -/
def readAnswer : Option Bytes → StorageResult Bytes
  | some data => .ok data
  | none => .error .notFound

theorem readAnswer_eq_ok_iff {content : Option Bytes} {data : Bytes} :
    readAnswer content = .ok data ↔ content = some data := by
  cases content with
  | none => simp [readAnswer]
  | some found => simp [readAnswer]

theorem readAnswer_injective : Function.Injective readAnswer := by
  intro content other h
  cases content with
  | none =>
      cases other with
      | none => rfl
      | some found => cases h
  | some found => exact (readAnswer_eq_ok_iff.mp h.symm).symm

section

variable {σ : Type} [IStorageBackend σ]

structure Atomic (contents : σ → BlockMap) : Prop where
  write_success : ∀ {state : σ} {blockId : UInt64} {data : Bytes},
    (IStorageBackend.writeBlock state blockId data).2 = .success →
      contents (IStorageBackend.writeBlock state blockId data).1
        = (contents state).insert blockId data
  write_failure : ∀ {state : σ} {blockId : UInt64} {data : Bytes},
    (IStorageBackend.writeBlock state blockId data).2 ≠ .success →
      contents (IStorageBackend.writeBlock state blockId data).1 = contents state
  delete_success : ∀ {state : σ} {blockId : UInt64},
    (IStorageBackend.deleteBlock state blockId).2 = .success →
      contents (IStorageBackend.deleteBlock state blockId).1 = (contents state).erase blockId
  delete_failure : ∀ {state : σ} {blockId : UInt64},
    (IStorageBackend.deleteBlock state blockId).2 ≠ .success →
      contents (IStorageBackend.deleteBlock state blockId).1 = contents state
  read_contents : ∀ (state : σ) (blockId : UInt64),
    contents (IStorageBackend.readBlock state blockId).1 = contents state
  read_ok : ∀ {state : σ} {blockId : UInt64} {data : Bytes},
    (IStorageBackend.readBlock state blockId).2 = .ok data →
      (contents state).lookup blockId = some data
  read_error : ∀ {state : σ} {blockId : UInt64} {e : StorageError},
    (IStorageBackend.readBlock state blockId).2 = .error e → e ≠ .success
  span_contents : ∀ (state : σ) (blockId offset length : UInt64),
    contents (IStorageBackend.readSpan state blockId offset length).1 = contents state
  sync_contents : ∀ state : σ, contents (IStorageBackend.sync state).1 = contents state
  has_iff : ∀ (state : σ) (blockId : UInt64),
    IStorageBackend.hasBlock state blockId = true ↔ blockId ∈ contents state

/-- `span` is what a span read makes of the content of a block, also when it does not lie inside. -/
structure Infallible (contents : σ → BlockMap) (span : Bytes → UInt64 → UInt64 → SpanResult) :
    Prop extends Atomic contents where
  write : ∀ (state : σ) (blockId : UInt64) (data : Bytes),
    (IStorageBackend.writeBlock state blockId data).2 = .success
  delete : ∀ {state : σ} {blockId : UInt64}, blockId ∈ contents state →
    (IStorageBackend.deleteBlock state blockId).2 = .success
  read : ∀ {state : σ} {blockId : UInt64} {data : Bytes},
    (contents state).lookup blockId = some data →
      (IStorageBackend.readBlock state blockId).2 = .ok data
  readSpan : ∀ {state : σ} {blockId : UInt64} {data : Bytes},
    (contents state).lookup blockId = some data → ∀ offset length : UInt64,
      (IStorageBackend.readSpan state blockId offset length).2 = span data offset length
  span_inside : ∀ {data : Bytes} {offset length : UInt64},
    offset.toNat + length.toNat ≤ data.length →
      span data offset length = .ok (slice data offset.toNat length.toNat)
  totalBlocks : ∀ state : σ, (IStorageBackend.stats state).totalBlocks = (contents state).keys.card

/-- A backend that answers every read. -/
def Healthy (contents : σ → BlockMap) : Prop :=
  ∀ (state : σ) (blockId : UInt64),
    (IStorageBackend.readBlock state blockId).2 = readAnswer ((contents state).lookup blockId)

variable {contents : σ → BlockMap}

theorem Atomic.lookup_delete_of_ne (h : Atomic contents) (state : σ) {blockId other : UInt64}
    (hne : other ≠ blockId) :
    (contents (IStorageBackend.deleteBlock state blockId).1).lookup other
      = (contents state).lookup other := by
  by_cases hstatus : (IStorageBackend.deleteBlock state blockId).2 = .success
  · rw [h.delete_success hstatus, Finmap.lookup_erase_ne hne]
  · rw [h.delete_failure hstatus]

theorem Infallible.not_mem_delete {span : Bytes → UInt64 → UInt64 → SpanResult}
    (h : Infallible contents span) (state : σ) (blockId : UInt64) :
    blockId ∉ contents (IStorageBackend.deleteBlock state blockId).1 := by
  by_cases hstatus : (IStorageBackend.deleteBlock state blockId).2 = .success
  · rw [h.delete_success hstatus]
    simp
  · rw [h.delete_failure hstatus]
    intro hmem
    exact hstatus (h.delete hmem)

end

/-! ### The memory backend -/

namespace MemoryStorageBackend

variable {platform : Platform}

def contents (backend : MemoryStorageBackend platform) : BlockMap :=
  (backend.blocks.entries.map (Sigma.map id fun _ block => block.data)).toFinmap

theorem lookup_contents (backend : MemoryStorageBackend platform) (blockId : UInt64) :
    backend.contents.lookup blockId = (backend.blocks.lookup blockId).map (·.data) := by
  rw [contents, Finmap.dlookup_list_toFinmap]
  exact List.dlookup_map₂ blockId

theorem mem_contents (backend : MemoryStorageBackend platform) (blockId : UInt64) :
    blockId ∈ backend.contents ↔ (backend.blocks.lookup blockId).isSome := by
  rw [← Finmap.lookup_isSome, lookup_contents, Option.isSome_map]

theorem contents_of_insert {backend after : MemoryStorageBackend platform} {blockId : UInt64}
    {block : InternalBlock platform} (h : after.blocks = backend.blocks.insert blockId block) :
    after.contents = backend.contents.insert blockId block.data := by
  apply Finmap.ext_lookup
  intro other
  rw [lookup_contents, h]
  by_cases heq : other = blockId
  · rw [heq, AList.lookup_insert, Finmap.lookup_insert]
    rfl
  · rw [AList.lookup_insert_ne heq, Finmap.lookup_insert_of_ne _ heq, lookup_contents]

theorem contents_of_erase {backend after : MemoryStorageBackend platform} {blockId : UInt64}
    (h : after.blocks = backend.blocks.erase blockId) :
    after.contents = backend.contents.erase blockId := by
  apply Finmap.ext_lookup
  intro other
  rw [lookup_contents, h]
  by_cases heq : other = blockId
  · rw [heq, AList.lookup_erase, Finmap.lookup_erase]
    rfl
  · rw [AList.lookup_erase_ne heq, Finmap.lookup_erase_ne heq, lookup_contents]

theorem contents_congr {backend after : MemoryStorageBackend platform}
    (h : after.blocks = backend.blocks) : after.contents = backend.contents := by
  rw [contents, contents, h]

theorem writeBlock_cases (backend : MemoryStorageBackend platform) (blockId : UInt64)
    (data : Bytes) :
    ((backend.writeBlock blockId data).2 = .capacityExceeded
      ∧ (backend.writeBlock blockId data).1 = backend)
    ∨ ((backend.writeBlock blockId data).2 = .success
      ∧ ∃ block : InternalBlock platform, block.data = data
        ∧ (backend.writeBlock blockId data).1.blocks = backend.blocks.insert blockId block) := by
  unfold writeBlock
  cases backend.blocks.lookup blockId <;> dsimp only <;> split
  · exact .inl ⟨rfl, rfl⟩
  · exact .inr ⟨rfl, _, rfl, rfl⟩
  · exact .inl ⟨rfl, rfl⟩
  · exact .inr ⟨rfl, _, rfl, rfl⟩

theorem deleteBlock_cases (backend : MemoryStorageBackend platform) (blockId : UInt64) :
    (blockId ∉ backend.contents ∧ backend.deleteBlock blockId = (backend, .notFound))
    ∨ (blockId ∈ backend.contents ∧ (backend.deleteBlock blockId).2 = .success
      ∧ (backend.deleteBlock blockId).1.blocks = backend.blocks.erase blockId) := by
  rw [mem_contents]
  unfold deleteBlock
  cases backend.blocks.lookup blockId with
  | none => exact .inl ⟨by simp, rfl⟩
  | some block => exact .inr ⟨rfl, rfl, rfl⟩

/-- The checksum of a block is the one it was made with, so a block that is there is read. -/
theorem readBlock_cases (backend : MemoryStorageBackend platform) (blockId : UInt64) :
    (backend.contents.lookup blockId = none
      ∧ backend.readBlock blockId = (backend, .error .notFound))
    ∨ ∃ data, backend.contents.lookup blockId = some data
      ∧ backend.readBlock blockId = (backend.countRead, .ok data) := by
  rw [lookup_contents]
  unfold readBlock
  cases backend.blocks.lookup blockId with
  | none => exact .inl ⟨rfl, rfl⟩
  | some block =>
      refine .inr ⟨block.data, rfl, ?_⟩
      exact if_neg (not_not.mpr block.checksum_eq.symm)

/-- A span read counts itself where it succeeds, and leaves all else alone. -/
theorem readSpan_fst (backend : MemoryStorageBackend platform) (blockId offset length : UInt64) :
    (backend.readSpan blockId offset length).1 = backend
      ∨ (backend.readSpan blockId offset length).1 = backend.countRead := by
  unfold readSpan
  cases backend.blocks.lookup blockId with
  | none => exact .inl rfl
  | some block =>
      dsimp only
      cases spanOf block.data offset length with
      | error e => exact .inl rfl
      | ok bytes => exact .inr rfl

theorem blocks_readSpan (backend : MemoryStorageBackend platform) (blockId offset length : UInt64) :
    (backend.readSpan blockId offset length).1.blocks = backend.blocks := by
  rcases backend.readSpan_fst blockId offset length with hsame | hcount
  · rw [hsame]
  · rw [hcount]
    rfl

theorem atomic_contents : Atomic (@contents platform) where
  write_success := by
    intro backend blockId data hstatus
    rcases backend.writeBlock_cases blockId data with ⟨hfull, -⟩ | ⟨-, block, rfl, hblocks⟩
    · cases hfull.symm.trans hstatus
    · exact contents_of_insert hblocks
  write_failure := by
    intro backend blockId data hstatus
    rcases backend.writeBlock_cases blockId data with ⟨-, hsame⟩ | ⟨hok, -⟩
    · exact congrArg contents hsame
    · exact absurd hok hstatus
  delete_success := by
    intro backend blockId hstatus
    rcases backend.deleteBlock_cases blockId with ⟨-, hnone⟩ | ⟨-, -, hblocks⟩
    · cases (congrArg Prod.snd hnone).symm.trans hstatus
    · exact contents_of_erase hblocks
  delete_failure := by
    intro backend blockId hstatus
    rcases backend.deleteBlock_cases blockId with ⟨-, hnone⟩ | ⟨-, hok, -⟩
    · exact congrArg (fun result => contents result.1) hnone
    · exact absurd hok hstatus
  read_contents := by
    intro backend blockId
    rcases backend.readBlock_cases blockId with ⟨-, hread⟩ | ⟨data, -, hread⟩
    · exact congrArg (fun result => contents result.1) hread
    · exact (congrArg (fun result => contents result.1) hread).trans (contents_congr rfl)
  read_ok := by
    intro backend blockId data hread
    rcases backend.readBlock_cases blockId with ⟨-, hnone⟩ | ⟨other, hlookup, hsome⟩
    · cases (congrArg Prod.snd hnone).symm.trans hread
    · cases (congrArg Prod.snd hsome).symm.trans hread
      exact hlookup
  read_error := by
    intro backend blockId e hread
    rcases backend.readBlock_cases blockId with ⟨-, hnone⟩ | ⟨other, -, hsome⟩
    · cases (congrArg Prod.snd hnone).symm.trans hread
      decide
    · cases (congrArg Prod.snd hsome).symm.trans hread
  span_contents := by
    intro backend blockId offset length
    exact contents_congr (backend.blocks_readSpan blockId offset length)
  sync_contents := fun _ => rfl
  has_iff := by
    intro backend blockId
    exact (mem_contents backend blockId).symm

theorem healthy_contents : Healthy (@contents platform) := by
  intro backend blockId
  rcases backend.readBlock_cases blockId with ⟨hnone, hread⟩ | ⟨data, hsome, hread⟩
  · rw [hnone]
    exact congrArg Prod.snd hread
  · rw [hsome]
    exact congrArg Prod.snd hread

theorem totalBlocks_stats (backend : MemoryStorageBackend platform) :
    backend.stats.totalBlocks = backend.contents.keys.card := by
  have hkeys : backend.contents.keys = backend.blocks.toFinmap.keys := by
    ext blockId
    rw [Finmap.mem_keys, Finmap.mem_keys, mem_contents, AList.lookup_isSome, Finmap.mem_def]
    rfl
  rw [hkeys]
  change backend.blocks.entries.length = (backend.blocks.entries.map Sigma.fst).length
  exact (List.length_map _).symm

theorem maxCapacityBytes_writeBlock (backend : MemoryStorageBackend platform) (blockId : UInt64)
    (data : Bytes) :
    (backend.writeBlock blockId data).1.maxCapacityBytes = backend.maxCapacityBytes := by
  unfold writeBlock
  cases backend.blocks.lookup blockId <;> dsimp only <;> split
  all_goals rfl

theorem maxCapacityBytes_deleteBlock (backend : MemoryStorageBackend platform)
    (blockId : UInt64) :
    (backend.deleteBlock blockId).1.maxCapacityBytes = backend.maxCapacityBytes := by
  unfold deleteBlock
  cases backend.blocks.lookup blockId with
  | none => rfl
  | some block => rfl

theorem maxCapacityBytes_readBlock (backend : MemoryStorageBackend platform) (blockId : UInt64) :
    (backend.readBlock blockId).1.maxCapacityBytes = backend.maxCapacityBytes := by
  rcases backend.readBlock_cases blockId with ⟨-, hread⟩ | ⟨data, -, hread⟩
  · rw [hread]
  · rw [hread]
    rfl

theorem maxCapacityBytes_readSpan (backend : MemoryStorageBackend platform)
    (blockId offset length : UInt64) :
    (backend.readSpan blockId offset length).1.maxCapacityBytes = backend.maxCapacityBytes := by
  rcases backend.readSpan_fst blockId offset length with hsame | hcount
  · rw [hsame]
  · rw [hcount]
    rfl

theorem readSpan_eq {backend : MemoryStorageBackend platform} {blockId : UInt64} {data : Bytes}
    (h : backend.contents.lookup blockId = some data) (offset length : UInt64) :
    (backend.readSpan blockId offset length).2 = spanOf data offset length := by
  rw [lookup_contents, Option.map_eq_some_iff] at h
  obtain ⟨block, hblock, rfl⟩ := h
  unfold readSpan
  rw [hblock]
  dsimp only
  cases spanOf block.data offset length with
  | error e => rfl
  | ok bytes => rfl

/-- A content is shorter than `2 ^ 64`, so a span inside it does not wrap around. -/
theorem spanOf_inside {data : Bytes} {offset length : UInt64}
    (h : offset.toNat + length.toNat ≤ data.length) :
    spanOf data offset length = .ok (slice data offset.toNat length.toNat) := by
  have hsum : (offset + length).toNat ≤ offset.toNat + length.toNat := by
    rw [UInt64.toNat_add]
    exact Nat.mod_le _ _
  rw [spanOf, if_neg (by omega), if_neg (by omega)]

end MemoryStorageBackend

/-! ### A memory backend that never refuses -/

/-- No sum that `uint64_t` can hold is above the largest capacity. -/
def Unlimited (platform : Platform) : Type :=
  { backend : MemoryStorageBackend platform // backend.maxCapacityBytes = 0xffffffffffffffff }

namespace Unlimited

variable {platform : Platform}

def new : Unlimited platform := ⟨MemoryStorageBackend.new 0xffffffffffffffff, rfl⟩

def contents (backend : Unlimited platform) : BlockMap := backend.val.contents

instance : IStorageBackend (Unlimited platform) where
  writeBlock := fun backend blockId data =>
    let result := backend.val.writeBlock blockId data
    (⟨result.1, (backend.val.maxCapacityBytes_writeBlock blockId data).trans backend.property⟩,
      result.2)
  readBlock := fun backend blockId =>
    let result := backend.val.readBlock blockId
    (⟨result.1, (backend.val.maxCapacityBytes_readBlock blockId).trans backend.property⟩, result.2)
  readSpan := fun backend blockId offset length =>
    let result := backend.val.readSpan blockId offset length
    (⟨result.1,
      (backend.val.maxCapacityBytes_readSpan blockId offset length).trans backend.property⟩,
      result.2)
  deleteBlock := fun backend blockId =>
    let result := backend.val.deleteBlock blockId
    (⟨result.1, (backend.val.maxCapacityBytes_deleteBlock blockId).trans backend.property⟩,
      result.2)
  hasBlock := fun backend blockId => (backend.val.blocks.lookup blockId).isSome
  stats := fun backend => backend.val.stats
  sync := fun backend => (backend, .success)
  clear := fun backend => ⟨backend.val.clear, backend.property⟩

theorem writeBlock_status (backend : Unlimited platform) (blockId : UInt64) (data : Bytes) :
    (backend.val.writeBlock blockId data).2 = .success := by
  rcases backend.val.writeBlock_cases blockId data with ⟨hfull, -⟩ | ⟨hok, -⟩
  · unfold MemoryStorageBackend.writeBlock at hfull
    dsimp only at hfull
    rw [if_neg] at hfull
    · cases hfull
    · rw [backend.property, UInt64.lt_iff_toNat_lt, not_lt]
      exact Nat.le_of_lt_succ (UInt64.toNat_lt _)
  · exact hok

theorem infallible :
    Infallible (@contents platform) MemoryStorageBackend.spanOf where
  write_success := MemoryStorageBackend.atomic_contents.write_success
  write_failure := MemoryStorageBackend.atomic_contents.write_failure
  delete_success := MemoryStorageBackend.atomic_contents.delete_success
  delete_failure := MemoryStorageBackend.atomic_contents.delete_failure
  read_contents := fun backend => MemoryStorageBackend.atomic_contents.read_contents backend.val
  read_ok := MemoryStorageBackend.atomic_contents.read_ok
  read_error := MemoryStorageBackend.atomic_contents.read_error
  span_contents := fun backend => MemoryStorageBackend.atomic_contents.span_contents backend.val
  sync_contents := fun _ => rfl
  has_iff := fun backend => MemoryStorageBackend.atomic_contents.has_iff backend.val
  write := writeBlock_status
  delete := by
    intro backend blockId hmem
    rcases backend.val.deleteBlock_cases blockId with ⟨hnot, -⟩ | ⟨-, hok, -⟩
    · exact absurd hmem hnot
    · exact hok
  read := by
    intro backend blockId data hlookup
    rcases backend.val.readBlock_cases blockId with ⟨hnone, -⟩ | ⟨other, hsome, hread⟩
    · cases hnone.symm.trans hlookup
    · cases hsome.symm.trans hlookup
      exact congrArg Prod.snd hread
  readSpan := fun hlookup => MemoryStorageBackend.readSpan_eq hlookup
  span_inside := MemoryStorageBackend.spanOf_inside
  totalBlocks := fun backend => backend.val.totalBlocks_stats

end Unlimited

end NebulaFS
