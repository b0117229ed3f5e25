import NebulaFS.FileStorageBackend
import NebulaFS.Lib.Runs
import NebulaFS.Proof.BackendContract

/-!
# What the backends count against the capacity

A write puts a block in the place of the old one, so it needs `required` bytes: the other blocks and the
new one. The memory backend counts the bytes of its blocks and checks just that sum
(`memory_blocks_within_capacity`). The file backend counts the bytes of its block files, but adds the
new file to all of them, also to the one it is about to replace. Which refusals are right is then a
condition on the writes of a run (`refusals_right_iff`).
-/

namespace NebulaFS

open Runs

/-- A call of the interface that changes what is stored or reads it. -/
inductive StorageCall
  | writeBlock (blockId : UInt64) (data : Bytes)
  | readBlock (blockId : UInt64)
  | readSpan (blockId offset length : UInt64)
  | deleteBlock (blockId : UInt64)
  | sync
  | clear
deriving DecidableEq

def StorageCall.apply {σ : Type} [IStorageBackend σ] (state : σ) : StorageCall → σ
  | .writeBlock blockId data => (IStorageBackend.writeBlock state blockId data).1
  | .readBlock blockId => (IStorageBackend.readBlock state blockId).1
  | .readSpan blockId offset length => (IStorageBackend.readSpan state blockId offset length).1
  | .deleteBlock blockId => (IStorageBackend.deleteBlock state blockId).1
  | .sync => (IStorageBackend.sync state).1
  | .clear => IStorageBackend.clear state

/-- What a call leaves of the block's last successful write. -/
def StorageCall.keep {σ : Type} [IStorageBackend σ] (blockId : UInt64) (state : σ)
    (written : Option Bytes) : StorageCall → Option Bytes
  | .writeBlock other data =>
      if other = blockId ∧ (IStorageBackend.writeBlock state other data).2 = .success then some data
      else written
  | .deleteBlock other => if other = blockId then none else written
  | .clear => none
  | .readBlock _ | .readSpan .. | .sync => written

/-- The data of the last successful write of the block since its last delete or the last clear. -/
def lastWritten {σ : Type} [IStorageBackend σ] (blockId : UInt64) (written : Option Bytes) :
    σ → List StorageCall → Option Bytes
  | _, [] => written
  | state, call :: calls =>
      lastWritten blockId (call.keep blockId state written) (call.apply state) calls

/-- Reads follow a single block through a run. -/
theorem Atomic.lookup_foldl {σ : Type} [IStorageBackend σ] {contents : σ → BlockMap}
    (h : Atomic contents)
    (hclear : ∀ state : σ, contents (IStorageBackend.clear state) = ∅)
    (hdelete : ∀ (state : σ) (blockId : UInt64),
      blockId ∉ contents (IStorageBackend.deleteBlock state blockId).1)
    (blockId : UInt64) (state : σ) (calls : List StorageCall) :
    (contents (calls.foldl StorageCall.apply state)).lookup blockId
      = lastWritten blockId ((contents state).lookup blockId) state calls := by
  induction calls generalizing state with
  | nil => rfl
  | cons call calls ih =>
      rw [List.foldl_cons, ih, lastWritten]
      congr 1
      cases call with
      | writeBlock other data =>
          rw [StorageCall.apply, StorageCall.keep]
          by_cases hstatus : (IStorageBackend.writeBlock state other data).2 = .success
          · rw [h.write_success hstatus]
            by_cases hother : other = blockId
            · rw [if_pos ⟨hother, hstatus⟩, hother, Finmap.lookup_insert]
            · rw [if_neg (hother ·.1), Finmap.lookup_insert_of_ne _ (Ne.symm hother)]
          · rw [h.write_failure hstatus, if_neg (hstatus ·.2)]
      | readBlock other => rw [StorageCall.apply, StorageCall.keep, h.read_contents]
      | readSpan other offset length => rw [StorageCall.apply, StorageCall.keep, h.span_contents]
      | deleteBlock other =>
          rw [StorageCall.apply, StorageCall.keep]
          by_cases hother : other = blockId
          · rw [if_pos hother, hother]
            exact Finmap.lookup_eq_none.mpr (hdelete state blockId)
          · rw [if_neg hother, h.lookup_delete_of_ne state (Ne.symm hother)]
      | sync => rw [StorageCall.apply, StorageCall.keep, h.sync_contents]
      | clear => rw [StorageCall.apply, StorageCall.keep, hclear, Finmap.lookup_empty]

/-- A sum of `uint64_t` in which one part is replaced. -/
theorem ofNat_replace (rest old new : Nat) :
    UInt64.ofNat (old + rest) + UInt64.ofNat new - UInt64.ofNat old = UInt64.ofNat (new + rest) := by
  rw [UInt64.ofNat_add, UInt64.ofNat_add, UInt64.add_assoc, UInt64.add_comm (UInt64.ofNat old),
    UInt64.add_sub_cancel, UInt64.add_comm]

/-! ### The memory backend -/

namespace MemoryStorageBackend

variable {platform : Platform} {backend : MemoryStorageBackend platform}

def storedBytes (backend : MemoryStorageBackend platform) : Nat :=
  backend.blocks.total fun block => block.data.length

/-- The bytes of all blocks when `data` is in the place of the old content. -/
def required (backend : MemoryStorageBackend platform) (blockId : UInt64) (data : Bytes) : Nat :=
  data.length + (backend.blocks.erase blockId).total fun block => block.data.length

def Counted (backend : MemoryStorageBackend platform) : Prop :=
  backend.currentBytes = UInt64.ofNat backend.storedBytes

theorem storedBytes_eq (backend : MemoryStorageBackend platform) (blockId : UInt64) :
    backend.storedBytes
      = ((backend.blocks.lookup blockId).elim 0 fun block => block.data.length)
        + (backend.blocks.erase blockId).total fun block => block.data.length :=
  AList.total_eq_add_erase _ _ _

/-- The two ends of a write, from the number that it checks. -/
theorem spec_of_check {after : MemoryStorageBackend platform} {blockId : UInt64} {data : Bytes}
    {bytes : UInt64} (hbytes : bytes = UInt64.ofNat (backend.required blockId data))
    (hresult : backend.writeBlock blockId data
      = if backend.maxCapacityBytes < bytes then (backend, .capacityExceeded) else (after, .success))
    (hcurrent : after.currentBytes = bytes)
    (hstored : after.storedBytes = backend.required blockId data) :
    (backend.maxCapacityBytes < UInt64.ofNat (backend.required blockId data)
      ∧ backend.writeBlock blockId data = (backend, .capacityExceeded))
    ∨ (UInt64.ofNat (backend.required blockId data) ≤ backend.maxCapacityBytes
      ∧ (backend.writeBlock blockId data).2 = .success
      ∧ (backend.writeBlock blockId data).1.storedBytes = backend.required blockId data
      ∧ (backend.writeBlock blockId data).1.Counted) := by
  rw [hresult, ← hbytes]
  by_cases hfull : backend.maxCapacityBytes < bytes
  · exact .inl ⟨hfull, if_pos hfull⟩
  · rw [if_neg hfull]
    refine .inr ⟨UInt64.not_lt.mp hfull, rfl, hstored, ?_⟩
    rw [Counted, hcurrent, hbytes, hstored]

/-- The capacity check compares the bytes that are required, in `uint64_t`. -/
theorem writeBlock_spec (h : backend.Counted) (blockId : UInt64) (data : Bytes) :
    (backend.maxCapacityBytes < UInt64.ofNat (backend.required blockId data)
      ∧ backend.writeBlock blockId data = (backend, .capacityExceeded))
    ∨ (UInt64.ofNat (backend.required blockId data) ≤ backend.maxCapacityBytes
      ∧ (backend.writeBlock blockId data).2 = .success
      ∧ (backend.writeBlock blockId data).1.storedBytes = backend.required blockId data
      ∧ (backend.writeBlock blockId data).1.Counted) := by
  have hcount := h
  rw [Counted, backend.storedBytes_eq blockId] at hcount
  have hresult : backend.writeBlock blockId data = backend.writeBlock blockId data := rfl
  nth_rewrite 2 [writeBlock] at hresult
  cases hlookup : backend.blocks.lookup blockId with
  | none =>
      rw [hlookup] at hcount hresult
      refine spec_of_check ?_ hresult rfl (AList.total_insert_eq _ _ _ _)
      rw [hcount]
      exact ofNat_replace _ 0 data.length
  | some block =>
      rw [hlookup] at hcount hresult
      refine spec_of_check ?_ hresult rfl (AList.total_insert_eq _ _ _ _)
      rw [hcount]
      exact ofNat_replace _ block.data.length data.length

theorem storedBytes_congr {other : MemoryStorageBackend platform} (h : other.blocks = backend.blocks) :
    other.storedBytes = backend.storedBytes := by
  rw [storedBytes, storedBytes, h]

theorem deleteBlock_spec (h : backend.Counted) (blockId : UInt64) :
    (backend.deleteBlock blockId).1.storedBytes ≤ backend.storedBytes
      ∧ (backend.deleteBlock blockId).1.Counted := by
  have hcount := h
  rw [Counted, backend.storedBytes_eq blockId] at hcount
  have hstored := backend.storedBytes_eq blockId
  unfold deleteBlock
  cases hlookup : backend.blocks.lookup blockId with
  | none => exact ⟨le_refl _, h⟩
  | some block =>
      rw [hlookup] at hcount hstored
      refine ⟨?_, ?_⟩
      · rw [hstored]
        exact Nat.le_add_left _ _
      · change backend.currentBytes - UInt64.ofNat block.data.length = _
        rw [hcount, Option.elim_some, UInt64.ofNat_add, UInt64.add_comm, UInt64.add_sub_cancel]
        rfl

theorem currentBytes_readBlock (backend : MemoryStorageBackend platform) (blockId : UInt64) :
    (backend.readBlock blockId).1.currentBytes = backend.currentBytes
      ∧ (backend.readBlock blockId).1.blocks = backend.blocks := by
  rcases backend.readBlock_cases blockId with ⟨-, hread⟩ | ⟨data, -, hread⟩
  · rw [hread]
    exact ⟨rfl, rfl⟩
  · rw [hread]
    exact ⟨rfl, rfl⟩

theorem currentBytes_readSpan (backend : MemoryStorageBackend platform)
    (blockId offset length : UInt64) :
    (backend.readSpan blockId offset length).1.currentBytes = backend.currentBytes := by
  rcases backend.readSpan_fst blockId offset length with hsame | hcount
  · rw [hsame]
  · rw [hcount]
    rfl

theorem counted_congr {other : MemoryStorageBackend platform} (h : backend.Counted)
    (hbytes : other.currentBytes = backend.currentBytes) (hblocks : other.blocks = backend.blocks) :
    other.Counted := by
  rw [Counted, hbytes, storedBytes_congr hblocks]
  exact h

theorem maxCapacityBytes_apply (call : StorageCall) :
    (call.apply backend).maxCapacityBytes = backend.maxCapacityBytes := by
  cases call with
  | writeBlock blockId data => exact backend.maxCapacityBytes_writeBlock blockId data
  | readBlock blockId => exact backend.maxCapacityBytes_readBlock blockId
  | readSpan blockId offset length => exact backend.maxCapacityBytes_readSpan blockId offset length
  | deleteBlock blockId => exact backend.maxCapacityBytes_deleteBlock blockId
  | sync => rfl
  | clear => rfl

theorem counted_apply (h : backend.Counted) (call : StorageCall) : (call.apply backend).Counted := by
  cases call with
  | writeBlock blockId data =>
      rcases writeBlock_spec h blockId data with ⟨-, hfull⟩ | ⟨-, -, -, hcounted⟩
      · have hsame : (backend.writeBlock blockId data).1 = backend := congrArg Prod.fst hfull
        change (backend.writeBlock blockId data).1.Counted
        rw [hsame]
        exact h
      · exact hcounted
  | readBlock blockId =>
      obtain ⟨hbytes, hblocks⟩ := backend.currentBytes_readBlock blockId
      exact counted_congr h hbytes hblocks
  | readSpan blockId offset length =>
      exact counted_congr h (backend.currentBytes_readSpan blockId offset length)
        (backend.blocks_readSpan blockId offset length)
  | deleteBlock blockId => exact (deleteBlock_spec h blockId).2
  | sync => exact h
  | clear => rfl

theorem counted_new (maxCapacityBytes : UInt64) :
    (new maxCapacityBytes : MemoryStorageBackend platform).Counted := rfl

/-- The sum of a write's check does not wrap around. -/
def Roomy (backend : MemoryStorageBackend platform) : StorageCall → Prop
  | .writeBlock _ data => backend.storedBytes + data.length < 2 ^ 64
  | _ => True

instance decidableRoomy (backend : MemoryStorageBackend platform) :
    (call : StorageCall) → Decidable (backend.Roomy call)
  | .writeBlock _ data => inferInstanceAs (Decidable (backend.storedBytes + data.length < 2 ^ 64))
  | .readBlock _ | .readSpan .. | .deleteBlock _ | .sync | .clear => isTrue trivial

theorem storedBytes_apply_le (h : backend.Counted) {call : StorageCall} (hroom : backend.Roomy call)
    (hle : backend.storedBytes ≤ backend.maxCapacityBytes.toNat) :
    (call.apply backend).storedBytes ≤ backend.maxCapacityBytes.toNat := by
  cases call with
  | writeBlock blockId data =>
      rcases writeBlock_spec h blockId data with ⟨-, hfull⟩ | ⟨hfits, -, hstored, -⟩
      · have hsame : (backend.writeBlock blockId data).1 = backend := congrArg Prod.fst hfull
        exact (storedBytes_congr (congrArg blocks hsame)).trans_le hle
      · have hsum : backend.required blockId data < 2 ^ 64 := by
          have heq := backend.storedBytes_eq blockId
          rw [Roomy] at hroom
          rw [required]
          omega
        rw [UInt64.le_iff_toNat_le, UInt64.toNat_ofNat_of_lt' hsum] at hfits
        exact hstored.trans_le hfits
  | readBlock blockId =>
      exact (storedBytes_congr (backend.currentBytes_readBlock blockId).2).trans_le hle
  | readSpan blockId offset length =>
      exact (storedBytes_congr (backend.blocks_readSpan blockId offset length)).trans_le hle
  | deleteBlock blockId => exact (deleteBlock_spec h blockId).1.trans hle
  | sync => exact hle
  | clear => exact Nat.zero_le _

/-- What is promised after a run of calls on an empty backend. -/
structure WithinCapacity (maxCapacityBytes : UInt64) (calls : List StorageCall)
    (backend : MemoryStorageBackend platform) : Prop where
  currentBytes_eq : backend.currentBytes.toNat = backend.storedBytes
  le_capacity : backend.storedBytes ≤ maxCapacityBytes.toNat
  refused : ∀ {blockId : UInt64} {data : Bytes},
    (backend.writeBlock blockId data).2 = .capacityExceeded →
      (backend.writeBlock blockId data).1 = backend
  read : ∀ blockId : UInt64, (backend.readBlock blockId).2
    = readAnswer (lastWritten blockId none
        (new maxCapacityBytes : MemoryStorageBackend platform) calls)

theorem refused_writeBlock {blockId : UInt64} {data : Bytes}
    (h : (backend.writeBlock blockId data).2 = .capacityExceeded) :
    (backend.writeBlock blockId data).1 = backend := by
  rcases backend.writeBlock_cases blockId data with ⟨-, hsame⟩ | ⟨hok, -⟩
  · exact hsame
  · cases hok.symm.trans h

theorem lookup_foldl (maxCapacityBytes : UInt64) (calls : List StorageCall) (blockId : UInt64) :
    (contents (calls.foldl StorageCall.apply
        (new maxCapacityBytes : MemoryStorageBackend platform))).lookup blockId
      = lastWritten blockId none (new maxCapacityBytes : MemoryStorageBackend platform) calls := by
  apply atomic_contents.lookup_foldl
  · intro backend
    rfl
  · intro backend other
    rcases backend.deleteBlock_cases other with ⟨hnot, hnone⟩ | ⟨-, -, hblocks⟩
    · exact congrArg (fun result => contents result.1) hnone ▸ hnot
    · have herase : contents (backend.deleteBlock other).1 = backend.contents.erase other :=
        contents_of_erase hblocks
      change other ∉ contents (backend.deleteBlock other).1
      rw [herase]
      simp

/-- **The memory backend keeps to its capacity.** It counts the bytes that it stores, a refused write
leaves no trace, and a read finds what was last written. -/
theorem memory_blocks_within_capacity (maxCapacityBytes : UInt64) {calls : List StorageCall}
    (hroom : Along (fun state call after => StorageCall.apply state call = after) Roomy
      (new maxCapacityBytes : MemoryStorageBackend platform) calls) :
    WithinCapacity maxCapacityBytes calls
      (calls.foldl StorageCall.apply (new maxCapacityBytes : MemoryStorageBackend platform)) := by
  obtain ⟨hcounted, hcapacity, hle⟩ := foldl_of_side
    (fun backend : MemoryStorageBackend platform => backend.Counted
      ∧ backend.maxCapacityBytes = maxCapacityBytes
      ∧ backend.storedBytes ≤ backend.maxCapacityBytes.toNat)
    (fun backend call hinv hcall => ⟨counted_apply hinv.1 call,
      (maxCapacityBytes_apply call).trans hinv.2.1,
      (storedBytes_apply_le hinv.1 hcall hinv.2.2).trans_eq
        (congrArg UInt64.toNat (maxCapacityBytes_apply call).symm)⟩)
    ⟨counted_new maxCapacityBytes, rfl, Nat.zero_le _⟩ hroom
  rw [hcapacity] at hle
  refine ⟨?_, hle, refused_writeBlock, ?_⟩
  · rw [hcounted]
    exact UInt64.toNat_ofNat_of_lt' (hle.trans_lt (UInt64.toNat_lt _))
  · intro blockId
    rw [← lookup_foldl]
    exact healthy_contents _ blockId

/-- The second write shrinks the block, and the third does not fit. -/
theorem memory_blocks_within_capacity_overwritten :
    WithinCapacity 5 [.writeBlock 1 [1, 2, 3], .writeBlock 1 [4], .writeBlock 2 [5, 6, 7, 8, 9]]
      ([.writeBlock 1 [1, 2, 3], .writeBlock 1 [4], .writeBlock 2 [5, 6, 7, 8, 9]].foldl
        StorageCall.apply (new 5 : MemoryStorageBackend Platform.reference)) :=
  memory_blocks_within_capacity 5 (by decide +kernel)

/-- A call of the memory backend, which can also be given another capacity. -/
inductive MemoryCall
  | storage (call : StorageCall)
  | setCapacity (maxCapacityBytes : UInt64)
deriving DecidableEq

def MemoryCall.apply (backend : MemoryStorageBackend platform) :
    MemoryCall → MemoryStorageBackend platform
  | .storage call => call.apply backend
  | .setCapacity maxCapacityBytes => backend.setCapacity maxCapacityBytes

/-- A write is refused for capacity just when it does not fit. -/
def Rightly (backend : MemoryStorageBackend platform) : MemoryCall → Prop
  | .storage (.writeBlock blockId data) =>
      (backend.writeBlock blockId data).2 = .capacityExceeded
        ↔ backend.maxCapacityBytes.toNat < backend.required blockId data
  | _ => True

/-- No write needs so much that its sum comes out below the capacity again. -/
def Unwrapped (backend : MemoryStorageBackend platform) : MemoryCall → Prop
  | .storage (.writeBlock blockId data) =>
      ¬ (backend.maxCapacityBytes.toNat < backend.required blockId data
        ∧ backend.required blockId data % wordSize ≤ backend.maxCapacityBytes.toNat)
  | _ => True

theorem capacityExceeded_iff (h : backend.Counted) (blockId : UInt64) (data : Bytes) :
    (backend.writeBlock blockId data).2 = .capacityExceeded
      ↔ backend.maxCapacityBytes.toNat < backend.required blockId data % wordSize := by
  have hsum : (UInt64.ofNat (backend.required blockId data)).toNat
      = backend.required blockId data % wordSize := UInt64.toNat_ofNat'
  rw [← hsum, ← UInt64.lt_iff_toNat_lt]
  rcases writeBlock_spec h blockId data with ⟨hfull, hresult⟩ | ⟨hfits, hok, -⟩
  · exact iff_of_true (congrArg Prod.snd hresult) hfull
  · refine iff_of_false ?_ (UInt64.not_lt.mpr hfits)
    rw [hok]
    exact StorageError.noConfusion

theorem rightly_iff (h : backend.Counted) (call : MemoryCall) :
    backend.Rightly call ↔ backend.Unwrapped call := by
  cases call with
  | setCapacity maxCapacityBytes => exact Iff.rfl
  | storage call =>
      cases call with
      | writeBlock blockId data =>
          rw [Rightly, Unwrapped, capacityExceeded_iff h]
          have hle := Nat.mod_le (backend.required blockId data) wordSize
          omega
      | readBlock blockId => exact Iff.rfl
      | readSpan blockId offset length => exact Iff.rfl
      | deleteBlock blockId => exact Iff.rfl
      | sync => exact Iff.rfl
      | clear => exact Iff.rfl

theorem counted_applyMemory (h : backend.Counted) (call : MemoryCall) :
    (call.apply backend).Counted := by
  cases call with
  | storage call => exact counted_apply h call
  | setCapacity maxCapacityBytes => exact h

end MemoryStorageBackend

/-! ### The file backend -/

namespace FileStorageBackend

variable {platform : Platform} {backend : FileStorageBackend}

theorem length_blockContent (data : Bytes) :
    (blockContent platform data).length = DiskBlockHeader.size + data.length := by
  rw [blockContent, List.length_append, DiskBlockHeader.toBytes, List.length_append,
    List.length_append, LittleEndian.length_leBytes, LittleEndian.length_leBytes,
    LittleEndian.length_leBytes]
  rfl

theorem isBlockFile_getBlockPath (blockId : UInt64) : isBlockFile (getBlockPath blockId) = true := by
  have hdigits : 0 < (Nat.toDigits 10 blockId.toNat).length := Nat.length_toDigits_pos
  rw [isBlockFile, Bool.and_eq_true, decide_eq_true_iff, List.isSuffixOf_iff_suffix]
  refine ⟨List.suffix_append _ _, ?_⟩
  rw [getBlockPath, List.length_append]
  exact Nat.lt_add_of_pos_left hdigits

theorem isBlockFile_tempPath (path : BlockPath) : isBlockFile (tempPath path) = false := by
  simp [isBlockFile, tempPath, List.isSuffixOf]

theorem lookup_blockFiles (disk : Disk) (path : BlockPath) :
    (blockFiles disk).lookup path = if isBlockFile path then disk.lookup path else none := by
  rw [blockFiles, AList.lookup_filterMapValues]
  cases disk.lookup path with
  | none => simp
  | some file => rfl

def fileSize (file : DiskFile) : Nat := file.content.length

/-- The bytes of all block files. -/
def storedBytes (backend : FileStorageBackend) : Nat := (blockFiles backend.disk).total fileSize

/-- The bytes of the file that a write makes. -/
def newBytes (data : Bytes) : Nat := DiskBlockHeader.size + data.length

/-- The bytes of all block files when the new one is in the place of the old one. -/
def required (backend : FileStorageBackend) (blockId : UInt64) (data : Bytes) : Nat :=
  newBytes data + ((blockFiles backend.disk).erase (getBlockPath blockId)).total fileSize

def Counted (backend : FileStorageBackend) : Prop :=
  backend.currentBytes.toNat = backend.storedBytes

theorem lookup_blockFiles_getBlockPath (disk : Disk) (blockId : UInt64) :
    (blockFiles disk).lookup (getBlockPath blockId) = disk.lookup (getBlockPath blockId) := by
  rw [lookup_blockFiles, if_pos (isBlockFile_getBlockPath blockId)]

theorem storedBytes_eq (backend : FileStorageBackend) (blockId : UInt64) :
    backend.storedBytes = (backend.disk.lookup (getBlockPath blockId)).elim 0 fileSize
      + ((blockFiles backend.disk).erase (getBlockPath blockId)).total fileSize := by
  rw [← lookup_blockFiles_getBlockPath]
  exact AList.total_eq_add_erase _ _ _

theorem total_erase_tempPath (disk : Disk) (path : BlockPath) :
    (blockFiles (disk.erase (tempPath path))).total fileSize = (blockFiles disk).total fileSize := by
  apply AList.total_congr
  intro other
  rw [lookup_blockFiles, lookup_blockFiles]
  by_cases hother : other = tempPath path
  · rw [hother, isBlockFile_tempPath]
    rfl
  · rw [AList.lookup_erase_ne hother]

theorem total_insert_getBlockPath (disk : Disk) (blockId : UInt64) (file : DiskFile) :
    (blockFiles ((disk.erase (tempPath (getBlockPath blockId))).insert (getBlockPath blockId)
        file)).total fileSize
      = fileSize file + ((blockFiles disk).erase (getBlockPath blockId)).total fileSize := by
  rw [← AList.total_insert_eq]
  apply AList.total_congr
  intro other
  rw [lookup_blockFiles]
  by_cases hother : other = getBlockPath blockId
  · rw [hother, AList.lookup_insert, AList.lookup_insert,
      if_pos (isBlockFile_getBlockPath blockId)]
  · rw [AList.lookup_insert_ne hother, AList.lookup_insert_ne hother, lookup_blockFiles]
    by_cases htemp : other = tempPath (getBlockPath blockId)
    · rw [htemp, isBlockFile_tempPath]
      rfl
    · rw [AList.lookup_erase_ne htemp]

theorem total_erase_getBlockPath (disk : Disk) (blockId : UInt64) :
    (blockFiles (disk.erase (getBlockPath blockId))).total fileSize
      = ((blockFiles disk).erase (getBlockPath blockId)).total fileSize := by
  apply AList.total_congr
  intro other
  rw [lookup_blockFiles]
  by_cases hother : other = getBlockPath blockId
  · rw [hother, AList.lookup_erase, AList.lookup_erase, ite_self]
  · rw [AList.lookup_erase_ne hother, AList.lookup_erase_ne hother, lookup_blockFiles]

theorem foldl_ofNat {α : Type} (size : α → Nat) (items : List α) (start : Nat) :
    items.foldl (fun bytes item => bytes + UInt64.ofNat (size item)) (UInt64.ofNat start)
      = UInt64.ofNat (start + (items.map size).sum) := by
  induction items generalizing start with
  | nil => rfl
  | cons item items ih =>
      rw [List.foldl_cons, ← UInt64.ofNat_add, ih, List.map_cons, List.sum_cons, Nat.add_assoc]

/-- The scan of the constructor counts the files that are there. -/
theorem counted_new {disk : Disk} (h : (blockFiles disk).total fileSize < wordSize)
    (maxCapacityBytes : UInt64) : (new disk maxCapacityBytes).Counted := by
  have hscan := foldl_ofNat (fun entry : Sigma fun _ : BlockPath => DiskFile => fileSize entry.2)
    (blockFiles disk).entries 0
  rw [Nat.zero_add] at hscan
  exact (congrArg UInt64.toNat hscan).trans (UInt64.toNat_ofNat_of_lt' h)

theorem bytes_writeBlock (h : backend.Counted) (data : Bytes) :
    (backend.currentBytes
        + (UInt64.ofNat DiskBlockHeader.size + UInt64.ofNat data.length)).toNat
      = (backend.storedBytes + newBytes data) % wordSize := by
  rw [UInt64.toNat_add, h, ← UInt64.ofNat_add, UInt64.toNat_ofNat']
  exact Nat.add_mod_mod _ _ _

/-- What is counted after a new file took the place of the old one. -/
theorem counted_of_stored {after : FileStorageBackend} {blockId : UInt64} {data : Bytes}
    (h : backend.Counted) (hroom : backend.required blockId data < wordSize)
    (hstored : after.storedBytes = backend.required blockId data)
    (hbytes : after.currentBytes = backend.currentBytes
      + (UInt64.ofNat DiskBlockHeader.size + UInt64.ofNat data.length)
      - UInt64.ofNat ((backend.disk.lookup (getBlockPath blockId)).elim 0 fileSize)) :
    after.Counted := by
  have hcurrent : backend.currentBytes = UInt64.ofNat backend.storedBytes := by
    rw [← h, UInt64.ofNat_toNat]
  rw [Counted, hstored, hbytes, hcurrent, backend.storedBytes_eq blockId, ← UInt64.ofNat_add,
    ofNat_replace]
  exact UInt64.toNat_ofNat_of_lt' hroom

/-- The check adds the new file to all files that are there. -/
theorem writeBlock_spec (h : backend.Counted) (blockId : UInt64) (data : Bytes) :
    (backend.maxCapacityBytes.toNat < (backend.storedBytes + newBytes data) % wordSize
      ∧ backend.writeBlock platform {} blockId data = (backend, .capacityExceeded))
    ∨ ((backend.storedBytes + newBytes data) % wordSize ≤ backend.maxCapacityBytes.toNat
      ∧ (backend.writeBlock platform {} blockId data).2 ≠ .capacityExceeded
      ∧ (backend.required blockId data < wordSize →
        (backend.writeBlock platform {} blockId data).1.Counted)) := by
  rw [← bytes_writeBlock h, ← UInt64.lt_iff_toNat_lt, ← UInt64.le_iff_toNat_le]
  unfold writeBlock
  by_cases hfull : backend.maxCapacityBytes < backend.currentBytes
      + (UInt64.ofNat DiskBlockHeader.size + UInt64.ofNat data.length)
  · exact .inl ⟨hfull, if_pos hfull⟩
  · refine .inr ⟨UInt64.not_lt.mp hfull, ?_⟩
    rw [if_neg hfull, if_neg (by decide), if_neg (by decide)]
    by_cases hsize : (blockContent platform data).length < 2 ^ 63
    · rw [dif_pos ⟨rfl, hsize⟩, if_neg (by decide)]
      refine ⟨StorageError.noConfusion, fun hroom => counted_of_stored h hroom ?_ ?_⟩
      · rw [storedBytes, total_insert_getBlockPath, fileSize, length_blockContent]
        rfl
      · cases backend.disk.lookup (getBlockPath blockId) with
        | none => rfl
        | some file => rfl
    · rw [dif_neg (hsize ·.2)]
      refine ⟨StorageError.noConfusion, fun _ => ?_⟩
      exact h.trans (total_erase_tempPath backend.disk (getBlockPath blockId)).symm

theorem counted_deleteBlock (h : backend.Counted) (blockId : UInt64) :
    (backend.deleteBlock {} blockId).1.Counted := by
  have hstored := backend.storedBytes_eq blockId
  have hremove : ¬ ¬ true = true := by decide
  unfold deleteBlock
  dsimp only
  cases hlookup : backend.disk.lookup (getBlockPath blockId) with
  | none => exact h
  | some file =>
      rw [hlookup, Option.elim_some, fileSize] at hstored
      have hsize : (UInt64.ofNat file.content.length).toNat = file.content.length :=
        UInt64.toNat_ofNat_of_lt' (file.size_lt.trans (by decide))
      have hle : UInt64.ofNat file.content.length ≤ backend.currentBytes := by
        rw [UInt64.le_iff_toNat_le, hsize, h, hstored]
        exact Nat.le_add_right _ _
      dsimp only
      rw [if_neg hremove, if_pos hle]
      change (backend.currentBytes - UInt64.ofNat file.content.length).toNat = _
      rw [UInt64.toNat_sub_of_le _ _ hle, hsize, h, hstored, storedBytes, total_erase_getBlockPath]
      exact Nat.add_sub_cancel_left _ _

theorem readBlock_fst (platform : Platform) (ops : FileOps) (backend : FileStorageBackend)
    (blockId : UInt64) :
    (backend.readBlock platform ops blockId).1 = backend
      ∨ (backend.readBlock platform ops blockId).1 = backend.countRead := by
  unfold readBlock
  cases backend.openBlock ops blockId with
  | error e => exact .inl rfl
  | ok opened =>
      dsimp only
      split_ifs
      · exact .inl rfl
      · exact .inl rfl
      · exact .inl rfl
      · exact .inr rfl

theorem readSpan_fst (ops : FileOps) (backend : FileStorageBackend) (blockId offset length : UInt64) :
    (backend.readSpan ops blockId offset length).1 = backend
      ∨ (backend.readSpan ops blockId offset length).1 = backend.countRead := by
  unfold readSpan
  cases backend.openBlock ops blockId with
  | error e => exact .inl rfl
  | ok opened =>
      dsimp only
      split_ifs
      · exact .inl rfl
      · exact .inl rfl
      · exact .inl rfl
      · exact .inl rfl
      · exact .inr rfl

/-- A call of the file backend whose file operations succeed, or the end of one backend and the start of
another one in the same directory. -/
inductive FileCall
  | writeBlock (blockId : UInt64) (data : Bytes)
  | readBlock (blockId : UInt64)
  | readSpan (blockId offset length : UInt64)
  | deleteBlock (blockId : UInt64)
  | clear
  | reopen (maxCapacityBytes : UInt64)
deriving DecidableEq

def FileCall.apply (platform : Platform) (backend : FileStorageBackend) :
    FileCall → FileStorageBackend
  | .writeBlock blockId data => (backend.writeBlock platform {} blockId data).1
  | .readBlock blockId => (backend.readBlock platform {} blockId).1
  | .readSpan blockId offset length => (backend.readSpan {} blockId offset length).1
  | .deleteBlock blockId => (backend.deleteBlock {} blockId).1
  | .clear => backend.clear {}
  | .reopen maxCapacityBytes => new backend.disk maxCapacityBytes

/-- A write is refused for capacity just when it does not fit. -/
def Rightly (platform : Platform) (backend : FileStorageBackend) : FileCall → Prop
  | .writeBlock blockId data =>
      (backend.writeBlock platform {} blockId data).2 = .capacityExceeded
        ↔ backend.maxCapacityBytes.toNat < backend.required blockId data
  | _ => True

/-- No write has room only in the place of the block that it replaces, and none needs so much that its
sum comes out below the capacity again. -/
def RoomBeside (backend : FileStorageBackend) : FileCall → Prop
  | .writeBlock blockId data =>
      ¬ (backend.required blockId data ≤ backend.maxCapacityBytes.toNat
        ∧ backend.maxCapacityBytes.toNat < (backend.storedBytes + newBytes data) % wordSize)
      ∧ ¬ (backend.maxCapacityBytes.toNat < backend.required blockId data
        ∧ (backend.storedBytes + newBytes data) % wordSize ≤ backend.maxCapacityBytes.toNat)
  | _ => True

theorem rightly_iff (h : backend.Counted) (call : FileCall) :
    backend.Rightly platform call ↔ backend.RoomBeside call := by
  cases call with
  | writeBlock blockId data =>
      rw [Rightly, RoomBeside]
      rcases @writeBlock_spec platform backend h blockId data with
        ⟨hfull, hresult⟩ | ⟨hfits, hother, -⟩
      · rw [hresult]
        simp only [true_iff]
        omega
      · simp only [hother, false_iff]
        omega
  | readBlock blockId => exact Iff.rfl
  | readSpan blockId offset length => exact Iff.rfl
  | deleteBlock blockId => exact Iff.rfl
  | clear => exact Iff.rfl
  | reopen maxCapacityBytes => exact Iff.rfl

theorem counted_apply (h : backend.Counted) {call : FileCall} (hroom : backend.RoomBeside call) :
    (call.apply platform backend).Counted := by
  cases call with
  | writeBlock blockId data =>
      change (backend.writeBlock platform {} blockId data).1.Counted
      rcases @writeBlock_spec platform backend h blockId data with
        ⟨-, hresult⟩ | ⟨hfits, -, hcounted⟩
      · rw [hresult]
        exact h
      · apply hcounted
        have hle : backend.required blockId data ≤ backend.maxCapacityBytes.toNat := by
          by_contra hover
          exact hroom.2 ⟨not_le.mp hover, hfits⟩
        exact hle.trans_lt (UInt64.toNat_lt _)
  | readBlock blockId =>
      change (backend.readBlock platform {} blockId).1.Counted
      rcases readBlock_fst platform {} backend blockId with hsame | hcount
      · rw [hsame]
        exact h
      · rw [hcount]
        exact h
  | readSpan blockId offset length =>
      change (backend.readSpan {} blockId offset length).1.Counted
      rcases readSpan_fst {} backend blockId offset length with hsame | hcount
      · rw [hsame]
        exact h
      · rw [hcount]
        exact h
  | deleteBlock blockId => exact counted_deleteBlock h blockId
  | clear => rfl
  | reopen maxCapacityBytes =>
      apply counted_new
      exact h.symm.trans_lt (UInt64.toNat_lt _)

end FileStorageBackend

/-- **When the refusals are right.** The memory backend refuses what does not fit in every run whose
sums do not wrap around, the file backend just in the runs where no write has room only in the place of
the block that it replaces. -/
theorem refusals_right_iff (platform : Platform) :
    (∀ (maxCapacityBytes : UInt64) (calls : List MemoryStorageBackend.MemoryCall),
      Along (fun state call after => MemoryStorageBackend.MemoryCall.apply state call = after)
          MemoryStorageBackend.Rightly
          (MemoryStorageBackend.new maxCapacityBytes : MemoryStorageBackend platform) calls
        ↔ Along (fun state call after => MemoryStorageBackend.MemoryCall.apply state call = after)
          MemoryStorageBackend.Unwrapped
          (MemoryStorageBackend.new maxCapacityBytes : MemoryStorageBackend platform) calls)
    ∧ ∀ (disk : Disk) (maxCapacityBytes : UInt64) (calls : List FileStorageBackend.FileCall),
      (FileStorageBackend.blockFiles disk).total FileStorageBackend.fileSize < wordSize →
      (Along (fun state call after => FileStorageBackend.FileCall.apply platform state call = after)
          (FileStorageBackend.Rightly platform)
          (FileStorageBackend.new disk maxCapacityBytes) calls
        ↔ Along (fun state call after =>
            FileStorageBackend.FileCall.apply platform state call = after)
          FileStorageBackend.RoomBeside
          (FileStorageBackend.new disk maxCapacityBytes) calls) := by
  constructor
  · intro maxCapacityBytes calls
    apply along_iff_of_invariant MemoryStorageBackend.Counted
    · intro backend call hcounted
      exact MemoryStorageBackend.rightly_iff hcounted call
    · rintro backend call _ hcounted - rfl
      exact MemoryStorageBackend.counted_applyMemory hcounted call
    · exact MemoryStorageBackend.counted_new maxCapacityBytes
  · intro disk maxCapacityBytes calls hdisk
    apply along_iff_of_invariant FileStorageBackend.Counted
    · intro backend call hcounted
      exact FileStorageBackend.rightly_iff hcounted call
    · rintro backend call _ hcounted hroom rfl
      exact FileStorageBackend.counted_apply hcounted hroom
    · exact FileStorageBackend.counted_new hdisk maxCapacityBytes

/-- A new directory with room for one file. -/
theorem refusals_right_iff_oneBlock :
    Along (fun state call after =>
          FileStorageBackend.FileCall.apply Platform.reference state call = after)
        (FileStorageBackend.Rightly Platform.reference) (FileStorageBackend.new ∅ 20)
        [.writeBlock 1 [1, 2, 3], .writeBlock 2 [4]]
      ↔ Along (fun state call after =>
          FileStorageBackend.FileCall.apply Platform.reference state call = after)
        FileStorageBackend.RoomBeside (FileStorageBackend.new ∅ 20)
        [.writeBlock 1 [1, 2, 3], .writeBlock 2 [4]] :=
  (refusals_right_iff Platform.reference).2 ∅ 20 _ (by decide)

namespace FileStorageBackend

/-- Twenty bytes in a backend of capacity 40. -/
def twentyBytes : FileStorageBackend :=
  ((new ∅ 40).writeBlock Platform.reference {} 1 (List.replicate 20 0)).1

/-- The block cannot be written again: 36 bytes are required, but the two files together have 72. -/
theorem not_rightly_of_overwrite :
    (twentyBytes.writeBlock Platform.reference {} 1 (List.replicate 20 1)).2 = .capacityExceeded
      ∧ twentyBytes.required 1 (List.replicate 20 1) = 36
      ∧ ¬ Along (fun state call after => FileCall.apply Platform.reference state call = after)
        (Rightly Platform.reference) (new ∅ 40)
        [.writeBlock 1 (List.replicate 20 0), .writeBlock 1 (List.replicate 20 1)] := by
  have hresult : (twentyBytes.writeBlock Platform.reference {} 1 (List.replicate 20 1)).2
      = .capacityExceeded := by decide +kernel
  have hrequired : twentyBytes.required 1 (List.replicate 20 1) = 36 := by decide +kernel
  have hcapacity : twentyBytes.maxCapacityBytes = 40 := by decide +kernel
  refine ⟨hresult, hrequired, ?_⟩
  intro hright
  have hover : twentyBytes.maxCapacityBytes.toNat < twentyBytes.required 1 (List.replicate 20 1) :=
    (hright.2 twentyBytes rfl).1.mp hresult
  rw [hrequired, hcapacity] at hover
  revert hover
  decide

end FileStorageBackend

end NebulaFS
