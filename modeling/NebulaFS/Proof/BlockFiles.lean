import NebulaFS.Proof.BackendCapacity
import NebulaFS.Proof.Crc32Paths
import NebulaFS.Proof.SpanReads

/-!
# Blocks in files that fail

The file backend over whole runs: operations that fail, a process that ends in a write and another one
that opens the directory, and files that are damaged on the disk in up to 32 bits in a row. A read
answers with what was written last, or with an error where the file was damaged since
(`reads_survive`). The checksum covers the content alone, so damage of the size in the header is left
out, and so are blocks of 4 GiB and more, whose length the checksum takes modulo `2 ^ 32`.
-/

namespace NebulaFS

open Cursor LittleEndian ShiftRegister

namespace Crc32

theorem bitsOf_injective {v : Nat} {d e : BitVec v} (h : bitsOf d = bitsOf e) : d = e := by
  rw [← BitVec.setWidth_eq d, ← BitVec.setWidth_eq e, ← ofBits_bitsOf, ← ofBits_bitsOf, h]

theorem length_bitsOfBytes (bytes : Bytes) : (bitsOfBytes bytes).length = 8 * bytes.length := by
  induction bytes with
  | nil => rfl
  | cons byte bytes ih =>
      rw [bitsOfBytes, List.flatMap_cons, List.length_append, length_bitsOf, ← bitsOfBytes, ih,
        List.length_cons]
      omega

theorem bitsOfBytes_injective {bytes others : Bytes} (h : bitsOfBytes bytes = bitsOfBytes others) :
    bytes = others := by
  induction bytes generalizing others with
  | nil =>
      cases others with
      | nil => rfl
      | cons other others =>
          have hlength := congrArg List.length h
          rw [length_bitsOfBytes, length_bitsOfBytes] at hlength
          simp at hlength
  | cons byte bytes ih =>
      cases others with
      | nil =>
          have hlength := congrArg List.length h
          rw [length_bitsOfBytes, length_bitsOfBytes] at hlength
          simp at hlength
      | cons other others =>
          obtain ⟨hbyte, hrest⟩ := List.append_inj (h : bitsOf byte.toBitVec ++ bitsOfBytes bytes
            = bitsOf other.toBitVec ++ bitsOfBytes others) (by simp)
          rw [UInt8.toBitVec_inj.mp (bitsOf_injective hbyte), ih hrest]

end Crc32

open Crc32

theorem ChecksumEngine.crc32_of_links {platform : Platform} (h : platform.LinksCrc32) {data : Bytes}
    (hdata : data.length < 2 ^ 32) : ChecksumEngine.crc32 platform data = checksum data := by
  rw [ChecksumEngine.crc32, Nat.mod_eq_of_lt hdata, List.take_length, Crc32.crc32_of_links h]

namespace FileStorageBackend

variable {platform : Platform} {backend : FileStorageBackend} {blockId : UInt64} {data : Bytes}
  {file : DiskFile} {ops : FileOps}

/-- The file of a block with content `data` has become `content`, by damage of up to 32 bits in a row
that leaves the size alone. -/
structure Damages (platform : Platform) (data content : Bytes) : Prop where
  burst : Burst 32 (bitsOfBytes (blockContent platform data)) (bitsOfBytes content)
  size_eq : slice content 8 8 = leBytes 8 (UInt64.ofNat data.length).toNat
  length_lt : data.length < 2 ^ 32

theorem getBlockPath_injective {other : UInt64} (h : getBlockPath blockId = getBlockPath other) :
    blockId = other := by
  have hname : Nat.toDigits 10 blockId.toNat = Nat.toDigits 10 other.toNat :=
    List.append_cancel_right (congrArg BlockPath.name h)
  have hvalue := congrArg (fun digits => Nat.ofDigitChars 10 digits 0) hname
  simp only [Nat.ofDigitChars_ten_toDigits] at hvalue
  exact UInt64.toNat_inj.mp hvalue

theorem openBlock_of_lookup (hfile : backend.disk.lookup (getBlockPath blockId) = some file)
    (hopen : ops.openBlock = true) {header : DiskBlockHeader}
    (hheader : DiskBlockHeader.ofBytes file.content = some header) :
    backend.openBlock ops blockId
      = if header.magic ≠ blockMagic then .error .corruptBlock else .ok (file.content, header) := by
  rw [openBlock, hfile]
  dsimp only
  rw [if_neg (by simp [hopen]), hheader]

/-- The first eight bytes of the file of a block. -/
def headOf (platform : Platform) (data : Bytes) : Bytes :=
  leBytes 4 blockMagic.toNat ++ leBytes 4 (ChecksumEngine.crc32 platform data).toNat

theorem blockContent_eq (platform : Platform) (data : Bytes) :
    blockContent platform data
      = headOf platform data ++ leBytes 8 (UInt64.ofNat data.length).toNat ++ data := by
  rw [blockContent, DiskBlockHeader.toBytes, headOf, List.append_assoc, List.append_assoc,
    List.append_assoc, List.append_assoc]

theorem length_headOf (platform : Platform) (data : Bytes) : (headOf platform data).length = 8 := by
  rw [headOf, List.length_append, length_leBytes, length_leBytes]

theorem leBytes_of_slice {content : Bytes} {pos : Nat} (h : pos + 4 ≤ content.length) :
    leBytes 4 (UInt32.ofNat (leValue (slice content pos 4))).toNat = slice content pos 4 := by
  have hlength : (slice content pos 4).length = 4 := length_slice h
  have hlt := leValue_lt (slice content pos 4)
  rw [hlength] at hlt
  have hback := leBytes_leValue (slice content pos 4)
  rw [hlength] at hback
  rwa [UInt32.toNat_ofNat_of_lt' hlt]

/-- What is left of the file: the head or the content, the size in any case. -/
structure Remains (platform : Platform) (data content : Bytes) : Prop where
  length_eq : content.length = DiskBlockHeader.size + data.length
  split_eq : content = content.take 8 ++ leBytes 8 (UInt64.ofNat data.length).toNat ++ content.drop 16
  head_or_rest : content.take 8 = headOf platform data ∨ content.drop 16 = data

theorem Damages.remains {content : Bytes} (h : Damages platform data content) :
    Remains platform data content := by
  have hlength : content.length = DiskBlockHeader.size + data.length := by
    have hbits := h.burst.length_eq
    rw [length_bitsOfBytes, length_bitsOfBytes, length_blockContent] at hbits
    omega
  have hsize : DiskBlockHeader.size = 16 := rfl
  have hsplit : content = content.take 8 ++ leBytes 8 (UInt64.ofNat data.length).toNat
      ++ content.drop 16 := by
    rw [← h.size_eq, slice, ← List.drop_drop (i := 8) (j := 8), List.append_assoc,
      List.take_append_drop, List.take_append_drop]
  refine ⟨hlength, hsplit, ?_⟩
  have hburst := h.burst
  rw [blockContent_eq, hsplit, bitsOfBytes_append, bitsOfBytes_append, bitsOfBytes_append,
    bitsOfBytes_append] at hburst
  have hhead : (bitsOfBytes (headOf platform data)).length = (bitsOfBytes (content.take 8)).length := by
    rw [length_bitsOfBytes, length_bitsOfBytes, length_headOf, List.length_take]
    omega
  rcases hburst.eq_or_eq hhead (by rw [length_bitsOfBytes, length_leBytes]; decide) with hsame | hsame
  · exact .inl (bitsOfBytes_injective hsame).symm
  · exact .inr (bitsOfBytes_injective hsame).symm

/-- The checksum in the header is not the one of the content any more, or the magic number is wrong. -/
theorem Damages.not_accepted {content : Bytes} (hlinks : platform.LinksCrc32)
    (h : Damages platform data content)
    (hmagic : UInt32.ofNat (leValue (slice content 0 4)) = blockMagic) :
    ChecksumEngine.crc32 platform (content.drop 16)
      ≠ UInt32.ofNat (leValue (slice content 4 4)) := by
  obtain ⟨hlength, hsplit, hremains⟩ := h.remains
  have hsize : DiskBlockHeader.size = 16 := rfl
  have hdata := h.length_lt
  intro hcrc
  have hrest : (content.drop 16).length < 2 ^ 32 := by
    rw [List.length_drop]
    omega
  rcases hremains with hhead | hsame
  · -- the checksum is the old one, and the content is damaged
    have hold : slice content 4 4 = leBytes 4 (ChecksumEngine.crc32 platform data).toNat := by
      rw [← slice_take (show 4 + 4 ≤ 8 by decide), hhead, headOf,
        slice_append_right (by rw [length_leBytes]), length_leBytes]
      exact slice_all (length_leBytes ..)
    rw [hold, ofNat_leValue_leBytes_four, ChecksumEngine.crc32_of_links hlinks hrest,
      ChecksumEngine.crc32_of_links hlinks hdata] at hcrc
    have hburst := h.burst
    rw [blockContent_eq, hsplit, hhead, bitsOfBytes_append, bitsOfBytes_append _ (content.drop 16)]
      at hburst
    exact checksum_ne_of_burst (Burst.append_left_iff.mp hburst) hcrc.symm
  · -- the content is the old one, so the head is too
    rw [hsame] at hcrc
    have hmagic' : leBytes 4 blockMagic.toNat = slice content 0 4 := by
      rw [← hmagic]
      exact leBytes_of_slice (by omega)
    have hchecksum : leBytes 4 (ChecksumEngine.crc32 platform data).toNat = slice content 4 4 := by
      rw [hcrc]
      exact leBytes_of_slice (by omega)
    have hhead : content.take 8 = headOf platform data := by
      rw [headOf, hmagic', hchecksum, slice, slice, List.drop_zero, ← List.take_add]
    refine h.burst.ne ?_
    rw [blockContent_eq, ← hhead]
    conv_rhs => rw [hsplit, hsame]

theorem readBlock_of_damages (hlinks : platform.LinksCrc32)
    (hfile : backend.disk.lookup (getBlockPath blockId) = some file) (hopen : ops.openBlock = true)
    (hdamage : Damages platform data file.content) :
    (backend.readBlock platform ops blockId).2 = .error (.returned .corruptBlock) := by
  have hlength := hdamage.remains.length_eq
  have hsize : DiskBlockHeader.size = 16 := rfl
  have hdata := hdamage.length_lt
  have hheader : DiskBlockHeader.ofBytes file.content = some
      { magic := UInt32.ofNat (leValue (slice file.content 0 4))
        checksum := UInt32.ofNat (leValue (slice file.content 4 4))
        dataSize := UInt64.ofNat data.length } := by
    rw [DiskBlockHeader.ofBytes, if_neg (by omega), hdamage.size_eq, ofNat_leValue_leBytes_eight]
  have hvalue : (UInt64.ofNat data.length).toNat = data.length :=
    UInt64.toNat_ofNat_of_lt' (by change data.length < 2 ^ 64; omega)
  have hvector : ¬ maxVectorSize < data.length := by
    rw [maxVectorSize]
    omega
  have hbuffer : slice file.content DiskBlockHeader.size data.length = file.content.drop 16 := by
    rw [slice, hsize]
    exact List.take_of_length_le (by rw [List.length_drop]; omega)
  rw [readBlock, openBlock_of_lookup hfile hopen hheader]
  by_cases hmagic : UInt32.ofNat (leValue (slice file.content 0 4)) = blockMagic
  · rw [if_neg (not_not.mpr hmagic)]
    dsimp only
    rw [hvalue, if_neg hvector, if_neg (by omega), hbuffer,
      if_pos (hdamage.not_accepted hlinks hmagic)]
  · rw [if_pos hmagic]

theorem readBlock_of_blockContent
    (hfile : backend.disk.lookup (getBlockPath blockId) = some file) (hopen : ops.openBlock = true)
    (hcontent : file.content = blockContent platform data) :
    (backend.readBlock platform ops blockId).2 = .ok data := by
  have hsame : backend.openBlock ops blockId = backend.openBlock {} blockId := by
    rw [openBlock, openBlock, hopen]
  rw [readBlock, hsame]
  exact readBlock_of_lookup hfile hcontent

/-! ### Runs -/

/-- A block that was written, and whether its file is as it was. -/
structure Kept where
  data : Bytes
  intact : Bool
deriving DecidableEq

inductive DiskEvent
  | write (ops : FileOps) (blockId : UInt64) (data : Bytes)
  | read (ops : FileOps) (blockId : UInt64)
  | readSpan (ops : FileOps) (blockId offset length : UInt64)
  | delete (ops : FileOps) (blockId : UInt64)
  | clear (ops : FileOps)
  /-- The process ends, and another one opens the directory. -/
  | restart (maxCapacityBytes : UInt64)
  /-- The process ends in a write before the renaming, with some of the temporary file there, and another
  one opens the directory. Where it ends behind the renaming, that is the write and a restart. -/
  | die (blockId : UInt64) (temp : DiskFile) (maxCapacityBytes : UInt64)
  | damage (blockId : UInt64) (file : DiskFile)

/-- The backend, and what was written last and not deleted since. -/
structure Watched where
  backend : FileStorageBackend
  kept : UInt64 → Option Kept

namespace Watched

variable (platform)

def step (watched : Watched) : DiskEvent → Watched
  | .write ops blockId data =>
      let (backend, status) := watched.backend.writeBlock platform ops blockId data
      { backend := backend
        kept :=
          if status = .success then
            Function.update watched.kept blockId (some { data := data, intact := true })
          else watched.kept }
  | .read ops blockId => { watched with backend := (watched.backend.readBlock platform ops blockId).1 }
  | .readSpan ops blockId offset length =>
      { watched with backend := (watched.backend.readSpan ops blockId offset length).1 }
  | .delete ops blockId =>
      let (backend, status) := watched.backend.deleteBlock ops blockId
      { backend := backend
        kept := if status = .success then Function.update watched.kept blockId none else watched.kept }
  | .clear ops =>
      { backend := watched.backend.clear ops
        kept := if ops.removeAll then fun _ => none else watched.kept }
  | .restart maxCapacityBytes => { watched with backend := new watched.backend.disk maxCapacityBytes }
  | .die blockId temp maxCapacityBytes =>
      { watched with
        backend := new (watched.backend.disk.insert (tempPath (getBlockPath blockId)) temp)
          maxCapacityBytes }
  | .damage blockId file =>
      { backend :=
          { watched.backend with disk := watched.backend.disk.insert (getBlockPath blockId) file }
        kept := Function.update watched.kept blockId
          ((watched.kept blockId).map fun kept => { kept with intact := false }) }

/-- A file is damaged only while it is as it was written. -/
def DamagedOnce (watched : Watched) : DiskEvent → Prop
  | .damage blockId file =>
      ∃ data, watched.kept blockId = some { data := data, intact := true }
        ∧ Damages platform data file.content
  | _ => True

def run (watched : Watched) (events : List DiskEvent) : Watched := events.foldl (step platform) watched

end Watched

/-- What a read makes of a block. -/
def answer (ops : FileOps) : Option Kept → Except ReadFailure Bytes
  | none => .error (.returned .notFound)
  | some kept =>
      if ¬ ops.openBlock then .error (.returned .ioError)
      else if kept.intact then .ok kept.data
      else .error (.returned .corruptBlock)

/-- The file of a block against what should be in it. -/
inductive Agrees (platform : Platform) : Option Kept → Option DiskFile → Prop
  | absent : Agrees platform none none
  | intact {data : Bytes} {file : DiskFile} (h : file.content = blockContent platform data) :
      Agrees platform (some { data := data, intact := true }) (some file)
  | damaged {data : Bytes} {file : DiskFile} (h : Damages platform data file.content) :
      Agrees platform (some { data := data, intact := false }) (some file)

/-- Every block file holds what it should. -/
def Faithful (platform : Platform) (watched : Watched) : Prop :=
  ∀ blockId, Agrees platform (watched.kept blockId)
    (watched.backend.disk.lookup (getBlockPath blockId))

variable {watched : Watched} {event : DiskEvent}

theorem Faithful.read_eq (hlinks : platform.LinksCrc32) (h : Faithful platform watched) (ops : FileOps)
    (blockId : UInt64) :
    (watched.backend.readBlock platform ops blockId).2 = answer ops (watched.kept blockId) := by
  have hagrees := h blockId
  generalize hkept : watched.kept blockId = kept at hagrees
  generalize hfile : watched.backend.disk.lookup (getBlockPath blockId) = found at hagrees
  cases hagrees with
  | absent =>
      rw [readBlock, openBlock, hfile]
      rfl
  | intact hcontent =>
      by_cases hopen : ops.openBlock = true
      · rw [readBlock_of_blockContent hfile hopen hcontent]
        simp [answer, hopen]
      · rw [readBlock, openBlock, hfile]
        simp [answer, hopen]
  | damaged hdamage =>
      by_cases hopen : ops.openBlock = true
      · rw [readBlock_of_damages hlinks hfile hopen hdamage]
        simp [answer, hopen]
      · rw [readBlock, openBlock, hfile]
        simp [answer, hopen]

theorem tempPath_ne (blockId other : UInt64) :
    getBlockPath other ≠ tempPath (getBlockPath blockId) := by
  intro heq
  have hfile := isBlockFile_getBlockPath other
  rw [heq, isBlockFile_tempPath] at hfile
  cases hfile

/-- The temporary file is no block's. -/
theorem lookup_erase_tempPath (disk : Disk) (blockId other : UInt64) :
    (disk.erase (tempPath (getBlockPath blockId))).lookup (getBlockPath other)
      = disk.lookup (getBlockPath other) :=
  AList.lookup_erase_ne (tempPath_ne blockId other)

theorem lookup_insert_of_ne (disk : Disk) {blockId other : UInt64} (file : DiskFile)
    (hne : other ≠ blockId) :
    (disk.insert (getBlockPath blockId) file).lookup (getBlockPath other)
      = disk.lookup (getBlockPath other) :=
  AList.lookup_insert_ne fun heq => hne (getBlockPath_injective heq)

/-- A write puts the block into its file, or reports an error and leaves every block alone. -/
theorem writeBlock_cases (platform : Platform) (backend : FileStorageBackend) (ops : FileOps)
    (blockId : UInt64) (data : Bytes) :
    ((backend.writeBlock platform ops blockId data).2 = .success
        ∧ ∃ file : DiskFile, file.content = blockContent platform data
          ∧ ∀ other, (backend.writeBlock platform ops blockId data).1.disk.lookup (getBlockPath other)
            = if other = blockId then some file else backend.disk.lookup (getBlockPath other))
      ∨ ((backend.writeBlock platform ops blockId data).2 ≠ .success
        ∧ ∀ other, (backend.writeBlock platform ops blockId data).1.disk.lookup (getBlockPath other)
          = backend.disk.lookup (getBlockPath other)) := by
  unfold writeBlock
  dsimp only
  by_cases hfull : backend.maxCapacityBytes < backend.currentBytes
      + (UInt64.ofNat DiskBlockHeader.size + UInt64.ofNat data.length)
  · rw [if_pos hfull]
    exact .inr ⟨by simp, fun _ => rfl⟩
  rw [if_neg hfull]
  by_cases hdirectories : ops.createDirectories = true
  swap
  · rw [if_pos hdirectories]
    exact .inr ⟨by simp, fun _ => rfl⟩
  rw [if_neg (not_not.mpr hdirectories)]
  by_cases htemp : ops.openTemp = true
  swap
  · rw [if_pos htemp]
    exact .inr ⟨by simp, fun _ => rfl⟩
  rw [if_neg (not_not.mpr htemp)]
  by_cases hwrite : ops.writeTemp = true ∧ (blockContent platform data).length < 2 ^ 63
  swap
  · rw [dif_neg hwrite]
    exact .inr ⟨by simp, fun other => lookup_erase_tempPath _ _ _⟩
  rw [dif_pos hwrite]
  by_cases hrename : ops.rename = true
  swap
  · rw [if_pos hrename]
    exact .inr ⟨by simp, fun other => lookup_erase_tempPath _ _ _⟩
  rw [if_neg (not_not.mpr hrename)]
  refine .inl ⟨rfl, ⟨_, hwrite.2⟩, rfl, fun other => ?_⟩
  dsimp only
  split
  · next heq => rw [heq, AList.lookup_insert]
  · next hne => rw [lookup_insert_of_ne _ _ hne, lookup_erase_tempPath]

theorem deleteBlock_cases (backend : FileStorageBackend) (ops : FileOps) (blockId : UInt64) :
    ((backend.deleteBlock ops blockId).2 = .success
        ∧ ∀ other, (backend.deleteBlock ops blockId).1.disk.lookup (getBlockPath other)
          = if other = blockId then none else backend.disk.lookup (getBlockPath other))
      ∨ ((backend.deleteBlock ops blockId).2 ≠ .success
        ∧ (backend.deleteBlock ops blockId).1 = backend) := by
  unfold deleteBlock
  dsimp only
  cases backend.disk.lookup (getBlockPath blockId) with
  | none => exact .inr ⟨by simp, rfl⟩
  | some file =>
      dsimp only
      split
      · exact .inr ⟨by simp, rfl⟩
      · refine .inl ⟨rfl, fun other => ?_⟩
        dsimp only
        split
        · next heq => rw [heq, AList.lookup_erase]
        · next hne => exact AList.lookup_erase_ne fun heq => hne (getBlockPath_injective heq)

theorem Faithful.congr {other : Watched} (h : Faithful platform watched)
    (hkept : other.kept = watched.kept)
    (hdisk : ∀ blockId, other.backend.disk.lookup (getBlockPath blockId)
      = watched.backend.disk.lookup (getBlockPath blockId)) : Faithful platform other := by
  intro blockId
  rw [hkept, hdisk]
  exact h blockId

theorem Faithful.step (h : Faithful platform watched) (honce : watched.DamagedOnce platform event) :
    Faithful platform (watched.step platform event) := by
  cases event with
  | write ops blockId data =>
      rcases writeBlock_cases platform watched.backend ops blockId data with
        ⟨hstatus, file, hcontent, hdisk⟩ | ⟨hstatus, hdisk⟩
      · intro other
        simp only [Watched.step, hstatus, if_true, hdisk, Function.update_apply]
        split
        · exact .intact hcontent
        · exact h other
      · exact h.congr (if_neg hstatus) hdisk
  | read ops blockId =>
      refine h.congr rfl fun other => ?_
      rcases readBlock_fst platform ops watched.backend blockId with hsame | hsame
      · simp only [Watched.step, hsame]
      · simp only [Watched.step, hsame]
        rfl
  | readSpan ops blockId offset length =>
      refine h.congr rfl fun other => ?_
      rcases readSpan_fst ops watched.backend blockId offset length with hsame | hsame
      · simp only [Watched.step, hsame]
      · simp only [Watched.step, hsame]
        rfl
  | delete ops blockId =>
      rcases deleteBlock_cases watched.backend ops blockId with
        ⟨hstatus, hdisk⟩ | ⟨hstatus, hdisk⟩
      · intro other
        simp only [Watched.step, hstatus, if_true, hdisk, Function.update_apply]
        split
        · exact .absent
        · exact h other
      · refine h.congr (if_neg hstatus) fun other => ?_
        simp only [Watched.step, hdisk]
  | clear ops =>
      cases hall : ops.removeAll with
      | true =>
          intro other
          simp only [Watched.step, FileStorageBackend.clear, hall, if_true]
          exact .absent
      | false =>
          refine h.congr ?_ fun other => ?_ <;>
            simp [Watched.step, FileStorageBackend.clear, hall]
  | restart maxCapacityBytes => exact h.congr rfl fun _ => rfl
  | die blockId temp maxCapacityBytes =>
      exact h.congr rfl fun other => AList.lookup_insert_ne (tempPath_ne blockId other)
  | damage blockId file =>
      obtain ⟨data, hkept, hdamage⟩ := honce
      intro other
      simp only [Watched.step, Function.update_apply]
      split
      · next heq =>
          rw [heq, AList.lookup_insert, hkept]
          exact .damaged hdamage
      · next hne =>
          rw [lookup_insert_of_ne _ _ hne]
          exact h other

theorem faithful_new (platform : Platform) (maxCapacityBytes : UInt64) :
    Faithful platform { backend := new ∅ maxCapacityBytes, kept := fun _ => none } :=
  fun _ => .absent

/-- In every run a read answers with what was written last and not deleted since, or says that the file
was damaged. -/
theorem reads_survive (hlinks : platform.LinksCrc32) (maxCapacityBytes : UInt64)
    {events : List DiskEvent}
    (honce : Runs.Along (fun watched event after => Watched.step platform watched event = after)
      (Watched.DamagedOnce platform)
      { backend := new ∅ maxCapacityBytes, kept := fun _ => none } events)
    (ops : FileOps) (blockId : UInt64) :
    let watched := Watched.run platform { backend := new ∅ maxCapacityBytes, kept := fun _ => none }
      events
    (watched.backend.readBlock platform ops blockId).2 = answer ops (watched.kept blockId) :=
  (Runs.foldl_of_side (Faithful platform) (fun _ _ h hside => h.step hside)
    (faithful_new platform maxCapacityBytes) honce).read_eq hlinks ops blockId

/-- The file of the block `[1, 2, 3]` with a bit of its last byte gone. -/
def damagedThree : DiskFile where
  content := headOf .reference [1, 2, 3] ++ leBytes 8 3 ++ [1, 2, 2]
  size_lt := by decide

theorem damages_damagedThree : Damages .reference [1, 2, 3] damagedThree.content where
  burst := by
    rw [blockContent_eq, bitsOfBytes_append]
    change Burst 32 _ (bitsOfBytes (headOf .reference [1, 2, 3] ++ leBytes 8 3 ++ [1, 2, 2]))
    rw [bitsOfBytes_append _ [1, 2, 2]]
    exact Burst.append_left_iff.mpr (.of_length_le (by decide) (by decide) (by decide))
  size_eq := by decide +kernel
  length_lt := by decide

theorem reads_survive_damagedThree :
    let watched := Watched.run .reference { backend := new ∅ 100, kept := fun _ => none }
      [.write {} 5 [1, 2, 3], .damage 5 damagedThree, .write { writeTemp := false } 7 [9], .restart 100]
    (watched.backend.readBlock .reference {} 5).2 = answer {} (watched.kept 5) := by
  have honce : Runs.Along (fun watched event after => Watched.step .reference watched event = after)
      (Watched.DamagedOnce .reference) { backend := new ∅ 100, kept := fun _ => none }
      [.write {} 5 [1, 2, 3], .damage 5 damagedThree, .write { writeTemp := false } 7 [9],
        .restart 100] := by
    refine ⟨trivial, ?_⟩
    rintro _ rfl
    refine ⟨⟨[1, 2, 3], by decide +kernel, damages_damagedThree⟩, ?_⟩
    rintro _ rfl
    refine ⟨trivial, ?_⟩
    rintro _ rfl
    exact ⟨trivial, fun _ _ => trivial⟩
  exact reads_survive links_reference 100 honce {} 5

end FileStorageBackend

end NebulaFS
