import NebulaFS.Lib.Association
import NebulaFS.Lib.LittleEndian
import NebulaFS.StorageBackend

/-!
# Block storage in files

`storage/backend/FileStorageBackend.cpp`. A block is a file with a header of 16 bytes before its content.
A write goes to a temporary file, which then takes the place of the old one. Which of its file operations
succeed is an argument of every call; looking whether a file is there, and how large it is, always does,
and so does the removal of a temporary file that was not completed. The locks are left out.
-/

namespace NebulaFS

open Cursor LittleEndian

/-- A path below the root directory: a directory there, and a file in it. -/
structure BlockPath where
  directory : List Char
  name : List Char
deriving DecidableEq

/-- A regular file. Its size is an `off_t`. -/
structure DiskFile where
  content : Bytes
  size_lt : content.length < 2 ^ 63

/-- What is below the root directory. -/
abbrev Disk := UnorderedMap BlockPath DiskFile

/-- The file operations of a call, with whether they succeed. -/
structure FileOps where
  createDirectories : Bool := true
  openTemp : Bool := true
  writeTemp : Bool := true
  rename : Bool := true
  openBlock : Bool := true
  seek : Bool := true
  remove : Bool := true
  removeAll : Bool := true
deriving DecidableEq

/-- How a read fails: with the error it returns, or where `std::vector` throws at the size of a buffer. A
buffer of a size that a vector can have is taken to be allocated. -/
inductive ReadFailure
  | returned (e : StorageError)
  | lengthError
deriving DecidableEq

/-- `max_size()` of a `std::vector<uint8_t>`. -/
def maxVectorSize : Nat := 2 ^ 63 - 1

/-- `kBlockMagic`. -/
def blockMagic : UInt32 := 0x4E424C4B

structure DiskBlockHeader where
  magic : UInt32 := blockMagic
  checksum : UInt32 := 0
  dataSize : UInt64 := 0
deriving DecidableEq

namespace DiskBlockHeader

/-- `sizeof(DiskBlockHeader)`, which is packed. -/
def size : Nat := 16

def toBytes (header : DiskBlockHeader) : Bytes :=
  leBytes 4 header.magic.toNat ++ (leBytes 4 header.checksum.toNat ++ leBytes 8 header.dataSize.toNat)

def ofBytes (content : Bytes) : Option DiskBlockHeader :=
  if content.length < size then none
  else
    some
      { magic := UInt32.ofNat (leValue (slice content 0 4))
        checksum := UInt32.ofNat (leValue (slice content 4 4))
        dataSize := UInt64.ofNat (leValue (slice content 8 8)) }

end DiskBlockHeader

structure FileStorageBackend where
  disk : Disk := ∅
  maxCapacityBytes : UInt64 := 1024 * 1024 * 1024
  currentBytes : UInt64 := 0
  blockCount : UInt64 := 0
  counters : StorageStats := {}

namespace FileStorageBackend

/-- The directory is the low byte of the id in two digits. -/
def getBlockPath (blockId : UInt64) : BlockPath :=
  { directory := [Nat.digitChar (blockId.toNat % 256 / 16), Nat.digitChar (blockId.toNat % 16)]
    name := Nat.toDigits 10 blockId.toNat ++ ['.', 'b', 'l', 'k'] }

def tempPath (path : BlockPath) : BlockPath :=
  { path with name := path.name ++ ['.', 't', 'm', 'p'] }

/-- `extension() == ".blk"`: a name that begins with its only dot has no extension. -/
def isBlockFile (path : BlockPath) : Bool :=
  ['.', 'b', 'l', 'k'].isSuffixOf path.name && 4 < path.name.length

def blockFiles (disk : Disk) : Disk :=
  disk.filterMapValues fun path file => if isBlockFile path then some file else none

/-- The constructor, which scans the files that are already there. -/
def new (disk : Disk) (maxCapacityBytes : UInt64) : FileStorageBackend :=
  { disk := disk
    maxCapacityBytes := maxCapacityBytes
    currentBytes := (blockFiles disk).entries.foldl
      (fun bytes entry => bytes + UInt64.ofNat entry.2.content.length) 0
    blockCount := UInt64.ofNat (blockFiles disk).entries.length
    counters := { capacityBytes := maxCapacityBytes } }

def blockContent (platform : Platform) (data : Bytes) : Bytes :=
  let header : DiskBlockHeader :=
    { checksum := ChecksumEngine.crc32 platform data, dataSize := UInt64.ofNat data.length }
  header.toBytes ++ data

/-- The capacity check does not look at the block that is replaced. -/
def writeBlock (platform : Platform) (ops : FileOps) (backend : FileStorageBackend)
    (blockId : UInt64) (data : Bytes) : FileStorageBackend × StorageError :=
  let totalNewBytes := UInt64.ofNat DiskBlockHeader.size + UInt64.ofNat data.length
  if backend.maxCapacityBytes < backend.currentBytes + totalNewBytes then
    (backend, .capacityExceeded)
  else
    let targetPath := getBlockPath blockId
    if ¬ ops.createDirectories then (backend, .ioError)
    else if ¬ ops.openTemp then (backend, .ioError)
    else
      let disk := backend.disk.erase (tempPath targetPath)
      -- a file grows no larger than an `off_t` can say
      if h : ops.writeTemp ∧ (blockContent platform data).length < 2 ^ 63 then
        let existing := backend.disk.lookup targetPath
        let oldSize := match existing with
          | some file => UInt64.ofNat file.content.length
          | none => 0
        if ¬ ops.rename then ({ backend with disk := disk }, .ioError)
        else
          let blockCount := if existing.isSome then backend.blockCount else backend.blockCount + 1
          let currentBytes := backend.currentBytes + totalNewBytes - oldSize
          ({ backend with
              disk := disk.insert targetPath ⟨blockContent platform data, h.2⟩
              currentBytes := currentBytes
              blockCount := blockCount
              counters := { backend.counters with
                writeOps := backend.counters.writeOps + 1
                totalBlocks := blockCount.toNat
                totalBytes := currentBytes } }, .success)
      else ({ backend with disk := disk }, .ioError)

def countRead (backend : FileStorageBackend) : FileStorageBackend :=
  { backend with counters := { backend.counters with readOps := backend.counters.readOps + 1 } }

/-- What both reads begin with. -/
def openBlock (ops : FileOps) (backend : FileStorageBackend) (blockId : UInt64) :
    Except StorageError (Bytes × DiskBlockHeader) :=
  match backend.disk.lookup (getBlockPath blockId) with
  | none => .error .notFound
  | some file =>
      if ¬ ops.openBlock then .error .ioError
      else
        match DiskBlockHeader.ofBytes file.content with
        | none => .error .corruptBlock
        | some header =>
            if header.magic ≠ blockMagic then .error .corruptBlock else .ok (file.content, header)

def readBlock (platform : Platform) (ops : FileOps) (backend : FileStorageBackend)
    (blockId : UInt64) : FileStorageBackend × Except ReadFailure Bytes :=
  match openBlock ops backend blockId with
  | .error e => (backend, .error (.returned e))
  | .ok (content, header) =>
      let dataSize := header.dataSize.toNat
      if maxVectorSize < dataSize then (backend, .error .lengthError)
      else if content.length < DiskBlockHeader.size + dataSize then
        (backend, .error (.returned .corruptBlock))
      else
        let buffer := slice content DiskBlockHeader.size dataSize
        if ChecksumEngine.crc32 platform buffer ≠ header.checksum then
          (backend, .error (.returned .corruptBlock))
        else (backend.countRead, .ok buffer)

/-- The check adds in `size_t`, and so does the position, which is then taken as a signed number. -/
def readSpan (ops : FileOps) (backend : FileStorageBackend) (blockId offset length : UInt64) :
    FileStorageBackend × Except ReadFailure Bytes :=
  match openBlock ops backend blockId with
  | .error e => (backend, .error (.returned e))
  | .ok (content, header) =>
      if header.dataSize < offset + length then (backend, .error (.returned .invalidOffset))
      else
        let pos := (UInt64.ofNat DiskBlockHeader.size + offset).toNat
        if 2 ^ 63 ≤ pos ∨ ¬ ops.seek then (backend, .error (.returned .ioError))
        else if maxVectorSize < length.toNat then (backend, .error .lengthError)
        else if 0 < length.toNat ∧ content.length < pos + length.toNat then
          (backend, .error (.returned .ioError))
        else (backend.countRead, .ok (slice content pos length.toNat))

def deleteBlock (ops : FileOps) (backend : FileStorageBackend) (blockId : UInt64) :
    FileStorageBackend × StorageError :=
  let path := getBlockPath blockId
  match backend.disk.lookup path with
  | none => (backend, .notFound)
  | some file =>
      if ¬ ops.remove then (backend, .ioError)
      else
        let sz := UInt64.ofNat file.content.length
        let blockCount := if 0 < backend.blockCount then backend.blockCount - 1 else backend.blockCount
        let currentBytes := if sz ≤ backend.currentBytes then backend.currentBytes - sz else 0
        ({ backend with
            disk := backend.disk.erase path
            currentBytes := currentBytes
            blockCount := blockCount
            counters := { backend.counters with
              deleteOps := backend.counters.deleteOps + 1
              totalBlocks := blockCount.toNat
              totalBytes := currentBytes } }, .success)

def hasBlock (backend : FileStorageBackend) (blockId : UInt64) : Bool :=
  (backend.disk.lookup (getBlockPath blockId)).isSome

def stats (backend : FileStorageBackend) : StorageStats :=
  { backend.counters with
    totalBlocks := backend.blockCount.toNat
    totalBytes := backend.currentBytes
    capacityBytes := backend.maxCapacityBytes }

/-- The counts go to zero also where the directory cannot be removed. A removal that fails partway has
taken some of the files: in a run those are deletions, with a `clear` behind them that removes nothing. -/
def clear (ops : FileOps) (backend : FileStorageBackend) : FileStorageBackend :=
  { backend with
    disk := if ops.removeAll then ∅ else backend.disk
    currentBytes := 0
    blockCount := 0
    counters := { backend.counters with totalBlocks := 0, totalBytes := 0 } }

end FileStorageBackend

end NebulaFS
