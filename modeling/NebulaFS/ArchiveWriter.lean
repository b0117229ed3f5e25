import NebulaFS.ArchiveHeader
import NebulaFS.ChunkManager
import NebulaFS.Compression
import NebulaFS.DirectoryTree
import NebulaFS.Encryption
import NebulaFS.IndexManager
import NebulaFS.Journal
import NebulaFS.Lib.SparseFile
import NebulaFS.Metadata

/-!
# The archive writer

`archive/ArchiveWriter.cpp`. `open` leaves room for the header and the adds append their data behind
it. The sections that describe the data, and the header that points to them, are written by `close`,
the header last. The file is the sequence of its writes, so that a crash is a first part of it.

What the outside contributes is passed in: the readings of the clock, the answers of OpenSSL, the
content of a source file, and which writes the device refuses.
-/

namespace NebulaFS

/-- The disk under an output file. A `std::streamoff` has 63 bits for a position. -/
structure Device where
  openable : Bool
  capacity : Fin (2 ^ 63)
  /-- Whether the device takes the write after this many. -/
  accepts : Nat → Bool

def Device.ample : Device :=
  { openable := true, capacity := ⟨2 ^ 63 - 1, by decide⟩, accepts := fun _ => true }

/-- `std::ofstream`: the writes that went through, the position of the next one, and whether none has
failed. -/
structure OFStream where
  device : Device
  writes : List SparseFile.Write := []
  pos : Nat := 0
  good : Bool := true

namespace OFStream

def seekp (file : OFStream) (pos : Nat) : OFStream :=
  if file.good then { file with pos := pos } else file

def write (file : OFStream) (data : Bytes) : OFStream :=
  if file.good ∧ file.pos + data.length ≤ file.device.capacity
      ∧ file.device.accepts file.writes.length then
    { file with writes := file.writes ++ [⟨file.pos, data⟩], pos := file.pos + data.length }
  else { file with good := false }

def content (file : OFStream) : Bytes := SparseFile.replay file.writes

end OFStream

structure WriterConfig where
  compression : CompressionAlgorithm := .zstd
  compressionLevel : Int := 3
  encryption : EncryptionAlgorithm := .none
  enableDedup : Bool := true
  enableJournal : Bool := true
deriving DecidableEq

structure ArchiveWriter where
  config : WriterConfig := {}
  file : OFStream
  header : ArchiveHeader := {}
  compression : CompressionEngine := {}
  encryption : Option EncryptionEngine := none
  chunkManager : ChunkManager := {}
  indexManager : IndexManager := {}
  metadata : MetadataStore := {}
  directoryTree : DirectoryTree := {}
  journal : Option JournalManager := none
  entryCount : Nat := 0
  currentOffset : Nat := 0
  isOpen : Bool := false
  finalized : Bool := false

/-- What one add reads from outside: the clock, for the entry and for its journal record, and the
answers of OpenSSL. -/
structure Surroundings where
  now : Timestamp
  logNow : Timestamp
  evp : Evp

def Surroundings.plain : Surroundings := { now := {}, logNow := {}, evp := .refusing }

namespace ArchiveWriter

section

variable (platform : Platform)

/-- The constructor, for a file that will be made on `device`. -/
def new (config : WriterConfig) (device : Device) (ctxNew : Bool := true) : ArchiveWriter :=
  { config := config
    file := { device := device }
    compression := { config := { algorithm := config.compression
                                 compressionLevel := config.compressionLevel } }
    encryption :=
      if config.encryption ≠ .none then
        some (EncryptionEngine.new platform { algorithm := config.encryption } ctxNew)
      else none
    journal := if config.enableJournal then some (JournalManager.new {}) else none }

end

def openFlags (config : WriterConfig) : UInt16 :=
  HeaderFlags.none
    ||| (if config.enableJournal then HeaderFlags.journaled else 0)
    ||| (if config.enableDedup then HeaderFlags.dedup else 0)
    ||| (if config.compression ≠ .none then HeaderFlags.compressed else 0)
    ||| (if config.encryption ≠ .none then HeaderFlags.encrypted else 0)

def openArchive (writer : ArchiveWriter) (now : Timestamp) : ArchiveWriter × Status :=
  if writer.isOpen then (writer, some (.returned .invalidOperation))
  else if ¬ writer.file.device.openable then (writer, some (.returned .ioError))
  else
    let file : OFStream := { device := writer.file.device }
    ({ writer with
        file := file.seekp ArchiveHeader.headerSize
        header := { writer.header with
          flags := openFlags writer.config
          archiveSize := UInt64.ofNat ArchiveHeader.headerSize }
        currentOffset := ArchiveHeader.headerSize
        journal := writer.journal.map fun journal => (journal.beginCheckpoint now).1
        isOpen := true
        finalized := false }, none)

/-! ### Adding entries -/

section

variable (platform : Platform)

/-- The data after the compression step, and the algorithm that was applied to it. A failed
compression leaves the data as it is. -/
def compressStage (writer : ArchiveWriter) (data : Bytes) : Bytes × CompressionAlgorithm :=
  if writer.config.compression ≠ .none ∧ data ≠ [] then
    let result := writer.compression.compress platform data
    if result.success then (result.data, writer.config.compression) else (data, .none)
  else (data, .none)

/-- The data after the encryption step. A failed encryption leaves it as it is. -/
def encryptStage (writer : ArchiveWriter) (evp : Evp) (data processed : Bytes) : Bytes :=
  match writer.encryption with
  | none => processed
  | some engine =>
      if writer.config.encryption ≠ .none ∧ data ≠ [] then
        let result := engine.encrypt platform evp processed
        if result.success then result.data else processed
      else processed

def processedData (writer : ArchiveWriter) (evp : Evp) (data : Bytes) : Bytes :=
  writer.encryptStage platform evp data (writer.compressStage platform data).1

def completeEntry (writer : ArchiveWriter) (evp : Evp) (data : Bytes) (entry : ArchiveEntry) :
    ArchiveEntry :=
  { entry with
    compression := (writer.compressStage platform data).2
    checksum := ChecksumEngine.compute platform data
    storedSize := UInt64.ofNat (writer.processedData platform evp data).length
    offset := UInt64.ofNat writer.currentOffset }

/-- `journal_->logCreate(id, data)`, its status dropped. -/
def logCreate (writer : ArchiveWriter) (id : EntryID) (data : Bytes) (now : Timestamp) :
    ArchiveWriter :=
  { writer with
    journal := writer.journal.map fun journal => (journal.logCreate platform id data now).1 }

def takeEntry (writer : ArchiveWriter) (entry : ArchiveEntry) : ArchiveWriter :=
  { writer with
    indexManager := writer.indexManager.insert entry
    entryCount := writer.entryCount + 1 }

def processAndWriteEntry (writer : ArchiveWriter) (around : Surroundings) (data : Bytes)
    (entry : ArchiveEntry) : ArchiveWriter × Status :=
  let processed := writer.processedData platform around.evp data
  let entry := writer.completeEntry platform around.evp data entry
  let writer := { writer with file := writer.file.write processed }
  if ¬ writer.file.good then (writer, some (.returned .ioError))
  else
    let writer := { writer with currentOffset := writer.currentOffset + processed.length }
    match writer.directoryTree.insert entry with
    | (tree, some e) => ({ writer with directoryTree := tree }, some e)
    | (tree, none) =>
        let writer := { writer with directoryTree := tree }.takeEntry entry
        let writer := { writer with
          header := { writer.header with
            entryCount := UInt64.ofNat writer.entryCount
            archiveSize := UInt64.ofNat (writer.currentOffset + ArchiveHeader.headerSize) } }
        (writer.logCreate platform entry.id processed around.logNow, none)

def newEntry (writer : ArchiveWriter) (type : EntryType) (path : Bytes) (now : Timestamp) :
    ArchiveEntry :=
  { id := UInt64.ofNat (writer.entryCount + 1)
    type := type
    path := path
    name := fileName path
    createdAt := now
    modifiedAt := now }

def fileEntry (writer : ArchiveWriter) (data path : Bytes) (now : Timestamp) : ArchiveEntry :=
  { writer.newEntry .file path now with
    originalSize := UInt64.ofNat data.length
    flags :=
      EntryFlags.none
        ||| (if writer.config.compression ≠ .none then EntryFlags.compressed else 0)
        ||| (if writer.config.encryption ≠ .none then EntryFlags.encrypted else 0) }

def symlinkEntry (writer : ArchiveWriter) (target path : Bytes) (now : Timestamp) :
    ArchiveEntry :=
  { writer.newEntry .symlink path now with originalSize := UInt64.ofNat target.length }

def blobEntry (writer : ArchiveWriter) (data path : Bytes) (flags : EntryFlags)
    (now : Timestamp) : ArchiveEntry :=
  { writer.newEntry .block path now with
    originalSize := UInt64.ofNat data.length
    flags := flags ||| EntryFlags.compressed }

def directoryEntry (writer : ArchiveWriter) (path : Bytes) (perms : Permissions)
    (now : Timestamp) : ArchiveEntry :=
  { writer.newEntry .directory path now with permissions := perms }

/-- `addFile`, given the content of the source file if it can be read. -/
def addFile (writer : ArchiveWriter) (around : Surroundings) (source : Option Bytes)
    (path : Bytes) : ArchiveWriter × Status :=
  if ¬ writer.isOpen then (writer, some (.returned .invalidOperation))
  else
    match source with
    | none => (writer, some (.returned .ioError))
    | some data =>
        writer.processAndWriteEntry platform around data (writer.fileEntry data path around.now)

def addSymlink (writer : ArchiveWriter) (around : Surroundings) (target path : Bytes) :
    ArchiveWriter × Status :=
  if ¬ writer.isOpen then (writer, some (.returned .invalidOperation))
  else
    writer.processAndWriteEntry platform around target (writer.symlinkEntry target path around.now)

def addBlob (writer : ArchiveWriter) (around : Surroundings) (data path : Bytes)
    (flags : EntryFlags := EntryFlags.none) : ArchiveWriter × Status :=
  if ¬ writer.isOpen then (writer, some (.returned .invalidOperation))
  else
    writer.processAndWriteEntry platform around data (writer.blobEntry data path flags around.now)

/-- `addDirectory` writes nothing to the file, and does not tell the header about the entry. -/
def addDirectory (writer : ArchiveWriter) (around : Surroundings) (path : Bytes)
    (perms : Permissions := {}) : ArchiveWriter × Status :=
  if ¬ writer.isOpen then (writer, some (.returned .invalidOperation))
  else
    let entry := writer.directoryEntry path perms around.now
    match writer.directoryTree.insert entry with
    | (tree, some e) => ({ writer with directoryTree := tree }, some e)
    | (tree, none) =>
        let writer := { writer with directoryTree := tree }.takeEntry entry
        (writer.logCreate platform entry.id [] around.logNow, none)

end

def setMetadata (writer : ArchiveWriter) (key value : Bytes) : ArchiveWriter :=
  { writer with metadata := writer.metadata.set key value }

def setEncryptionKey (writer : ArchiveWriter) (key : Bytes) : ArchiveWriter :=
  { writer with encryption := writer.encryption.map (·.setKey key) }

def setCompression (writer : ArchiveWriter) (algo : CompressionAlgorithm) (level : Int) :
    ArchiveWriter :=
  { writer with
    config := { writer.config with compression := algo, compressionLevel := level }
    compression := { config := { algorithm := algo, compressionLevel := level } } }

/-! ### Closing -/

structure CloseTimes where
  endNow : Timestamp := {}
  commitNow : Timestamp := {}
  journalNow : Timestamp := {}

def andThen (result : ArchiveWriter × Status)
    (next : ArchiveWriter → ArchiveWriter × Status) : ArchiveWriter × Status :=
  match result with
  | (writer, some e) => (writer, some e)
  | (writer, none) => next writer

/-- What the section writers share: note offset and size in the header, write, advance. -/
def writeSection (note : ArchiveHeader → UInt64 → UInt64 → ArchiveHeader) (data : Bytes)
    (writer : ArchiveWriter) : ArchiveWriter × Status :=
  let writer := { writer with
    header := note writer.header (UInt64.ofNat writer.currentOffset) (UInt64.ofNat data.length)
    file := writer.file.write data }
  if ¬ writer.file.good then (writer, some (.returned .ioError))
  else ({ writer with currentOffset := writer.currentOffset + data.length }, none)

def writeMetadataSection (writer : ArchiveWriter) : ArchiveWriter × Status :=
  writer.writeSection
    (fun header offset size => { header with metadataOffset := offset, metadataSize := size })
    writer.metadata.serialize

def writeDirectorySection (writer : ArchiveWriter) : ArchiveWriter × Status :=
  writer.writeSection
    (fun header offset size => { header with directoryOffset := offset, directorySize := size })
    writer.directoryTree.serialize

def writeIndexSection (writer : ArchiveWriter) : ArchiveWriter × Status :=
  writer.writeSection
    (fun header offset size => { header with indexOffset := offset, indexSize := size })
    writer.indexManager.serialize

def writeChunkSection (writer : ArchiveWriter) : ArchiveWriter × Status :=
  writer.writeSection
    (fun header offset size => { header with chunkOffset := offset, chunkSize := size })
    writer.chunkManager.serialize

/-- The blocks section is a placeholder in the source. -/
def writeBlocksSection (writer : ArchiveWriter) : ArchiveWriter × Status :=
  ({ writer with
      header := { writer.header with
        blocksOffset := UInt64.ofNat writer.currentOffset
        blocksSize := 0 } }, none)

def writeJournalSection (now : Timestamp) (writer : ArchiveWriter) : ArchiveWriter × Status :=
  match writer.journal with
  | none => (writer, none)
  | some journal =>
      let journal := (journal.endCheckpoint now).1
      { writer with journal := some journal }.writeSection
        (fun header offset size => { header with journalOffset := offset, journalSize := size })
        journal.serialize

section

variable (platform : Platform)

def writeHeader (writer : ArchiveWriter) : ArchiveWriter × Status :=
  let header := writer.header.updateChecksum platform
  let writer := { writer with
    header := header
    file := (writer.file.seekp 0).write header.serialize }
  if ¬ writer.file.good then (writer, some (.returned .ioError)) else (writer, none)

def finalizeArchive (times : CloseTimes) (writer : ArchiveWriter) : ArchiveWriter × Status :=
  let writer : ArchiveWriter := { writer with
    journal := writer.journal.map fun journal => (journal.commit times.endNow times.commitNow).1 }
  andThen (andThen (andThen (andThen (andThen (andThen
    writer.writeMetadataSection
    writeDirectorySection)
    writeIndexSection)
    writeChunkSection)
    writeBlocksSection)
    (writeJournalSection times.journalNow))
    fun writer =>
      { writer with
        header := { writer.header with
          archiveSize := UInt64.ofNat writer.currentOffset } }.writeHeader platform

def close (times : CloseTimes) (writer : ArchiveWriter) : ArchiveWriter × Status :=
  if ¬ writer.isOpen then (writer, some (.returned .invalidOperation))
  else
    match writer.finalizeArchive platform times with
    | (writer, some e) => (writer, some e)
    | (writer, none) => ({ writer with isOpen := false, finalized := true }, none)

end

/-- `abort` removes the file. -/
def abort (writer : ArchiveWriter) : ArchiveWriter :=
  if writer.isOpen then
    { writer with file := { device := writer.file.device }, isOpen := false, finalized := true }
  else writer

/-! ### Runs -/

inductive Call
  | addFile (around : Surroundings) (source : Option Bytes) (path : Bytes)
  | addSymlink (around : Surroundings) (target path : Bytes)
  | addBlob (around : Surroundings) (data path : Bytes) (flags : EntryFlags)
  | addDirectory (around : Surroundings) (path : Bytes) (perms : Permissions)
  | setMetadata (key value : Bytes)
  | setEncryptionKey (key : Bytes)
  | setCompression (algo : CompressionAlgorithm) (level : Int)

section

variable (platform : Platform)

def step (writer : ArchiveWriter) : Call → ArchiveWriter × Status
  | .addFile around source path => writer.addFile platform around source path
  | .addSymlink around target path => writer.addSymlink platform around target path
  | .addBlob around data path flags => writer.addBlob platform around data path flags
  | .addDirectory around path perms => writer.addDirectory platform around path perms
  | .setMetadata key value => (writer.setMetadata key value, none)
  | .setEncryptionKey key => (writer.setEncryptionKey key, none)
  | .setCompression algo level => (writer.setCompression algo level, none)

def run (writer : ArchiveWriter) (calls : List Call) : ArchiveWriter :=
  calls.foldl (fun writer call => (writer.step platform call).1) writer

end

/-- `open` of a path that lies on `device`. -/
def openOn (writer : ArchiveWriter) (device : Device) (now : Timestamp) : ArchiveWriter × Status :=
  if writer.isOpen then (writer, some (.returned .invalidOperation))
  else { writer with file := { device := device } }.openArchive now

inductive Use
  | call (call : Call)
  | openOn (device : Device) (now : Timestamp)
  | close (times : CloseTimes)
  | abort

def use (platform : Platform) (writer : ArchiveWriter) : Use → ArchiveWriter
  | .call call => (writer.step platform call).1
  | .openOn device now => (writer.openOn device now).1
  | .close times => (writer.close platform times).1
  | .abort => writer.abort

end ArchiveWriter

/-- The life of one writer: constructed, configured, opened, filled and closed. -/
structure Session where
  config : WriterConfig
  device : Device
  ctxNew : Bool := true
  before : List ArchiveWriter.Call := []
  openNow : Timestamp := {}
  calls : List ArchiveWriter.Call
  times : ArchiveWriter.CloseTimes := {}

namespace Session

variable (platform : Platform) (session : Session)

def configured : ArchiveWriter :=
  (ArchiveWriter.new platform session.config session.device session.ctxNew).run platform
    session.before

def opened : ArchiveWriter × Status := (session.configured platform).openArchive session.openNow

def filled : ArchiveWriter := (session.opened platform).1.run platform session.calls

def closed : ArchiveWriter × Status := (session.filled platform).close platform session.times

def archive : Bytes := (session.closed platform).1.file.content

end Session

/-- A writer with a past: whatever it was used for, it is opened, filled and closed once more. -/
structure Reuse where
  config : WriterConfig
  ctxNew : Bool := true
  history : List ArchiveWriter.Use
  device : Device
  openNow : Timestamp := {}
  calls : List ArchiveWriter.Call
  times : ArchiveWriter.CloseTimes := {}

namespace Reuse

variable (platform : Platform) (reuse : Reuse)

def used : ArchiveWriter :=
  reuse.history.foldl (ArchiveWriter.use platform)
    (ArchiveWriter.new platform reuse.config reuse.device reuse.ctxNew)

def opened : ArchiveWriter × Status := (reuse.used platform).openOn reuse.device reuse.openNow

def filled : ArchiveWriter := (reuse.opened platform).1.run platform reuse.calls

def closed : ArchiveWriter × Status := (reuse.filled platform).close platform reuse.times

def archive : Bytes := (reuse.closed platform).1.file.content

end Reuse

end NebulaFS
