import NebulaFS.Compression
import NebulaFS.Parser

/-!
# The archive reader

`archive/ArchiveReader.cpp`. `open` loads the whole file and parses it; an entry is found in the index
by its id, or by the id of the node its path leads to. The engine that decompresses is the default
one, so it is always Zstandard's, and whether an entry is decompressed at all is one flag of the
archive's header.
-/

namespace NebulaFS

open Cursor

structure ReaderConfig where
  verifyChecksums : Bool := true
deriving DecidableEq

structure ArchiveReader where
  config : ReaderConfig := {}
  header : ArchiveHeader := {}
  compression : CompressionEngine := {}
  indexManager : IndexManager := {}
  metadata : MetadataStore := {}
  directoryTree : DirectoryTree := {}
  chunkManager : ChunkManager := {}
  archiveData : Bytes := []
  isOpen : Bool := false

namespace ArchiveReader

section

variable (platform : Platform)

def parseArchive (reader : ArchiveReader) : ArchiveReader × Status :=
  match Parser.parse platform false reader.archiveData with
  | .error (.returned _) => (reader, some (.returned .corruptHeader))
  | .error .outOfBounds => (reader, some .outOfBounds)
  | .error .outOfFuel => (reader, some .outOfFuel)
  | .ok result =>
      ({ reader with
          header := result.header
          metadata := result.metadata
          directoryTree := result.directoryTree
          indexManager := result.indexManager
          chunkManager := result.chunkManager }, none)

/-- `open`, given the content of the file if there is one that can be read. -/
def openArchive (reader : ArchiveReader) (content : Option Bytes) : ArchiveReader × Status :=
  if reader.isOpen then (reader, some (.returned .invalidOperation))
  else
    match content with
    | none => (reader, some (.returned .ioError))
    | some bytes =>
        match parseArchive platform { reader with archiveData := bytes } with
        | (reader, some e) => (reader, some e)
        | (reader, none) => ({ reader with isOpen := true }, none)

end

def notOpen {α : Type} : Result α := .error (.returned (toParseError .invalidOperation .init 0))

def ofIndexEntry (entry : IndexEntry) : ArchiveEntry :=
  { id := entry.entryId
    offset := entry.offset
    storedSize := entry.size
    checksum := entry.checksum }

def listEntries (reader : ArchiveReader) : Result (List ArchiveEntry) :=
  if ¬ reader.isOpen then notOpen else .ok (reader.indexManager.entries.map ofIndexEntry)

def entryCount (reader : ArchiveReader) : UInt64 := reader.header.entryCount

def messageOf (path : Bytes) : String := String.ofList (path.map fun byte => Char.ofNat byte.toNat)

def findEntryByPath (reader : ArchiveReader) (path : Bytes) : Result ArchiveEntry :=
  if ¬ reader.isOpen then notOpen
  else
    match reader.directoryTree.find path with
    | none =>
        .error (.returned (toParseError .entryNotFound .directoryTree 0 (messageOf path)))
    | some node =>
        match reader.indexManager.findById node.id with
        | none =>
            .error (.returned (toParseError .entryNotFound .indexTable 0
              ("no idx for id=" ++ toString node.id.toNat)))
        | some entry => .ok { ofIndexEntry entry with path := path, type := .file }

def findEntryById (reader : ArchiveReader) (id : EntryID) : Result ArchiveEntry :=
  if ¬ reader.isOpen then notOpen
  else
    match reader.indexManager.findById id with
    | none =>
        .error (.returned (toParseError .entryNotFound .indexTable 0
          ("entry ID " ++ toString id.toNat)))
    | some entry => .ok (ofIndexEntry entry)

section

variable (platform : Platform)

/-- The check adds offset and size in `uint64_t`, so a large offset passes it and the span after it
leaves the archive. -/
def readEntryData (reader : ArchiveReader) (entry : ArchiveEntry) : Result Bytes :=
  if reader.archiveData.length < (entry.offset + entry.storedSize).toNat then
    .error (.returned (toParseError .outOfRange .compressedBlocks entry.offset))
  else if reader.archiveData.length < entry.offset.toNat + entry.storedSize.toNat then
    .error .outOfBounds
  else
    let span := slice reader.archiveData entry.offset.toNat entry.storedSize.toNat
    let isCompressed := reader.header.flags &&& HeaderFlags.compressed ≠ 0
    let opened : Result Bytes :=
      if isCompressed ∧ span ≠ [] then
        let decompressed := reader.compression.decompress platform span 0
        if decompressed.success then .ok decompressed.data
        else
          .error (.returned (toParseError .decompressionError .objectRecon entry.offset
            ("decomp fail ec=" ++ toString ((decompressed.ec.map Errc.value).getD 0))))
      else .ok span
    match opened with
    | .error e => .error e
    | .ok result =>
        if reader.config.verifyChecksums ∧ ChecksumEngine.compute platform result ≠ entry.checksum
        then .error (.returned (toParseError .checksumMismatch .objectRecon entry.offset))
        else .ok result

def extractEntryByPath (reader : ArchiveReader) (path : Bytes) : Result Bytes :=
  match reader.findEntryByPath path with
  | .error e => .error e
  | .ok entry => reader.readEntryData platform entry

def extractEntryById (reader : ArchiveReader) (id : EntryID) : Result Bytes :=
  match reader.findEntryById id with
  | .error e => .error e
  | .ok entry => reader.readEntryData platform entry

end

/-! ### Extraction into a directory -/

/-- What becomes of an output file: whether it opens, and how many bytes it takes. -/
structure Output where
  opens : Bool
  room : Nat
deriving DecidableEq

/-- A file that was opened and written, with the position of its entry. -/
structure Written where
  index : Nat
  path : String
  content : Bytes
deriving DecidableEq

def outputPath (outputDir : String) (id : EntryID) : String :=
  outputDir ++ "/" ++ toString id.toNat

/-- The content of a file after these writes, the last of which counts: a file is truncated when it
is opened. -/
def fileAt (written : List Written) (path : String) : Option Bytes :=
  (written.reverse.find? fun file => file.path = path).map (·.content)

section

variable (platform : Platform)

/-- An entry that cannot be read is passed over, and so is a file that does not open. The stream is
not asked how much it took. -/
def extractLoop (reader : ArchiveReader) (outputDir : String) (outputs : Nat → Output) :
    List ArchiveEntry → Nat → List Written → Status × List Written
  | [], _, written => (none, written)
  | entry :: entries, i, written =>
      match reader.readEntryData platform entry with
      | .error (.returned _) => extractLoop reader outputDir outputs entries (i + 1) written
      | .error .outOfBounds => (some .outOfBounds, written)
      | .error .outOfFuel => (some .outOfFuel, written)
      | .ok data =>
          let file : Written :=
            { index := i
              path := outputPath outputDir entry.id
              content := data.take (outputs i).room }
          extractLoop reader outputDir outputs entries (i + 1)
            (if (outputs i).opens then written ++ [file] else written)

/-- `extractAll`, given what becomes of the output file of each entry and whether the directory can be
created; if it cannot, that is an exception, and there is no result. -/
def extractAll (reader : ArchiveReader) (outputDir : String) (creates : Bool)
    (outputs : Nat → Output) : Option (Status × List Written) :=
  match reader.listEntries with
  | .error _ => some (some (.returned .ioError), [])
  | .ok entries =>
      if ¬ creates then none
      else some (extractLoop platform reader outputDir outputs entries 0 [])

end

def needsRecovery (reader : ArchiveReader) : Bool :=
  reader.header.flags &&& HeaderFlags.recovery ≠ 0

/-- `recover`, which changes nothing. -/
def recover (reader : ArchiveReader) : Status :=
  if ¬ reader.needsRecovery then none else some (.returned .notImplemented)

end ArchiveReader

end NebulaFS
