import NebulaFS.ArchiveHeader
import NebulaFS.ChunkManager
import NebulaFS.DirectoryTree
import NebulaFS.IndexManager
import NebulaFS.Metadata

/-!
# The archive parser

`parser/Parser.cpp`. The header decides everything: a section with a size in the header is cut out of
the archive and decoded, and outside the strict mode a section that fails to decode is replaced by an
empty one and a warning. The parser's state variable only says which of the two ends it came to, so
it is the result here.
-/

namespace NebulaFS

open Cursor

structure ParseResult where
  header : ArchiveHeader := {}
  metadata : MetadataStore := {}
  directoryTree : DirectoryTree := {}
  indexManager : IndexManager := {}
  chunkManager : ChunkManager := {}
  blocksData : Bytes := []
  warnings : List ParseError := []

namespace Parser

def parseHeader (platform : Platform) (data : Bytes) : Result ArchiveHeader :=
  match ArchiveHeader.parse platform {} data with
  | (header, none) => .ok header
  | (_, some (.returned ec)) =>
      .error (.returned (toParseError .corruptHeader .header 0 ec.message))
  | (_, some .outOfBounds) => .error .outOfBounds
  | (_, some .outOfFuel) => .error .outOfFuel

/-- The bounds checks that the four section parsers share, and the part of the archive they cut
out. -/
def sectionSpan (header : ArchiveHeader) (state : ParserState) (offset size : UInt64)
    (data : Bytes) : Result Bytes :=
  if ¬ header.isValid then .error (.returned (toParseError .corruptHeader .header 0))
  else if data.length < offset.toNat then
    .error (.returned (toParseError .outOfRange state offset))
  else if data.length - offset.toNat < size.toNat then
    .error (.returned (toParseError .outOfRange state offset))
  else .ok (slice data offset.toNat size.toNat)

def decoded {α : Type} (ec : ErrorCode) (state : ParserState) (offset : UInt64) :
    α × Status → Result α
  | (value, none) => .ok value
  | (_, some (.returned reason)) => .error (.returned (toParseError ec state offset reason.message))
  | (_, some .outOfBounds) => .error .outOfBounds
  | (_, some .outOfFuel) => .error .outOfFuel

def parseMetadata (data : Bytes) (header : ArchiveHeader) : Result MetadataStore :=
  match sectionSpan header .metadata header.metadataOffset header.metadataSize data with
  | .error e => .error e
  | .ok span => MetadataParser.parse span header.metadataSize.toNat

def parseDirectoryTree (data : Bytes) (header : ArchiveHeader) : Result DirectoryTree :=
  match sectionSpan header .directoryTree header.directoryOffset header.directorySize data with
  | .error e => .error e
  | .ok span =>
      decoded .corruptDirectory .directoryTree header.directoryOffset
        (DirectoryTree.deserialize span)

def parseIndexTable (data : Bytes) (header : ArchiveHeader) : Result IndexManager :=
  match sectionSpan header .indexTable header.indexOffset header.indexSize data with
  | .error e => .error e
  | .ok span =>
      decoded .corruptIndex .indexTable header.indexOffset (IndexManager.deserialize span)

def parseChunkTable (data : Bytes) (header : ArchiveHeader) : Result ChunkManager :=
  match sectionSpan header .chunkTable header.chunkOffset header.chunkSize data with
  | .error e => .error e
  | .ok span =>
      decoded .corruptChunkTable .chunkTable header.chunkOffset (ChunkManager.deserialize span)

def addWarning (strictMode : Bool) (warnings : List ParseError) (err : ParseError) :
    List ParseError :=
  warnings ++ [if strictMode ∧ err.severity = .warning then { err with severity := .recoverable }
    else err]

/-- How `parseInternal` takes up a section: skipped when the header gives it no size, and otherwise
its value, or a warning and the empty section. -/
def takeSection {α : Type} (strictMode : Bool) (size : UInt64) (empty : α) (section_ : Result α)
    (warnings : List ParseError) : Result (α × List ParseError) :=
  if size = 0 then .ok (empty, warnings)
  else
    match section_ with
    | .ok value => .ok (value, warnings)
    | .error (.returned err) =>
        if strictMode then .error (.returned err)
        else .ok (empty, addWarning strictMode warnings err)
    | .error fault => .error fault

def maxBlocksSize : Nat := 64 * 1024 * 1024

def blocksData (data : Bytes) (header : ArchiveHeader) : Bytes :=
  if data.length < header.blocksOffset.toNat then []
  else if data.length - header.blocksOffset.toNat < header.blocksSize.toNat then []
  else if maxBlocksSize < header.blocksSize.toNat then []
  else slice data header.blocksOffset.toNat header.blocksSize.toNat

def parse (platform : Platform) (strictMode : Bool) (data : Bytes) :
    Except (Fault ParseError) ParseResult := do
  if data.length < ArchiveHeader.headerSize then
    throw (.returned (toParseError .corruptHeader .header (UInt64.ofNat data.length)))
  let header ← parseHeader platform data
  let (metadata, warnings) ← takeSection strictMode header.metadataSize {}
    (parseMetadata data header) []
  let (directoryTree, warnings) ← takeSection strictMode header.directorySize {}
    (parseDirectoryTree data header) warnings
  let (indexManager, warnings) ← takeSection strictMode header.indexSize {}
    (parseIndexTable data header) warnings
  let (chunkManager, warnings) ← takeSection strictMode header.chunkSize {}
    (parseChunkTable data header) warnings
  return { header := header
           metadata := metadata
           directoryTree := directoryTree
           indexManager := indexManager
           chunkManager := chunkManager
           blocksData := blocksData data header
           warnings := warnings }

end Parser

end NebulaFS
