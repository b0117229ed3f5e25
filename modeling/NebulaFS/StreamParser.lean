import NebulaFS.Parser

/-!
# The stream parser

`parser/StreamParser.cpp`. The bytes of an archive arrive in pieces. `feed` puts a piece behind the
buffer and then lets one stage after the other take its section from the front, until a stage has to
wait for more. A section begins where the one before it ends; the offsets in the header are not
looked at. The metadata stage hands its decoder the whole buffer, the other stages the bytes of their
section.
-/

namespace NebulaFS

structure StreamParser where
  state : ParserState := .init
  result : ParseResult := {}
  /-- `result_.valid`. -/
  valid : Bool := false
  buffer : Bytes := []
  warnings : List ParseError := []
  bytesProcessed : Nat := 0
  expectedSize : UInt64 := 0

namespace StreamParser

def haveBytes (parser : StreamParser) (needed : Nat) : Bool := needed ≤ parser.buffer.length

/-- `buffer_.erase` of the first `count` bytes, which are then processed. -/
def consume (parser : StreamParser) (count : Nat) : StreamParser :=
  { parser with
    buffer := parser.buffer.drop count
    bytesProcessed := parser.bytesProcessed + count }

def transitionTo (parser : StreamParser) (newState : ParserState) : StreamParser :=
  { parser with state := newState }

def setMetadata (parser : StreamParser) (metadata : MetadataStore) : StreamParser :=
  { parser with result := { parser.result with metadata := metadata } }

def processHeader (platform : Platform) (parser : StreamParser) : Result (Nat × StreamParser) :=
  if ¬ parser.haveBytes ArchiveHeader.headerSize then .ok (0, parser)
  else
    match Parser.parseHeader platform parser.buffer with
    | .error e => .error e
    | .ok header =>
        let parser := { parser with
          result := { parser.result with header := header }
          expectedSize := header.archiveSize }
        .ok (ArchiveHeader.headerSize,
          (parser.consume ArchiveHeader.headerSize).transitionTo .metadata)

/-- What the stages of the sections share: a section without a size is passed over, and one that is
not all there is waited for. -/
def processSection (size : UInt64) (next : ParserState)
    (decode : StreamParser → Result StreamParser) (parser : StreamParser) :
    Result (Nat × StreamParser) :=
  if size = 0 then .ok (0, parser.transitionTo next)
  else if ¬ parser.haveBytes size.toNat then .ok (0, parser)
  else
    match decode parser with
    | .error e => .error e
    | .ok parser => .ok (size.toNat, (parser.consume size.toNat).transitionTo next)

/-- The decoding of a section into a table, whose status is only worth a warning. -/
def decodeTable {α : Type} (ec : ErrorCode) (state : ParserState)
    (put : ParseResult → α → ParseResult) (decoded : α × Status) (parser : StreamParser) :
    Result StreamParser :=
  let filled := { parser with result := put parser.result decoded.1 }
  match decoded.2 with
  | none => .ok filled
  | some (.returned reason) =>
      .ok { filled with
        warnings := parser.warnings
          ++ [toParseError ec state (UInt64.ofNat parser.bytesProcessed) reason.message] }
  | some .outOfBounds => .error .outOfBounds
  | some .outOfFuel => .error .outOfFuel

def processMetadata (parser : StreamParser) : Result (Nat × StreamParser) :=
  let size := parser.result.header.metadataSize
  parser.processSection size .directoryTree fun parser =>
    match MetadataParser.parse parser.buffer size.toNat with
    | .ok store => .ok (parser.setMetadata store)
    | .error (.returned _) => .ok parser
    | .error fault => .error fault

def processDirectoryTree (parser : StreamParser) : Result (Nat × StreamParser) :=
  let size := parser.result.header.directorySize
  parser.processSection size .indexTable fun parser =>
    parser.decodeTable .corruptDirectory .directoryTree
      (fun result tree => { result with directoryTree := tree })
      (DirectoryTree.deserialize (parser.buffer.take size.toNat))

def processIndexTable (parser : StreamParser) : Result (Nat × StreamParser) :=
  let size := parser.result.header.indexSize
  parser.processSection size .chunkTable fun parser =>
    parser.decodeTable .corruptIndex .indexTable
      (fun result manager => { result with indexManager := manager })
      (IndexManager.deserialize (parser.buffer.take size.toNat))

def processChunkTable (parser : StreamParser) : Result (Nat × StreamParser) :=
  let size := parser.result.header.chunkSize
  parser.processSection size .compressedBlocks fun parser =>
    parser.decodeTable .corruptChunkTable .chunkTable
      (fun result manager => { result with chunkManager := manager })
      (ChunkManager.deserialize (parser.buffer.take size.toNat))

def processCompressedBlocks (parser : StreamParser) : Result (Nat × StreamParser) :=
  let size := parser.result.header.blocksSize
  parser.processSection size .objectRecon fun parser =>
    .ok { parser with result := { parser.result with blocksData := parser.buffer.take size.toNat } }

def finalize (parser : StreamParser) : Result (Nat × StreamParser) :=
  .ok (0, { parser with
    valid := true
    result := { parser.result with warnings := parser.warnings }
    state := .complete })

section

variable (platform : Platform)

/-- The `switch` of `feed`. It is not reached in the two final states. -/
def process (parser : StreamParser) : Result (Nat × StreamParser) :=
  match parser.state with
  | .init | .header => parser.processHeader platform
  | .metadata => parser.processMetadata
  | .directoryTree => parser.processDirectoryTree
  | .indexTable => parser.processIndexTable
  | .chunkTable => parser.processChunkTable
  | .compressedBlocks => parser.processCompressedBlocks
  | .objectRecon => parser.finalize
  | .complete | .error =>
      .error (.returned (toParseError .internalError parser.state
        (UInt64.ofNat parser.bytesProcessed)))

/-- The loop of `feed`. Every round but the last moves to a later state, so the rounds are bounded. -/
def feedLoop : (fuel : Nat) → (totalConsumed : Nat) → StreamParser → StreamParser × Result Nat
  | 0, _, parser => (parser, .error .outOfFuel)
  | fuel + 1, totalConsumed, parser =>
      if parser.state = .complete ∨ parser.state = .error then (parser, .ok totalConsumed)
      else
        match parser.process platform with
        | .error (.returned e) => (parser.transitionTo .error, .error (.returned e))
        | .error fault => (parser, .error fault)
        | .ok (consumed, after) =>
            if consumed = 0 ∧ parser.state = after.state then (after, .ok (totalConsumed + consumed))
            else feedLoop fuel (totalConsumed + consumed) after

def maxRounds : Nat := 9

def feed (parser : StreamParser) (chunk : Bytes) : StreamParser × Result Nat :=
  feedLoop platform maxRounds 0 { parser with buffer := parser.buffer ++ chunk }

/-- `feed` of one piece after the other. An error that `feed` returns is part of the parser's state; a
read outside a section has no parser after it. -/
def feedAll (parser : StreamParser) : List Bytes → Except (Fault ParseError) StreamParser
  | [] => .ok parser
  | chunk :: chunks =>
      match parser.feed platform chunk with
      | (_, .error .outOfBounds) => .error .outOfBounds
      | (_, .error .outOfFuel) => .error .outOfFuel
      | (after, _) => feedAll after chunks

end

end StreamParser

end NebulaFS
