import NebulaFS.Lib.Feeding
import NebulaFS.Proof.ArchiveImage
import NebulaFS.StreamParser

/-!
# Feeding the stream parser

The loop of `feed` makes moves until one has to wait (`outcome_feedLoop`). A stage that can take its
section takes the same one however much is buffered behind it, except that the metadata stage decodes
into what follows. So up to the metadata the parser is a machine that does not see the cuts
(`uncut`), and how it gets its input does not matter (`feedAll_view`).
-/

namespace NebulaFS

open Cursor

theorem ArchiveHeader.ofBytes_append {data rest : Bytes} (h : headerSize ≤ data.length)
    (h' : headerSize ≤ (data ++ rest).length) : ofBytes (data ++ rest) h' = ofBytes data h := by
  have hlong : 158 ≤ data.length := h
  simp (disch := omega) only [ofBytes, field, slice_append_left]

namespace StreamParser

/-! ### Moves -/

def extend (parser : StreamParser) (chunk : Bytes) : StreamParser :=
  { parser with buffer := parser.buffer ++ chunk }

/-- All of the parser but its metadata. -/
def view (parser : StreamParser) : StreamParser := parser.setMetadata {}

def rank (parser : StreamParser) : Nat :=
  match parser.state with
  | .init | .header => 0
  | .metadata => 1
  | .directoryTree => 2
  | .indexTable => 3
  | .chunkTable => 4
  | .compressedBlocks => 5
  | .objectRecon => 6
  | .complete => 7
  | .error => 8

/-- One round of the loop of `feed`: the parser after it, or none if the round ends the loop. -/
def move (platform : Platform) (parser : StreamParser) :
    Except (Fault ParseError) (Option StreamParser) :=
  if parser.state = .complete ∨ parser.state = .error then .ok none
  else
    match parser.process platform with
    | .error (.returned _) => .ok (some (parser.transitionTo .error))
    | .error fault => .error fault
    | .ok (consumed, after) =>
        if consumed = 0 ∧ parser.state = after.state then .ok none else .ok (some after)

/-! ### The stages of the sections -/

def sectionSize (header : ArchiveHeader) : ParserState → UInt64
  | .metadata => header.metadataSize
  | .directoryTree => header.directorySize
  | .indexTable => header.indexSize
  | .chunkTable => header.chunkSize
  | .compressedBlocks => header.blocksSize
  | _ => 0

def nextState : ParserState → ParserState
  | .metadata => .directoryTree
  | .directoryTree => .indexTable
  | .indexTable => .chunkTable
  | .chunkTable => .compressedBlocks
  | .compressedBlocks => .objectRecon
  | state => state

def decodeSection (parser : StreamParser) : Result StreamParser :=
  let size := (sectionSize parser.result.header parser.state).toNat
  match parser.state with
  | .metadata =>
      match MetadataParser.parse parser.buffer size with
      | .ok store => .ok (parser.setMetadata store)
      | .error (.returned _) => .ok parser
      | .error fault => .error fault
  | .directoryTree =>
      parser.decodeTable .corruptDirectory .directoryTree
        (fun result tree => { result with directoryTree := tree })
        (DirectoryTree.deserialize (parser.buffer.take size))
  | .indexTable =>
      parser.decodeTable .corruptIndex .indexTable
        (fun result manager => { result with indexManager := manager })
        (IndexManager.deserialize (parser.buffer.take size))
  | .chunkTable =>
      parser.decodeTable .corruptChunkTable .chunkTable
        (fun result manager => { result with chunkManager := manager })
        (ChunkManager.deserialize (parser.buffer.take size))
  | .compressedBlocks =>
      .ok { parser with result := { parser.result with blocksData := parser.buffer.take size } }
  | _ => .ok parser

def inSection (state : ParserState) : Bool :=
  match state with
  | .metadata | .directoryTree | .indexTable | .chunkTable | .compressedBlocks => true
  | _ => false

variable {platform : Platform} {parser : StreamParser}

theorem decodeTable_ne_returned {α : Type} (ec : ErrorCode) (state : ParserState)
    (put : ParseResult → α → ParseResult) (decoded : α × Status) (parser : StreamParser)
    (e : ParseError) : parser.decodeTable ec state put decoded ≠ .error (.returned e) := by
  rcases decoded with ⟨value, _ | (reason | _ | _)⟩ <;> simp [decodeTable]

theorem decodeSection_ne_returned (parser : StreamParser) (e : ParseError) :
    parser.decodeSection ≠ .error (.returned e) := by
  unfold decodeSection
  cases parser.state with
  | metadata =>
      simp only
      rcases MetadataParser.parse_cases parser.buffer
        (sectionSize parser.result.header .metadata).toNat with ⟨store, heq⟩ | ⟨e', heq⟩
      · simp [heq]
      · simp [heq]
  | directoryTree => exact decodeTable_ne_returned _ _ _ _ _ _
  | indexTable => exact decodeTable_ne_returned _ _ _ _ _ _
  | chunkTable => exact decodeTable_ne_returned _ _ _ _ _ _
  | compressedBlocks | init | header | objectRecon | complete | error => simp

/-- The move of a stage that takes a section. -/
def sectionMove (parser : StreamParser) : Except (Fault ParseError) (Option StreamParser) :=
  let size := sectionSize parser.result.header parser.state
  if size = 0 then .ok (some (parser.transitionTo (nextState parser.state)))
  else if parser.buffer.length < size.toNat then .ok none
  else
    parser.decodeSection.map fun decoded =>
      some ((decoded.consume size.toNat).transitionTo (nextState parser.state))

theorem processSection_congr {size : UInt64} {next : ParserState}
    {decode decode' : StreamParser → Result StreamParser} (h : decode parser = decode' parser) :
    parser.processSection size next decode = parser.processSection size next decode' := by
  rw [processSection, processSection, h]

theorem process_eq (h : inSection parser.state = true) (platform : Platform) :
    parser.process platform = parser.processSection
      (sectionSize parser.result.header parser.state) (nextState parser.state) decodeSection := by
  cases hstate : parser.state with
  | metadata =>
      rw [process, hstate]
      unfold processMetadata
      apply processSection_congr
      cases parser with
      | mk state =>
          obtain rfl : state = .metadata := hstate
          rfl
  | directoryTree =>
      rw [process, hstate]
      unfold processDirectoryTree
      apply processSection_congr
      simp only [decodeSection, hstate, sectionSize]
  | indexTable =>
      rw [process, hstate]
      unfold processIndexTable
      apply processSection_congr
      simp only [decodeSection, hstate, sectionSize]
  | chunkTable =>
      rw [process, hstate]
      unfold processChunkTable
      apply processSection_congr
      simp only [decodeSection, hstate, sectionSize]
  | compressedBlocks =>
      rw [process, hstate]
      unfold processCompressedBlocks
      apply processSection_congr
      simp only [decodeSection, hstate, sectionSize]
  | init | header | objectRecon | complete | error =>
      rw [hstate] at h
      cases h

theorem running_of_inSection {state : ParserState} (h : inSection state = true) :
    ¬ (state = .complete ∨ state = .error) := by
  cases state <;> simp [inSection] at h ⊢

theorem ne_nextState {state : ParserState} (h : inSection state = true) : state ≠ nextState state := by
  cases state <;> simp [inSection, nextState] at h ⊢

theorem move_eq_sectionMove (h : inSection parser.state = true) (platform : Platform) :
    parser.move platform = parser.sectionMove := by
  rw [move, if_neg (running_of_inSection h), process_eq h, processSection, sectionMove]
  by_cases hsize : sectionSize parser.result.header parser.state = 0
  · rw [if_pos hsize, if_pos hsize]
    exact if_neg fun hsame => ne_nextState h hsame.2
  · rw [if_neg hsize, if_neg hsize]
    by_cases hwait : parser.buffer.length < (sectionSize parser.result.header parser.state).toNat
    · rw [if_pos hwait, if_pos (by simpa [haveBytes] using hwait)]
      exact if_pos ⟨rfl, rfl⟩
    · rw [if_neg hwait, if_neg (by simpa [haveBytes] using hwait)]
      have hpositive : (sectionSize parser.result.header parser.state).toNat ≠ 0 :=
        fun hzero => hsize (UInt64.toNat_inj.mp hzero)
      cases hdecode : parser.decodeSection with
      | ok decoded => exact if_neg fun hsame => hpositive hsame.1
      | error fault =>
          cases fault with
          | returned e => exact absurd hdecode (decodeSection_ne_returned parser e)
          | outOfBounds => rfl
          | outOfFuel => rfl

/-! ### The other two stages -/

theorem move_header (h : parser.state = .init ∨ parser.state = .header) (platform : Platform) :
    parser.move platform
      = if parser.buffer.length < ArchiveHeader.headerSize then .ok none
        else
          match Parser.parseHeader platform parser.buffer with
          | .error (.returned _) => .ok (some (parser.transitionTo .error))
          | .error fault => .error fault
          | .ok header => .ok (some (({ parser with
              result := { parser.result with header := header }
              expectedSize := header.archiveSize }.consume
                ArchiveHeader.headerSize).transitionTo .metadata)) := by
  have hrunning : ¬ (parser.state = .complete ∨ parser.state = .error) := by
    rcases h with h | h <;> simp [h]
  have hprocess : parser.process platform = parser.processHeader platform := by
    rw [process]
    rcases h with h | h <;> rw [h]
  rw [move, if_neg hrunning, hprocess, processHeader]
  by_cases hwait : parser.buffer.length < ArchiveHeader.headerSize
  · rw [if_pos hwait, if_pos (by simpa [haveBytes] using hwait)]
    exact if_pos ⟨rfl, rfl⟩
  · rw [if_neg hwait, if_neg (by simpa [haveBytes] using hwait)]
    cases Parser.parseHeader platform parser.buffer with
    | ok header => exact if_neg fun hsame => by cases hsame.1
    | error fault =>
        cases fault with
        | returned e => rfl
        | outOfBounds => rfl
        | outOfFuel => rfl

theorem move_finalize (h : parser.state = .objectRecon) (platform : Platform) :
    parser.move platform = .ok (some { parser with
      valid := true
      result := { parser.result with warnings := parser.warnings }
      state := .complete }) := by
  have hprocess : parser.process platform = parser.finalize := by rw [process, h]
  rw [move, if_neg (by simp [h]), hprocess, finalize]
  exact if_neg fun hsame => by simp [h] at hsame

theorem move_final (h : parser.state = .complete ∨ parser.state = .error) (platform : Platform) :
    parser.move platform = .ok none := if_pos h

/-! ### The parser as a machine -/

theorem rank_lt_maxRounds (parser : StreamParser) : parser.rank < maxRounds := by
  unfold rank
  cases parser.state <;> decide

theorem state_cases (parser : StreamParser) :
    (parser.state = .init ∨ parser.state = .header) ∨ inSection parser.state = true
      ∨ parser.state = .objectRecon ∨ (parser.state = .complete ∨ parser.state = .error) := by
  cases parser.state <;> simp [inSection]

theorem rank_of_nextState {after : StreamParser} (hsection : inSection parser.state = true)
    (h : after.state = nextState parser.state) : parser.rank < after.rank := by
  rw [rank, rank, h]
  cases hstate : parser.state <;> simp [hstate, inSection, nextState] at hsection ⊢

theorem sectionMove_cases {after : StreamParser} (h : parser.sectionMove = .ok (some after)) :
    (sectionSize parser.result.header parser.state = 0
      ∧ after = parser.transitionTo (nextState parser.state))
    ∨ (sectionSize parser.result.header parser.state ≠ 0
      ∧ (sectionSize parser.result.header parser.state).toNat ≤ parser.buffer.length
      ∧ ∃ decoded, parser.decodeSection = .ok decoded
        ∧ after = (decoded.consume
          (sectionSize parser.result.header parser.state).toNat).transitionTo
            (nextState parser.state)) := by
  unfold sectionMove at h
  by_cases hsize : sectionSize parser.result.header parser.state = 0
  · rw [if_pos hsize] at h
    exact .inl ⟨hsize, (Option.some.inj (Except.ok.inj h)).symm⟩
  · rw [if_neg hsize] at h
    by_cases hwait : parser.buffer.length < (sectionSize parser.result.header parser.state).toNat
    · rw [if_pos hwait] at h
      cases h
    · rw [if_neg hwait] at h
      cases hdecode : parser.decodeSection with
      | error e =>
          rw [hdecode] at h
          cases h
      | ok decoded =>
          rw [hdecode] at h
          exact .inr ⟨hsize, Nat.not_lt.mp hwait, decoded, rfl,
            (Option.some.inj (Except.ok.inj h)).symm⟩

theorem sectionMove_error {e : Fault ParseError} (h : parser.sectionMove = .error e) :
    sectionSize parser.result.header parser.state ≠ 0
      ∧ (sectionSize parser.result.header parser.state).toNat ≤ parser.buffer.length
      ∧ parser.decodeSection = .error e := by
  unfold sectionMove at h
  by_cases hsize : sectionSize parser.result.header parser.state = 0
  · rw [if_pos hsize] at h
    cases h
  · rw [if_neg hsize] at h
    by_cases hwait : parser.buffer.length < (sectionSize parser.result.header parser.state).toNat
    · rw [if_pos hwait] at h
      cases h
    · rw [if_neg hwait] at h
      refine ⟨hsize, Nat.not_lt.mp hwait, ?_⟩
      cases hdecode : parser.decodeSection with
      | error e' =>
          rw [hdecode] at h
          exact congrArg Except.error (Except.error.inj h)
      | ok decoded =>
          rw [hdecode] at h
          cases h

theorem sectionMove_none (h : parser.sectionMove = .ok none) :
    ¬ (sectionSize parser.result.header parser.state).toNat ≤ parser.buffer.length := by
  rw [sectionMove] at h
  split at h
  · cases h
  · split at h
    · exact Nat.not_le.mpr ‹_›
    · cases hdecode : parser.decodeSection with
      | error e =>
          rw [hdecode] at h
          cases h
      | ok decoded =>
          rw [hdecode] at h
          cases h

theorem rank_move {after : StreamParser} (h : parser.move platform = .ok (some after)) :
    parser.rank < after.rank := by
  rcases state_cases parser with hheader | hsection | hrecon | hfinal
  · have hrank : parser.rank = 0 := by
      rcases hheader with hstate | hstate <;> rw [rank, hstate]
    rw [move_header hheader] at h
    split at h
    · cases h
    · split at h
      · obtain rfl := Option.some.inj (Except.ok.inj h)
        rw [hrank]
        exact Nat.zero_lt_succ _
      · cases h
      · obtain rfl := Option.some.inj (Except.ok.inj h)
        rw [hrank]
        exact Nat.zero_lt_succ _
  · rw [move_eq_sectionMove hsection] at h
    rcases sectionMove_cases h with ⟨-, rfl⟩ | ⟨-, -, decoded, -, rfl⟩
    · exact rank_of_nextState hsection rfl
    · exact rank_of_nextState hsection rfl
  · rw [move_finalize hrecon] at h
    obtain rfl := Option.some.inj (Except.ok.inj h)
    rw [rank, hrecon]
    exact Nat.lt_succ_self 6
  · rw [move_final hfinal] at h
    cases h

/-! #### The moves and the metadata -/

theorem decodeTable_view {α : Type} (ec : ErrorCode) (state : ParserState)
    {put : ParseResult → α → ParseResult} (table : α × Status) (parser : StreamParser)
    (hput : ∀ result value, { put result value with metadata := {} }
      = put { result with metadata := {} } value) :
    (parser.view.decodeTable ec state put table).map view
      = (parser.decodeTable ec state put table).map view := by
  rcases table with ⟨value, _ | (reason | _ | _)⟩ <;>
    simp [decodeTable, view, setMetadata, Except.map, hput]

theorem decodeSection_view (parser : StreamParser) :
    parser.view.decodeSection.map view = parser.decodeSection.map view := by
  unfold decodeSection
  cases hstate : parser.state with
  | metadata =>
      have hview : parser.view.state = .metadata := hstate
      have hbuffer : parser.view.buffer = parser.buffer := rfl
      have hheader : parser.view.result.header = parser.result.header := rfl
      rcases MetadataParser.parse_cases parser.buffer
        (sectionSize parser.result.header .metadata).toNat with ⟨store, heq⟩ | ⟨e, heq⟩
      · simp only [hview, hbuffer, hheader, heq]
        rfl
      · simp only [hview, hbuffer, hheader, heq]
        rfl
  | directoryTree =>
      have hview : parser.view.state = .directoryTree := hstate
      simp only [hview]
      exact decodeTable_view _ _ _ _ fun _ _ => rfl
  | indexTable =>
      have hview : parser.view.state = .indexTable := hstate
      simp only [hview]
      exact decodeTable_view _ _ _ _ fun _ _ => rfl
  | chunkTable =>
      have hview : parser.view.state = .chunkTable := hstate
      simp only [hview]
      exact decodeTable_view _ _ _ _ fun _ _ => rfl
  | compressedBlocks | init | header | objectRecon | complete | error =>
      simp [view, setMetadata, hstate, Except.map]

theorem decodeTable_keeps {α : Type} {ec : ErrorCode} {state : ParserState}
    {put : ParseResult → α → ParseResult} {table : α × Status} {after : StreamParser}
    (h : parser.decodeTable ec state put table = .ok after)
    (hheader : ∀ result value, (put result value).header = result.header)
    (hmetadata : ∀ result value, (put result value).metadata = result.metadata) :
    after.buffer = parser.buffer ∧ after.result.header = parser.result.header
      ∧ after.result.metadata = parser.result.metadata
      ∧ after.bytesProcessed = parser.bytesProcessed := by
  rcases table with ⟨value, _ | (reason | _ | _)⟩ <;> simp only [decodeTable] at h
  · obtain rfl := Except.ok.inj h
    exact ⟨rfl, hheader _ _, hmetadata _ _, rfl⟩
  · obtain rfl := Except.ok.inj h
    exact ⟨rfl, hheader _ _, hmetadata _ _, rfl⟩
  · cases h
  · cases h

theorem decodeSection_keeps {after : StreamParser} (h : parser.decodeSection = .ok after) :
    after.buffer = parser.buffer ∧ after.result.header = parser.result.header
      ∧ (parser.state ≠ .metadata → after.result.metadata = parser.result.metadata)
      ∧ after.bytesProcessed = parser.bytesProcessed := by
  unfold decodeSection at h
  cases hstate : parser.state with
  | metadata =>
      simp only [hstate] at h
      rcases MetadataParser.parse_cases parser.buffer
        (sectionSize parser.result.header .metadata).toNat with ⟨store, heq⟩ | ⟨e, heq⟩
      · simp only [heq] at h
        obtain rfl := Except.ok.inj h
        exact ⟨rfl, rfl, fun hother => absurd rfl hother, rfl⟩
      · simp only [heq] at h
        obtain rfl := Except.ok.inj h
        exact ⟨rfl, rfl, fun hother => absurd rfl hother, rfl⟩
  | directoryTree =>
      simp only [hstate] at h
      obtain ⟨hbuffer, hheader, hmetadata, hprocessed⟩ :=
        decodeTable_keeps h (fun _ _ => rfl) fun _ _ => rfl
      exact ⟨hbuffer, hheader, fun _ => hmetadata, hprocessed⟩
  | indexTable =>
      simp only [hstate] at h
      obtain ⟨hbuffer, hheader, hmetadata, hprocessed⟩ :=
        decodeTable_keeps h (fun _ _ => rfl) fun _ _ => rfl
      exact ⟨hbuffer, hheader, fun _ => hmetadata, hprocessed⟩
  | chunkTable =>
      simp only [hstate] at h
      obtain ⟨hbuffer, hheader, hmetadata, hprocessed⟩ :=
        decodeTable_keeps h (fun _ _ => rfl) fun _ _ => rfl
      exact ⟨hbuffer, hheader, fun _ => hmetadata, hprocessed⟩
  | compressedBlocks | init | header | objectRecon | complete | error =>
      simp only [hstate] at h
      obtain rfl := Except.ok.inj h
      exact ⟨rfl, rfl, fun _ => rfl, rfl⟩

theorem decodeTable_extend {α : Type} {ec : ErrorCode} {state : ParserState}
    {put : ParseResult → α → ParseResult} {decode : Bytes → α × Status} {bytes bytes' : Bytes}
    (hbytes : bytes' = bytes) (chunk : Bytes) :
    ((parser.extend chunk).decodeTable ec state put (decode bytes')).map view
      = (parser.decodeTable ec state put (decode bytes)).map fun decoded =>
        (decoded.extend chunk).view := by
  rw [hbytes]
  rcases decode bytes with ⟨value, _ | (reason | _ | _)⟩ <;> rfl

theorem decodeSection_extend (chunk : Bytes)
    (h : (sectionSize parser.result.header parser.state).toNat ≤ parser.buffer.length) :
    (parser.extend chunk).decodeSection.map view
      = parser.decodeSection.map fun decoded => (decoded.extend chunk).view := by
  have htake : (parser.buffer ++ chunk).take (sectionSize parser.result.header parser.state).toNat
      = parser.buffer.take (sectionSize parser.result.header parser.state).toNat :=
    List.take_append_of_le_length h
  unfold decodeSection
  cases hstate : parser.state with
  | metadata =>
      have hextended : (parser.extend chunk).state = .metadata := hstate
      simp only [hextended]
      rcases MetadataParser.parse_cases parser.buffer
          (sectionSize parser.result.header .metadata).toNat with ⟨store, heq⟩ | ⟨e, heq⟩ <;>
        rcases MetadataParser.parse_cases (parser.extend chunk).buffer
          (sectionSize (parser.extend chunk).result.header .metadata).toNat
            with ⟨store', heq'⟩ | ⟨e', heq'⟩ <;>
        simp only [heq, heq'] <;> rfl
  | directoryTree =>
      have hextended : (parser.extend chunk).state = .directoryTree := hstate
      rw [hstate] at htake
      simp only [hextended]
      exact decodeTable_extend htake chunk
  | indexTable =>
      have hextended : (parser.extend chunk).state = .indexTable := hstate
      rw [hstate] at htake
      simp only [hextended]
      exact decodeTable_extend htake chunk
  | chunkTable =>
      have hextended : (parser.extend chunk).state = .chunkTable := hstate
      rw [hstate] at htake
      simp only [hextended]
      exact decodeTable_extend htake chunk
  | compressedBlocks =>
      have hextended : (parser.extend chunk).state = .compressedBlocks := hstate
      rw [hstate] at htake
      simp only [hextended]
      simp [extend, htake, Except.map]
  | init | header | objectRecon | complete | error =>
      simp [extend, hstate, Except.map]

/-- The move of a section stage up to the metadata, in terms of what the decoder gives. -/
theorem sectionMove_map_view (parser : StreamParser) :
    parser.sectionMove.map (Option.map view)
      = if sectionSize parser.result.header parser.state = 0 then
          .ok (some (parser.view.transitionTo (nextState parser.state)))
        else if parser.buffer.length < (sectionSize parser.result.header parser.state).toNat then
          .ok none
        else
          (parser.decodeSection.map view).map fun decoded => some ((decoded.consume
            (sectionSize parser.result.header parser.state).toNat).transitionTo
              (nextState parser.state)) := by
  rw [sectionMove]
  split
  · rfl
  · split
    · rfl
    · cases parser.decodeSection with
      | error e => rfl
      | ok decoded => rfl

theorem move_view (platform : Platform) (parser : StreamParser) :
    (parser.view.move platform).map (Option.map view)
      = (parser.move platform).map (Option.map view) := by
  rcases state_cases parser with hheader | hsection | hrecon | hfinal
  · have hview : parser.view.state = .init ∨ parser.view.state = .header := hheader
    rw [move_header hheader, move_header hview]
    have hbuffer : parser.view.buffer = parser.buffer := rfl
    rw [hbuffer]
    split
    · rfl
    · split <;> rfl
  · have hview : inSection parser.view.state = true := hsection
    rw [move_eq_sectionMove hsection, move_eq_sectionMove hview, sectionMove_map_view,
      sectionMove_map_view, decodeSection_view]
    rfl
  · have hview : parser.view.state = .objectRecon := hrecon
    rw [move_finalize hrecon, move_finalize hview]
    rfl
  · have hview : parser.view.state = .complete ∨ parser.view.state = .error := hfinal
    rw [move_final hfinal, move_final hview]

/-! #### The moves and what follows -/

theorem consume_extend {count : Nat} (h : count ≤ parser.buffer.length) (chunk : Bytes) :
    (parser.extend chunk).consume count = (parser.consume count).extend chunk := by
  simp [extend, consume, List.drop_append_of_le_length h]

theorem parseHeader_append {data : Bytes} (h : ArchiveHeader.headerSize ≤ data.length)
    (rest : Bytes) :
    Parser.parseHeader platform (data ++ rest) = Parser.parseHeader platform data := by
  have hlong : ¬ (data ++ rest).length < ArchiveHeader.headerSize := by
    rw [List.length_append]
    omega
  rw [Parser.parseHeader, Parser.parseHeader, ArchiveHeader.parse, ArchiveHeader.parse,
    dif_neg hlong, dif_neg (Nat.not_lt.mpr h), ArchiveHeader.ofBytes_append h]

/-- A whole header is parsed from the bytes that were there. -/
theorem move_extend_header (h : parser.state = .init ∨ parser.state = .header)
    (hlong : ArchiveHeader.headerSize ≤ parser.buffer.length) (chunk : Bytes) :
    (parser.extend chunk).move platform
      = match Parser.parseHeader platform parser.buffer with
        | .error (.returned _) => .ok (some ((parser.extend chunk).transitionTo .error))
        | .error fault => .error fault
        | .ok header => .ok (some (({ parser.extend chunk with
            result := { parser.result with header := header }
            expectedSize := header.archiveSize }.consume
              ArchiveHeader.headerSize).transitionTo .metadata)) := by
  have hextended : (parser.extend chunk).state = .init ∨ (parser.extend chunk).state = .header := h
  have hlong' : ¬ (parser.extend chunk).buffer.length < ArchiveHeader.headerSize := by
    rw [extend, List.length_append]
    omega
  have hparse : Parser.parseHeader platform (parser.extend chunk).buffer
      = Parser.parseHeader platform parser.buffer := parseHeader_append hlong chunk
  rw [move_header hextended, if_neg hlong', hparse]
  rfl

theorem move_extend {after : StreamParser} (chunk : Bytes)
    (h : parser.move platform = .ok (some after)) :
    ((parser.extend chunk).move platform).map (Option.map view)
      = .ok (some (after.extend chunk).view) := by
  rcases state_cases parser with hheader | hsection | hrecon | hfinal
  · rw [move_header hheader] at h
    split at h
    · cases h
    · rename_i hwait
      have hlong : ArchiveHeader.headerSize ≤ parser.buffer.length := Nat.not_lt.mp hwait
      rw [move_extend_header hheader hlong]
      cases hresult : Parser.parseHeader platform parser.buffer with
      | ok header =>
          rw [hresult] at h
          obtain rfl := Option.some.inj (Except.ok.inj h)
          simp [extend, consume, transitionTo, view, setMetadata, Except.map,
            List.drop_append_of_le_length hlong]
      | error fault =>
          rw [hresult] at h
          cases fault with
          | returned e =>
              obtain rfl := Option.some.inj (Except.ok.inj h)
              rfl
          | outOfBounds => cases h
          | outOfFuel => cases h
  · have hextended : inSection (parser.extend chunk).state = true := hsection
    rw [move_eq_sectionMove hsection] at h
    rw [move_eq_sectionMove hextended, sectionMove_map_view]
    rcases sectionMove_cases h with ⟨hsize, rfl⟩ | ⟨hsize, hlong, decoded, hdecode, rfl⟩
    · exact if_pos hsize
    · have hwait : ¬ (parser.extend chunk).buffer.length
          < (sectionSize (parser.extend chunk).result.header (parser.extend chunk).state).toNat := by
        show ¬ (parser.buffer ++ chunk).length
          < (sectionSize parser.result.header parser.state).toNat
        rw [List.length_append]
        omega
      have hconsume : (decoded.extend chunk).consume
          (sectionSize parser.result.header parser.state).toNat
          = (decoded.consume (sectionSize parser.result.header parser.state).toNat).extend chunk := by
        apply consume_extend
        rwa [(decodeSection_keeps hdecode).1]
      rw [if_neg (show ¬ sectionSize (parser.extend chunk).result.header
        (parser.extend chunk).state = 0 from hsize), if_neg hwait, decodeSection_extend chunk hlong,
        hdecode]
      exact congrArg (fun next : StreamParser =>
        (.ok (some (next.transitionTo (nextState parser.state)).view) :
          Except (Fault ParseError) (Option StreamParser))) hconsume
  · rw [move_finalize hrecon] at h
    obtain rfl := Option.some.inj (Except.ok.inj h)
    have hextended : (parser.extend chunk).state = .objectRecon := hrecon
    rw [move_finalize hextended]
    rfl
  · rw [move_final hfinal] at h
    cases h

theorem move_error_extend {e : Fault ParseError} (chunk : Bytes)
    (h : parser.move platform = .error e) : (parser.extend chunk).move platform = .error e := by
  rcases state_cases parser with hheader | hsection | hrecon | hfinal
  · rw [move_header hheader] at h
    by_cases hwait : parser.buffer.length < ArchiveHeader.headerSize
    · rw [if_pos hwait] at h
      cases h
    · rw [if_neg hwait] at h
      rw [move_extend_header hheader (Nat.not_lt.mp hwait)]
      cases hresult : Parser.parseHeader platform parser.buffer with
      | ok header =>
          rw [hresult] at h
          cases h
      | error fault =>
          rw [hresult] at h
          cases fault with
          | returned e => cases h
          | outOfBounds => exact h
          | outOfFuel => exact h
  · have hextended : inSection (parser.extend chunk).state = true := hsection
    rw [move_eq_sectionMove hsection] at h
    obtain ⟨hsize, hlong, hdecode⟩ := sectionMove_error h
    have hsame := decodeSection_extend chunk hlong
    rw [hdecode] at hsame
    rw [move_eq_sectionMove hextended]
    have hwait : ¬ (parser.buffer ++ chunk).length
        < (sectionSize parser.result.header parser.state).toNat := by
      rw [List.length_append]
      omega
    unfold sectionMove
    rw [if_neg (show ¬ sectionSize (parser.extend chunk).result.header
      (parser.extend chunk).state = 0 from hsize), if_neg (show ¬ (parser.extend chunk).buffer.length
        < (sectionSize (parser.extend chunk).result.header (parser.extend chunk).state).toNat
          from hwait)]
    cases hresult : (parser.extend chunk).decodeSection with
    | error e' =>
        rw [hresult] at hsame
        obtain rfl := Except.error.inj hsame
        rfl
    | ok decoded =>
        rw [hresult] at hsame
        cases hsame
  · rw [move_finalize hrecon] at h
    cases h
  · rw [move_final hfinal] at h
    cases h

/-- Up to its metadata the parser does not see where its input is cut. -/
theorem uncut (platform : Platform) :
    Feeding.Uncut (move platform) extend view rank maxRounds where
  extend_extend := by
    intro state first second
    simp [extend]
  rank_extend := fun _ _ => rfl
  rank_lt := fun _ _ h => rank_move h
  rank_bound := fun _ after _ => rank_lt_maxRounds after
  view_move := by
    intro state other hview
    rw [← move_view, hview, move_view]
  view_extend := by
    intro state other piece hview
    have hextended : ∀ parser : StreamParser, (parser.extend piece).view
        = parser.view.extend piece := fun _ => rfl
    rw [hextended, hextended, hview]
  move_extend := fun _ _ piece h => move_extend piece h
  error_extend := fun _ _ piece h => move_error_extend piece h

/-! ### The loop -/

/-- The parser that a call of `feed` leaves behind, if it has not left its section. -/
def outcome : StreamParser × Result Nat → Except (Fault ParseError) StreamParser
  | (_, .error .outOfBounds) => .error .outOfBounds
  | (_, .error .outOfFuel) => .error .outOfFuel
  | (after, _) => .ok after

theorem process_waits {after : StreamParser} (h : parser.process platform = .ok (0, after))
    (hstate : parser.state = after.state) : after = parser := by
  rcases state_cases parser with hheader | hsection | hrecon | hfinal
  · have hprocess : parser.process platform = parser.processHeader platform := by
      rw [process]
      rcases hheader with h | h <;> rw [h]
    rw [hprocess, processHeader] at h
    split at h
    · exact (Prod.mk.inj (Except.ok.inj h)).2.symm
    · split at h
      · cases h
      · cases (Prod.mk.inj (Except.ok.inj h)).1
  · rw [process_eq hsection, processSection] at h
    split at h
    · obtain rfl := (Prod.mk.inj (Except.ok.inj h)).2
      exact absurd hstate (ne_nextState hsection)
    · rename_i hsize
      split at h
      · exact (Prod.mk.inj (Except.ok.inj h)).2.symm
      · split at h
        · cases h
        · have hzero := (Prod.mk.inj (Except.ok.inj h)).1
          exact absurd (UInt64.toNat_inj.mp hzero) hsize
  · rw [process, hrecon, finalize] at h
    obtain rfl := (Prod.mk.inj (Except.ok.inj h)).2
    rw [hrecon] at hstate
    cases hstate
  · rw [process] at h
    rcases hfinal with hfinal | hfinal <;> rw [hfinal] at h <;> cases h

theorem drive_final (h : parser.state = .complete ∨ parser.state = .error) (fuel : Nat) :
    Feeding.drive (move platform) fuel parser = .ok parser := by
  cases fuel with
  | zero => rfl
  | succ fuel => rw [Feeding.drive, move_final h]

/-- One round of the loop: it ends because no move can be made, the stage returns an error or it leaves
its section, or it goes on behind the move. -/
theorem feedLoop_cases (platform : Platform) (fuel total : Nat) (parser : StreamParser) :
    (parser.move platform = .ok none
        ∧ feedLoop platform (fuel + 1) total parser = (parser, .ok total))
      ∨ (∃ e, parser.move platform = .ok (some (parser.transitionTo .error))
        ∧ feedLoop platform (fuel + 1) total parser
          = (parser.transitionTo .error, .error (.returned e)))
      ∨ (∃ fault, parser.move platform = .error fault ∧ (∀ e, fault ≠ .returned e)
        ∧ feedLoop platform (fuel + 1) total parser = (parser, .error fault))
      ∨ ∃ consumed after, parser.process platform = .ok (consumed, after)
        ∧ parser.move platform = .ok (some after)
        ∧ feedLoop platform (fuel + 1) total parser
          = feedLoop platform fuel (total + consumed) after := by
  rw [feedLoop]
  by_cases hfinal : parser.state = .complete ∨ parser.state = .error
  · rw [if_pos hfinal]
    exact .inl ⟨move_final hfinal platform, rfl⟩
  · rw [if_neg hfinal, move, if_neg hfinal]
    cases hprocess : parser.process platform with
    | error fault =>
        cases fault with
        | returned e => exact .inr (.inl ⟨e, rfl, rfl⟩)
        | outOfBounds => exact .inr (.inr (.inl ⟨_, rfl, fun e h => (by cases h), rfl⟩))
        | outOfFuel => exact .inr (.inr (.inl ⟨_, rfl, fun e h => (by cases h), rfl⟩))
    | ok step =>
        obtain ⟨consumed, after⟩ := step
        simp only
        by_cases hwait : consumed = 0 ∧ parser.state = after.state
        · rw [if_pos hwait, if_pos hwait]
          obtain ⟨rfl, hstate⟩ := hwait
          obtain rfl := process_waits hprocess hstate
          exact .inl ⟨rfl, rfl⟩
        · rw [if_neg hwait, if_neg hwait]
          exact .inr (.inr (.inr ⟨consumed, after, rfl, rfl, rfl⟩))

theorem outcome_feedLoop {fuel : Nat} (total : Nat) (h : maxRounds ≤ fuel + parser.rank) :
    outcome (feedLoop platform fuel total parser)
      = Feeding.drive (move platform) fuel parser := by
  induction fuel generalizing parser total with
  | zero =>
      have hbound := rank_lt_maxRounds parser
      omega
  | succ fuel ih =>
      rw [Feeding.drive]
      rcases feedLoop_cases platform fuel total parser with ⟨hmove, hloop⟩ | ⟨e, hmove, hloop⟩ |
        ⟨fault, hmove, hfault, hloop⟩ | ⟨consumed, after, -, hmove, hloop⟩
      · rw [hmove, hloop]
        rfl
      · rw [hmove, hloop]
        exact (drive_final (.inr rfl) fuel).symm
      · rw [hmove, hloop]
        cases fault with
        | returned e => exact absurd rfl (hfault e)
        | outOfBounds => rfl
        | outOfFuel => rfl
      · have hrank := rank_move hmove
        rw [hmove, hloop]
        exact ih _ (by omega)

theorem feedAll_cons (platform : Platform) (parser : StreamParser) (chunk : Bytes)
    (chunks : List Bytes) :
    parser.feedAll platform (chunk :: chunks)
      = (outcome (parser.feed platform chunk)).bind fun after => after.feedAll platform chunks := by
  rw [feedAll]
  rcases parser.feed platform chunk with ⟨after, (_ | _ | _) | consumed⟩ <;> rfl

theorem feedAll_eq (parser : StreamParser) (pieces : List Bytes) :
    parser.feedAll platform pieces
      = Feeding.feedAll (move platform) extend maxRounds parser pieces := by
  induction pieces generalizing parser with
  | nil => rfl
  | cons piece pieces ih =>
      have hloop : outcome (parser.feed platform piece)
          = Feeding.drive (move platform) maxRounds (parser.extend piece) :=
        outcome_feedLoop 0 (Nat.le_add_right _ _)
      rw [feedAll_cons, Feeding.feedAll, hloop]
      cases Feeding.drive (move platform) maxRounds (parser.extend piece) with
      | error e => rfl
      | ok after => exact ih after

end StreamParser

end NebulaFS
