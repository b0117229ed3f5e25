import NebulaFS.Proof.MetadataPrefix
import NebulaFS.Proof.StreamFeeding

/-!
# Where the input of the stream parser is cut

Two ways of cutting the same bytes into calls of `feed` come to the same result but for two things.
A table whose decoder reads beyond its section stops the parser there, which it does however the bytes
are cut (`feedAll_ok_iff`). An entry of the metadata that runs beyond its section is found only if the
rest of it has been fed by then (`TookMetadata`).
-/

namespace NebulaFS

open Cursor

/-! ### The decoders of the tables end -/

section Decoders

variable {data : Bytes} {offset : Nat}

theorem DirectoryTree.leaving_yields {α : Type} {Q : α → Prop} {read : Except (Fault ErrorCode) α}
    (h : Yields (· ≠ .outOfFuel) Q read) (node : DirectoryNode) :
    Yields (fun e => e.2 ≠ .outOfFuel) Q (leaving node read) := by
  cases read with
  | error e => exact h
  | ok value => exact h

/-- Every node takes a byte before it comes to its children, so the recursion is never deeper than
the section is long. -/
theorem DirectoryTree.deserializeNode_yields (fuel : Nat) (node : DirectoryNode)
    (hoffset : offset ≤ data.length) (hfuel : data.length < offset + fuel) :
    Yields (fun e => e.2 ≠ .outOfFuel) (fun read => offset < read.2 ∧ read.2 ≤ data.length)
      (deserializeNode data fuel node offset) := by
  induction fuel generalizing node offset with
  | zero => omega
  | succ fuel ih =>
      rw [deserializeNode]
      apply (leaving_yields (readVarInt_yields _ _ _) node).bind
      rintro ⟨nameLen, afterLen⟩ hlen
      apply (leaving_yields (require_yields _ _) node).bind
      rintro - -
      apply (leaving_yields (readRange_yields _ _ _) node).bind
      rintro ⟨name, afterName⟩ hname
      apply (leaving_yields (readVarInt_yields _ _ _) _).bind
      rintro ⟨id, afterId⟩ hid
      apply (leaving_yields (readVarInt_yields _ _ _) _).bind
      rintro ⟨parentId, afterParent⟩ hparent
      apply (leaving_yields (readVarInt_yields _ _ _) _).bind
      rintro ⟨fileCount, afterCount⟩ hcount
      simp only at hlen hname hid hparent hcount ⊢
      have hfile : ∀ pos, afterCount ≤ pos → pos ≤ data.length → Yields (· ≠ .outOfFuel)
          (fun read => pos ≤ read.2 ∧ read.2 ≤ data.length) (readVarInt .corruptDirectory data pos) :=
        fun pos _ _ => (readVarInt_yields _ _ _).mono fun read hread => ⟨Nat.le_of_lt hread.1, hread.2⟩
      have hfiles := readMany_advances hfile fileCount.toNat (Nat.le_refl _) hcount.2
      cases hread : readMany (readVarInt .corruptDirectory data) fileCount.toNat afterCount with
      | error e =>
          rw [hread] at hfiles
          exact hfiles
      | ok files =>
          rw [hread] at hfiles
          obtain ⟨files, afterFiles⟩ := files
          simp only
          apply (leaving_yields (readVarInt_yields _ _ _) _).bind
          rintro ⟨childCount, afterChildCount⟩ hchildren
          have hlt : offset < afterChildCount := by
            have hforward := hfiles.1
            omega
          have hnode : ∀ pos, afterChildCount ≤ pos → pos ≤ data.length →
              Yields (fun e => e.2 ≠ .outOfFuel) (fun read => pos ≤ read.2 ∧ read.2 ≤ data.length)
                (deserializeNode data fuel {} pos) :=
            fun pos hpos hinside => (ih {} hinside (by omega)).mono fun read hread =>
              ⟨Nat.le_of_lt hread.1, hread.2⟩
          have hnodes := readMany_advances hnode childCount.toNat (Nat.le_refl _) hchildren.2
          cases hloop : readMany (deserializeNode data fuel {}) childCount.toNat
              afterChildCount with
          | error e =>
              rw [hloop] at hnodes
              exact hnodes
          | ok nodes =>
              rw [hloop] at hnodes
              exact ⟨Nat.lt_of_lt_of_le hlt hnodes.1, hnodes.2⟩

theorem DirectoryTree.deserialize_ne_outOfFuel (data : Bytes) :
    (DirectoryTree.deserialize data).2 ≠ some .outOfFuel := by
  have hcount := readVarInt_yields .corruptDirectory data 0
  rw [deserialize]
  cases hread : readVarInt .corruptDirectory data 0 with
  | error e =>
      rw [hread] at hcount
      exact fun h => hcount (Option.some.inj h)
  | ok read =>
      rw [hread] at hcount
      obtain ⟨count, offset⟩ := read
      have hroot := deserializeNode_yields (data.length + 1) clear.root hcount.2 (by omega)
      simp only
      cases hnode : deserializeNode data (data.length + 1) clear.root offset with
      | error e =>
          rw [hnode] at hroot
          exact fun h => hroot (Option.some.inj h)
      | ok node => exact fun h => by cases h

theorem IndexManager.readEntry_yields (data : Bytes) (offset : Nat) :
    Yields (· ≠ .outOfFuel) (fun _ => True) (readEntry data offset) := by
  rw [readEntry]
  apply (readVarInt_yields _ _ _).bind
  rintro ⟨entryId, afterId⟩ -
  apply (readVarInt_yields _ _ _).bind
  rintro ⟨entryOffset, afterOffset⟩ -
  apply (readVarInt_yields _ _ _).bind
  rintro ⟨size, afterSize⟩ -
  apply (require_yields _ _).bind
  rintro - -
  apply (readArr_yields _ _ _).bind
  rintro ⟨checksum, afterChecksum⟩ -
  trivial

theorem IndexManager.deserialize_ne_outOfFuel (data : Bytes) :
    (IndexManager.deserialize data).2 ≠ some .outOfFuel := by
  have hcount := readVarInt_yields .corruptIndex data 0
  rw [deserialize]
  cases hread : readVarInt .corruptIndex data 0 with
  | error e =>
      rw [hread] at hcount
      exact fun h => hcount (Option.some.inj h)
  | ok read =>
      obtain ⟨count, offset⟩ := read
      have hentries : Yields (fun e => e.2 ≠ .outOfFuel) (fun _ => True)
          (readMany (readEntry data) count.toNat offset) :=
        readMany_yields (P := fun _ => True) (fun pos _ => readEntry_yields data pos) count.toNat
          trivial
      simp only
      split
      · exact fun h => by cases h
      · cases hloop : readMany (readEntry data) count.toNat offset with
        | error e =>
            rw [hloop] at hentries
            exact fun h => hentries (Option.some.inj h)
        | ok entries => exact fun h => by cases h

theorem ChunkManager.readChunk_yields (data : Bytes) (offset : Nat) :
    Yields (· ≠ .outOfFuel) (fun _ => True) (readChunk data offset) := by
  rw [readChunk]
  apply (require_yields _ _).bind
  rintro - -
  apply (readArr_yields _ _ _).bind
  rintro ⟨hash, afterHash⟩ -
  apply (readVarInt_yields _ _ _).bind
  rintro ⟨chunkOffset, afterOffset⟩ -
  apply (readVarInt_yields _ _ _).bind
  rintro ⟨compressedSize, afterCompressed⟩ -
  apply (readVarInt_yields _ _ _).bind
  rintro ⟨originalSize, afterOriginal⟩ -
  apply (readByte_yields _ _).bind
  rintro ⟨compression, afterCompression⟩ -
  apply (readByte_yields _ _).bind
  rintro ⟨encrypted, afterEncrypted⟩ -
  trivial

theorem ChunkManager.deserialize_ne_outOfFuel (data : Bytes) :
    (ChunkManager.deserialize data).2 ≠ some .outOfFuel := by
  have hcount := readVarInt_yields .corruptChunkTable data 0
  rw [deserialize]
  cases hread : readVarInt .corruptChunkTable data 0 with
  | error e =>
      rw [hread] at hcount
      exact fun h => hcount (Option.some.inj h)
  | ok read =>
      obtain ⟨count, offset⟩ := read
      have hchunks : Yields (fun e => e.2 ≠ .outOfFuel) (fun _ => True)
          (readMany (readChunk data) count.toNat offset) :=
        readMany_yields (P := fun _ => True) (fun pos _ => readChunk_yields data pos) count.toNat
          trivial
      simp only
      split
      · exact fun h => by cases h
      · split
        · exact fun h => by cases h
        · cases hloop : readMany (readChunk data) count.toNat offset with
          | error e =>
              rw [hloop] at hchunks
              exact fun h => hchunks (Option.some.inj h)
          | ok chunks => exact fun h => by cases h

end Decoders

namespace StreamParser

/-! ### The sections of the tables -/

def tableStatus (bytes : Bytes) : ParserState → Status
  | .directoryTree => (DirectoryTree.deserialize bytes).2
  | .indexTable => (IndexManager.deserialize bytes).2
  | .chunkTable => (ChunkManager.deserialize bytes).2
  | _ => none

/-- The sections of the given stages stand one behind the other in the bytes. As far as the bytes go,
none is decoded beyond its end. -/
def DecodedInside (header : ArchiveHeader) : List ParserState → Bytes → Prop
  | [], _ => True
  | state :: states, bytes =>
      let size := sectionSize header state
      size.toNat ≤ bytes.length →
        (size ≠ 0 → tableStatus (bytes.take size.toNat) state ≠ some .outOfBounds)
          ∧ DecodedInside header states (bytes.drop size.toNat)

/-- The stages that take a section, from the given one on. -/
def stagesFrom : ParserState → List ParserState
  | .metadata => [.metadata, .directoryTree, .indexTable, .chunkTable, .compressedBlocks]
  | .directoryTree => [.directoryTree, .indexTable, .chunkTable, .compressedBlocks]
  | .indexTable => [.indexTable, .chunkTable, .compressedBlocks]
  | .chunkTable => [.chunkTable, .compressedBlocks]
  | .compressedBlocks => [.compressedBlocks]
  | _ => []

variable {platform : Platform} {parser : StreamParser}

theorem decodeTable_cases {α : Type} (ec : ErrorCode) (state : ParserState)
    (put : ParseResult → α → ParseResult) {table : α × Status} (hfuel : table.2 ≠ some .outOfFuel)
    (parser : StreamParser) :
    (table.2 ≠ some .outOfBounds
        ∧ ∃ decoded, parser.decodeTable ec state put table = .ok decoded)
      ∨ (table.2 = some .outOfBounds
        ∧ parser.decodeTable ec state put table = .error .outOfBounds) := by
  rcases table with ⟨value, _ | (reason | _ | _)⟩ <;> simp [decodeTable] at hfuel ⊢

/-- The decoder of a section ends, or leaves its section. -/
theorem decodeSection_cases (parser : StreamParser) :
    (tableStatus (parser.buffer.take (sectionSize parser.result.header parser.state).toNat)
          parser.state ≠ some .outOfBounds
        ∧ ∃ decoded, parser.decodeSection = .ok decoded)
      ∨ (tableStatus (parser.buffer.take (sectionSize parser.result.header parser.state).toNat)
          parser.state = some .outOfBounds
        ∧ parser.decodeSection = .error .outOfBounds) := by
  unfold decodeSection
  cases hstate : parser.state with
  | metadata =>
      simp only [tableStatus]
      rcases MetadataParser.parse_cases parser.buffer
        (sectionSize parser.result.header .metadata).toNat with ⟨store, heq⟩ | ⟨e, heq⟩
      · simp [heq]
      · simp [heq]
  | directoryTree => exact decodeTable_cases _ _ _ (DirectoryTree.deserialize_ne_outOfFuel _) _
  | indexTable => exact decodeTable_cases _ _ _ (IndexManager.deserialize_ne_outOfFuel _) _
  | chunkTable => exact decodeTable_cases _ _ _ (ChunkManager.deserialize_ne_outOfFuel _) _
  | compressedBlocks | init | header | objectRecon | complete | error => simp [tableStatus]

theorem status_of_decodeSection {decoded : StreamParser}
    (h : parser.decodeSection = .ok decoded) :
    tableStatus (parser.buffer.take (sectionSize parser.result.header parser.state).toNat)
      parser.state ≠ some .outOfBounds := by
  rcases decodeSection_cases parser with ⟨hstatus, -⟩ | ⟨-, herror⟩
  · exact hstatus
  · rw [h] at herror
    cases herror

theorem status_of_decodeSection_error {e : Fault ParseError}
    (h : parser.decodeSection = .error e) :
    tableStatus (parser.buffer.take (sectionSize parser.result.header parser.state).toNat)
      parser.state = some .outOfBounds ∧ e = .outOfBounds := by
  rcases decodeSection_cases parser with ⟨-, decoded, hok⟩ | ⟨hstatus, herror⟩
  · rw [h] at hok
    cases hok
  · rw [h] at herror
    exact ⟨hstatus, Except.error.inj herror⟩

theorem stagesFrom_eq {state : ParserState} (h : inSection state = true) :
    stagesFrom state = state :: stagesFrom (nextState state) := by
  cases state <;> first | rfl | cases h

theorem inSection_nextState {state : ParserState} (h : inSection state = true) :
    inSection (nextState state) = true ∨ nextState state = .objectRecon := by
  cases state <;> first | exact .inl rfl | exact .inr rfl | cases h

/-- The parser is driven to an end just when the sections from its stage on are decoded inside. -/
theorem drive_ok_iff {fuel : Nat} (hstate : inSection parser.state = true ∨ parser.state = .objectRecon)
    (hfuel : maxRounds ≤ fuel + parser.rank) :
    (∃ last, Feeding.drive (move platform) fuel parser = .ok last)
      ↔ DecodedInside parser.result.header (stagesFrom parser.state) parser.buffer := by
  induction fuel generalizing parser with
  | zero =>
      have hbound := rank_lt_maxRounds parser
      omega
  | succ fuel ih =>
      rcases hstate with hsection | hrecon
      · have hnext := inSection_nextState hsection
        rw [Feeding.drive, move_eq_sectionMove hsection, stagesFrom_eq hsection, DecodedInside]
        cases hmove : parser.sectionMove with
        | error e =>
            obtain ⟨hsize, hlong, hdecode⟩ := sectionMove_error hmove
            obtain ⟨houtside, -⟩ := status_of_decodeSection_error hdecode
            constructor
            · rintro ⟨last, hlast⟩
              cases hlast
            · exact fun hinside => absurd houtside ((hinside hlong).1 hsize)
        | ok result =>
            cases result with
            | none =>
                have hwait : ¬ (sectionSize parser.result.header parser.state).toNat
                    ≤ parser.buffer.length := sectionMove_none hmove
                exact ⟨fun _ hlong => absurd hlong hwait, fun _ => ⟨parser, rfl⟩⟩
            | some after =>
                have hrank := rank_move ((move_eq_sectionMove hsection platform).trans hmove)
                simp only
                rcases sectionMove_cases hmove with ⟨hsize, rfl⟩ | ⟨hsize, hlong, decoded, hdecode, rfl⟩
                · rw [ih hnext (by omega)]
                  simp [hsize, transitionTo]
                · have hstatus := status_of_decodeSection hdecode
                  obtain ⟨hbuffer, hheader, -⟩ := decodeSection_keeps hdecode
                  rw [ih hnext (by omega)]
                  simp only [transitionTo, consume, hbuffer, hheader]
                  exact ⟨fun hrest _ => ⟨fun _ => hstatus, hrest⟩, fun hinside => (hinside hlong).2⟩
      · rw [Feeding.drive, move_finalize hrecon, hrecon]
        simp only
        rw [drive_final (.inl rfl)]
        exact ⟨fun _ => trivial, fun _ => ⟨_, rfl⟩⟩

/-! ### The header -/

theorem parse_cases_header (platform : Platform) (data : Bytes) :
    (∃ header, ArchiveHeader.parse platform {} data = (header, none)
        ∧ ArchiveHeader.headerSize ≤ data.length)
      ∨ ∃ header ec, ArchiveHeader.parse platform {} data = (header, some (.returned ec)) := by
  rw [ArchiveHeader.parse]
  split
  · exact .inr ⟨_, _, rfl⟩
  · rename_i hlong
    simp only
    split
    · exact .inr ⟨_, _, rfl⟩
    · split
      · exact .inr ⟨_, _, rfl⟩
      · split
        · exact .inr ⟨_, _, rfl⟩
        · exact .inl ⟨_, rfl, Nat.not_lt.mp hlong⟩

theorem parseHeader_cases (platform : Platform) (data : Bytes) :
    (∃ header, Parser.parseHeader platform data = .ok header
        ∧ ArchiveHeader.headerSize ≤ data.length)
      ∨ ∃ e, Parser.parseHeader platform data = .error (.returned e) := by
  rw [Parser.parseHeader]
  rcases parse_cases_header platform data with ⟨header, heq, hlong⟩ | ⟨header, ec, heq⟩
  · rw [heq]
    exact .inl ⟨header, rfl, hlong⟩
  · rw [heq]
    exact .inr ⟨_, rfl⟩

/-- The stage of the header waits for all of it, and then it has something to do. -/
theorem move_header_cases (hstart : parser.state = .init ∨ parser.state = .header)
    (platform : Platform) :
    (parser.buffer.length < ArchiveHeader.headerSize ∧ parser.move platform = .ok none)
      ∨ ∃ after, parser.move platform = .ok (some after) := by
  rw [move_header hstart]
  by_cases hwait : parser.buffer.length < ArchiveHeader.headerSize
  · rw [if_pos hwait]
    exact .inl ⟨hwait, rfl⟩
  · rw [if_neg hwait]
    rcases parseHeader_cases platform parser.buffer with ⟨header, heq, -⟩ | ⟨e, heq⟩
    · rw [heq]
      exact .inr ⟨_, rfl⟩
    · rw [heq]
      exact .inr ⟨_, rfl⟩

/-- The parser behind its header. -/
def afterHeader (header : ArchiveHeader) (rest : Bytes) : StreamParser :=
  { state := .metadata
    result := { header := header }
    buffer := rest
    bytesProcessed := ArchiveHeader.headerSize
    expectedSize := header.archiveSize }

theorem headerSize_le_of_parseHeader {header : ArchiveHeader} {data : Bytes}
    (h : Parser.parseHeader platform data = .ok header) :
    ArchiveHeader.headerSize ≤ data.length := by
  rcases parseHeader_cases platform data with ⟨_, -, hlong⟩ | ⟨e, herror⟩
  · exact hlong
  · rw [herror] at h
    cases h

theorem move_start {header : ArchiveHeader} {data : Bytes}
    (h : Parser.parseHeader platform data = .ok header) :
    (({} : StreamParser).extend data).move platform
      = .ok (some (afterHeader header (data.drop ArchiveHeader.headerSize))) := by
  have hlong := headerSize_le_of_parseHeader h
  have hbuffer : (({} : StreamParser).extend data).buffer = data := rfl
  rw [move_header (.inl rfl), hbuffer, if_neg (Nat.not_lt.mpr hlong), h]
  simp [afterHeader, consume, transitionTo, extend]

/-- All of the bytes at once are parsed to an end just when the sections that are there are decoded
inside. -/
theorem drive_start_ok_iff (platform : Platform) (data : Bytes) :
    (∃ last, Feeding.drive (move platform) maxRounds (({} : StreamParser).extend data) = .ok last)
      ↔ ∀ header, Parser.parseHeader platform data = .ok header →
        DecodedInside header (stagesFrom .metadata) (data.drop ArchiveHeader.headerSize) := by
  rcases parseHeader_cases platform data with ⟨header, hheader, -⟩ | ⟨e, herror⟩
  · have hdrive : (∃ last, Feeding.drive (move platform) 8
          (afterHeader header (data.drop ArchiveHeader.headerSize)) = .ok last)
        ↔ DecodedInside header (stagesFrom .metadata) (data.drop ArchiveHeader.headerSize) :=
      drive_ok_iff (.inl rfl) (Nat.le_refl 9)
    rw [maxRounds, Feeding.drive, move_start hheader]
    simp only [hheader, Except.ok.injEq, forall_eq']
    exact hdrive
  · have hbuffer : (({} : StreamParser).extend data).buffer = data := rfl
    rw [maxRounds, Feeding.drive, move_header (.inl rfl), hbuffer]
    have hnone : ∀ header, Parser.parseHeader platform data ≠ .ok header := by
      intro header hheader
      rw [herror] at hheader
      cases hheader
    refine ⟨fun _ header hheader => absurd hheader (hnone header), fun _ => ?_⟩
    by_cases hshort : data.length < ArchiveHeader.headerSize
    · rw [if_pos hshort]
      exact ⟨_, rfl⟩
    · rw [if_neg hshort, herror]
      exact ⟨_, drive_final (.inr rfl) _⟩

/-! ### The metadata -/

open MetadataParser

/-- What has become of the metadata section of the bytes that were fed. -/
structure TookMetadata (platform : Platform) (fed : Bytes) (parser : StreamParser) : Prop where
  before : parser.rank < 2 ∨ parser.state = .error → parser.result.metadata = {}
  start : parser.rank = 0 → parser.buffer = fed
  parsed : 1 ≤ parser.rank → parser.state ≠ .error →
    Parser.parseHeader platform fed = .ok parser.result.header
  waiting : parser.rank = 1 → parser.buffer = fed.drop ArchiveHeader.headerSize
  taken : 2 ≤ parser.rank → parser.state ≠ .error →
    ∃ n, n ≤ (fed.drop ArchiveHeader.headerSize).length
      ∧ parser.result.header.metadataSize.toNat ≤ n
      ∧ parser.result.metadata = recovered (parse ((fed.drop ArchiveHeader.headerSize).take n)
        parser.result.header.metadataSize.toNat)

theorem TookMetadata.extend {fed : Bytes} (h : TookMetadata platform fed parser) (piece : Bytes) :
    TookMetadata platform (fed ++ piece) (parser.extend piece) where
  before := h.before
  start := fun hrank => congrArg (· ++ piece) (h.start hrank)
  parsed := by
    intro hrank hstate
    have hheader := h.parsed hrank hstate
    rw [parseHeader_append (headerSize_le_of_parseHeader hheader)]
    exact hheader
  waiting := by
    intro hrank
    have hstate : parser.state ≠ .error := by
      intro herror
      rw [show parser.extend piece = { parser with buffer := parser.buffer ++ piece } from rfl, rank,
        herror] at hrank
      cases hrank
    have hlong := headerSize_le_of_parseHeader (h.parsed (Nat.le_of_eq hrank.symm) hstate)
    rw [List.drop_append_of_le_length hlong, ← h.waiting hrank]
    rfl
  taken := by
    intro hrank hstate
    obtain ⟨n, hn, hsize, hmetadata⟩ := h.taken hrank hstate
    have hlonger : n ≤ ((fed ++ piece).drop ArchiveHeader.headerSize).length := by
      rw [List.length_drop] at hn ⊢
      rw [List.length_append]
      omega
    have hsame : ((fed ++ piece).drop ArchiveHeader.headerSize).take n
        = (fed.drop ArchiveHeader.headerSize).take n := by
      rw [List.drop_append, List.take_append_of_le_length hn]
    exact ⟨n, hlonger, hsize, by rw [hsame]; exact hmetadata⟩

/-- Behind the metadata stage the metadata stays. -/
theorem move_keeps {after : StreamParser} (h : parser.move platform = .ok (some after))
    (hrank : 2 ≤ parser.rank) :
    after.state ≠ .error ∧ after.result.header = parser.result.header
      ∧ after.result.metadata = parser.result.metadata := by
  rcases state_cases parser with hheader | hsection | hrecon | hfinal
  · rcases hheader with hstate | hstate <;> rw [rank, hstate] at hrank <;> simp at hrank
  · have hother : parser.state ≠ .metadata := by
      intro hstate
      rw [rank, hstate] at hrank
      simp at hrank
    have hrunning : nextState parser.state ≠ .error := by
      rcases inSection_nextState hsection with hnext | hnext
      · exact fun herror => running_of_inSection hnext (.inr herror)
      · rw [hnext]
        exact fun h => by cases h
    rw [move_eq_sectionMove hsection] at h
    rcases sectionMove_cases h with ⟨-, rfl⟩ | ⟨-, -, decoded, hdecode, rfl⟩
    · exact ⟨hrunning, rfl, rfl⟩
    · obtain ⟨-, hheader, hmetadata, -⟩ := decodeSection_keeps hdecode
      exact ⟨hrunning, hheader, hmetadata hother⟩
  · rw [move_finalize hrecon] at h
    obtain rfl := Option.some.inj (Except.ok.inj h)
    exact ⟨fun h => (by cases h), rfl, rfl⟩
  · rw [move_final hfinal] at h
    cases h

/-- The move of the metadata stage. -/
theorem move_metadata {after : StreamParser} (h : parser.move platform = .ok (some after))
    (hstate : parser.state = .metadata) (hempty : parser.result.metadata = {}) :
    after.state = .directoryTree ∧ after.result.header = parser.result.header
      ∧ parser.result.header.metadataSize.toNat ≤ parser.buffer.length
      ∧ after.result.metadata
        = recovered (parse parser.buffer parser.result.header.metadataSize.toNat) := by
  rw [move_eq_sectionMove (by rw [hstate]; rfl)] at h
  have hsize : sectionSize parser.result.header parser.state = parser.result.header.metadataSize := by
    rw [hstate]
    rfl
  have hnext : nextState parser.state = .directoryTree := by
    rw [hstate]
    rfl
  rcases sectionMove_cases h with ⟨hzero, rfl⟩ | ⟨-, hlong, decoded, hdecode, rfl⟩
  · rw [hsize] at hzero
    refine ⟨hnext, rfl, by simp [hzero], ?_⟩
    have hparse : parse parser.buffer 0 = .ok {} := by simp [parse, parseLoop]
    rw [hzero]
    simp [transitionTo, hempty, hparse, recovered]
  · rw [hsize] at hlong
    refine ⟨hnext, (decodeSection_keeps hdecode).2.1, hlong, ?_⟩
    unfold decodeSection at hdecode
    simp only [hstate, sectionSize] at hdecode
    rcases parse_cases parser.buffer parser.result.header.metadataSize.toNat with
      ⟨store, heq⟩ | ⟨e, heq⟩
    · simp only [heq] at hdecode
      obtain rfl := Except.ok.inj hdecode
      rw [heq]
      rfl
    · simp only [heq] at hdecode
      obtain rfl := Except.ok.inj hdecode
      rw [heq]
      exact hempty

theorem rank_eq_one_iff : parser.rank = 1 ↔ parser.state = .metadata := by
  rw [rank]
  cases parser.state <;> simp

theorem TookMetadata.move {fed : Bytes} {after : StreamParser}
    (h : TookMetadata platform fed parser) (hmove : parser.move platform = .ok (some after)) :
    TookMetadata platform fed after := by
  have hrank := rank_move hmove
  rcases Nat.lt_trichotomy parser.rank 1 with hzero | hone | hmore
  · have hstart : parser.state = .init ∨ parser.state = .header := by
      rw [rank] at hzero
      cases hstate : parser.state <;> simp [hstate] at hzero ⊢
    have hempty := h.before (.inl (by omega))
    have hbuffer := h.start (by omega)
    rw [move_header hstart] at hmove
    split at hmove
    · cases hmove
    · rename_i hlong
      rw [hbuffer] at hmove hlong
      split at hmove
      · obtain rfl := Option.some.inj (Except.ok.inj hmove)
        exact ⟨fun _ => hempty, fun h => (by cases h), fun _ hrunning => absurd rfl hrunning,
          fun h => (by cases h), fun _ hrunning => absurd rfl hrunning⟩
      · cases hmove
      · rename_i header hheader
        obtain rfl := Option.some.inj (Except.ok.inj hmove)
        exact ⟨fun _ => hempty, fun h => (by cases h), fun _ _ => hheader, fun _ => rfl,
          fun htwo _ => absurd htwo (by simp [rank, transitionTo])⟩
  · have hstate := rank_eq_one_iff.mp hone
    have hbuffer := h.waiting hone
    obtain ⟨hafter, hheader, hsize, hmetadata⟩ :=
      move_metadata hmove hstate (h.before (.inl (by omega)))
    have hrank' : after.rank = 2 := by rw [rank, hafter]
    have hrunning : after.state ≠ .error := by
      rw [hafter]
      exact fun h => by cases h
    refine ⟨?_, by omega, fun _ _ => ?_, by omega, fun _ _ =>
      ⟨(fed.drop ArchiveHeader.headerSize).length, Nat.le_refl _, ?_, ?_⟩⟩
    · rintro (hsmall | herror)
      · omega
      · exact absurd herror hrunning
    · rw [hheader]
      apply h.parsed (by omega)
      rw [hstate]
      exact fun h => by cases h
    · rw [hheader, ← hbuffer]
      exact hsize
    · rw [hheader, List.take_length, ← hbuffer]
      exact hmetadata
  · obtain ⟨hafter, hheader, hmetadata⟩ := move_keeps hmove hmore
    have hrunning : parser.state ≠ .error := by
      intro herror
      rw [move_final (.inr herror)] at hmove
      cases hmove
    refine ⟨?_, by omega, fun _ _ => ?_, by omega, fun _ _ => ?_⟩
    · rintro (hsmall | herror)
      · omega
      · exact absurd herror hafter
    · rw [hheader]
      exact h.parsed (by omega) hrunning
    · rw [hheader, hmetadata]
      exact h.taken hmore hrunning

theorem tookMetadata_feedAll {pieces : List Bytes} {last : StreamParser}
    (h : ({} : StreamParser).feedAll platform pieces = .ok last) :
    TookMetadata platform pieces.flatten last := by
  have hstart : TookMetadata platform [] {} :=
    ⟨fun _ => rfl, fun _ => rfl, fun h => (by cases h), fun h => (by cases h), fun h => (by cases h)⟩
  rw [feedAll_eq] at h
  exact Feeding.feedAll_invariant (fun _ _ piece hfed => hfed.extend piece)
    (fun _ _ _ hfed hmove => hfed.move hmove) [] hstart h

/-- The metadata of bytes whose first piece goes beyond the metadata section. -/
theorem metadata_feedAll {header : ArchiveHeader} {piece : Bytes} {pieces : List Bytes}
    {last : StreamParser} (hheader : Parser.parseHeader platform piece = .ok header)
    (hlong : header.metadataSize.toNat ≤ (piece.drop ArchiveHeader.headerSize).length)
    (h : ({} : StreamParser).feedAll platform (piece :: pieces) = .ok last) :
    last.result.metadata = recovered (parse (piece.drop ArchiveHeader.headerSize)
      header.metadataSize.toNat) := by
  rw [feedAll_eq, Feeding.feedAll] at h
  cases hdrive : Feeding.drive (move platform) maxRounds (({} : StreamParser).extend piece) with
  | error e =>
      rw [hdrive] at h
      cases h
  | ok next =>
      rw [hdrive] at h
      simp only at h
      rw [maxRounds, Feeding.drive, move_start hheader] at hdrive
      simp only at hdrive
      rw [Feeding.drive] at hdrive
      rcases hmove : (afterHeader header (piece.drop ArchiveHeader.headerSize)).move platform with
        e | _ | after
      · rw [hmove] at hdrive
        cases hdrive
      · rw [move_eq_sectionMove rfl] at hmove
        exact absurd hlong (sectionMove_none hmove)
      · rw [hmove] at hdrive
        obtain ⟨hafter, -, -, hmetadata⟩ := move_metadata hmove rfl rfl
        have hrank : 2 ≤ after.rank := by rw [rank, hafter]
        -- from here on the metadata stays
        have hnext := Feeding.drive_invariant
          (P := fun parser => 2 ≤ parser.rank ∧ parser.result.metadata = after.result.metadata)
          (fun parser after hparser hmove =>
            ⟨Nat.le_trans hparser.1 (Nat.le_of_lt (rank_move hmove)),
              (move_keeps hmove hparser.1).2.2.trans hparser.2⟩) ⟨hrank, rfl⟩ hdrive
        have hlast := Feeding.feedAll_invariant
          (P := fun _ parser => 2 ≤ parser.rank ∧ parser.result.metadata = after.result.metadata)
          (fun _ _ _ hparser => hparser)
          (fun _ parser after hparser hmove =>
            ⟨Nat.le_trans hparser.1 (Nat.le_of_lt (rank_move hmove)),
              (move_keeps hmove hparser.1).2.2.trans hparser.2⟩) [] hnext h
        exact hlast.2.trans hmetadata

/-! ### Any pieces -/

theorem feedAll_view (platform : Platform) (pieces : List Bytes) :
    (({} : StreamParser).feedAll platform pieces).map view
      = (Feeding.drive (move platform) maxRounds (({} : StreamParser).extend pieces.flatten)).map
        view := by
  cases pieces with
  | nil => rfl
  | cons piece pieces =>
      rw [feedAll_eq]
      exact (uncut platform).feedAll_view (rank_lt_maxRounds _)

/-- Fed in any pieces, the parser comes to an end of its own just when the sections that are there are
decoded inside. -/
theorem feedAll_ok_iff (platform : Platform) (pieces : List Bytes) :
    (∃ last, ({} : StreamParser).feedAll platform pieces = .ok last)
      ↔ ∀ header, Parser.parseHeader platform pieces.flatten = .ok header →
        DecodedInside header (stagesFrom .metadata)
          (pieces.flatten.drop ArchiveHeader.headerSize) := by
  have hview := feedAll_view platform pieces
  rw [← drive_start_ok_iff]
  rcases hfeed : ({} : StreamParser).feedAll platform pieces with e | last <;>
    rcases hdrive : Feeding.drive (move platform) maxRounds
      (({} : StreamParser).extend pieces.flatten) with e' | last' <;>
    rw [hfeed, hdrive] at hview
  · simp
  · cases hview
  · cases hview
  · simp

theorem exists_feedAll (pieces : List Bytes) {last : StreamParser}
    (h : Feeding.drive (move platform) maxRounds (({} : StreamParser).extend pieces.flatten)
      = .ok last) :
    ∃ fed, ({} : StreamParser).feedAll platform pieces = .ok fed ∧ fed.view = last.view := by
  have hview := feedAll_view platform pieces
  rw [h] at hview
  cases hfed : ({} : StreamParser).feedAll platform pieces with
  | error e =>
      rw [hfed] at hview
      cases hview
  | ok fed =>
      rw [hfed] at hview
      exact ⟨fed, rfl, Except.ok.inj hview⟩

end StreamParser

end NebulaFS
