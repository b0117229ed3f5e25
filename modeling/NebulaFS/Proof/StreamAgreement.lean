import NebulaFS.Proof.StreamCuts

/-!
# The stream parser on archives of the writer

The parser goes to a section where the header says it is, the stream parser expects the first one
right behind the header. The writer puts the data of the entries there. So the two agree on the
archives of writers that stored no data (`streamed_as_parsed`), however the bytes are fed.
-/

namespace NebulaFS

open Cursor ArchiveHeader

namespace StreamParser

/-- The result of the stream parser is the one of the parser, as far as both have it. -/
structure Agrees (streamed parsed : ParseResult) : Prop where
  header : streamed.header = parsed.header
  metadata : streamed.metadata = parsed.metadata
  directoryTree : streamed.directoryTree = parsed.directoryTree
  indexManager : streamed.indexManager = parsed.indexManager
  chunkManager : streamed.chunkManager = parsed.chunkManager

variable {parser : StreamParser} {bytes rest : Bytes}

/-! ### Stages that find their section -/

def setResult (parser : StreamParser) (result : ParseResult) : StreamParser :=
  { parser with result := result }

/-- A stage has come to its end and left the rest of the bytes to the next one. -/
structure Passed (parser after : StreamParser) (rest : Bytes) (result : ParseResult) : Prop where
  state : after.state = nextState parser.state
  buffer : after.buffer = rest
  result_eq : after.result = result
  warnings : after.warnings = parser.warnings

theorem drive_section (platform : Platform) (fuel : Nat) {result : ParseResult}
    (hsection : inSection parser.state = true)
    (hbuffer : parser.buffer = bytes ++ rest)
    (hsize : (sectionSize parser.result.header parser.state).toNat = bytes.length)
    (hne : bytes ≠ []) (hdecode : parser.decodeSection = .ok (parser.setResult result)) :
    ∃ after, Passed parser after rest result
      ∧ Feeding.drive (move platform) (fuel + 1) parser
        = Feeding.drive (move platform) fuel after := by
  have hzero : sectionSize parser.result.header parser.state ≠ 0 := size_ne_zero hsize hne
  have hlong : ¬ parser.buffer.length < (sectionSize parser.result.header parser.state).toNat := by
    rw [hbuffer, hsize, List.length_append]
    omega
  have hmove : parser.move platform = .ok (some
      (((parser.setResult result).consume bytes.length).transitionTo (nextState parser.state))) := by
    rw [move_eq_sectionMove hsection, sectionMove, if_neg hzero, if_neg hlong, hdecode, hsize]
    rfl
  refine ⟨((parser.setResult result).consume bytes.length).transitionTo (nextState parser.state),
    ⟨rfl, ?_, rfl, rfl⟩, by rw [Feeding.drive, hmove]⟩
  show parser.buffer.drop bytes.length = rest
  rw [hbuffer, List.drop_left]

theorem drive_empty (platform : Platform) (fuel : Nat) (parser : StreamParser)
    (hsection : inSection parser.state = true)
    (hsize : sectionSize parser.result.header parser.state = 0) :
    ∃ after, Passed parser after parser.buffer parser.result
      ∧ Feeding.drive (move platform) (fuel + 1) parser
        = Feeding.drive (move platform) fuel after := by
  have hmove : parser.move platform = .ok (some (parser.transitionTo (nextState parser.state))) := by
    rw [move_eq_sectionMove hsection, sectionMove, if_pos hsize]
  exact ⟨parser.transitionTo (nextState parser.state), ⟨rfl, rfl, rfl, rfl⟩, by
    rw [Feeding.drive, hmove]⟩

theorem decodeSection_directoryTree {tree : DirectoryTree} (hstate : parser.state = .directoryTree)
    (hbuffer : parser.buffer = bytes ++ rest)
    (hsize : parser.result.header.directorySize.toNat = bytes.length)
    (hdecode : DirectoryTree.deserialize bytes = (tree, none)) :
    parser.decodeSection = .ok (parser.setResult { parser.result with directoryTree := tree }) := by
  unfold decodeSection
  simp only [hstate, sectionSize]
  rw [hbuffer, hsize, List.take_left, hdecode]
  rfl

theorem decodeSection_indexTable {manager : IndexManager} (hstate : parser.state = .indexTable)
    (hbuffer : parser.buffer = bytes ++ rest)
    (hsize : parser.result.header.indexSize.toNat = bytes.length)
    (hdecode : IndexManager.deserialize bytes = (manager, none)) :
    parser.decodeSection = .ok (parser.setResult { parser.result with indexManager := manager }) := by
  unfold decodeSection
  simp only [hstate, sectionSize]
  rw [hbuffer, hsize, List.take_left, hdecode]
  rfl

theorem decodeSection_chunkTable {manager : ChunkManager} (hstate : parser.state = .chunkTable)
    (hbuffer : parser.buffer = bytes ++ rest)
    (hsize : parser.result.header.chunkSize.toNat = bytes.length)
    (hdecode : ChunkManager.deserialize bytes = (manager, none)) :
    parser.decodeSection = .ok (parser.setResult { parser.result with chunkManager := manager }) := by
  unfold decodeSection
  simp only [hstate, sectionSize]
  rw [hbuffer, hsize, List.take_left, hdecode]
  rfl

end StreamParser

namespace Image

open StreamParser

section

variable {platform : Platform} {content : Bytes} {header : ArchiveHeader}
  {body metadata journal : Bytes} {tree : DirectoryTree} {manager : IndexManager}
  (h : Image platform content header body metadata tree.serialize manager.serialize
    (ChunkManager.serialize {}) journal)

include h

/-- What the parser has of the metadata. -/
theorem parsed_metadata {strictMode : Bool} {result : ParseResult}
    (hparse : Parser.parse platform strictMode content = .ok result) :
    result.metadata
      = MetadataParser.recovered (MetadataParser.parse metadata header.metadataSize.toNat) := by
  rw [h.parse_eq_bind] at hparse
  unfold Parser.takeSection at hparse
  by_cases hsize : header.metadataSize = 0
  · have hparsed : MetadataParser.parse metadata 0 = .ok {} := by
      simp [MetadataParser.parse, MetadataParser.parseLoop]
    rw [if_pos hsize] at hparse
    obtain rfl := Except.ok.inj hparse
    rw [hsize]
    exact (congrArg MetadataParser.recovered hparsed).symm
  · rw [if_neg hsize] at hparse
    rcases MetadataParser.parse_cases metadata header.metadataSize.toNat with
      ⟨store, heq⟩ | ⟨e, heq⟩
    · rw [heq] at hparse ⊢
      obtain rfl := Except.ok.inj hparse
      rfl
    · rw [heq] at hparse ⊢
      cases strictMode with
      | true => cases hparse
      | false =>
          obtain rfl := Except.ok.inj hparse
          rfl

end

variable {platform : Platform} {content : Bytes} {header : ArchiveHeader}
  {metadata journal : Bytes} {tree : DirectoryTree} {manager : IndexManager}
  (h : Image platform content header [] metadata tree.serialize manager.serialize
    (ChunkManager.serialize {}) journal)

include h

theorem drop_headerSize : content.drop headerSize
    = metadata ++ (tree.serialize ++ (manager.serialize ++ (ChunkManager.serialize {} ++ journal))) :=
  h.remaining_body.2

/-- The stages of the tables, behind the metadata. -/
theorem drive_tables {parser : StreamParser} (hstate : parser.state = .directoryTree)
    (hheader : parser.result.header = header.updateChecksum platform)
    (hbuffer : parser.buffer = tree.serialize ++ (manager.serialize
      ++ (ChunkManager.serialize {} ++ journal))) :
    ∃ last, Feeding.drive (move platform) 7 parser = .ok last ∧ last.state = .complete
      ∧ last.result = { parser.result with
          directoryTree := { root := DirectoryTree.stored tree.root, nodeCount := tree.nodeCount }
          indexManager := { entries := manager.entries
                            idIndex := IndexManager.indexById manager.entries }
          chunkManager := {}
          warnings := parser.warnings } := by
  have hfits := h.fits
  have hlength := h.length_content
  have hzero : header.blocksSize = 0 := UInt64.toNat_inj.mp h.blocksSize
  obtain ⟨p1, hp1, hdrive1⟩ := drive_section platform 6
    (by rw [hstate]; rfl) hbuffer (by rw [hstate, hheader]; exact h.directorySize)
    (tree_serialize_ne_nil tree)
    (decodeSection_directoryTree hstate hbuffer (by rw [hheader]; exact h.directorySize)
      (DirectoryTree.deserialize_serialize tree (by omega)))
  have hstate1 : p1.state = .indexTable := by rw [hp1.state, hstate]; rfl
  have hheader1 : p1.result.header = header.updateChecksum platform := by
    rw [hp1.result_eq]
    exact hheader
  obtain ⟨p2, hp2, hdrive2⟩ := drive_section platform 5
    (by rw [hstate1]; rfl) hp1.buffer (by rw [hstate1, hheader1]; exact h.indexSize)
    (ArchiveWriter.index_serialize_ne_nil manager)
    (decodeSection_indexTable hstate1 hp1.buffer (by rw [hheader1]; exact h.indexSize)
      (IndexManager.deserialize_serialize manager (by omega)))
  have hstate2 : p2.state = .chunkTable := by rw [hp2.state, hstate1]; rfl
  have hheader2 : p2.result.header = header.updateChecksum platform := by
    rw [hp2.result_eq]
    exact hheader1
  obtain ⟨p3, hp3, hdrive3⟩ := drive_section platform 4
    (by rw [hstate2]; rfl) hp2.buffer (by rw [hstate2, hheader2]; exact h.chunkSize)
    (by decide) (decodeSection_chunkTable hstate2 hp2.buffer (by rw [hheader2]; exact h.chunkSize)
      (show ChunkManager.deserialize (ChunkManager.serialize {}) = ({}, none) from rfl))
  have hstate3 : p3.state = .compressedBlocks := by rw [hp3.state, hstate2]; rfl
  have hheader3 : p3.result.header = header.updateChecksum platform := by
    rw [hp3.result_eq]
    exact hheader2
  obtain ⟨p4, hp4, hdrive4⟩ := drive_empty platform 3 p3
    (by rw [hstate3]; rfl) (by rw [hstate3, hheader3]; exact hzero)
  have hstate4 : p4.state = .objectRecon := by rw [hp4.state, hstate3]; rfl
  rw [hdrive1, hdrive2, hdrive3, hdrive4, Feeding.drive, move_finalize hstate4]
  refine ⟨_, drive_final (.inl rfl) 2, rfl, ?_⟩
  simp only
  rw [hp4.warnings, hp3.warnings, hp2.warnings, hp1.warnings, hp4.result_eq, hp3.result_eq,
    hp2.result_eq, hp1.result_eq]

/-- All of the archive at once is parsed to its end. -/
theorem drive_content :
    ∃ last store, Feeding.drive (move platform) maxRounds (({} : StreamParser).extend content)
        = .ok last
      ∧ last.state = .complete
      ∧ last.result = { header := header.updateChecksum platform
                        metadata := store
                        directoryTree := { root := DirectoryTree.stored tree.root
                                           nodeCount := tree.nodeCount }
                        indexManager := { entries := manager.entries
                                          idIndex := IndexManager.indexById manager.entries } } := by
  have hbuffer : (afterHeader (header.updateChecksum platform) (content.drop headerSize)).buffer
      = metadata ++ (tree.serialize ++ (manager.serialize ++ (ChunkManager.serialize {} ++ journal))) :=
    h.drop_headerSize
  have hsize : (sectionSize (header.updateChecksum platform) .metadata).toNat = metadata.length :=
    h.metadataSize
  -- the metadata stage passes on, with whatever it found
  obtain ⟨store, after, hafter, hdrive⟩ : ∃ store after,
      Passed (afterHeader (header.updateChecksum platform) (content.drop headerSize)) after
        (tree.serialize ++ (manager.serialize ++ (ChunkManager.serialize {} ++ journal)))
        { header := header.updateChecksum platform, metadata := store }
      ∧ Feeding.drive (move platform) 8
          (afterHeader (header.updateChecksum platform) (content.drop headerSize))
        = Feeding.drive (move platform) 7 after := by
    by_cases hempty : metadata = []
    · have hzero : sectionSize (header.updateChecksum platform) .metadata = 0 := by
        apply UInt64.toNat_inj.mp
        rw [hsize, hempty]
        rfl
      obtain ⟨after, hafter, hdrive⟩ := drive_empty platform 7
        (afterHeader (header.updateChecksum platform) (content.drop headerSize)) rfl hzero
      rw [hbuffer, hempty, List.nil_append] at hafter
      exact ⟨{}, after, hafter, hdrive⟩
    · obtain ⟨store, hdecode⟩ : ∃ store,
          (afterHeader (header.updateChecksum platform) (content.drop headerSize)).decodeSection
            = .ok ((afterHeader (header.updateChecksum platform) (content.drop headerSize)).setResult
              { header := header.updateChecksum platform, metadata := store }) := by
        rcases MetadataParser.parse_cases (content.drop headerSize)
          (sectionSize (header.updateChecksum platform) .metadata).toNat with ⟨store, heq⟩ | ⟨e, heq⟩
        · refine ⟨store, ?_⟩
          unfold decodeSection
          simp only [afterHeader, heq]
          rfl
        · refine ⟨{}, ?_⟩
          unfold decodeSection
          simp only [afterHeader, heq]
          rfl
      obtain ⟨after, hafter, hdrive⟩ := drive_section platform 7 rfl hbuffer
        hsize hempty hdecode
      exact ⟨store, after, hafter, hdrive⟩
  obtain ⟨last, hlast, hstate, hresult⟩ := h.drive_tables hafter.state
    (by rw [hafter.result_eq]) hafter.buffer
  rw [hafter.result_eq, hafter.warnings] at hresult
  refine ⟨last, store, ?_, hstate, hresult⟩
  rw [maxRounds, Feeding.drive, move_start h.parseHeader_eq]
  simp only
  rw [hdrive, hlast]

end Image

theorem MetadataParser.recovered_of_long_key {data : Bytes} {size : Nat}
    {keyLen : VarInt.DecodeResult} (hkey : VarInt.decode data = keyLen)
    (hlong : maxKeyLength < keyLen.value.toNat) : recovered (parse data size) = {} := by
  have hrefused : ∀ found, parseEntry data 0 ≠ .ok found := by
    rintro ⟨entry, next⟩ hparse
    obtain ⟨keyLen', valLen, hentry, -, -⟩ := entryAt_of_parseEntry hparse
    have hshort := hentry.keyShort
    rw [← hentry.key, List.drop_zero, hkey] at hshort
    omega
  rw [parse]
  split
  · rfl
  · cases size with
    | zero => rfl
    | succ size =>
        rw [parseLoop, if_neg (Nat.not_succ_le_zero size)]
        cases hparse : parseEntry data 0 with
        | ok found => exact absurd hparse (hrefused found)
        | error fault => cases fault <;> rfl

/-! ### Agreement -/

/-- Fed with these pieces, a fresh stream parser comes to its end and has what the parser makes of
the same bytes. -/
def StreamsAsParsed (platform : Platform) (pieces : List Bytes) : Prop :=
  ∃ parser, ({} : StreamParser).feedAll platform pieces = .ok parser ∧ parser.state = .complete
    ∧ (∃ result, Parser.parse platform false pieces.flatten = .ok result)
    ∧ ∀ strictMode result, Parser.parse platform strictMode pieces.flatten = .ok result →
      StreamParser.Agrees parser.result result

open StreamParser MetadataParser in
theorem Image.streamsAsParsed {platform : Platform} {header : ArchiveHeader} {store : MetadataStore}
    {tree : DirectoryTree} {manager : IndexManager} {journal : Bytes} {pieces : List Bytes}
    (h : Image platform pieces.flatten header [] store.serialize tree.serialize manager.serialize
      (ChunkManager.serialize {}) journal) : StreamsAsParsed platform pieces := by
  obtain ⟨last, found, hdrive, hcomplete, hresult⟩ := h.drive_content
  obtain ⟨fed, hfed, hview⟩ := exists_feedAll pieces hdrive
  have hstate : fed.state = .complete := (congrArg (·.state) hview).trans hcomplete
  have hheader : fed.result.header = header.updateChecksum platform :=
    (congrArg (·.result.header) hview).trans (congrArg (·.header) hresult)
  have hrank : fed.rank = 7 := by rw [rank, hstate]
  obtain ⟨store', warnings, hlenient⟩ := h.parse_eq
  refine ⟨fed, hfed, hstate, ⟨_, hlenient⟩, ?_⟩
  intro strictMode result hparse
  have hmetadata := h.parsed_metadata hparse
  -- the metadata is found however much is buffered behind it
  have hsize : header.metadataSize.toNat = store.serialize.length := h.metadataSize
  have hrest := h.drop_headerSize
  have hlength : (pieces.flatten.drop headerSize).length < 2 ^ 64 := by
    have hfits := h.fits
    rw [List.length_drop]
    omega
  have hinside : (entriesInside (pieces.flatten.drop headerSize) store.serialize.length
      store.serialize.length 0 {}).2 = none := by
    rw [hrest] at hlength ⊢
    exact entriesInside_serialize hlength
  have hfound : ∀ n, foundIn n (entriesInside (pieces.flatten.drop headerSize)
      store.serialize.length store.serialize.length 0 {})
      = (entriesInside (pieces.flatten.drop headerSize) store.serialize.length
        store.serialize.length 0 {}).1 := by
    intro n
    rcases hwalk : entriesInside (pieces.flatten.drop headerSize) store.serialize.length
      store.serialize.length 0 {} with ⟨inside, _ | beyond⟩
    · rfl
    · rw [hwalk] at hinside
      cases hinside
  have hsection : (pieces.flatten.drop headerSize).take store.serialize.length = store.serialize := by
    rw [hrest, List.take_left]
  have hlong : store.serialize.length ≤ (pieces.flatten.drop headerSize).length := by
    rw [hrest, List.length_append]
    omega
  obtain ⟨n, hn, hn', htaken⟩ := (tookMetadata_feedAll hfed).taken (by omega)
    (by rw [hstate]; exact fun h => by cases h)
  have hsizeFed : fed.result.header.metadataSize.toNat = store.serialize.length := by
    rw [hheader]
    exact hsize
  rw [hsizeFed] at htaken hn'
  rw [recovered_parse_take hn hn', hfound] at htaken
  rw [hsize, ← congrArg (fun bytes => recovered (parse bytes store.serialize.length)) hsection,
    recovered_parse_take hlong (Nat.le_refl _), hfound] at hmetadata
  rw [h.parse_eq_bind] at hparse
  cases htake : Parser.takeSection strictMode header.metadataSize {}
      (MetadataParser.parse store.serialize header.metadataSize.toNat) [] with
  | error e =>
      rw [htake] at hparse
      cases hparse
  | ok taken =>
      rw [htake] at hparse
      obtain rfl := Except.ok.inj hparse
      exact ⟨hheader, htaken.trans hmetadata.symm,
        (congrArg (·.result.directoryTree) hview).trans (congrArg (·.directoryTree) hresult),
        (congrArg (·.result.indexManager) hview).trans (congrArg (·.indexManager) hresult),
        (congrArg (·.result.chunkManager) hview).trans (congrArg (·.chunkManager) hresult)⟩

/-! ### Writers that store no data -/

namespace ArchiveWriter

variable {platform : Platform} {writer : ArchiveWriter}

/-- Nothing of what the call offers comes to be stored: the data of a file, a symbolic link or a blob
is empty after compression and encryption. -/
def StoresNothing (platform : Platform) (writer : ArchiveWriter) (call : Call) : Prop :=
  ∀ around data, call.payload = some (around, data) →
    writer.processedData platform around.evp data = []

theorem StoresNothing.currentOffset_step {call : Call} (hopen : writer.isOpen = true)
    (h : writer.StoresNothing platform call) :
    (writer.step platform call).1.currentOffset = writer.currentOffset := by
  cases hpayload : call.payload with
  | some payload =>
      obtain ⟨around, data⟩ := payload
      obtain ⟨entry, -, -, -, hstep, -⟩ := step_of_payload platform hopen hpayload
      have hoffset : (writer.afterWrite platform around data).currentOffset = writer.currentOffset := by
        simp [afterWrite, h around data hpayload]
      rw [hstep]
      rcases processAndWriteEntry_cases platform writer around data entry with
        ⟨-, heq⟩ | ⟨-, e, -, heq⟩ | ⟨-, -, heq⟩
      · rw [heq]
      · rw [heq]
        exact hoffset
      · rw [heq]
        exact hoffset
  | none =>
      cases Call.dataless hpayload with
      | addFile around path => simp [step, addFile, hopen]
      | addDirectory around path perms =>
          simp only [step, ArchiveWriter.addDirectory, hopen, not_true, if_false]
          rcases writer.directoryTree.insert (writer.directoryEntry path perms around.now) with
            ⟨tree, _ | e⟩ <;> rfl
      | setMetadata _ _ | setEncryptionKey _ | setCompression _ _ => rfl

theorem currentOffset_run (hopen : writer.isOpen = true) {calls : List Call}
    (h : writer.Along platform (StoresNothing platform) calls) :
    (writer.run platform calls).currentOffset = writer.currentOffset := by
  induction calls generalizing writer with
  | nil => rfl
  | cons call calls ih =>
      have hstep := (sameSetup_step platform writer call).isOpen
      rw [run_cons, ih (hstep.trans hopen) h.2, h.1.currentOffset_step hopen]

end ArchiveWriter

namespace Session

open ArchiveWriter

variable {platform : Platform} {session : Session}

/-- **Streaming what the writer wrote.** A finished archive of a writer none of whose adds stored a
byte is parsed by the stream parser as by the parser, in whatever pieces it is fed. -/
theorem streamed_as_parsed (hclosed : (session.closed platform).2 = none)
    (hnothing : (session.opened platform).1.Along platform (StoresNothing platform) session.calls)
    {pieces : List Bytes} (hpieces : pieces.flatten = session.archive platform) :
    StreamsAsParsed platform pieces := by
  have hopened := opened_of_closed hclosed
  obtain ⟨body, header, journal, hinv, himage, -⟩ := closed_image hclosed
  have hbody : body = [] := by
    have hstart : Inv platform (session.opened platform).1 [] [] :=
      (configured_fresh platform session).openArchive platform hopened
    have hoffset : (session.filled platform).currentOffset = headerSize :=
      (currentOffset_run hstart.isOpen hnothing).trans hstart.offset
    have hend := hinv.offset
    apply List.eq_nil_of_length_eq_zero
    omega
  rw [hbody, ← hpieces] at himage
  exact himage.streamsAsParsed

/-- A writer that sets metadata and adds a directory and an empty blob. -/
def emptyBlob : Session where
  config := { compression := .none }
  device := .ample
  calls := [.setMetadata [0x6B] [0x76], .addDirectory .plain [0x64] {}, .addBlob .plain [] [0x61] 0]

theorem streamed_as_parsed_emptyBlob :
    StreamsAsParsed .reference [emptyBlob.archive .reference] := by
  have hclosed : (emptyBlob.closed .reference).2 = none := by decide +kernel
  refine streamed_as_parsed hclosed ⟨fun _ _ h => (by cases h),
    fun _ _ h => (by cases h), ?_, trivial⟩ List.flatten_singleton
  intro around data hpayload
  obtain ⟨rfl, rfl⟩ := Prod.mk.inj (Option.some.inj hpayload)
  rfl

/-- A writer that sets metadata and adds two bytes of data. -/
def binaryBlob : Session where
  config := { compression := .none }
  device := .ample
  calls := [.setMetadata [0x6B] [0x76], .addBlob .plain [0xFF, 0xFF] [0x61] 0]

/-- The reference platform with the digest of the two bytes. -/
def binaryDigest : Platform :=
  { Platform.reference with
    sha256 := fun data =>
      if data = [0xFF, 0xFF] then
        ⟨[0xCA, 0x2F, 0xD0, 0x0F, 0xA0, 0x01, 0x19, 0x07, 0x44, 0xC1, 0x5C, 0x31, 0x76, 0x43, 0xAB, 0x09,
          0x2E, 0x70, 0x48, 0xCE, 0x08, 0x6A, 0x24, 0x3E, 0x2B, 0xE9, 0x43, 0x7C, 0x89, 0x8D, 0xE1, 0xBB],
          rfl⟩
      else Platform.reference.sha256 data }

/-- The stream parser takes the data for the metadata: its first bytes give a key of 32767 bytes. -/
theorem not_streamsAsParsed_binaryBlob :
    (binaryBlob.closed binaryDigest).2 = none
      ∧ ¬ StreamsAsParsed binaryDigest [binaryBlob.archive binaryDigest] := by
  have hclosed : (binaryBlob.closed binaryDigest).2 = none := by decide +kernel
  have hserialized : (binaryBlob.filled binaryDigest).metadata.serialize = [1, 1, 0x6B, 0x76] := by
    decide +kernel
  have hoffset : (binaryBlob.filled binaryDigest).currentOffset = 160 := by decide +kernel
  have hone : (binaryBlob.records binaryDigest).map (fun record =>
      (record.isDirectory, record.stored)) = [(false, [0xFF, 0xFF])] := by decide +kernel
  obtain ⟨body, header, journal, hinv, himage, -⟩ := closed_image hclosed
  have hbody : body = [0xFF, 0xFF] := by
    obtain ⟨record, hrecords, hfields⟩ := List.map_eq_singleton_iff.mp hone
    obtain ⟨hdirectory, hstored⟩ := Prod.mk.inj hfields
    have hplaced := hinv.placed record (by simp [hrecords]) hdirectory
    have hend := hinv.offset
    have habove := hplaced.above
    have hinside := hplaced.inside
    have hslice := hplaced.slice_eq
    rw [hoffset, headerSize] at hend
    rw [hstored] at hinside hslice
    simp only [List.length_cons, List.length_nil, headerSize] at habove hinside
    rw [headerSize, show record.entry.offset.toNat - 158 = 0 by omega,
      slice_all (show body.length = ([0xFF, 0xFF] : Bytes).length from Nat.add_left_cancel hend.symm)]
      at hslice
    exact hslice
  rw [hbody, hserialized] at himage
  refine ⟨hclosed, ?_⟩
  rintro ⟨parser, hfed, -, ⟨result, hresult⟩, hagree⟩
  have hmetadata := (hagree false result hresult).metadata
  rw [List.flatten_singleton] at hresult
  have hsize : header.metadataSize.toNat = 4 := himage.metadataSize
  have hrest := himage.remaining_body.2
  have hstreamed := StreamParser.metadata_feedAll himage.parseHeader_eq
    (by rw [hrest]; show header.metadataSize.toNat ≤ _; rw [hsize]; simp) hfed
  have hparsed := himage.parsed_metadata hresult
  rw [hrest] at hstreamed
  change parser.result.metadata = MetadataParser.recovered (MetadataParser.parse _
    header.metadataSize.toNat) at hstreamed
  rw [hsize] at hstreamed hparsed
  have hkey : parser.result.metadata.getString [0x6B] = result.metadata.getString [0x6B] := by
    rw [hmetadata]
  have hlong : ∀ rest, VarInt.decode ([0xFF, 0xFF] ++ ([1, 1, 0x6B, 0x76] ++ rest))
      = ⟨32767, 3, true⟩ := fun _ => rfl
  rw [hstreamed, hparsed, MetadataParser.recovered_of_long_key (hlong _) (by decide)] at hkey
  cases hkey

end Session

end NebulaFS
