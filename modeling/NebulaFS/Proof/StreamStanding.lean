import NebulaFS.Proof.BoundedDecoders
import NebulaFS.Proof.StreamCuts

/-!
# Where the stream parser stands

The state of the parser says how many bytes it has counted: as many as lie before the section it waits
for (`Standing`). Every round of the loop of `feed` keeps to that, and the loop ends in one of three
ways (`feedLoop_ends`): it waits and returns what it has added to the count, it refuses the header
before anything is counted, or a decoder leaves its section. Only two decoders do.
-/

namespace NebulaFS

namespace StreamParser

/-! ### The place of a state -/

/-- The first byte of the section that is waited for, in a state. -/
def sectionStart (header : ArchiveHeader) : ParserState → Nat
  | .init | .header | .error => 0
  | .metadata => ArchiveHeader.headerSize
  | .directoryTree => ArchiveHeader.headerSize + header.metadataSize.toNat
  | .indexTable =>
      ArchiveHeader.headerSize + header.metadataSize.toNat + header.directorySize.toNat
  | .chunkTable =>
      ArchiveHeader.headerSize + header.metadataSize.toNat + header.directorySize.toNat
        + header.indexSize.toNat
  | .compressedBlocks =>
      ArchiveHeader.headerSize + header.metadataSize.toNat + header.directorySize.toNat
        + header.indexSize.toNat + header.chunkSize.toNat
  | .objectRecon | .complete =>
      ArchiveHeader.headerSize + header.metadataSize.toNat + header.directorySize.toNat
        + header.indexSize.toNat + header.chunkSize.toNat + header.blocksSize.toNat

/-- The directory section is all there, and a name in it makes its decoder throw. -/
def DirectoryThrows (header : ArchiveHeader) (fed : Bytes) : Prop :=
  sectionStart header .indexTable ≤ fed.length
    ∧ (DirectoryTree.deserialize ((fed.drop (sectionStart header .directoryTree)).take
        header.directorySize.toNat)).2 = some .outOfBounds

/-- The count is the place of the state in the bytes, and the header and the directory behind that
place have been parsed. -/
structure Standing (platform : Platform) (fed : Bytes) (parser : StreamParser) : Prop where
  inside : parser.bytesProcessed ≤ fed.length
  buffer : parser.buffer = fed.drop parser.bytesProcessed
  processed : parser.bytesProcessed = sectionStart parser.result.header parser.state
  parsed : 1 ≤ parser.rank → parser.state ≠ .error →
    Parser.parseHeader platform fed = .ok parser.result.header
  directory : 3 ≤ parser.rank → parser.state ≠ .error →
    ¬ DirectoryThrows parser.result.header fed

variable {platform : Platform} {parser : StreamParser}

theorem sectionStart_nextState (header : ArchiveHeader) (state : ParserState) :
    sectionStart header (nextState state)
      = sectionStart header state + (sectionSize header state).toNat := by
  cases state <;> rfl

theorem sectionStart_le_of_rank (h : 3 ≤ parser.rank) (hstate : parser.state ≠ .error)
    (header : ArchiveHeader) :
    sectionStart header .indexTable ≤ sectionStart header parser.state := by
  rw [rank] at h
  cases hcase : parser.state <;> simp [hcase, sectionStart] at h hstate ⊢ <;> omega

theorem directoryThrows_append {header : ArchiveHeader} {fed : Bytes}
    (h : sectionStart header .indexTable ≤ fed.length) (more : Bytes) :
    DirectoryThrows header (fed ++ more) ↔ DirectoryThrows header fed := by
  have hlong : header.directorySize.toNat
      ≤ (fed.drop (sectionStart header .directoryTree)).length := by
    rw [List.length_drop]
    simp only [sectionStart] at h ⊢
    omega
  have hstart : sectionStart header .directoryTree ≤ fed.length := by
    simp only [sectionStart] at h ⊢
    omega
  have hsame : ((fed ++ more).drop (sectionStart header .directoryTree)).take
      header.directorySize.toNat
      = (fed.drop (sectionStart header .directoryTree)).take header.directorySize.toNat := by
    rw [List.drop_append_of_le_length hstart, List.take_append_of_le_length hlong]
  rw [DirectoryThrows, DirectoryThrows, hsame, List.length_append]
  exact ⟨fun hthrows => ⟨h, hthrows.2⟩, fun hthrows => ⟨by omega, hthrows.2⟩⟩

theorem standing_start (platform : Platform) : Standing platform [] {} :=
  ⟨Nat.le_refl 0, rfl, rfl, fun h => (by cases h), fun h => (by cases h)⟩

theorem Standing.extend {fed : Bytes} (h : Standing platform fed parser) (chunk : Bytes) :
    Standing platform (fed ++ chunk) (parser.extend chunk) where
  inside := by
    rw [List.length_append]
    exact Nat.le_add_right_of_le h.inside
  buffer := by
    show parser.buffer ++ chunk = (fed ++ chunk).drop parser.bytesProcessed
    rw [List.drop_append_of_le_length h.inside, ← h.buffer]
  processed := h.processed
  parsed := by
    intro hrank hstate
    have hheader := h.parsed hrank hstate
    rw [parseHeader_append (headerSize_le_of_parseHeader hheader)]
    exact hheader
  directory := by
    intro hrank hstate
    have hlong : sectionStart parser.result.header .indexTable ≤ fed.length :=
      calc sectionStart parser.result.header .indexTable
          ≤ sectionStart parser.result.header parser.state :=
            sectionStart_le_of_rank hrank hstate _
        _ = parser.bytesProcessed := h.processed.symm
        _ ≤ fed.length := h.inside
    rw [show (parser.extend chunk).result.header = parser.result.header from rfl,
      directoryThrows_append hlong]
    exact h.directory hrank hstate

/-- What the parsers before and after the move of a section have to do with each other. -/
structure TakesSection (parser after : StreamParser) : Prop where
  inside : (sectionSize parser.result.header parser.state).toNat ≤ parser.buffer.length
  buffer : after.buffer
    = parser.buffer.drop (sectionSize parser.result.header parser.state).toNat
  processed : after.bytesProcessed
    = parser.bytesProcessed + (sectionSize parser.result.header parser.state).toNat
  header : after.result.header = parser.result.header
  state : after.state = nextState parser.state
  status : tableStatus
    (parser.buffer.take (sectionSize parser.result.header parser.state).toNat) parser.state
      ≠ some .outOfBounds

theorem tableStatus_nil (state : ParserState) : tableStatus [] state ≠ some .outOfBounds := by
  cases state <;> decide

theorem takesSection_of_sectionMove {after : StreamParser}
    (h : parser.sectionMove = .ok (some after)) : TakesSection parser after := by
  rcases sectionMove_cases h with ⟨hsize, rfl⟩ | ⟨-, hlong, decoded, hdecode, rfl⟩
  · refine ⟨?_, ?_, ?_, rfl, rfl, ?_⟩
    · simp [hsize]
    · simp [hsize, transitionTo]
    · simp [hsize, transitionTo]
    · rw [hsize]
      exact tableStatus_nil _
  · obtain ⟨hbuffer, hheader, -, hprocessed⟩ := decodeSection_keeps hdecode
    refine ⟨hlong, ?_, ?_, hheader, rfl, status_of_decodeSection hdecode⟩
    · rw [← hbuffer]
      rfl
    · rw [← hprocessed]
      rfl

/-- A stage that takes its section goes from the start of its own to the start of the next. -/
theorem Standing.sectionMove {fed : Bytes} {after : StreamParser}
    (h : Standing platform fed parser) (hsection : inSection parser.state = true)
    (hmove : parser.sectionMove = .ok (some after)) : Standing platform fed after := by
  have htakes := takesSection_of_sectionMove hmove
  have hrunning : parser.state ≠ .error := fun herror => running_of_inSection hsection (.inr herror)
  have hrank : 1 ≤ parser.rank := by
    rw [rank]
    cases hstate : parser.state <;> simp [hstate, inSection] at hsection ⊢
  have hinside := htakes.inside
  rw [h.buffer, List.length_drop] at hinside
  have hprocessed : after.bytesProcessed = sectionStart after.result.header after.state := by
    rw [htakes.processed, htakes.header, htakes.state, sectionStart_nextState, h.processed]
  refine ⟨?_, ?_, hprocessed, fun _ _ => ?_, fun hpast hpastRunning => ?_⟩
  · have hplace := h.inside
    rw [htakes.processed]
    omega
  · rw [htakes.buffer, h.buffer, List.drop_drop, htakes.processed]
  · rw [htakes.header]
    exact h.parsed hrank hrunning
  · rw [htakes.header]
    by_cases hdirectory : parser.state = .directoryTree
    · -- the directory has just been decoded
      have hstatus := htakes.status
      rw [h.buffer, h.processed, hdirectory] at hstatus
      exact fun hthrows => hstatus hthrows.2
    · apply h.directory _ hrunning
      rw [rank, htakes.state] at hpast
      rw [rank]
      cases hstate : parser.state <;>
        simp [hstate, inSection, nextState] at hsection hdirectory hpast ⊢

/-- What one round of the loop preserves. -/
theorem Standing.move {fed : Bytes} {after : StreamParser} (h : Standing platform fed parser)
    (hmove : parser.move platform = .ok (some after)) : Standing platform fed after := by
  rcases state_cases parser with hstart | hsection | hrecon | hfinal
  · have hzero : parser.bytesProcessed = 0 := by
      rw [h.processed]
      rcases hstart with hstate | hstate <;> rw [hstate] <;> rfl
    have hbuffer : parser.buffer = fed := by rw [h.buffer, hzero, List.drop_zero]
    rw [move_header hstart, hbuffer] at hmove
    split at hmove
    · cases hmove
    · rename_i hlong
      split at hmove
      · obtain rfl := Option.some.inj (Except.ok.inj hmove)
        exact ⟨h.inside, h.buffer, hzero, fun _ hrunning => absurd rfl hrunning,
          fun _ hrunning => absurd rfl hrunning⟩
      · cases hmove
      · rename_i header hheader
        obtain rfl := Option.some.inj (Except.ok.inj hmove)
        have hprocessed : parser.bytesProcessed + ArchiveHeader.headerSize
            = ArchiveHeader.headerSize := by rw [hzero, Nat.zero_add]
        refine ⟨?_, ?_, hprocessed, fun _ _ => hheader, fun hpast => ?_⟩
        · show parser.bytesProcessed + ArchiveHeader.headerSize ≤ fed.length
          omega
        · show fed.drop ArchiveHeader.headerSize
            = fed.drop (parser.bytesProcessed + ArchiveHeader.headerSize)
          rw [hprocessed]
        · simp [rank, transitionTo] at hpast
  · rw [move_eq_sectionMove hsection] at hmove
    exact h.sectionMove hsection hmove
  · rw [move_finalize hrecon] at hmove
    obtain rfl := Option.some.inj (Except.ok.inj hmove)
    have hrank : parser.rank = 6 := by rw [rank, hrecon]
    have hrunning : parser.state ≠ .error := by
      rw [hrecon]
      exact fun h => by cases h
    refine ⟨h.inside, h.buffer, ?_, fun _ _ => h.parsed (by omega) hrunning,
      fun _ _ => h.directory (by omega) hrunning⟩
    have hprocessed := h.processed
    rw [hrecon] at hprocessed
    exact hprocessed
  · rw [move_final hfinal] at hmove
    cases hmove

/-! ### How a call ends -/

theorem section_of_move_error {e : Fault ParseError} (h : parser.move platform = .error e) :
    e = .outOfBounds
      ∧ sectionSize parser.result.header parser.state ≠ 0
      ∧ (sectionSize parser.result.header parser.state).toNat ≤ parser.buffer.length
      ∧ tableStatus (parser.buffer.take (sectionSize parser.result.header parser.state).toNat)
        parser.state = some .outOfBounds := by
  rcases state_cases parser with hstart | hsection | hrecon | hfinal
  · rcases move_header_cases hstart platform with ⟨-, hmove⟩ | ⟨after, hmove⟩
    · rw [hmove] at h
      cases h
    · rw [hmove] at h
      cases h
  · rw [move_eq_sectionMove hsection] at h
    obtain ⟨hsize, hlong, hdecode⟩ := sectionMove_error h
    obtain ⟨hstatus, he⟩ := status_of_decodeSection_error hdecode
    exact ⟨he, hsize, hlong, hstatus⟩
  · rw [move_finalize hrecon] at h
    cases h
  · rw [move_final hfinal] at h
    cases h

/-- A stage returns what it adds to the count. -/
theorem process_counts {consumed : Nat} {after : StreamParser}
    (h : parser.process platform = .ok (consumed, after)) :
    after.bytesProcessed = parser.bytesProcessed + consumed := by
  rcases state_cases parser with hstart | hsection | hrecon | hfinal
  · have hprocess : parser.process platform = parser.processHeader platform := by
      rw [process]
      rcases hstart with hstate | hstate <;> rw [hstate]
    rw [hprocess, processHeader] at h
    split at h
    · obtain ⟨rfl, rfl⟩ := Prod.mk.inj (Except.ok.inj h)
      rfl
    · split at h
      · cases h
      · obtain ⟨rfl, rfl⟩ := Prod.mk.inj (Except.ok.inj h)
        rfl
  · rw [process_eq hsection, processSection] at h
    split at h
    · obtain ⟨rfl, rfl⟩ := Prod.mk.inj (Except.ok.inj h)
      rfl
    · split at h
      · obtain ⟨rfl, rfl⟩ := Prod.mk.inj (Except.ok.inj h)
        rfl
      · cases hdecode : parser.decodeSection with
        | error fault =>
            rw [hdecode] at h
            cases h
        | ok decoded =>
            obtain ⟨-, -, -, hprocessed⟩ := decodeSection_keeps hdecode
            rw [hdecode] at h
            obtain ⟨rfl, rfl⟩ := Prod.mk.inj (Except.ok.inj h)
            rw [← hprocessed]
            rfl
  · rw [process, hrecon] at h
    obtain ⟨rfl, rfl⟩ := Prod.mk.inj (Except.ok.inj h)
    rfl
  · rw [process] at h
    rcases hfinal with hstate | hstate <;> rw [hstate] at h <;> cases h

/-- Only the stage of the header returns an error. -/
theorem rank_eq_zero_of_refused {after : StreamParser}
    (h : parser.move platform = .ok (some after)) (herror : after.state = .error) :
    parser.rank = 0 := by
  rcases state_cases parser with hstart | hsection | hrecon | hfinal
  · rcases hstart with hstate | hstate <;> rw [rank, hstate]
  · rw [move_eq_sectionMove hsection] at h
    rw [(takesSection_of_sectionMove h).state] at herror
    rcases inSection_nextState hsection with hnext | hnext
    · exact absurd (.inr herror) (running_of_inSection hnext)
    · rw [hnext] at herror
      cases herror
  · rw [move_finalize hrecon] at h
    obtain rfl := Option.some.inj (Except.ok.inj h)
    cases herror
  · rw [move_final hfinal] at h
    cases h

/-- How the loop of `feed` ends, from a parser and a sum: it waits and has added to the sum what it
added to the count, it refuses the header, or it leaves a section. -/
inductive LoopEnds (platform : Platform) (parser : StreamParser) (total : Nat) :
    StreamParser × Result Nat → Prop
  | waits (after : StreamParser) (consumed : Nat)
      (hprocessed : after.bytesProcessed = parser.bytesProcessed + consumed)
      (hmove : after.move platform = .ok none) :
      LoopEnds platform parser total (after, .ok (total + consumed))
  | refuses (e : ParseError) (hrank : parser.rank = 0) :
      LoopEnds platform parser total (parser.transitionTo .error, .error (.returned e))
  | leaves (after : StreamParser) (hmove : after.move platform = .error .outOfBounds) :
      LoopEnds platform parser total (after, .error .outOfBounds)

/-- The rounds are enough: every move leads to a higher rank. -/
theorem feedLoop_ends {fuel : Nat} (total : Nat) (h : maxRounds ≤ fuel + parser.rank) :
    LoopEnds platform parser total (feedLoop platform fuel total parser) := by
  induction fuel generalizing parser total with
  | zero =>
      have hbound := rank_lt_maxRounds parser
      omega
  | succ fuel ih =>
      rcases feedLoop_cases platform fuel total parser with ⟨hmove, hloop⟩ | ⟨e, hmove, hloop⟩ |
        ⟨fault, hmove, -, hloop⟩ | ⟨consumed, after, hprocess, hmove, hloop⟩
      · rw [hloop]
        exact .waits parser 0 rfl hmove
      · rw [hloop]
        exact .refuses e (rank_eq_zero_of_refused hmove rfl)
      · rw [hloop]
        obtain ⟨rfl, -⟩ := section_of_move_error hmove
        exact .leaves parser hmove
      · have hrank := rank_move hmove
        have hcount := process_counts hprocess
        have hends : LoopEnds platform after (total + consumed)
            (feedLoop platform fuel (total + consumed) after) := ih _ (by omega)
        rw [hloop]
        generalize feedLoop platform fuel (total + consumed) after = ending at hends ⊢
        cases hends with
        | waits last more hprocessed hlast =>
            rw [Nat.add_assoc]
            exact .waits last (consumed + more) (by omega) hlast
        | refuses e hzero => omega
        | leaves last hlast => exact .leaves last hlast

theorem feed_ends (platform : Platform) (parser : StreamParser) (chunk : Bytes) :
    LoopEnds platform (parser.extend chunk) 0 (parser.feed platform chunk) :=
  feedLoop_ends 0 (Nat.le_add_right _ _)

/-- **Termination.** No call of `feed` is still in its loop when the rounds are used up. -/
theorem feed_ne_outOfFuel (platform : Platform) (parser : StreamParser) (chunk : Bytes) :
    (parser.feed platform chunk).2 ≠ .error .outOfFuel := by
  have hends := feed_ends platform parser chunk
  generalize parser.feed platform chunk = outcome at hends
  cases hends <;> exact fun h => by cases h

theorem feedLoop_invariant {P : StreamParser → Prop}
    (hmove : ∀ parser after, P parser → parser.move platform = .ok (some after) → P after)
    (h : P parser) (fuel total : Nat) : P (feedLoop platform fuel total parser).1 := by
  induction fuel generalizing parser total with
  | zero => exact h
  | succ fuel ih =>
      rcases feedLoop_cases platform fuel total parser with ⟨-, hloop⟩ | ⟨e, hmoved, hloop⟩ |
        ⟨fault, -, -, hloop⟩ | ⟨consumed, after, -, hmoved, hloop⟩
      · rw [hloop]
        exact h
      · rw [hloop]
        exact hmove _ _ h hmoved
      · rw [hloop]
        exact h
      · rw [hloop]
        exact ih (hmove _ _ h hmoved) _

/-! ### Leaving a section -/

/-- The other decoders stay inside. -/
theorem state_of_leaves (h : parser.move platform = .error .outOfBounds) :
    parser.state = .directoryTree ∨ parser.state = .chunkTable := by
  obtain ⟨-, -, -, hstatus⟩ := section_of_move_error h
  cases hstate : parser.state with
  | directoryTree => exact .inl rfl
  | chunkTable => exact .inr rfl
  | indexTable =>
      rw [hstate] at hstatus
      rcases IndexManager.deserialize_ends (parser.buffer.take
          (sectionSize parser.result.header .indexTable).toNat) with hends | hends <;>
        simp [tableStatus, hends] at hstatus
  | init | header | metadata | compressedBlocks | objectRecon | complete | error =>
      rw [hstate] at hstatus
      cases hstatus

/-- The directory section is at the front of the buffer, and decoding it throws. -/
structure Throws (parser : StreamParser) : Prop where
  state : parser.state = .directoryTree
  size : parser.result.header.directorySize ≠ 0
  inside : parser.result.header.directorySize.toNat ≤ parser.buffer.length
  status : (DirectoryTree.deserialize
    (parser.buffer.take parser.result.header.directorySize.toNat)).2 = some .outOfBounds

theorem throws_of_leaves (h : parser.move platform = .error .outOfBounds)
    (hstate : parser.state = .directoryTree) : parser.Throws := by
  obtain ⟨-, hsize, hlong, hstatus⟩ := section_of_move_error h
  rw [hstate] at hsize hlong hstatus
  exact ⟨hstate, hsize, hlong, hstatus⟩

theorem Throws.extend (h : parser.Throws) (chunk : Bytes) : (parser.extend chunk).Throws where
  state := h.state
  size := h.size
  inside := by
    show parser.result.header.directorySize.toNat ≤ (parser.buffer ++ chunk).length
    rw [List.length_append]
    exact Nat.le_add_right_of_le h.inside
  status := by
    show (DirectoryTree.deserialize ((parser.buffer ++ chunk).take
      parser.result.header.directorySize.toNat)).2 = some .outOfBounds
    rw [List.take_append_of_le_length h.inside]
    exact h.status

theorem Throws.process (h : parser.Throws) (platform : Platform) :
    parser.process platform = .error .outOfBounds := by
  have hbytes : parser.haveBytes parser.result.header.directorySize.toNat = true :=
    decide_eq_true h.inside
  rw [StreamParser.process, h.state]
  simp [processDirectoryTree, processSection, h.size, hbytes, decodeTable, h.status]

/-- However often it is fed, the parser stays where it is. -/
theorem Throws.feed (h : parser.Throws) (platform : Platform) (chunk : Bytes) :
    parser.feed platform chunk = (parser.extend chunk, .error .outOfBounds) := by
  have hrunning : ¬ ((parser.extend chunk).state = .complete
      ∨ (parser.extend chunk).state = .error) := by
    simp [(h.extend chunk).state]
  show feedLoop platform maxRounds 0 (parser.extend chunk) = _
  rw [maxRounds, feedLoop, if_neg hrunning, (h.extend chunk).process]

end StreamParser

end NebulaFS
