import Mathlib.Data.List.Infix
import NebulaFS.Proof.StreamStanding

/-!
# What the stream parser counts

A session is a parser with the bytes it was fed and the sum of what its calls returned. The books
balance when the buffer is what is left of the bytes and the sum is the parser's own count. A call adds
to both alike unless it takes sections and then fails. Only a throw out of the directory stage does
that, and the throwing call has taken nothing if the parser stood in front of the directory before
(`accounts_iff`).
-/

namespace NebulaFS

namespace StreamParser

/-! ### Sessions -/

/-- The directory stage when `std::string::assign` throws out of `deserialize` at a name too long for
any string: what was decoded so far is in the tree, and nothing else has changed. -/
def abandonDirectory (parser : StreamParser) : StreamParser :=
  let bytes := parser.buffer.take parser.result.header.directorySize.toNat
  { parser with
    result := { parser.result with directoryTree := (DirectoryTree.deserialize bytes).1 } }

/-- A parser, the bytes it was fed, and the sum of what the calls that did not fail returned. -/
structure Session where
  parser : StreamParser := {}
  fed : Bytes := []
  returned : Nat := 0

namespace Session

/-- A call of `feed`. A read outside a section is a throw in the directory stage. In the stage of the
chunk table it is not defined, and there is no session after it. -/
def call (platform : Platform) (session : Session) (chunk : Bytes) : Option Session :=
  let fed := session.fed ++ chunk
  match session.parser.feed platform chunk with
  | (after, .ok consumed) => some ⟨after, fed, session.returned + consumed⟩
  | (after, .error (.returned _)) => some ⟨after, fed, session.returned⟩
  | (after, .error .outOfBounds) =>
      if after.state = .directoryTree then some ⟨after.abandonDirectory, fed, session.returned⟩
      else none
  | (_, .error .outOfFuel) => none

def run (platform : Platform) (session : Session) (chunks : List Bytes) : Option Session :=
  chunks.foldlM (call platform) session

structure Balanced (session : Session) : Prop where
  inside : session.parser.bytesProcessed ≤ session.fed.length
  buffer : session.parser.buffer = session.fed.drop session.parser.bytesProcessed
  returned : session.returned = session.parser.bytesProcessed

end Session

/-- After each of the calls on a fresh parser there is a state, and the books balance in it. -/
def Accounts (platform : Platform) (chunks : List Bytes) : Prop :=
  ∀ calls, calls <+: chunks →
    ∃ session, ({} : Session).run platform calls = some session ∧ session.Balanced

variable {platform : Platform} {parser : StreamParser}

theorem Throws.abandonDirectory (h : parser.Throws) : parser.abandonDirectory.Throws :=
  ⟨h.state, h.size, h.inside, h.status⟩

/-! ### Runs -/

/-- A session whose calls have all returned. -/
structure Sound (platform : Platform) (session : Session) : Prop where
  standing : Standing platform session.fed session.parser
  waits : session.parser.move platform = .ok none
  returned : session.returned = session.parser.bytesProcessed

variable {session : Session}

theorem Sound.balanced (h : Sound platform session) : session.Balanced :=
  ⟨h.standing.inside, h.standing.buffer, h.returned⟩

theorem sound_start (platform : Platform) : Sound platform {} := by
  refine ⟨standing_start platform, ?_, rfl⟩
  rw [move_header (.inl rfl)]
  exact if_pos (Nat.zero_lt_succ _)

theorem Sound.call (h : Sound platform session) {chunk : Bytes} {after : StreamParser}
    (hfeed : outcome (session.parser.feed platform chunk) = .ok after) :
    ∃ next, session.call platform chunk = some next ∧ Sound platform next
      ∧ next.parser = after ∧ next.fed = session.fed ++ chunk := by
  have hends := feed_ends platform session.parser chunk
  have hstanding : Standing platform (session.fed ++ chunk)
      (session.parser.feed platform chunk).1 :=
    feedLoop_invariant (fun _ _ h hmove => h.move hmove) (h.standing.extend chunk) _ _
  rw [Session.call]
  generalize session.parser.feed platform chunk = ending at hfeed hends hstanding ⊢
  cases hends with
  | waits last consumed hprocessed hmove =>
      obtain rfl := Except.ok.inj hfeed
      refine ⟨_, rfl, ⟨hstanding, hmove, ?_⟩, rfl, rfl⟩
      show session.returned + (0 + consumed) = last.bytesProcessed
      rw [hprocessed, h.returned, Nat.zero_add]
      rfl
  | refuses e hrank =>
      obtain rfl := Except.ok.inj hfeed
      exact ⟨_, rfl, ⟨hstanding, move_final (.inr rfl) platform, h.returned⟩, rfl, rfl⟩
  | leaves last hmove => cases hfeed

theorem Sound.run (h : Sound platform session) {calls : List Bytes} {last : StreamParser}
    (hfeed : session.parser.feedAll platform calls = .ok last) :
    ∃ next, session.run platform calls = some next ∧ Sound platform next
      ∧ next.parser = last ∧ next.fed = session.fed ++ calls.flatten := by
  induction calls generalizing session with
  | nil => exact ⟨session, rfl, h, Except.ok.inj hfeed, by simp⟩
  | cons chunk calls ih =>
      rw [feedAll_cons] at hfeed
      cases hcall : outcome (session.parser.feed platform chunk) with
      | error e =>
          rw [hcall] at hfeed
          cases hfeed
      | ok after =>
          rw [hcall] at hfeed
          obtain ⟨next, hnext, hsound, rfl, hfed⟩ := h.call hcall
          obtain ⟨final, hrun, hends, hlast, hall⟩ := ih hsound hfeed
          refine ⟨final, ?_, hends, hlast, ?_⟩
          · rw [Session.run, List.foldlM_cons, hnext]
            exact hrun
          · rw [hall, hfed, List.append_assoc, List.flatten_cons]

theorem Session.call_of_throws (h : session.parser.Throws) {chunk : Bytes} :
    session.call platform chunk
      = some ⟨(session.parser.extend chunk).abandonDirectory, session.fed ++ chunk,
        session.returned⟩ := by
  have hstate : (session.parser.extend chunk).state = .directoryTree := h.state
  rw [Session.call, h.feed]
  exact if_pos hstate

/-- Calls that throw change neither side of the books. -/
theorem Session.Balanced.run_of_throws (h : session.Balanced) (hthrows : session.parser.Throws)
    (platform : Platform) (calls : List Bytes) :
    ∃ next, session.run platform calls = some next ∧ next.Balanced := by
  induction calls generalizing session with
  | nil => exact ⟨session, rfl, h⟩
  | cons chunk calls ih =>
      rw [Session.run, List.foldlM_cons, Session.call_of_throws hthrows]
      refine ih ⟨?_, ?_, h.returned⟩ (hthrows.extend chunk).abandonDirectory
      · rw [List.length_append]
        exact Nat.le_add_right_of_le h.inside
      · show session.parser.buffer ++ chunk
          = (session.fed ++ chunk).drop session.parser.bytesProcessed
        rw [List.drop_append_of_le_length h.inside, ← h.buffer]

theorem run_append (platform : Platform) (session : Session) (calls more : List Bytes) :
    session.run platform (calls ++ more)
      = (session.run platform calls).bind fun next => next.run platform more := by
  rw [Session.run, List.foldlM_append]
  rfl

/-- If no call leaves a section the books balance all the time. -/
theorem accounts_of_feedAll {chunks : List Bytes} {last : StreamParser}
    (h : ({} : StreamParser).feedAll platform chunks = .ok last) : Accounts platform chunks := by
  rintro calls ⟨more, rfl⟩
  rw [feedAll_eq, Feeding.feedAll_append] at h
  cases hcalls : Feeding.feedAll (StreamParser.move platform) StreamParser.extend maxRounds {}
      calls with
  | error e =>
      rw [hcalls] at h
      cases h
  | ok after =>
      rw [← feedAll_eq] at hcalls
      obtain ⟨session, hrun, hsound, -, -⟩ := (sound_start platform).run hcalls
      exact ⟨session, hrun, hsound.balanced⟩

/-- The first call that leaves a section, the session before it and the parser that it leaves. -/
structure Leaving (platform : Platform) (before : List Bytes) (chunk : Bytes) (session : Session)
    (after : StreamParser) : Prop where
  fedAll : ({} : StreamParser).feedAll platform before = .ok session.parser
  run : ({} : Session).run platform before = some session
  sound : Sound platform session
  fed : session.fed = before.flatten
  feed : session.parser.feed platform chunk = (after, .error .outOfBounds)
  move : after.move platform = .error .outOfBounds
  standing : Standing platform (session.fed ++ chunk) after
  rank : session.parser.rank ≤ after.rank

theorem exists_leaving {chunks : List Bytes} {e : Fault ParseError}
    (h : ({} : StreamParser).feedAll platform chunks = .error e) :
    ∃ before chunk later session after, chunks = before ++ chunk :: later
      ∧ Leaving platform before chunk session after := by
  rw [feedAll_eq] at h
  obtain ⟨before, chunk, later, reached, rfl, hbefore, hfailing⟩ :=
    Feeding.exists_of_feedAll_error h
  rw [← feedAll_eq] at hbefore
  obtain ⟨session, hrun, hsound, rfl, hfed⟩ := (sound_start platform).run hbefore
  have hloop : outcome (session.parser.feed platform chunk) = .error e := by
    rw [← hfailing]
    exact outcome_feedLoop 0 (Nat.le_add_right _ _)
  have hends := feed_ends platform session.parser chunk
  have hreached : Standing platform (session.fed ++ chunk)
        (session.parser.feed platform chunk).1
      ∧ session.parser.rank ≤ (session.parser.feed platform chunk).1.rank :=
    feedLoop_invariant
      (P := fun parser => Standing platform (session.fed ++ chunk) parser
        ∧ session.parser.rank ≤ parser.rank)
      (fun _ _ hparser hmove => ⟨hparser.1.move hmove,
        Nat.le_trans hparser.2 (Nat.le_of_lt (rank_move hmove))⟩)
      ⟨hsound.standing.extend chunk, Nat.le_refl _⟩ _ _
  generalize hfeed : session.parser.feed platform chunk = ending at hloop hends hreached
  cases hends with
  | waits last consumed hprocessed hmove => cases hloop
  | refuses e hrank => cases hloop
  | leaves after hmove =>
      exact ⟨before, chunk, later, session, after, rfl, hbefore, hrun, hsound, hfed, hfeed, hmove,
        hreached.1, hreached.2⟩

section Leaving

variable {before : List Bytes} {chunk : Bytes} {after : StreamParser}

theorem Leaving.parsed (h : Leaving platform before chunk session after) :
    Parser.parseHeader platform (before.flatten ++ chunk) = .ok after.result.header := by
  have hstate := state_of_leaves h.move
  rw [← h.fed]
  apply h.standing.parsed
  · rw [StreamParser.rank]
    rcases hstate with hstate | hstate <;> rw [hstate] <;> decide
  · rcases hstate with hstate | hstate <;> rw [hstate] <;> exact fun h => by cases h

/-- The directory is behind the parser or all there. -/
theorem Leaving.directory_inside (h : Leaving platform before chunk session after) :
    sectionStart after.result.header .indexTable ≤ (before.flatten ++ chunk).length := by
  have hinside := h.standing.inside
  have hprocessed := h.standing.processed
  rw [← h.fed]
  rcases state_of_leaves h.move with hstate | hstate
  · have hlong := (throws_of_leaves h.move hstate).inside
    rw [h.standing.buffer, List.length_drop] at hlong
    rw [hprocessed, hstate] at hlong hinside
    simp only [sectionStart] at hlong hinside ⊢
    omega
  · rw [hprocessed, hstate] at hinside
    simp only [sectionStart] at hinside ⊢
    omega

theorem Leaving.directoryThrows_iff (h : Leaving platform before chunk session after) :
    DirectoryThrows after.result.header (before.flatten ++ chunk)
      ↔ after.state = .directoryTree := by
  constructor
  · intro hthrows
    rcases state_of_leaves h.move with hstate | hstate
    · exact hstate
    · rw [← h.fed] at hthrows
      refine absurd hthrows (h.standing.directory ?_ ?_)
      · rw [StreamParser.rank, hstate]
        decide
      · rw [hstate]
        exact fun h => by cases h
  · intro hstate
    have hstatus := (throws_of_leaves h.move hstate).status
    rw [h.standing.buffer, h.standing.processed, hstate, h.fed] at hstatus
    exact ⟨h.directory_inside, hstatus⟩

/-- A read outside the chunk table leaves no state. -/
theorem Leaving.run_eq_none (h : Leaving platform before chunk session after)
    (hstate : after.state = .chunkTable) (later : List Bytes) :
    ({} : Session).run platform (before ++ chunk :: later) = none := by
  have hcall : session.call platform chunk = none := by
    rw [Session.call, h.feed]
    exact if_neg (by simp [hstate])
  rw [run_append, h.run, Option.bind_some, Session.run, List.foldlM_cons, hcall]
  rfl

/-- What a throw leaves. -/
theorem Leaving.run_chunk (h : Leaving platform before chunk session after)
    (hstate : after.state = .directoryTree) :
    ({} : Session).run platform (before ++ [chunk])
      = some ⟨after.abandonDirectory, session.fed ++ chunk, session.returned⟩ := by
  have hcall : session.call platform chunk
      = some ⟨after.abandonDirectory, session.fed ++ chunk, session.returned⟩ := by
    rw [Session.call, h.feed]
    exact if_pos hstate
  rw [run_append, h.run, Option.bind_some, Session.run, List.foldlM_cons, hcall]
  rfl

/-- The books balance all the time just when the call that throws has taken nothing before. -/
theorem Leaving.accounts_iff_nothing_taken (h : Leaving platform before chunk session after)
    (hstate : after.state = .directoryTree) (later : List Bytes) :
    Accounts platform (before ++ chunk :: later)
      ↔ session.parser.bytesProcessed = after.bytesProcessed := by
  constructor
  · intro haccounts
    obtain ⟨final, hrun, hbalanced⟩ := haccounts (before ++ [chunk]) ⟨later, by simp⟩
    rw [h.run_chunk hstate] at hrun
    obtain rfl := Option.some.inj hrun
    exact h.sound.returned.symm.trans hbalanced.returned
  · intro hnothing calls hcalls
    have hthrown : Session.Balanced
        ⟨after.abandonDirectory, session.fed ++ chunk, session.returned⟩ :=
      ⟨h.standing.inside, h.standing.buffer, h.sound.returned.trans hnothing⟩
    have hprefix : before ++ [chunk] <+: before ++ chunk :: later := ⟨later, by simp⟩
    rcases List.prefix_or_prefix_of_prefix hcalls hprefix with hearly | ⟨more, rfl⟩
    · rcases List.prefix_concat_iff.mp hearly with rfl | hbefore
      · exact ⟨_, h.run_chunk hstate, hthrown⟩
      · exact accounts_of_feedAll h.fedAll calls hbefore
    · rw [run_append, h.run_chunk hstate, Option.bind_some]
      exact hthrown.run_of_throws (throws_of_leaves h.move hstate).abandonDirectory platform more

/-- A parser that has been fed up to the directory section waits for the rest of it. -/
theorem Leaving.waits_for_directory (h : Leaving platform before chunk session after)
    (hstate : after.state = .directoryTree)
    (hstart : sectionStart after.result.header .directoryTree ≤ before.flatten.length) :
    session.parser.state = .directoryTree
      ∧ session.parser.result.header = after.result.header := by
  have hstanding := h.sound.standing
  have hwaits := h.sound.waits
  have hheader : 1 ≤ session.parser.rank → session.parser.state ≠ .error →
      session.parser.result.header = after.result.header := by
    intro hrank hrunning
    have hparsed := hstanding.parsed hrank hrunning
    have hlater := h.parsed
    rw [← h.fed, parseHeader_append (headerSize_le_of_parseHeader hparsed), hparsed] at hlater
    exact Except.ok.inj hlater
  have hrank : session.parser.rank ≤ 2 := by
    have hle := h.rank
    rwa [show after.rank = 2 by rw [StreamParser.rank, hstate]] at hle
  rw [StreamParser.rank] at hrank hheader
  rw [← h.fed] at hstart
  have hbuffer := congrArg List.length hstanding.buffer
  rw [List.length_drop, hstanding.processed] at hbuffer
  cases hcase : session.parser.state with
  | init | header =>
      exfalso
      rw [hcase] at hbuffer
      have hbegin : session.parser.state = .init ∨ session.parser.state = .header := by simp [hcase]
      rcases move_header_cases hbegin platform with ⟨hshort, -⟩ | ⟨next, hmove⟩
      · simp only [sectionStart] at hbuffer hstart
        omega
      · rw [hwaits] at hmove
        cases hmove
  | metadata =>
      exfalso
      rw [hcase] at hbuffer hheader
      have hsame := hheader (Nat.le_refl 1) (fun h => by cases h)
      rw [move_eq_sectionMove (by rw [hcase]; rfl)] at hwaits
      have hshort := sectionMove_none hwaits
      rw [hcase, hbuffer, hsame] at hshort
      simp only [sectionStart, sectionSize] at hshort hstart
      omega
  | directoryTree =>
      rw [hcase] at hheader
      exact ⟨rfl, hheader (by decide) (fun h => by cases h)⟩
  | indexTable | chunkTable | compressedBlocks | objectRecon | complete | error =>
      rw [hcase] at hrank
      simp at hrank

theorem Leaving.nothing_taken_iff (h : Leaving platform before chunk session after)
    (hstate : after.state = .directoryTree) :
    session.parser.bytesProcessed = after.bytesProcessed
      ↔ sectionStart after.result.header .directoryTree ≤ before.flatten.length := by
  have hafter := h.standing.processed
  rw [hstate] at hafter
  constructor
  · intro hnothing
    rw [← hafter, ← hnothing, ← h.fed]
    exact h.sound.standing.inside
  · intro hstart
    obtain ⟨hwaiting, hheader⟩ := h.waits_for_directory hstate hstart
    rw [hafter, h.sound.standing.processed, hwaiting, hheader]

/-- Some call ended inside the directory section. -/
def CutInDirectory (header : ArchiveHeader) (chunks : List Bytes) : Prop :=
  ∃ calls, calls <+: chunks
    ∧ sectionStart header .directoryTree ≤ calls.flatten.length
    ∧ calls.flatten.length < sectionStart header .indexTable

/-- The calls before the throw are all that can end inside the directory. -/
theorem Leaving.cutInDirectory_iff (h : Leaving platform before chunk session after)
    (hstate : after.state = .directoryTree) (later : List Bytes) :
    CutInDirectory after.result.header (before ++ chunk :: later)
      ↔ sectionStart after.result.header .directoryTree ≤ before.flatten.length := by
  constructor
  · rintro ⟨calls, hcalls, hstart, hend⟩
    have hinside := h.directory_inside
    have hflatten : (before ++ [chunk]).flatten = before.flatten ++ chunk := by simp
    have hprefix : before ++ [chunk] <+: before ++ chunk :: later := ⟨later, by simp⟩
    have hbefore : calls <+: before := by
      rcases List.prefix_or_prefix_of_prefix hcalls hprefix with hearly | hlate
      · rcases List.prefix_concat_iff.mp hearly with rfl | hbefore
        · rw [hflatten] at hend
          omega
        · exact hbefore
      · have hlonger := hlate.flatten.length_le
        rw [hflatten] at hlonger
        omega
    exact Nat.le_trans hstart hbefore.flatten.length_le
  · intro hstart
    refine ⟨before, ⟨chunk :: later, rfl⟩, hstart, ?_⟩
    obtain ⟨hwaiting, hheader⟩ := h.waits_for_directory hstate hstart
    have hwaits := h.sound.waits
    rw [move_eq_sectionMove (by rw [hwaiting]; rfl)] at hwaits
    have hshort := sectionMove_none hwaits
    rw [h.sound.standing.buffer, List.length_drop, h.sound.standing.processed, hwaiting, hheader,
      h.fed] at hshort
    simp only [sectionStart, sectionSize] at hshort hstart ⊢
    omega

end Leaving

theorem not_decodedInside_of_throws {header : ArchiveHeader} {data : Bytes}
    (h : DirectoryThrows header data) :
    ¬ DecodedInside header (stagesFrom .metadata) (data.drop ArchiveHeader.headerSize) := by
  obtain ⟨hlong, hstatus⟩ := h
  simp only [sectionStart] at hlong hstatus
  intro hinside
  have hmetadata : header.metadataSize.toNat
      ≤ (data.drop ArchiveHeader.headerSize).length := by
    rw [List.length_drop]
    omega
  obtain ⟨-, hrest⟩ := hinside hmetadata
  have hdirectory : header.directorySize.toNat
      ≤ ((data.drop ArchiveHeader.headerSize).drop header.metadataSize.toNat).length := by
    rw [List.length_drop, List.length_drop]
    omega
  have hsize : header.directorySize ≠ 0 := by
    intro hzero
    rw [hzero] at hstatus
    exact tableStatus_nil .directoryTree hstatus
  have hinside := (hrest hdirectory).1 hsize
  simp only [sectionSize, List.drop_drop] at hinside
  exact hinside hstatus

theorem exists_leaving_of_outside {chunks : List Bytes} {header : ArchiveHeader}
    (hheader : Parser.parseHeader platform chunks.flatten = .ok header)
    (houtside : ¬ DecodedInside header (stagesFrom .metadata)
      (chunks.flatten.drop ArchiveHeader.headerSize)) :
    ∃ before chunk later session after, chunks = before ++ chunk :: later
      ∧ Leaving platform before chunk session after ∧ after.result.header = header
      ∧ (DirectoryThrows header chunks.flatten ↔ after.state = .directoryTree) := by
  rcases hfeed : ({} : StreamParser).feedAll platform chunks with e | last
  · obtain ⟨before, chunk, later, session, after, rfl, h⟩ := exists_leaving hfeed
    have hflatten : (before ++ chunk :: later).flatten
        = before.flatten ++ chunk ++ later.flatten := by simp
    have hsame := hheader
    rw [hflatten, parseHeader_append (headerSize_le_of_parseHeader h.parsed), h.parsed] at hsame
    obtain rfl := Except.ok.inj hsame
    refine ⟨before, chunk, later, session, after, rfl, h, rfl, ?_⟩
    rw [hflatten, directoryThrows_append h.directory_inside]
    exact h.directoryThrows_iff
  · exact absurd ((feedAll_ok_iff platform chunks).mp ⟨last, hfeed⟩ header hheader) houtside

/-- A directory that throws upsets the books just when it came with what is before it. -/
theorem accounts_iff_cutInDirectory {chunks : List Bytes} {header : ArchiveHeader}
    (hheader : Parser.parseHeader platform chunks.flatten = .ok header)
    (hthrows : DirectoryThrows header chunks.flatten) :
    Accounts platform chunks ↔ CutInDirectory header chunks := by
  obtain ⟨before, chunk, later, session, after, rfl, h, rfl, hiff⟩ :=
    exists_leaving_of_outside hheader (not_decodedInside_of_throws hthrows)
  have hstate := hiff.mp hthrows
  rw [h.accounts_iff_nothing_taken hstate, h.nothing_taken_iff hstate, h.cutInDirectory_iff hstate]

theorem run_eq_none_of_outside {chunks : List Bytes} {header : ArchiveHeader}
    (hheader : Parser.parseHeader platform chunks.flatten = .ok header)
    (houtside : ¬ DecodedInside header (stagesFrom .metadata)
      (chunks.flatten.drop ArchiveHeader.headerSize))
    (hthrows : ¬ DirectoryThrows header chunks.flatten) :
    ({} : Session).run platform chunks = none := by
  obtain ⟨before, chunk, later, session, after, rfl, h, rfl, hiff⟩ :=
    exists_leaving_of_outside hheader houtside
  rcases state_of_leaves h.move with hstate | hstate
  · exact absurd (hiff.mpr hstate) hthrows
  · exact h.run_eq_none hstate later

theorem not_accounts_of_outside {chunks : List Bytes} {header : ArchiveHeader}
    (hheader : Parser.parseHeader platform chunks.flatten = .ok header)
    (houtside : ¬ DecodedInside header (stagesFrom .metadata)
      (chunks.flatten.drop ArchiveHeader.headerSize))
    (hthrows : ¬ DirectoryThrows header chunks.flatten) : ¬ Accounts platform chunks := by
  intro haccounts
  obtain ⟨final, hrun, -⟩ := haccounts chunks (List.prefix_refl chunks)
  rw [run_eq_none_of_outside hheader houtside hthrows] at hrun
  cases hrun

/-- **The books.** In every state of a run the buffer is what is left behind the bytes that were
counted, and the calls that did not fail have returned the count, just when the bytes have no section
that is decoded beyond its end, or have a directory that throws and some call ended inside it. -/
theorem accounts_iff (platform : Platform) (chunks : List Bytes) :
    Accounts platform chunks
      ↔ ∀ header, Parser.parseHeader platform chunks.flatten = .ok header →
        DecodedInside header (stagesFrom .metadata)
            (chunks.flatten.drop ArchiveHeader.headerSize)
          ∨ (DirectoryThrows header chunks.flatten ∧ CutInDirectory header chunks) := by
  constructor
  · intro haccounts header hheader
    by_cases hinside : DecodedInside header (stagesFrom .metadata)
      (chunks.flatten.drop ArchiveHeader.headerSize)
    · exact .inl hinside
    · by_cases hthrows : DirectoryThrows header chunks.flatten
      · exact .inr ⟨hthrows, (accounts_iff_cutInDirectory hheader hthrows).mp haccounts⟩
      · exact absurd haccounts (not_accounts_of_outside hheader hinside hthrows)
  · intro h
    by_cases hthrows : ∃ header, Parser.parseHeader platform chunks.flatten = .ok header
      ∧ DirectoryThrows header chunks.flatten
    · obtain ⟨header, hheader, hthrows⟩ := hthrows
      rcases h header hheader with hinside | ⟨-, hcut⟩
      · exact absurd hinside (not_decodedInside_of_throws hthrows)
      · exact (accounts_iff_cutInDirectory hheader hthrows).mpr hcut
    · obtain ⟨last, hlast⟩ := (feedAll_ok_iff platform chunks).mpr fun header hheader =>
        (h header hheader).resolve_right fun hright => hthrows ⟨header, hheader, hright.1⟩
      exact accounts_of_feedAll hlast

/-- An archive with a directory of eleven bytes: no nodes, and a root whose name is said to take
`2 ^ 64 - 11` bytes. -/
def throwingHeader : ArchiveHeader :=
  ({ directorySize := 11 } : ArchiveHeader).updateChecksum .reference

def throwingDirectory : Bytes := 0 :: VarInt.encode 0xFFFFFFFFFFFFFFF5

/-- In one piece: the call throws behind the header, which is counted and never returned. -/
theorem not_accounts_throwing :
    ¬ Accounts .reference [throwingHeader.serialize ++ throwingDirectory] := by
  have hlength : throwingHeader.serialize.length = 158 := ArchiveHeader.length_serialize _
  have hdata : [throwingHeader.serialize ++ throwingDirectory].flatten
      = throwingHeader.serialize ++ throwingDirectory := List.flatten_singleton
  have hheader : Parser.parseHeader .reference
      [throwingHeader.serialize ++ throwingDirectory].flatten = .ok throwingHeader := by
    rw [hdata, Parser.parseHeader, throwingHeader,
      ArchiveHeader.parse_serialize .reference (by decide)]
  have hrest : (throwingHeader.serialize ++ throwingDirectory).drop 158 = throwingDirectory :=
    List.drop_left' hlength
  have hthrows : DirectoryThrows throwingHeader
      [throwingHeader.serialize ++ throwingDirectory].flatten := by
    have hstatus : (DirectoryTree.deserialize (throwingDirectory.take 11)).2
        = some .outOfBounds := by decide +kernel
    refine ⟨?_, ?_⟩
    · rw [hdata, List.length_append, hlength]
      exact Nat.le_refl 169
    · rw [hdata]
      show (DirectoryTree.deserialize (((throwingHeader.serialize ++ throwingDirectory).drop
        158).take 11)).2 = some .outOfBounds
      rw [hrest]
      exact hstatus
  rw [accounts_iff_cutInDirectory hheader hthrows]
  rintro ⟨calls, hcalls, hstart, hend⟩
  change 158 ≤ calls.flatten.length at hstart
  change calls.flatten.length < 169 at hend
  rcases List.prefix_concat_iff.mp (show calls <+: [] ++ [_] from hcalls) with rfl | hnone
  · rw [List.nil_append, hdata, List.length_append, hlength] at hend
    exact absurd hend (Nat.lt_irrefl 169)
  · obtain rfl := List.prefix_nil.mp hnone
    cases hstart

end StreamParser

end NebulaFS
