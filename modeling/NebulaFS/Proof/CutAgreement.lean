import NebulaFS.Proof.StreamAccounting

/-!
# Feeding in pieces

Where the cuts make no difference. A call may throw out of the directory stage, and the parser is what
it is then: however the bytes were cut, it stands in front of the directory with the tree half filled
(`exists_run_thrown`). Behind a read outside the chunk table there is no parser to compare. All the rest
depends on the bytes alone, but for an entry of the metadata that runs beyond its section
(`cutsAgree_iff`).
-/

namespace NebulaFS

namespace StreamParser

open MetadataParser

/-- What the callers of the parser see of two parsers is the same. -/
structure SameOutcome (left right : StreamParser) : Prop where
  state : left.state = right.state
  header : left.result.header = right.result.header
  metadata : ∀ key, left.result.metadata.getString key = right.result.metadata.getString key
  directoryTree : left.result.directoryTree = right.result.directoryTree
  indexManager : left.result.indexManager = right.result.indexManager
  chunkManager : left.result.chunkManager = right.result.chunkManager
  blocksData : left.result.blocksData = right.result.blocksData
  warnings : left.warnings = right.warnings
  resultWarnings : left.result.warnings = right.result.warnings
  bytesProcessed : left.bytesProcessed = right.bytesProcessed

/-- However the bytes are cut into calls of `feed` on a fresh parser, those that throw included, there
is a parser after the last of them, and the outcome is the same. -/
def CutsAgree (platform : Platform) (data : Bytes) : Prop :=
  ∀ pieces pieces' : List Bytes, pieces.flatten = data → pieces'.flatten = data →
    ∃ left right, ({} : Session).run platform pieces = some left
      ∧ ({} : Session).run platform pieces' = some right ∧ SameOutcome left.parser right.parser

/-- An entry of the metadata section that runs beyond its end says nothing new. -/
def OverrunRepeats (data : Bytes) (size : Nat) : Prop :=
  ∀ store key value next,
    entriesInside data size size 0 {} = (store, some ((key, value), next)) →
      store.getString key = some value

variable {platform : Platform} {parser : StreamParser} {session : Session} {header : ArchiveHeader}

/-! ### What a session preserves -/

theorem Session.call_cases {chunk : Bytes} {next : Session}
    (h : session.call platform chunk = some next) :
    next.fed = session.fed ++ chunk
      ∧ (next.parser = (session.parser.feed platform chunk).1
        ∨ next.parser = (session.parser.feed platform chunk).1.abandonDirectory) := by
  rw [Session.call] at h
  generalize session.parser.feed platform chunk = ending at h ⊢
  rcases ending with ⟨after, (e | _ | _) | consumed⟩
  · obtain rfl := Option.some.inj h
    exact ⟨rfl, .inl rfl⟩
  · simp only at h
    split at h
    · obtain rfl := Option.some.inj h
      exact ⟨rfl, .inr rfl⟩
    · cases h
  · cases h
  · obtain rfl := Option.some.inj h
    exact ⟨rfl, .inl rfl⟩

/-- What the pieces, the moves and a throw preserve of the parser and the bytes so far holds in the
end. -/
theorem Session.run_invariant {P : Bytes → StreamParser → Prop}
    (hextend : ∀ fed parser chunk, P fed parser → P (fed ++ chunk) (parser.extend chunk))
    (hmove : ∀ fed parser after, P fed parser → parser.move platform = .ok (some after) →
      P fed after)
    (habandon : ∀ fed parser, P fed parser → P fed parser.abandonDirectory)
    {pieces : List Bytes} {last : Session} (h : P session.fed session.parser)
    (hrun : session.run platform pieces = some last) :
    P (session.fed ++ pieces.flatten) last.parser := by
  induction pieces generalizing session with
  | nil =>
      obtain rfl := Option.some.inj hrun
      simpa using h
  | cons piece pieces ih =>
      rw [Session.run, List.foldlM_cons] at hrun
      obtain ⟨next, hcall, hrest⟩ := Option.bind_eq_some_iff.mp hrun
      have hfed : P (session.fed ++ piece) (session.parser.feed platform piece).1 :=
        feedLoop_invariant (hmove (session.fed ++ piece)) (hextend _ _ piece h) _ _
      obtain ⟨hall, hparser⟩ := Session.call_cases hcall
      have hnext : P next.fed next.parser := by
        rw [hall]
        rcases hparser with hparser | hparser <;> rw [hparser]
        · exact hfed
        · exact habandon _ _ hfed
      rw [List.flatten_cons, ← List.append_assoc, ← hall]
      exact ih hnext hrest

/-- Before the directory has been decoded, nothing behind it has. -/
structure Undecoded (parser : StreamParser) : Prop where
  indexManager : parser.result.indexManager = {}
  chunkManager : parser.result.chunkManager = {}
  blocksData : parser.result.blocksData = []
  warnings : parser.warnings = []
  resultWarnings : parser.result.warnings = []

theorem Undecoded.move {after : StreamParser} (h : parser.rank ≤ 2 → Undecoded parser)
    (hmove : parser.move platform = .ok (some after)) (hrank : after.rank ≤ 2) :
    Undecoded after := by
  have hlt := rank_move hmove
  have hbefore := h (by omega)
  rcases Nat.lt_trichotomy parser.rank 1 with hzero | hone | hmore
  · have hstart : parser.state = .init ∨ parser.state = .header := by
      rw [rank] at hzero
      cases hstate : parser.state <;> simp [hstate] at hzero ⊢
    rw [move_header hstart] at hmove
    split at hmove
    · cases hmove
    · split at hmove <;> cases hmove
      · exact ⟨hbefore.indexManager, hbefore.chunkManager, hbefore.blocksData, hbefore.warnings,
          hbefore.resultWarnings⟩
      · exact ⟨hbefore.indexManager, hbefore.chunkManager, hbefore.blocksData, hbefore.warnings,
          hbefore.resultWarnings⟩
  · have hstate := rank_eq_one_iff.mp hone
    rw [move_eq_sectionMove (by rw [hstate]; rfl)] at hmove
    rcases sectionMove_cases hmove with ⟨-, rfl⟩ | ⟨-, -, decoded, hdecode, rfl⟩
    · exact ⟨hbefore.indexManager, hbefore.chunkManager, hbefore.blocksData, hbefore.warnings,
        hbefore.resultWarnings⟩
    · unfold decodeSection at hdecode
      simp only [hstate] at hdecode
      split at hdecode
      · cases hdecode
        exact ⟨hbefore.indexManager, hbefore.chunkManager, hbefore.blocksData, hbefore.warnings,
          hbefore.resultWarnings⟩
      · cases hdecode
        exact ⟨hbefore.indexManager, hbefore.chunkManager, hbefore.blocksData, hbefore.warnings,
          hbefore.resultWarnings⟩
      · cases hdecode
  · omega

theorem undecoded_run {pieces : List Bytes} {last : Session}
    (hrun : ({} : Session).run platform pieces = some last) (hrank : last.parser.rank ≤ 2) :
    Undecoded last.parser :=
  Session.run_invariant (P := fun _ parser => parser.rank ≤ 2 → Undecoded parser)
    (fun _ _ _ h hrank =>
      have h := h hrank
      ⟨h.indexManager, h.chunkManager, h.blocksData, h.warnings, h.resultWarnings⟩)
    (fun _ _ _ h hmove => Undecoded.move h hmove)
    (fun _ _ h hrank =>
      have h := h hrank
      ⟨h.indexManager, h.chunkManager, h.blocksData, h.warnings, h.resultWarnings⟩)
    (fun _ => ⟨rfl, rfl, rfl, rfl, rfl⟩) hrun hrank

theorem standing_run {pieces : List Bytes} {last : Session}
    (hrun : ({} : Session).run platform pieces = some last) :
    Standing platform pieces.flatten last.parser :=
  Session.run_invariant (fun _ _ chunk h => h.extend chunk) (fun _ _ _ h hmove => h.move hmove)
    (fun _ _ h => ⟨h.inside, h.buffer, h.processed, h.parsed, h.directory⟩)
    (standing_start platform) hrun

theorem tookMetadata_run {pieces : List Bytes} {last : Session}
    (hrun : ({} : Session).run platform pieces = some last) :
    TookMetadata platform pieces.flatten last.parser :=
  Session.run_invariant (fun _ _ chunk h => h.extend chunk) (fun _ _ _ h hmove => h.move hmove)
    (fun _ _ h => ⟨h.before, h.start, h.parsed, h.waiting, h.taken⟩)
    ⟨fun _ => rfl, fun _ => rfl, fun h => (by cases h), fun h => (by cases h),
      fun h => (by cases h)⟩ hrun

/-! ### The metadata -/

/-- The metadata stage has found this. -/
structure FoundMetadata (metadata : MetadataStore) (parser : StreamParser) : Prop where
  rank : 2 ≤ parser.rank
  running : parser.state ≠ .error
  found : parser.result.metadata = metadata

theorem FoundMetadata.move {metadata : MetadataStore} {after : StreamParser}
    (h : FoundMetadata metadata parser) (hmove : parser.move platform = .ok (some after)) :
    FoundMetadata metadata after := by
  obtain ⟨hrunning, -, hsame⟩ := move_keeps hmove h.rank
  exact ⟨Nat.le_trans h.rank (Nat.le_of_lt (rank_move hmove)), hrunning, hsame.trans h.found⟩

/-- Where a parser comes that is fed all of the metadata with its first piece. -/
inductive Reached (header : ArchiveHeader) (piece : Bytes) : StreamParser → Prop
  | start : Reached header piece (({} : StreamParser).extend piece)
  | behindHeader : Reached header piece (afterHeader header (piece.drop ArchiveHeader.headerSize))
  | found {parser : StreamParser}
      (h : FoundMetadata (recovered (parse (piece.drop ArchiveHeader.headerSize)
        header.metadataSize.toNat)) parser) : Reached header piece parser

theorem Reached.move {piece : Bytes} {after : StreamParser} (h : Reached header piece parser)
    (hheader : Parser.parseHeader platform piece = .ok header)
    (hmove : parser.move platform = .ok (some after)) : Reached header piece after := by
  cases h with
  | start =>
      rw [move_start hheader] at hmove
      obtain rfl := Option.some.inj (Except.ok.inj hmove)
      exact .behindHeader
  | behindHeader =>
      obtain ⟨hafter, -, -, hmetadata⟩ := move_metadata hmove rfl rfl
      refine .found ⟨by rw [rank, hafter], ?_, hmetadata⟩
      rw [hafter]
      exact fun h => by cases h
  | found hfound => exact .found (hfound.move hmove)

/-- In front of the metadata there is a move to make. -/
theorem Reached.found_or_move {piece : Bytes} (h : Reached header piece parser)
    (hheader : Parser.parseHeader platform piece = .ok header)
    (hlong : header.metadataSize.toNat ≤ (piece.drop ArchiveHeader.headerSize).length) :
    FoundMetadata (recovered (parse (piece.drop ArchiveHeader.headerSize)
        header.metadataSize.toNat)) parser
      ∨ parser.state ≠ .error ∧ ∃ after, parser.move platform = .ok (some after) := by
  cases h with
  | start => exact .inr ⟨fun h => (by cases h), _, move_start hheader⟩
  | behindHeader =>
      refine .inr ⟨fun h => (by cases h), ?_⟩
      rcases hmove : (afterHeader header (piece.drop ArchiveHeader.headerSize)).move platform with
        e | _ | after
      · obtain ⟨rfl, -, -, -⟩ := section_of_move_error hmove
        rcases state_of_leaves hmove with hstate | hstate <;> cases hstate
      · rw [move_eq_sectionMove rfl] at hmove
        exact absurd hlong (sectionMove_none hmove)
      · exact ⟨after, rfl⟩
  | found hfound => exact .inl hfound

/-- A first piece that goes beyond the metadata section is parsed that far. -/
theorem foundMetadata_feed {piece : Bytes} (hheader : Parser.parseHeader platform piece = .ok header)
    (hlong : header.metadataSize.toNat ≤ (piece.drop ArchiveHeader.headerSize).length) :
    FoundMetadata (recovered (parse (piece.drop ArchiveHeader.headerSize) header.metadataSize.toNat))
      (({} : StreamParser).feed platform piece).1 := by
  have hends := feed_ends platform {} piece
  have hreached : Reached header piece (({} : StreamParser).feed platform piece).1 :=
    feedLoop_invariant (fun _ _ h hmove => h.move hheader hmove) .start _ _
  generalize ({} : StreamParser).feed platform piece = ending at hends hreached ⊢
  rcases hreached.found_or_move hheader hlong with hfound | ⟨hrunning, next, hnext⟩
  · exact hfound
  · exfalso
    cases hends with
    | waits after consumed _ hmove =>
        rw [hnext] at hmove
        cases hmove
    | refuses e _ => exact hrunning rfl
    | leaves after hmove =>
        rw [hnext] at hmove
        cases hmove

theorem metadata_run {piece : Bytes} {pieces : List Bytes} {last : Session}
    (hheader : Parser.parseHeader platform piece = .ok header)
    (hlong : header.metadataSize.toNat ≤ (piece.drop ArchiveHeader.headerSize).length)
    (hrun : ({} : Session).run platform (piece :: pieces) = some last) :
    last.parser.result.metadata
      = recovered (parse (piece.drop ArchiveHeader.headerSize) header.metadataSize.toNat) := by
  rw [Session.run, List.foldlM_cons] at hrun
  obtain ⟨next, hcall, hrest⟩ := Option.bind_eq_some_iff.mp hrun
  have hfound := foundMetadata_feed hheader hlong
  have hnext : FoundMetadata (recovered (parse (piece.drop ArchiveHeader.headerSize)
      header.metadataSize.toNat)) next.parser := by
    obtain ⟨-, hparser | hparser⟩ := Session.call_cases hcall
    · rw [hparser]
      exact hfound
    · rw [hparser]
      exact ⟨hfound.rank, hfound.running, hfound.found⟩
  exact (Session.run_invariant (P := fun _ parser => FoundMetadata _ parser)
    (fun _ _ _ h => ⟨h.rank, h.running, h.found⟩) (fun _ _ _ h hmove => h.move hmove)
    (fun _ _ h => ⟨h.rank, h.running, h.found⟩) hnext hrest).found

theorem getString_foundIn {data : Bytes} {size : Nat} (h : OverrunRepeats data size) (n : Nat)
    (key : Bytes) :
    (foundIn n (entriesInside data size size 0 {})).getString key
      = (entriesInside data size size 0 {}).1.getString key := by
  rcases hinside : entriesInside data size size 0 {} with ⟨store, _ | ⟨⟨found, value⟩, next⟩⟩
  · rfl
  · have hrepeats := h store found value next hinside
    rw [foundIn]
    split
    · exact MetadataStore.getString_set_of_mem hrepeats key
    · rfl

theorem TookMetadata.getString_eq {data : Bytes} {left right : StreamParser}
    (hleft : TookMetadata platform data left) (hright : TookMetadata platform data right)
    (hstate : left.state = right.state) (hheader : left.result.header = right.result.header)
    (hrepeats : ∀ header, Parser.parseHeader platform data = .ok header →
      header.metadataSize.toNat ≤ (data.drop ArchiveHeader.headerSize).length →
        OverrunRepeats (data.drop ArchiveHeader.headerSize) header.metadataSize.toNat) (key : Bytes) :
    left.result.metadata.getString key = right.result.metadata.getString key := by
  have hrank : right.rank = left.rank := by rw [rank, rank, hstate]
  by_cases hbefore : left.rank < 2 ∨ left.state = .error
  · rw [hleft.before hbefore, hright.before (by rwa [hrank, ← hstate])]
  · obtain ⟨hmore, hrunning⟩ := not_or.mp hbefore
    obtain ⟨n, hn, hsize, hfound⟩ := hleft.taken (by omega) hrunning
    obtain ⟨m, hm, hsize', hfound'⟩ := hright.taken (by omega) (by rwa [← hstate])
    have hsame := hrepeats left.result.header (hleft.parsed (by omega) hrunning) (by omega)
    rw [← hheader] at hsize' hfound'
    rw [hfound, hfound', recovered_parse_take hn hsize, recovered_parse_take hm hsize',
      getString_foundIn hsame, getString_foundIn hsame]

/-- Cutting behind the metadata section hides what runs beyond it. -/
theorem overrunRepeats_of_agree {data : Bytes} (hagree : CutsAgree platform data)
    (hheader : Parser.parseHeader platform data = .ok header)
    (hlong : header.metadataSize.toNat ≤ (data.drop ArchiveHeader.headerSize).length) :
    OverrunRepeats (data.drop ArchiveHeader.headerSize) header.metadataSize.toNat := by
  intro store key value next hinside
  obtain ⟨hbeyond, hnext⟩ := entriesInside_some hinside
  obtain ⟨left, right, hleft, hright, hsame⟩ := hagree [data]
    [data.take (ArchiveHeader.headerSize + header.metadataSize.toNat),
      data.drop (ArchiveHeader.headerSize + header.metadataSize.toNat)] (by simp) (by simp)
  have hshort : Parser.parseHeader platform
      (data.take (ArchiveHeader.headerSize + header.metadataSize.toNat)) = .ok header := by
    rw [← hheader]
    conv_rhs => rw [← List.take_append_drop
      (ArchiveHeader.headerSize + header.metadataSize.toNat) data]
    rw [parseHeader_append]
    have hwhole := headerSize_le_of_parseHeader hheader
    rw [List.length_take]
    omega
  have hrest : (data.take (ArchiveHeader.headerSize + header.metadataSize.toNat)).drop
      ArchiveHeader.headerSize
      = (data.drop ArchiveHeader.headerSize).take header.metadataSize.toNat := by
    rw [List.drop_take, Nat.add_sub_cancel_left]
  have hleftFound := metadata_run hheader hlong hleft
  have hrightFound := metadata_run hshort
    (by rw [hrest, List.length_take_of_le hlong]) hright
  rw [← List.take_length (l := data.drop ArchiveHeader.headerSize),
    recovered_parse_take (Nat.le_refl _) hlong, hinside, foundIn, if_pos hnext] at hleftFound
  rw [hrest, recovered_parse_take hlong (Nat.le_refl _), hinside, foundIn,
    if_neg (Nat.not_le.mpr hbeyond)] at hrightFound
  have hkey := hsame.metadata key
  rw [hleftFound, hrightFound, MetadataStore.getString_set_self] at hkey
  exact hkey.symm

/-! ### Throws -/

/-- A call has thrown, and the tree is what it decoded before that. -/
structure Thrown (parser : StreamParser) : Prop where
  throws : parser.Throws
  tree : parser.result.directoryTree
    = (DirectoryTree.deserialize (parser.buffer.take parser.result.header.directorySize.toNat)).1

theorem Throws.thrown (h : parser.Throws) : Thrown parser.abandonDirectory :=
  ⟨h.abandonDirectory, rfl⟩

theorem Thrown.run (h : Thrown session.parser) (platform : Platform) (pieces : List Bytes) :
    ∃ last, session.run platform pieces = some last ∧ Thrown last.parser := by
  induction pieces generalizing session with
  | nil => exact ⟨session, rfl, h⟩
  | cons piece pieces ih =>
      rw [Session.run, List.foldlM_cons, Session.call_of_throws h.throws]
      exact ih (h.throws.extend piece).thrown

/-- However the bytes are cut, a call throws, and so do all after it. -/
theorem exists_run_thrown (pieces : List Bytes)
    (hheader : Parser.parseHeader platform pieces.flatten = .ok header)
    (hthrows : DirectoryThrows header pieces.flatten) :
    ∃ last, ({} : Session).run platform pieces = some last ∧ Thrown last.parser := by
  obtain ⟨before, chunk, later, session, after, rfl, h, -, hiff⟩ :=
    exists_leaving_of_outside hheader (not_decodedInside_of_throws hthrows)
  have hstate := hiff.mp hthrows
  have hthrown := (throws_of_leaves h.move hstate).thrown
  rw [show before ++ chunk :: later = before ++ [chunk] ++ later by simp, run_append,
    h.run_chunk hstate, Option.bind_some]
  exact Thrown.run hthrown platform later

/-- What two parsers have in common that threw over the same bytes. -/
theorem sameOutcome_of_thrown {data : Bytes} {pieces pieces' : List Bytes} {left right : Session}
    (hpieces : pieces.flatten = data) (hpieces' : pieces'.flatten = data)
    (hleft : ({} : Session).run platform pieces = some left)
    (hright : ({} : Session).run platform pieces' = some right)
    (hthrown : Thrown left.parser) (hthrown' : Thrown right.parser)
    (hrepeats : ∀ header, Parser.parseHeader platform data = .ok header →
      header.metadataSize.toNat ≤ (data.drop ArchiveHeader.headerSize).length →
        OverrunRepeats (data.drop ArchiveHeader.headerSize) header.metadataSize.toNat) :
    SameOutcome left.parser right.parser := by
  have hstanding := standing_run hleft
  have hstanding' := standing_run hright
  have htook := tookMetadata_run hleft
  have htook' := tookMetadata_run hright
  rw [hpieces] at hstanding htook
  rw [hpieces'] at hstanding' htook'
  have hrank : ∀ {parser : StreamParser}, Thrown parser → parser.rank = 2 := by
    intro parser h
    rw [rank, h.throws.state]
  have hrunning : ∀ {parser : StreamParser}, Thrown parser → parser.state ≠ .error := by
    intro parser h herror
    rw [h.throws.state] at herror
    cases herror
  have hstate : left.parser.state = right.parser.state :=
    hthrown.throws.state.trans hthrown'.throws.state.symm
  have hheader : left.parser.result.header = right.parser.result.header := by
    have hparsed := hstanding.parsed (by rw [hrank hthrown]; decide) (hrunning hthrown)
    have hparsed' := hstanding'.parsed (by rw [hrank hthrown']; decide) (hrunning hthrown')
    rw [hparsed] at hparsed'
    exact Except.ok.inj hparsed'
  have hprocessed : left.parser.bytesProcessed = right.parser.bytesProcessed := by
    rw [hstanding.processed, hstanding'.processed, hstate, hheader]
  have hundecoded := undecoded_run hleft (hrank hthrown).le
  have hundecoded' := undecoded_run hright (hrank hthrown').le
  refine ⟨hstate, hheader, htook.getString_eq htook' hstate hheader hrepeats, ?_,
    hundecoded.indexManager.trans hundecoded'.indexManager.symm,
    hundecoded.chunkManager.trans hundecoded'.chunkManager.symm,
    hundecoded.blocksData.trans hundecoded'.blocksData.symm,
    hundecoded.warnings.trans hundecoded'.warnings.symm,
    hundecoded.resultWarnings.trans hundecoded'.resultWarnings.symm, hprocessed⟩
  rw [hthrown.tree, hthrown'.tree, hstanding.buffer, hstanding'.buffer, hprocessed, hheader]

/-! ### Results -/

theorem sameOutcome_of_view {data : Bytes} {left right : StreamParser}
    (hview : left.view = right.view) (hleft : TookMetadata platform data left)
    (hright : TookMetadata platform data right)
    (hrepeats : ∀ header, Parser.parseHeader platform data = .ok header →
      header.metadataSize.toNat ≤ (data.drop ArchiveHeader.headerSize).length →
        OverrunRepeats (data.drop ArchiveHeader.headerSize) header.metadataSize.toNat) :
    SameOutcome left right :=
  have hstate : left.state = right.state := congrArg (·.state) hview
  have hheader : left.result.header = right.result.header := congrArg (·.result.header) hview
  ⟨hstate, hheader, hleft.getString_eq hright hstate hheader hrepeats,
    congrArg (·.result.directoryTree) hview, congrArg (·.result.indexManager) hview,
    congrArg (·.result.chunkManager) hview, congrArg (·.result.blocksData) hview,
    congrArg (·.warnings) hview, congrArg (·.result.warnings) hview,
    congrArg (·.bytesProcessed) hview⟩

/-- A session without a throw, up to the metadata. -/
theorem exists_run_of_drive (pieces : List Bytes) {last : StreamParser}
    (h : Feeding.drive (move platform) maxRounds (({} : StreamParser).extend pieces.flatten)
      = .ok last) :
    ∃ fed, ({} : Session).run platform pieces = some fed ∧ fed.parser.view = last.view := by
  obtain ⟨fed, hfed, hview⟩ := exists_feedAll pieces h
  obtain ⟨session, hrun, -, rfl, -⟩ := (sound_start platform).run hfed
  exact ⟨session, hrun, hview⟩

/-- **The cuts.** How the bytes are cut makes no difference just when the sections of the tables that
are all there are decoded inside, or the directory is and throws, and an entry that the metadata section
does not hold all of says nothing that the entries before it did not. -/
theorem cutsAgree_iff (platform : Platform) (data : Bytes) :
    CutsAgree platform data
      ↔ ∀ header, Parser.parseHeader platform data = .ok header →
        (DecodedInside header (stagesFrom .metadata) (data.drop ArchiveHeader.headerSize)
            ∨ DirectoryThrows header data)
          ∧ (header.metadataSize.toNat ≤ (data.drop ArchiveHeader.headerSize).length →
            OverrunRepeats (data.drop ArchiveHeader.headerSize) header.metadataSize.toNat) := by
  constructor
  · intro hagree header hheader
    refine ⟨?_, overrunRepeats_of_agree hagree hheader⟩
    by_contra hneither
    obtain ⟨houtside, hthrows⟩ := not_or.mp hneither
    have hdata : [data].flatten = data := List.flatten_singleton
    obtain ⟨last, -, hrun, -⟩ := hagree [data] [data] hdata hdata
    rw [run_eq_none_of_outside (by rwa [hdata]) (by rwa [hdata]) (by rwa [hdata])] at hrun
    cases hrun
  · intro h pieces pieces' hpieces hpieces'
    have hrepeats := fun header hheader => (h header hheader).2
    by_cases hthrows : ∃ header, Parser.parseHeader platform data = .ok header
      ∧ DirectoryThrows header data
    · obtain ⟨header, hheader, hthrows⟩ := hthrows
      obtain ⟨left, hleft, hthrown⟩ := exists_run_thrown pieces (by rwa [hpieces]) (by rwa [hpieces])
      obtain ⟨right, hright, hthrown'⟩ := exists_run_thrown pieces' (by rwa [hpieces']) (by rwa [hpieces'])
      exact ⟨left, right, hleft, hright,
        sameOutcome_of_thrown hpieces hpieces' hleft hright hthrown hthrown' hrepeats⟩
    · obtain ⟨last, hlast⟩ := (drive_start_ok_iff platform data).mpr fun header hheader =>
        (h header hheader).1.resolve_right fun hthrow => hthrows ⟨header, hheader, hthrow⟩
      obtain ⟨left, hleft, hviewLeft⟩ := exists_run_of_drive pieces (by rw [hpieces, hlast])
      obtain ⟨right, hright, hviewRight⟩ := exists_run_of_drive pieces' (by rw [hpieces', hlast])
      have htook := tookMetadata_run hleft
      have htook' := tookMetadata_run hright
      rw [hpieces] at htook
      rw [hpieces'] at htook'
      exact ⟨left, right, hleft, hright,
        sameOutcome_of_view (hviewLeft.trans hviewRight.symm) htook htook' hrepeats⟩

/-- An archive whose header gives the metadata section two bytes, the lengths of an entry that
follows them. -/
def overrunning : Bytes :=
  (({ metadataSize := 2 } : ArchiveHeader).updateChecksum .reference).serialize
    ++ [1, 1, 0x6B, 0x76]

theorem not_cutsAgree_overrunning : ¬ CutsAgree .reference overrunning := by
  intro hagree
  have hheader : Parser.parseHeader .reference overrunning
      = .ok (({ metadataSize := 2 } : ArchiveHeader).updateChecksum .reference) := by
    rw [Parser.parseHeader, overrunning, ArchiveHeader.parse_serialize .reference (by decide)]
  have hrest : overrunning.drop ArchiveHeader.headerSize = [1, 1, 0x6B, 0x76] :=
    List.drop_left' (ArchiveHeader.length_serialize _)
  have hrepeats := overrunRepeats_of_agree hagree hheader
    (by rw [hrest]; exact Nat.le_of_lt_succ (by decide))
  rw [hrest] at hrepeats
  have hinside : entriesInside [1, 1, 0x6B, 0x76] 2 2 0 {} = ({}, some (([0x6B], [0x76]), 4)) := rfl
  cases hrepeats {} [0x6B] [0x76] 4 hinside

end StreamParser

end NebulaFS
