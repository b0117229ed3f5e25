import NebulaFS.Lib.Runs
import NebulaFS.Proof.CanonicalIndex

/-!
# Two calls that index the same document

Between its sections a call of `indexDocument` lets go of the lock. If the other call inserts its
content in that gap, the first inserts a second time: the tokens it overwrites stay in the total
for good (`Overcounted`). Only then (`reindexed_iff`).
-/

namespace NebulaFS

namespace InvertedIndex

open PostingList

/-- Alone, the sections of a call are the call. -/
theorem advance_alone (tokenizer : Tokenizer) (docId : UInt64) (index : InvertedIndex)
    (content : Bytes) :
    let first := Indexing.advance tokenizer docId index { content := content }
    let second := Indexing.advance tokenizer docId first.1 first.2
    let third := Indexing.advance tokenizer docId second.1 second.2
    third.1 = index.indexDocument tokenizer docId content ∧ third.2.phase = .done := by
  cases hpresent : index.hasDocument docId <;>
    simp [Indexing.advance, indexDocument, hpresent]

variable (tokenizer : Tokenizer) (docId : UInt64)

/-- The total counts the tokens of the documents, and the postings of the document are those of one
of the two contents, or none if it was removed. -/
structure Reindexed (contents : Bool → Bytes) (schedule : List Section) (index : InvertedIndex) :
    Prop where
  totalTokens : index.totalTokens = UInt64.ofNat (index.docLengths.total id)
  postings : (∃ call, ∀ term, postingAt index.dictionary docId term
        = postingOf docId (tokenizer.tokenize (contents call)) term)
      ∨ (.removeDocument docId ∈ schedule ∧ ∀ term, postingAt index.dictionary docId term = none)

/-- If the section inserts after the gap, the document is not there or has no tokens. -/
def Writers.Clear (docId : UInt64) (writers : Writers) : Section → Prop
  | .indexDocument call => (writers.calls call).phase = .inserting →
      ∀ length, writers.index.docLengths.lookup docId = some length → length = 0
  | .removeDocument _ => True

/-- The sections of the schedule, each with the state it runs in. -/
def Writers.Along (P : Writers → Section → Prop) (writers : Writers) (schedule : List Section) :
    Prop :=
  Runs.Along (fun writers part after => writers.next tokenizer docId part = after) P writers
    schedule

/-- What holds as long as every section was clear. -/
structure Undisturbed (contents : Bool → Bytes) (removed : Prop) (docs : UInt64 → Option Bytes)
    (writers : Writers) : Prop where
  represents : Represents tokenizer docs writers.index
  content : ∀ call, (writers.calls call).content = contents call
  /-- Once a call is done, the document has one of the two contents, if any. -/
  inserted : ∀ call, (writers.calls call).phase = .done →
    ∀ content, docs docId = some content → ∃ other, content = contents other
  /-- It is missing then only if it was removed, or the other call is to insert it. -/
  missing : ∀ call, (writers.calls call).phase = .done → docs docId = none →
    removed ∨ ∃ other, (writers.calls other).phase = .inserting
  /-- As long as no call is done, a gap is one without the document. -/
  gap : (∀ call, (writers.calls call).phase ≠ .done) →
    ∀ call, (writers.calls call).phase = .inserting → docs docId = none

/-- Both calls are done, and the total counts tokens that are nowhere. -/
structure Overcounted (writers : Writers) : Prop where
  done : ∀ call, (writers.calls call).phase = .done
  totalTokens : ∃ extra, 0 < extra ∧ extra < 2 ^ 64
    ∧ writers.index.totalTokens = UInt64.ofNat (writers.index.docLengths.total id + extra)

variable {tokenizer docId} {contents : Bool → Bytes} {removed : Prop}
  {docs : UInt64 → Option Bytes} {writers : Writers}

/-! ### Undisturbed sections -/

theorem content_update (calls : Bool → Indexing) (call : Bool) (phase : Phase) (other : Bool) :
    (Function.update calls call { calls call with phase := phase } other).content
      = (calls other).content := by
  by_cases hother : other = call
  · rw [hother, Function.update_self]
  · rw [Function.update_of_ne hother]

theorem Undisturbed.insert (h : Undisturbed tokenizer docId contents removed docs writers)
    (call : Bool)
    (hold : ∀ content, docs docId = some content → tokenizer.tokenize content = []) :
    Undisturbed tokenizer docId contents removed
      (Function.update docs docId (some (contents call)))
      { index := writers.index.insertDocument tokenizer docId (writers.calls call).content
        calls := Function.update writers.calls call
          { writers.calls call with phase := .done } } := by
  have hdone : (Function.update writers.calls call
      { writers.calls call with phase := .done } call).phase = .done := by
    rw [Function.update_self]
  constructor
  case represents =>
    rw [h.content]
    exact h.represents.insertDocument docId hold (contents call)
  case content => exact fun other => (content_update writers.calls call _ other).trans (h.content other)
  case inserted =>
    intro _ _ content hdoc
    rw [Function.update_self] at hdoc
    exact ⟨call, (Option.some.inj hdoc).symm⟩
  case missing =>
    intro _ _ hdoc
    rw [Function.update_self] at hdoc
    cases hdoc
  case gap =>
    intro hnone
    exact absurd hdone (hnone call)

theorem Undisturbed.remove (h : Undisturbed tokenizer docId contents removed docs writers)
    (call : Bool) :
    Undisturbed tokenizer docId contents removed (Function.update docs docId none)
      { index := (writers.index.removeDocument docId).2
        calls := Function.update writers.calls call
          { writers.calls call with phase := .inserting } } := by
  have hnone : Function.update docs docId none docId = none := Function.update_self ..
  constructor
  case represents => exact h.represents.removeDocument docId
  case content => exact fun other => (content_update writers.calls call _ other).trans (h.content other)
  case inserted =>
    intro _ _ content hdoc
    rw [hnone] at hdoc
    cases hdoc
  case missing =>
    intro _ _ _
    refine .inr ⟨call, ?_⟩
    simp only [Function.update_self]
  case gap => exact fun _ _ _ => hnone

theorem Undisturbed.find (h : Undisturbed tokenizer docId contents removed docs writers)
    {call : Bool} (hphase : (writers.calls call).phase = .start)
    (hpresent : writers.index.hasDocument docId = true) :
    Undisturbed tokenizer docId contents removed docs
      { writers with
        calls := Function.update writers.calls call
          { writers.calls call with phase := .removing } } := by
  have hdoc : docs docId ≠ none := by
    intro hnone
    rw [hasDocument, h.represents.docLengths, hnone] at hpresent
    cases hpresent
  have hother : ∀ {other phase}, phase ≠ .removing →
      (Function.update writers.calls call
        { writers.calls call with phase := .removing } other).phase = phase →
      (writers.calls other).phase = phase := by
    intro other phase hne hupdated
    by_cases hcall : other = call
    · rw [hcall, Function.update_self] at hupdated
      exact absurd hupdated.symm hne
    · rw [Function.update_of_ne hcall] at hupdated
      exact hupdated
  constructor
  case represents => exact h.represents
  case content => exact fun other => (content_update writers.calls call _ other).trans (h.content other)
  case inserted => exact fun other hdone => h.inserted other (hother (by decide) hdone)
  case missing => exact fun _ _ hnone => absurd hnone hdoc
  case gap =>
    intro hnone other hinserting
    apply h.gap ?_ other (hother (by decide) hinserting)
    intro third hdone
    by_cases hcall : third = call
    · rw [hcall, hphase] at hdone
      cases hdone
    · exact hnone third ((congrArg Indexing.phase (Function.update_of_ne hcall ..)).trans hdone)

theorem Undisturbed.removeDocument
    (h : Undisturbed tokenizer docId contents removed docs writers) (other : UInt64) :
    Undisturbed tokenizer docId contents
      (removed ∨ Section.removeDocument other = .removeDocument docId)
      (Function.update docs other none)
      { writers with index := (writers.index.removeDocument other).2 } := by
  by_cases hother : other = docId
  · subst hother
    have hnone : Function.update docs other none other = none := Function.update_self ..
    constructor
    case represents => exact h.represents.removeDocument other
    case content => exact h.content
    case inserted =>
      intro _ _ content hdoc
      rw [hnone] at hdoc
      cases hdoc
    case missing => exact fun _ _ _ => .inl (.inr rfl)
    case gap => exact fun _ _ _ => hnone
  · have hsame : Function.update docs other none docId = docs docId :=
      Function.update_of_ne (Ne.symm hother) ..
    constructor
    case represents => exact h.represents.removeDocument other
    case content => exact h.content
    case inserted =>
      rw [hsame]
      exact h.inserted
    case missing =>
      rw [hsame]
      intro call hdone hnone
      exact (h.missing call hdone hnone).imp_left .inl
    case gap =>
      rw [hsame]
      exact h.gap

theorem Undisturbed.next (h : Undisturbed tokenizer docId contents removed docs writers)
    {part : Section} (hclear : writers.Clear docId part) :
    ∃ docs', Undisturbed tokenizer docId contents (removed ∨ part = .removeDocument docId) docs'
      (writers.next tokenizer docId part) := by
  cases part with
  | removeDocument other => exact ⟨_, h.removeDocument other⟩
  | indexDocument call =>
      have hremoved : (removed ∨ Section.indexDocument call = .removeDocument docId) = removed := by
        simp
      rw [hremoved, Writers.next, Indexing.advance]
      cases hphase : (writers.calls call).phase with
      | start =>
          cases hpresent : writers.index.hasDocument docId with
          | true => exact ⟨docs, h.find hphase hpresent⟩
          | false =>
              refine ⟨_, h.insert call fun content hdoc => ?_⟩
              rw [hasDocument, h.represents.docLengths, hdoc] at hpresent
              cases hpresent
      | removing => exact ⟨_, h.remove call⟩
      | inserting =>
          refine ⟨_, h.insert call fun content hdoc => ?_⟩
          have hlookup := h.represents.docLengths docId
          rw [hdoc] at hlookup
          exact List.eq_nil_of_length_eq_zero (hclear hphase _ hlookup)
      | done =>
          refine ⟨docs, ?_⟩
          simp only [Function.update_eq_self]
          exact h

/-! ### Overcounting -/

/-- An insertion over tokens leaves them in the total, and was the last of the two. -/
theorem Undisturbed.overcounted (h : Undisturbed tokenizer docId contents removed docs writers)
    (hsize : ∀ call, (contents call).length < 2 ^ 64) {part : Section}
    (hunclear : ¬ writers.Clear docId part) :
    Overcounted (writers.next tokenizer docId part) := by
  cases part with
  | removeDocument other => exact absurd trivial hunclear
  | indexDocument call =>
      rw [Writers.Clear] at hunclear
      push Not at hunclear
      obtain ⟨hphase, length, hlength, hpos⟩ := hunclear
      have hlookup := h.represents.docLengths docId
      rw [hlength] at hlookup
      obtain ⟨content, hdoc, htokens⟩ := Option.map_eq_some_iff.mp hlookup.symm
      -- the other call has put the document there
      obtain ⟨other, hother⟩ : ∃ other, (writers.calls other).phase = .done := by
        by_contra hnone
        push Not at hnone
        rw [h.gap hnone call hphase] at hdoc
        cases hdoc
      have hne : other ≠ call := by
        rintro rfl
        rw [hphase] at hother
        cases hother
      rw [Writers.next, Indexing.advance, hphase]
      constructor
      case done =>
        intro third
        by_cases hthird : third = call
        · rw [hthird]
          simp only [Function.update_self]
        · have hsame : third = other :=
            (Bool.eq_not_of_ne hthird).trans (Bool.eq_not_of_ne hne).symm
          simp only [Function.update_of_ne hthird]
          rw [hsame, hother]
      case totalTokens =>
        obtain ⟨inserted, hinserted⟩ := h.inserted other hother content hdoc
        have hbound : length < 2 ^ 64 := by
          rw [← htokens, hinserted]
          exact (Tokenizer.length_tokenize_le _).trans_lt (hsize inserted)
        have htotal := AList.total_insert_of_lookup id hlength
          (tokenizer.tokenize (writers.calls call).content).length
        refine ⟨length, Nat.pos_of_ne_zero hpos, hbound, ?_⟩
        simp only [insertDocument]
        rw [h.represents.totalTokens, ← UInt64.ofNat_add, Nat.add_comm]
        exact congrArg UInt64.ofNat (htotal.symm.trans (Nat.add_comm _ _))

theorem Overcounted.next (h : Overcounted writers) (part : Section) :
    Overcounted (writers.next tokenizer docId part) := by
  cases part with
  | indexDocument call =>
      rw [Writers.next, Indexing.advance, h.done call]
      simp only [Function.update_eq_self]
      exact h
  | removeDocument other =>
      refine ⟨h.done, ?_⟩
      obtain ⟨extra, hpos, hbound, htotal⟩ := h.totalTokens
      refine ⟨extra, hpos, hbound, ?_⟩
      rw [Writers.next, InvertedIndex.removeDocument]
      cases hlookup : writers.index.docLengths.lookup other with
      | none => exact htotal
      | some length =>
          have herased : length + (writers.index.docLengths.erase other).total id
              = writers.index.docLengths.total id := AList.total_erase id hlookup
          simp only
          rw [htotal, ← herased, Nat.add_assoc, UInt64.ofNat_add, UInt64.add_comm,
            UInt64.add_sub_cancel]

theorem Overcounted.run (h : Overcounted writers) (schedule : List Section) :
    Overcounted (writers.run tokenizer docId schedule) := by
  induction schedule generalizing writers with
  | nil => exact h
  | cons part schedule ih => exact ih (h.next part)

theorem Overcounted.not_reindexed (h : Overcounted writers) (schedule : List Section) :
    ¬ Reindexed tokenizer docId contents schedule writers.index := by
  intro hreindexed
  obtain ⟨extra, hpos, hbound, htotal⟩ := h.totalTokens
  rw [hreindexed.totalTokens] at htotal
  have hmod := congrArg UInt64.toNat htotal
  rw [UInt64.toNat_ofNat', UInt64.toNat_ofNat'] at hmod
  omega

/-! ### Schedules -/

theorem Undisturbed.reindexed (h : Undisturbed tokenizer docId contents removed docs writers)
    (hdone : ∀ call, (writers.calls call).phase = .done) {schedule : List Section}
    (hremoved : removed → .removeDocument docId ∈ schedule) :
    Reindexed tokenizer docId contents schedule writers.index := by
  constructor
  case totalTokens => exact h.represents.totalTokens
  case postings =>
    cases hdoc : docs docId with
    | some content =>
        obtain ⟨call, rfl⟩ := h.inserted true (hdone true) content hdoc
        refine .inl ⟨call, fun term => ?_⟩
        rw [h.represents.postingAt, hdoc, Option.bind_some]
    | none =>
        refine .inr ⟨?_, fun term => ?_⟩
        · rcases h.missing true (hdone true) hdoc with hmissing | ⟨other, hinserting⟩
          · exact hremoved hmissing
          · rw [hdone other] at hinserting
            cases hinserting
        · rw [h.represents.postingAt, hdoc]
          rfl

theorem Undisturbed.iff_clear (h : Undisturbed tokenizer docId contents removed docs writers)
    (hsize : ∀ call, (contents call).length < 2 ^ 64) {schedule whole : List Section}
    (hdone : ∀ call, ((writers.run tokenizer docId schedule).calls call).phase = .done)
    (hremoved : removed → .removeDocument docId ∈ whole) (hsuffix : schedule ⊆ whole) :
    Reindexed tokenizer docId contents whole (writers.run tokenizer docId schedule).index
      ↔ Writers.Along tokenizer docId (Writers.Clear docId) writers schedule := by
  induction schedule generalizing removed docs writers with
  | nil => exact iff_of_true (h.reindexed hdone hremoved) trivial
  | cons part schedule ih =>
      by_cases hclear : writers.Clear docId part
      · obtain ⟨docs', hnext⟩ := h.next hclear
        have hremoved' : removed ∨ part = .removeDocument docId →
            .removeDocument docId ∈ whole := by
          rintro (hremoved' | rfl)
          · exact hremoved hremoved'
          · exact hsuffix List.mem_cons_self
        have hih := ih hnext hdone hremoved' fun _ hmem => hsuffix (List.mem_cons_of_mem _ hmem)
        refine hih.trans ⟨fun hrest => ⟨hclear, ?_⟩, fun halong => halong.2 _ rfl⟩
        rintro after rfl
        exact hrest
      · exact iff_of_false (((h.overcounted hsize hclear).run schedule).not_reindexed whole)
          fun halong => hclear halong.1

/-- **When concurrent re-indexing is safe.** After any interleaving of two calls for one document, on
an index that any calls have made, with documents being removed in between, the index is as it should
be just when no call inserted, after its gap, over tokens of the document. -/
theorem reindexed_iff (calls : List Call) (contents : Bool → Bytes) (schedule : List Section)
    (hsize : ∀ call, (contents call).length < 2 ^ 64)
    (hdone : ∀ call, (((Writers.start (run tokenizer {} calls) contents).run tokenizer docId
      schedule).calls call).phase = .done) :
    Reindexed tokenizer docId contents schedule
        ((Writers.start (run tokenizer {} calls) contents).run tokenizer docId schedule).index
      ↔ Writers.Along tokenizer docId (Writers.Clear docId)
          (Writers.start (run tokenizer {} calls) contents) schedule := by
  have hstart : Undisturbed tokenizer docId contents False (latest calls).lookup
      (Writers.start (run tokenizer {} calls) contents) := by
    constructor
    case represents => exact represents_run tokenizer calls
    case content => exact fun _ => rfl
    case inserted => exact fun _ hphase => (by cases hphase)
    case missing => exact fun _ hphase => (by cases hphase)
    case gap => exact fun _ _ hphase => (by cases hphase)
  exact hstart.iff_clear hsize hdone False.elim (List.Subset.refl schedule)

theorem reindexed_iff_sequential :
    Reindexed Tokenizer.new 1 (fun _ => [98, 98])
        (List.replicate 3 (Section.indexDocument false)
          ++ List.replicate 3 (Section.indexDocument true))
        ((Writers.start (run Tokenizer.new {} [.indexDocument 1 [97, 97]]) fun _ => [98, 98]).run
          Tokenizer.new 1
          (List.replicate 3 (Section.indexDocument false)
            ++ List.replicate 3 (Section.indexDocument true))).index
      ↔ Writers.Along Tokenizer.new 1 (Writers.Clear 1)
          (Writers.start (run Tokenizer.new {} [.indexDocument 1 [97, 97]]) fun _ => [98, 98])
          (List.replicate 3 (Section.indexDocument false)
            ++ List.replicate 3 (Section.indexDocument true)) :=
  reindexed_iff [.indexDocument 1 [97, 97]] (fun _ => [98, 98])
    (List.replicate 3 (Section.indexDocument false)
      ++ List.replicate 3 (Section.indexDocument true))
    (fun _ => (by decide)) (by decide +kernel)

/-- Both calls find the document, both remove it, both insert: the total is two, of one token. -/
theorem not_reindexed_alternating :
    ¬ Reindexed Tokenizer.new 1 (fun _ => [98, 98])
        [.indexDocument false, .indexDocument true, .indexDocument false, .indexDocument true,
          .indexDocument false, .indexDocument true]
        ((Writers.start (run Tokenizer.new {} [.indexDocument 1 [97, 97]]) fun _ => [98, 98]).run
          Tokenizer.new 1
          [.indexDocument false, .indexDocument true, .indexDocument false, .indexDocument true,
            .indexDocument false, .indexDocument true]).index := by
  intro h
  exact absurd h.totalTokens (by decide +kernel)

end InvertedIndex

end NebulaFS
