import NebulaFS.Proof.RestoredIndex
import NebulaFS.Proof.SearchExactness

/-!
# Queries to a restored index

A restored index has the postings of the original but the default tokenizer. The terms under which the
documents were indexed are those of the original options, and the query is now cut by the default ones.
-/

namespace NebulaFS

namespace InvertedIndex

variable {S : Type} {tokenizer : Tokenizer} {docs : UInt64 → Option Bytes} {queryTerms other : List Bytes}

/-- The same documents with the same matched terms. -/
structure SameAnswers (results others : List (SearchResult S)) : Prop where
  docId_mem : ∀ docId,
    docId ∈ results.map SearchResult.docId ↔ docId ∈ others.map SearchResult.docId
  matchedTerms : ∀ result ∈ results, ∀ other ∈ others, result.docId = other.docId →
    result.matchedTerms.Perm other.matchedTerms

/-- The two lists of terms ask for the same in these documents. -/
def AskAlike (tokenizer : Tokenizer) (docs : UInt64 → Option Bytes) (requireAllTerms : Bool)
    (queryTerms other : List Bytes) : Prop :=
  if requireAllTerms then
    (∀ term, term ∈ queryTerms ↔ term ∈ other)
      ∨ ∀ docId content, docs docId = some content →
        ¬ Wanted true queryTerms (HasTerm tokenizer content)
          ∧ ¬ Wanted true other (HasTerm tokenizer content)
  else
    ∀ docId content, docs docId = some content →
      ∀ term, HasTerm tokenizer content term → (term ∈ queryTerms ↔ term ∈ other)

theorem SameAnswers.symm {results others : List (SearchResult S)} (h : SameAnswers results others) :
    SameAnswers others results where
  docId_mem := fun docId => (h.docId_mem docId).symm
  matchedTerms := fun other hother result hresult hid =>
    (h.matchedTerms result hresult other hother hid.symm).symm

/-- A document that is found is found once. -/
theorem Exact.matchedTerms_iff {requireAllTerms : Bool} {results : List (SearchResult S)}
    (h : Exact tokenizer docs queryTerms requireAllTerms results) {result : SearchResult S}
    (hmem : result ∈ results) {content : Bytes} (hdoc : docs result.docId = some content)
    (term : Bytes) :
    term ∈ result.matchedTerms ↔ term ∈ queryTerms ∧ HasTerm tokenizer content term := by
  rw [(h.matchedTerms result hmem).2, hdoc]
  apply and_congr_right
  intro _
  constructor
  · rintro ⟨_, ⟨⟩, hhas⟩
    exact hhas
  · exact fun hhas => ⟨content, rfl, hhas⟩

section

variable {results others : List (SearchResult S)}

/-- Where one term is enough, two answers are the same if no term of a document tells the queries
apart. -/
theorem sameAnswers_iff_of_any (h : Exact tokenizer docs queryTerms false results)
    (hother : Exact tokenizer docs other false others) :
    SameAnswers results others ↔ AskAlike tokenizer docs false queryTerms other := by
  have honly : ∀ {queryTerms other : List Bytes} {results others : List (SearchResult S)},
      Exact tokenizer docs queryTerms false results → Exact tokenizer docs other false others →
      SameAnswers results others → ∀ docId content, docs docId = some content →
        ∀ term, HasTerm tokenizer content term → term ∈ queryTerms → term ∈ other := by
    intro queryTerms other results others h hother hsame docId content hdoc term hhas hterm
    have hfound := (h.docId_mem docId).mpr ⟨content, hdoc, term, hterm, hhas⟩
    obtain ⟨result, hresult, rfl⟩ := List.mem_map.mp hfound
    obtain ⟨found, hmem, hid⟩ := List.mem_map.mp ((hsame.docId_mem _).mp hfound)
    have hmatched := (h.matchedTerms_iff hresult hdoc term).mpr ⟨hterm, hhas⟩
    have hperm := hsame.matchedTerms result hresult found hmem hid.symm
    exact ((hother.matchedTerms_iff hmem (hid ▸ hdoc) term).mp (hperm.mem_iff.mp hmatched)).1
  constructor
  · intro hsame docId content hdoc term hhas
    exact ⟨honly h hother hsame docId content hdoc term hhas,
      honly hother h hsame.symm docId content hdoc term hhas⟩
  · intro halike
    constructor
    case docId_mem =>
      intro docId
      rw [h.docId_mem, hother.docId_mem]
      apply exists_congr
      intro content
      apply and_congr_right
      intro hdoc
      apply exists_congr
      intro term
      exact and_congr_left fun hhas => halike docId content hdoc term hhas
    case matchedTerms =>
      intro result hresult found hfound hid
      obtain ⟨content, hdoc, -⟩ := (h.docId_mem _).mp (List.mem_map_of_mem hresult)
      apply (List.perm_ext_iff_of_nodup (h.matchedTerms result hresult).1
        (hother.matchedTerms found hfound).1).mpr
      intro term
      rw [h.matchedTerms_iff hresult hdoc, hother.matchedTerms_iff hfound (hid ▸ hdoc)]
      exact and_congr_left fun hhas => halike _ content hdoc term hhas

/-- Where all terms are required a document that is found shows all of them. -/
theorem Exact.matchedTerms_of_all (h : Exact tokenizer docs queryTerms true results)
    {result : SearchResult S} (hmem : result ∈ results) (term : Bytes) :
    term ∈ result.matchedTerms ↔ term ∈ queryTerms := by
  obtain ⟨content, hdoc, -, hall⟩ := (h.docId_mem _).mp (List.mem_map_of_mem hmem)
  rw [h.matchedTerms_iff hmem hdoc]
  exact and_iff_left_of_imp fun hterm => hall term hterm

theorem sameAnswers_iff_of_all (h : Exact tokenizer docs queryTerms true results)
    (hother : Exact tokenizer docs other true others) :
    SameAnswers results others ↔ AskAlike tokenizer docs true queryTerms other := by
  constructor
  · intro hsame
    by_cases hnone : results = []
    · refine Or.inr fun docId content hdoc => ⟨fun hwanted => ?_, fun hwanted => ?_⟩
      · have hfound := (h.docId_mem docId).mpr ⟨content, hdoc, hwanted⟩
        rw [hnone] at hfound
        cases hfound
      · have hfound := (hsame.docId_mem docId).mpr
          ((hother.docId_mem docId).mpr ⟨content, hdoc, hwanted⟩)
        rw [hnone] at hfound
        cases hfound
    · obtain ⟨result, hresult⟩ := List.exists_mem_of_ne_nil _ hnone
      obtain ⟨found, hfound, hid⟩ :=
        List.mem_map.mp ((hsame.docId_mem _).mp (List.mem_map_of_mem hresult))
      refine Or.inl fun term => ?_
      rw [← h.matchedTerms_of_all hresult, ← hother.matchedTerms_of_all hfound]
      exact (hsame.matchedTerms result hresult found hfound hid.symm).mem_iff
  · rintro (hterms | hnone)
    · have hempty : queryTerms ≠ [] ↔ other ≠ [] := by
        rw [ne_eq, ne_eq, List.eq_nil_iff_forall_not_mem, List.eq_nil_iff_forall_not_mem]
        simp only [hterms]
      constructor
      case docId_mem =>
        intro docId
        rw [h.docId_mem, hother.docId_mem]
        simp only [Wanted, if_true, hempty, hterms]
      case matchedTerms =>
        intro result hresult found hfound _
        apply (List.perm_ext_iff_of_nodup (h.matchedTerms result hresult).1
          (hother.matchedTerms found hfound).1).mpr
        intro term
        rw [h.matchedTerms_of_all hresult, hother.matchedTerms_of_all hfound, hterms]
    · constructor
      case docId_mem =>
        intro docId
        rw [h.docId_mem, hother.docId_mem]
        refine iff_of_false ?_ ?_
        · rintro ⟨content, hdoc, hwanted⟩
          exact (hnone docId content hdoc).1 hwanted
        · rintro ⟨content, hdoc, hwanted⟩
          exact (hnone docId content hdoc).2 hwanted
      case matchedTerms =>
        intro result hresult
        obtain ⟨content, hdoc, hwanted⟩ := (h.docId_mem _).mp (List.mem_map_of_mem hresult)
        exact absurd hwanted (hnone _ content hdoc).1

theorem sameAnswers_iff {requireAllTerms : Bool}
    (h : Exact tokenizer docs queryTerms requireAllTerms results)
    (hother : Exact tokenizer docs other requireAllTerms others) :
    SameAnswers results others ↔ AskAlike tokenizer docs requireAllTerms queryTerms other := by
  cases requireAllTerms with
  | false => exact sameAnswers_iff_of_any h hother
  | true => exact sameAnswers_iff_of_all h hother

end

variable [Zero S] [Add S] [LT S] [DecidableLT S] {index : InvertedIndex} {memory : PostingMemory}
  {scorer restoredScorer : Scorer S}

/-- **When a restored index answers like the original**: when the tokens that the options and the default
options take from the query ask for the same in the documents, as the options cut them. -/
theorem answersAlike_iff (tokOpts : TokenizerOptions) (calls : List Call)
    (hfew : ∀ docId content, .indexDocument docId content ∈ calls → content.length < 2 ^ 64
      ∧ ∀ term, (positionsOf ((Tokenizer.new tokOpts).tokenize content) term).length < 2 ^ 32)
    (hwritten : SameMaps index (run (.new tokOpts) {} calls))
    (hmemory : ∀ term list, (run (.new tokOpts) {} calls).dictionary.lookup term = some list →
      memory.Holds list)
    (hfits : index.serialize.length < 2 ^ 64) (hscorer : scorer.NonNegative)
    (hrestoredScorer : restoredScorer.NonNegative) (query : Bytes) {options : QueryOptions S}
    (hlimit : (latest calls).entries.length ≤ options.limit) (hmin : options.minScore = 0) :
    ∃ queryTokenizer restored, deserialize memory index.serialize = .ok (queryTokenizer, restored)
      ∧ (SameAnswers (search (.new tokOpts) scorer index query options)
          (search queryTokenizer restoredScorer restored query options)
        ↔ AskAlike (.new tokOpts) (latest calls).lookup options.requireAllTerms
          (((Tokenizer.new tokOpts).tokenize query).map Token.term)
          ((Tokenizer.new.tokenize query).map Token.term)) := by
  have htracked : Tracked (.new tokOpts) (latest calls) (run (.new tokOpts) {} calls) :=
    tracked_of_run calls hfew
  obtain ⟨restored, hrestored, hsame⟩ :=
    deserialize_serialize (htracked.encodable hwritten hmemory) hfits
  have hindex := htracked.represents.of_sameMaps hwritten
  exact ⟨.new, restored, hrestored, sameAnswers_iff
    (exact_search hscorer hindex (.new tokOpts) query hlimit hmin)
    (exact_search hrestoredScorer (hindex.of_sameMaps hsame) .new query hlimit hmin)⟩

/-- An index that keeps capital letters. -/
theorem answersAlike_iff_capitals :
    let tokenizer := Tokenizer.new { toLower := false }
    let calls := [Call.indexDocument 1 [66, 66, 32, 99, 99]]
    let index := run tokenizer {} calls
    let options : QueryOptions Nat := { minScore := 0 }
    ∃ queryTokenizer restored,
      deserialize ⟨fun _ => true, fun _ => true⟩ index.serialize = .ok (queryTokenizer, restored)
        ∧ (SameAnswers (search tokenizer countingScorer index [99, 99] options)
            (search queryTokenizer countingScorer restored [99, 99] options)
          ↔ AskAlike tokenizer (latest calls).lookup false
            ((tokenizer.tokenize [99, 99]).map Token.term)
            ((Tokenizer.new.tokenize [99, 99]).map Token.term)) := by
  intro tokenizer calls index options
  have hfew : ∀ docId content, .indexDocument docId content ∈ calls → content.length < 2 ^ 64
      ∧ ∀ term, (positionsOf (tokenizer.tokenize content) term).length < 2 ^ 32 := by
    intro docId content hcall
    obtain ⟨-, rfl⟩ := Call.indexDocument.inj (List.mem_singleton.mp hcall)
    refine ⟨by decide, fun term => ?_⟩
    have hpositions := length_positionsOf_le (tokenizer.tokenize [66, 66, 32, 99, 99]) term
    exact hpositions.trans_lt ((tokenizer.length_tokenize_le _).trans_lt (by decide))
  have hlimit : (latest calls).entries.length ≤ options.limit := by decide
  exact answersAlike_iff { toLower := false } calls hfew ⟨fun _ => rfl, rfl, fun _ => rfl⟩
    (fun _ _ _ => ⟨rfl, fun _ _ => rfl⟩) (by decide +kernel) nonNegative_countingScorer
    nonNegative_countingScorer [99, 99] hlimit rfl

/-- The restored index looks for the capital letters in small ones. -/
theorem not_answersAlike_capitals :
    let tokenizer := Tokenizer.new { toLower := false }
    let index := run tokenizer {} [.indexDocument 1 [66, 66]]
    (search tokenizer countingScorer index [66, 66] { minScore := 0 }).map SearchResult.docId = [1]
      ∧ (deserialize ⟨fun _ => true, fun _ => true⟩ index.serialize).toOption.map (fun restored =>
          (search restored.1 countingScorer restored.2 [66, 66] { minScore := 0 }).map
            SearchResult.docId) = some [] := by
  decide +kernel

end InvertedIndex

end NebulaFS
