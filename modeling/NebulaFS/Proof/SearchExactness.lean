import Mathlib.Data.List.Induction
import NebulaFS.Lib.Runs
import NebulaFS.Search
import NebulaFS.Proof.CanonicalIndex

/-!
# Boolean search is exact

A round of `search` reaches a document once for each posting it has under the term, so once at most. The
terms that are matched for a document are then those of the query under which it has a posting, and it
is enough to compare their number with that of the query.
-/

namespace NebulaFS

/-- No score is below zero, nor is a sum of such scores. -/
structure Scorer.NonNegative {S : Type} [Zero S] [Add S] [LT S] (scorer : Scorer S) : Prop where
  zero : ¬ (0 : S) < 0
  add : ∀ a b : S, ¬ a < 0 → ¬ b < 0 → ¬ a + b < 0
  scoreTerm : ∀ idfValue termFreq docLength avgDocLength,
    ¬ scorer.scoreTerm idfValue termFreq docLength avgDocLength < 0

namespace InvertedIndex

open PostingList

/-- The term is a token of the text. -/
def HasTerm (tokenizer : Tokenizer) (text term : Bytes) : Prop :=
  term ∈ (tokenizer.tokenize text).map Token.term

/-- What the query asks of the terms of a document. -/
def Wanted (requireAllTerms : Bool) (queryTerms : List Bytes) (has : Bytes → Prop) : Prop :=
  if requireAllTerms then queryTerms ≠ [] ∧ ∀ term ∈ queryTerms, has term
  else ∃ term ∈ queryTerms, has term

/-- The results are the documents that the query asks for, each once and with the terms it has. -/
structure Exact {S : Type} (tokenizer : Tokenizer) (docs : UInt64 → Option Bytes)
    (queryTerms : List Bytes) (requireAllTerms : Bool) (results : List (SearchResult S)) : Prop where
  nodup : (results.map SearchResult.docId).Nodup
  docId_mem : ∀ docId, docId ∈ results.map SearchResult.docId ↔
    ∃ content, docs docId = some content
      ∧ Wanted requireAllTerms queryTerms (HasTerm tokenizer content)
  matchedTerms : ∀ result ∈ results, result.matchedTerms.Nodup ∧
    ∀ term, term ∈ result.matchedTerms ↔ term ∈ queryTerms
      ∧ ∃ content, docs result.docId = some content ∧ HasTerm tokenizer content term

variable {S : Type} {tokenizer : Tokenizer} {docs : UInt64 → Option Bytes} {index : InvertedIndex}
  {term : Bytes}

/-! ### The terms of a query -/

theorem uniqueTerms_append (tokens : List Token) (tok : Token) :
    uniqueTerms (tokens ++ [tok]) = if tok.term ∈ uniqueTerms tokens then uniqueTerms tokens
      else uniqueTerms tokens ++ [tok.term] := by
  have hround : uniqueTerms (tokens ++ [tok]) = if (uniqueTerms tokens).contains tok.term
      then uniqueTerms tokens else uniqueTerms tokens ++ [tok.term] := by
    rw [uniqueTerms, List.foldl_append]
    rfl
  rw [hround]
  simp only [List.contains_iff_mem]

theorem mem_uniqueTerms {tokens : List Token} :
    term ∈ uniqueTerms tokens ↔ term ∈ tokens.map Token.term := by
  induction tokens using List.reverseRecOn with
  | nil => exact Iff.rfl
  | append_singleton tokens tok ih =>
      rw [uniqueTerms_append, List.map_append, List.mem_append, List.map_singleton,
        List.mem_singleton]
      split
      · rename_i hold
        rw [← ih]
        constructor
        · exact Or.inl
        · rintro (hmem | rfl)
          · exact hmem
          · exact hold
      · rw [List.mem_append, List.mem_singleton, ih]

theorem nodup_uniqueTerms (tokens : List Token) : (uniqueTerms tokens).Nodup := by
  induction tokens using List.reverseRecOn with
  | nil => exact List.nodup_nil
  | append_singleton tokens tok ih =>
      rw [uniqueTerms_append]
      split
      · exact ih
      · rename_i hnew
        refine List.Nodup.append ih (List.nodup_singleton _) ?_
        intro other hother hsame
        rw [List.mem_singleton.mp hsame] at hother
        exact hnew hother

/-! ### The index says which documents have a term -/

/-- The document has a posting under the term. -/
def hit (index : InvertedIndex) (docId : UInt64) (term : Bytes) : Bool :=
  (postingAt index.dictionary docId term).isSome

theorem isSome_postingOf (docId : UInt64) (tokens : List Token) (term : Bytes) :
    (postingOf docId tokens term).isSome = true ↔ term ∈ tokens.map Token.term := by
  rw [postingOf]
  by_cases hnone : positionsOf tokens term = []
  · rw [if_pos hnone]
    rw [positionsOf, List.map_eq_nil_iff, List.filter_eq_nil_iff] at hnone
    refine iff_of_false Bool.false_ne_true ?_
    intro hmem
    obtain ⟨tok, htok, hterm⟩ := List.mem_map.mp hmem
    exact hnone tok htok (decide_eq_true hterm)
  · rw [if_neg hnone]
    refine iff_of_true rfl ?_
    obtain ⟨position, hposition⟩ := List.exists_mem_of_ne_nil _ hnone
    obtain ⟨tok, htok, -⟩ := List.mem_map.mp hposition
    obtain ⟨hmem, hterm⟩ := List.mem_filter.mp htok
    exact List.mem_map.mpr ⟨tok, hmem, of_decide_eq_true hterm⟩

theorem Represents.hit_iff (h : Represents tokenizer docs index) (docId : UInt64) (term : Bytes) :
    index.hit docId term = true
      ↔ ∃ content, docs docId = some content ∧ HasTerm tokenizer content term := by
  rw [hit, h.postingAt]
  cases docs docId with
  | none =>
      refine iff_of_false Bool.false_ne_true ?_
      rintro ⟨content, hdoc, -⟩
      cases hdoc
  | some content =>
      rw [Option.bind_some, isSome_postingOf]
      constructor
      · exact fun hmem => ⟨content, rfl, hmem⟩
      · rintro ⟨_, ⟨⟩, hmem⟩
        exact hmem

theorem hit_iff_mem {pList : PostingList} (hlist : index.dictionary.lookup term = some pList)
    (docId : UInt64) :
    index.hit docId term = true ↔ docId ∈ pList.postings.map Posting.docId := by
  rw [hit, postingAt, hlist, Option.bind_some, ← not_iff_not, ← findDoc_eq_none_iff,
    Bool.not_eq_true, Option.isSome_eq_false_iff, Option.isNone_iff_eq_none]

theorem filter_append_hit (index : InvertedIndex) (docId : UInt64) (terms : List Bytes)
    (term : Bytes) :
    (terms ++ [term]).filter (index.hit docId)
      = if index.hit docId term = true then terms.filter (index.hit docId) ++ [term]
        else terms.filter (index.hit docId) := by
  rw [List.filter_append, List.filter_singleton]
  cases index.hit docId term with
  | true => rfl
  | false => exact List.append_nil _

/-- With room for all results, sorting and cutting only change their order. -/
theorem perm_take_mergeSort {results : List (SearchResult S)}
    (le : SearchResult S → SearchResult S → Bool) {limit : Nat} (hlimit : results.length ≤ limit) :
    ((results.mergeSort le).take limit).Perm results := by
  have hperm := List.mergeSort_perm results le
  rw [List.take_of_length_le (hperm.length_eq.trans_le hlimit)]
  exact hperm

theorem Exact.of_perm {results other : List (SearchResult S)} {queryTerms : List Bytes}
    {requireAllTerms : Bool} (h : Exact tokenizer docs queryTerms requireAllTerms results)
    (hperm : other.Perm results) : Exact tokenizer docs queryTerms requireAllTerms other := by
  constructor
  case nodup => exact (hperm.map _).nodup_iff.mpr h.nodup
  case docId_mem =>
    intro docId
    rw [(hperm.map _).mem_iff, h.docId_mem]
  case matchedTerms => exact fun result hmem => h.matchedTerms result (hperm.mem_iff.mp hmem)

/-- Nothing is wanted of an empty index, nor by a query without a token. -/
theorem exact_nil {queryTerms : List Bytes} {requireAllTerms : Bool}
    (h : queryTerms = [] ∨ ∀ docId, docs docId = none) :
    Exact tokenizer docs queryTerms requireAllTerms ([] : List (SearchResult S)) := by
  constructor
  case nodup => exact List.nodup_nil
  case docId_mem =>
    intro docId
    refine iff_of_false List.not_mem_nil ?_
    rintro ⟨content, hdoc, hwanted⟩
    rcases h with rfl | hnone
    · rw [Wanted] at hwanted
      split at hwanted
      · exact hwanted.1 rfl
      · obtain ⟨term, hterm, -⟩ := hwanted
        cases hterm
    · rw [hnone docId] at hdoc
      cases hdoc
  case matchedTerms => exact fun result hmem => absurd hmem List.not_mem_nil

/-! ### The scores -/

variable [Zero S] [LT S] {scores : UnorderedMap UInt64 (Accumulator S)} {terms : List Bytes}

/-- What the scores say after the rounds for these terms. -/
structure Scored (index : InvertedIndex) (terms : List Bytes)
    (scores : UnorderedMap UInt64 (Accumulator S)) : Prop where
  matched : ∀ docId, ((scores.lookup docId).map Accumulator.matched).getD []
    = terms.filter (index.hit docId)
  ne_nil : ∀ docId acc, scores.lookup docId = some acc → acc.matched ≠ []
  nonneg : ∀ docId acc, scores.lookup docId = some acc → ¬ acc.score < 0

theorem scored_empty (index : InvertedIndex) :
    Scored index [] (∅ : UnorderedMap UInt64 (Accumulator S)) := by
  constructor
  case matched => exact fun _ => rfl
  case ne_nil =>
    intro docId acc hacc
    cases hacc
  case nonneg =>
    intro docId acc hacc
    cases hacc

/-- What is stored for a document are the terms of the query that it has. -/
theorem Scored.mem_entries (h : Scored index terms scores) {docId : UInt64} {acc : Accumulator S}
    (hmem : scores.lookup docId = some acc) : acc.matched = terms.filter (index.hit docId) := by
  have hmatched := h.matched docId
  rw [hmem] at hmatched
  exact hmatched

theorem Scored.exists_of_hit (h : Scored index terms scores) {docId : UInt64}
    (hmem : term ∈ terms) (hhit : index.hit docId term = true) :
    ∃ acc, scores.lookup docId = some acc := by
  cases hlookup : scores.lookup docId with
  | some acc => exact ⟨acc, rfl⟩
  | none =>
      have hmatched := h.matched docId
      rw [hlookup] at hmatched
      have hfilter : term ∈ terms.filter (index.hit docId) := List.mem_filter.mpr ⟨hmem, hhit⟩
      rw [← hmatched] at hfilter
      cases hfilter

/-- The scores are of documents in the index. -/
theorem Scored.length_entries_le {docs : UnorderedMap UInt64 Bytes} (h : Scored index terms scores)
    (hrepresents : Represents tokenizer docs.lookup index) :
    scores.entries.length ≤ docs.entries.length := by
  have hsubset : scores.keys ⊆ docs.keys := by
    intro docId hkey
    obtain ⟨acc, hlookup⟩ := Option.isSome_iff_exists.mp (AList.lookup_isSome.mpr
      (AList.mem_keys.mpr hkey))
    obtain ⟨term, hterm⟩ := List.exists_mem_of_ne_nil _ (h.ne_nil docId acc hlookup)
    rw [h.mem_entries hlookup] at hterm
    obtain ⟨content, hdoc, -⟩ := (hrepresents.hit_iff docId term).mp (List.mem_filter.mp hterm).2
    exact AList.mem_keys.mp (AList.lookup_isSome.mp (Option.isSome_iff_exists.mpr ⟨content, hdoc⟩))
  have hle := (List.subperm_of_subset scores.keys_nodup hsubset).length_le
  rw [AList.keys, AList.keys, List.keys, List.keys, List.length_map, List.length_map] at hle
  exact hle

/-! ### The rounds of the loop -/

section

variable [Add S] {scorer : Scorer S}

omit [LT S] in
/-- The round for a term adds it to the documents that have a posting there. -/
theorem lookup_scorePostings (scorer : Scorer S) (hlists : Lists Distinct index.dictionary)
    (scores : UnorderedMap UInt64 (Accumulator S)) (term : Bytes) (docId : UInt64) :
    (index.hit docId term = true ∧ ∃ pList posting,
        (index.scorePostings scorer scores term).lookup docId
          = some (accumulate term (index.termScore scorer pList posting) (scores.lookup docId)))
      ∨ (index.hit docId term = false
        ∧ (index.scorePostings scorer scores term).lookup docId = scores.lookup docId) := by
  rw [scorePostings]
  cases hlist : index.dictionary.lookup term with
  | none =>
      refine Or.inr ⟨?_, rfl⟩
      rw [hit, postingAt, hlist]
      rfl
  | some pList =>
      have hself : ∀ posting ∈ pList.postings, ∀ scores : UnorderedMap UInt64 (Accumulator S),
          (scores.insert posting.docId (accumulate term (index.termScore scorer pList posting)
              (scores.lookup posting.docId))).lookup posting.docId
            = some (accumulate term (index.termScore scorer pList posting)
              (scores.lookup posting.docId)) :=
        fun posting _ scores => AList.lookup_insert scores
      have hother : ∀ posting ∈ pList.postings, ∀ (scores : UnorderedMap UInt64 (Accumulator S)) other,
          other ≠ posting.docId →
            (scores.insert posting.docId (accumulate term (index.termScore scorer pList posting)
              (scores.lookup posting.docId))).lookup other = scores.lookup other :=
        fun posting _ scores other hne => AList.lookup_insert_ne hne
      obtain ⟨htouched, huntouched⟩ := Runs.foldl_at_key
        (fun (scores : UnorderedMap UInt64 (Accumulator S)) docId => scores.lookup docId)
        Posting.docId
        (fun posting old => some (accumulate term (index.termScore scorer pList posting) old))
        hself hother
        (hlists term pList hlist) scores
      by_cases hmem : docId ∈ pList.postings.map Posting.docId
      · obtain ⟨posting, hposting, rfl⟩ := List.mem_map.mp hmem
        exact Or.inl ⟨(hit_iff_mem hlist _).mpr hmem, pList, posting, htouched posting hposting⟩
      · refine Or.inr ⟨?_, huntouched docId hmem⟩
        rw [Bool.eq_false_iff, ne_eq, hit_iff_mem hlist]
        exact hmem

theorem Scored.scorePostings (h : Scored index terms scores) (hscorer : scorer.NonNegative)
    (hlists : Lists Distinct index.dictionary) (term : Bytes) :
    Scored index (terms ++ [term]) (index.scorePostings scorer scores term) := by
  have hround := lookup_scorePostings scorer hlists scores term
  constructor
  case matched =>
    intro docId
    rw [filter_append_hit, ← h.matched docId]
    rcases hround docId with ⟨hhit, pList, posting, hlookup⟩ | ⟨hmiss, hlookup⟩
    · rw [if_pos hhit, hlookup]
      cases scores.lookup docId <;> rfl
    · rw [if_neg (by rw [hmiss]; exact Bool.false_ne_true), hlookup]
  case ne_nil =>
    intro docId acc hacc
    rcases hround docId with ⟨-, pList, posting, hlookup⟩ | ⟨-, hlookup⟩
    · cases hlookup.symm.trans hacc
      exact List.append_ne_nil_of_right_ne_nil _ (List.cons_ne_nil _ _)
    · exact h.ne_nil docId acc (hlookup.symm.trans hacc)
  case nonneg =>
    intro docId acc hacc
    rcases hround docId with ⟨-, pList, posting, hlookup⟩ | ⟨-, hlookup⟩
    · cases hlookup.symm.trans hacc
      refine hscorer.add _ _ ?_ (hscorer.scoreTerm _ _ _ _)
      cases hold : scores.lookup docId with
      | none => exact hscorer.zero
      | some old => exact h.nonneg docId old hold
    · exact h.nonneg docId acc (hlookup.symm.trans hacc)

theorem scored_foldl (hscorer : scorer.NonNegative) (hlists : Lists Distinct index.dictionary)
    (terms : List Bytes) :
    Scored index terms (terms.foldl (index.scorePostings scorer) ∅) := by
  induction terms using List.reverseRecOn with
  | nil => exact scored_empty index
  | append_singleton terms term ih =>
      rw [List.foldl_append]
      exact ih.scorePostings hscorer hlists term

end

/-! ### The results -/

section

variable [DecidableLT S] {options : QueryOptions S}

/-- With a minimum of zero, a document is left out only because it lacks a term. -/
theorem toResult_eq_some_iff (h : Scored index terms scores) (hmin : options.minScore = 0)
    {docId : UInt64} {acc : Accumulator S} (hlookup : scores.lookup docId = some acc)
    {result : SearchResult S} :
    toResult options terms ⟨docId, acc⟩ = some result
      ↔ (options.requireAllTerms = true → ∀ term ∈ terms, index.hit docId term = true)
        ∧ result = { docId := docId, score := acc.score, matchedTerms := acc.matched } := by
  have hshort : acc.matched.length < terms.length
      ↔ ¬ ∀ term ∈ terms, index.hit docId term = true := by
    rw [h.mem_entries hlookup, ← List.length_filter_eq_length_iff]
    have hle := List.length_filter_le (index.hit docId) terms
    omega
  rw [toResult, hmin, if_neg (h.nonneg docId acc hlookup)]
  by_cases hall : options.requireAllTerms = true ∧ acc.matched.length < terms.length
  · rw [if_pos hall]
    refine iff_of_false (Option.some_ne_none _).symm ?_
    rintro ⟨himp, -⟩
    exact hshort.mp hall.2 (himp hall.1)
  · rw [if_neg hall, Option.some_inj, eq_comm]
    refine (and_iff_right ?_).symm
    intro hrequire
    by_contra hmissing
    exact hall ⟨hrequire, hshort.mpr hmissing⟩

omit [Zero S] in
theorem docId_of_toResult {entry : Sigma fun _ : UInt64 => Accumulator S} {result : SearchResult S}
    (h : toResult options terms entry = some result) : result.docId = entry.1 := by
  rw [toResult] at h
  split at h
  · cases h
  · split at h
    · cases h
    · cases h
      rfl

omit [Zero S] in
theorem docIds_sublist (options : QueryOptions S) (terms : List Bytes)
    (entries : List (Sigma fun _ : UInt64 => Accumulator S)) :
    ((entries.filterMap (toResult options terms)).map SearchResult.docId).Sublist
      (entries.map Sigma.fst) := by
  induction entries with
  | nil => exact List.Sublist.refl _
  | cons entry entries ih =>
      cases hresult : toResult options terms entry with
      | none =>
          rw [List.filterMap_cons_none hresult]
          exact ih.cons _
      | some result =>
          rw [List.filterMap_cons_some hresult, List.map_cons, docId_of_toResult hresult]
          exact ih.cons_cons _

theorem mem_results_iff (h : Scored index terms scores) (hmin : options.minScore = 0)
    {result : SearchResult S} :
    result ∈ scores.entries.filterMap (toResult options terms)
      ↔ ∃ docId acc, scores.lookup docId = some acc
        ∧ (options.requireAllTerms = true → ∀ term ∈ terms, index.hit docId term = true)
        ∧ result = { docId := docId, score := acc.score, matchedTerms := acc.matched } := by
  rw [List.mem_filterMap]
  constructor
  · rintro ⟨⟨docId, acc⟩, hmem, hresult⟩
    have hlookup : scores.lookup docId = some acc := AList.mem_lookup_iff.mpr hmem
    exact ⟨docId, acc, hlookup, (toResult_eq_some_iff h hmin hlookup).mp hresult⟩
  · rintro ⟨docId, acc, hlookup, hresult⟩
    exact ⟨⟨docId, acc⟩, AList.mem_lookup_iff.mp hlookup,
      (toResult_eq_some_iff h hmin hlookup).mpr hresult⟩

/-- The entries that pass are what the query asks for. -/
theorem exact_results {docs : UnorderedMap UInt64 Bytes} {tokens : List Token}
    (h : Scored index (uniqueTerms tokens) scores)
    (hrepresents : Represents tokenizer docs.lookup index) (hmin : options.minScore = 0)
    (htokens : tokens ≠ []) :
    Exact tokenizer docs.lookup (tokens.map Token.term) options.requireAllTerms
      (scores.entries.filterMap (toResult options (uniqueTerms tokens))) := by
  have hne : tokens.map Token.term ≠ [] := mt List.map_eq_nil_iff.mp htokens
  constructor
  case nodup => exact List.Nodup.sublist (docIds_sublist _ _ _) scores.keys_nodup
  case docId_mem =>
    intro docId
    rw [List.mem_map]
    simp only [Wanted]
    constructor
    · rintro ⟨result, hmem, rfl⟩
      obtain ⟨docId, acc, hlookup, hall, rfl⟩ := (mem_results_iff h hmin).mp hmem
      obtain ⟨term, hterm⟩ := List.exists_mem_of_ne_nil _ (h.ne_nil docId acc hlookup)
      rw [h.mem_entries hlookup, List.mem_filter] at hterm
      obtain ⟨content, hdoc, hhas⟩ := (hrepresents.hit_iff docId term).mp hterm.2
      refine ⟨content, hdoc, ?_⟩
      split
      · rename_i hrequire
        refine ⟨hne, fun other hother => ?_⟩
        obtain ⟨_, hdoc', hhas'⟩ := (hrepresents.hit_iff docId other).mp
          (hall hrequire other (mem_uniqueTerms.mpr hother))
        cases hdoc.symm.trans hdoc'
        exact hhas'
      · exact ⟨term, mem_uniqueTerms.mp hterm.1, hhas⟩
    · rintro ⟨content, hdoc, hwanted⟩
      have hsome : ∃ term ∈ tokens.map Token.term, HasTerm tokenizer content term := by
        split at hwanted
        · obtain ⟨term, hterm⟩ := List.exists_mem_of_ne_nil _ hne
          exact ⟨term, hterm, hwanted.2 term hterm⟩
        · exact hwanted
      obtain ⟨term, hterm, hhas⟩ := hsome
      obtain ⟨acc, hlookup⟩ := h.exists_of_hit (mem_uniqueTerms.mpr hterm)
        ((hrepresents.hit_iff docId term).mpr ⟨content, hdoc, hhas⟩)
      refine ⟨_, (mem_results_iff h hmin).mpr ⟨docId, acc, hlookup, ?_, rfl⟩, rfl⟩
      intro hrequire other hother
      rw [if_pos hrequire] at hwanted
      exact (hrepresents.hit_iff docId other).mpr
        ⟨content, hdoc, hwanted.2 other (mem_uniqueTerms.mp hother)⟩
  case matchedTerms =>
    intro result hmem
    obtain ⟨docId, acc, hlookup, -, rfl⟩ := (mem_results_iff h hmin).mp hmem
    rw [h.mem_entries hlookup]
    refine ⟨(nodup_uniqueTerms tokens).filter _, fun term => ?_⟩
    rw [List.mem_filter, mem_uniqueTerms, hrepresents.hit_iff]

end

/-- The answer to a query, whatever its tokens are taken from it with. -/
theorem exact_search {docs : UnorderedMap UInt64 Bytes} [Add S] [DecidableLT S] {scorer : Scorer S}
    (hscorer : scorer.NonNegative) (h : Represents tokenizer docs.lookup index)
    (queryTokenizer : Tokenizer) (query : Bytes) {options : QueryOptions S}
    (hlimit : docs.entries.length ≤ options.limit) (hmin : options.minScore = 0) :
    Exact tokenizer docs.lookup ((queryTokenizer.tokenize query).map Token.term)
      options.requireAllTerms (search queryTokenizer scorer index query options) := by
  rw [search]
  simp only
  split
  · rename_i hempty
    apply exact_nil
    rcases hempty with htokens | hlengths
    · exact Or.inl (List.map_eq_nil_iff.mpr htokens)
    · refine Or.inr fun docId => ?_
      have hlength := h.docLengths docId
      rw [AList.lookup, hlengths, List.dlookup_nil] at hlength
      exact Option.map_eq_none_iff.mp hlength.symm
  · rename_i hnonempty
    have hlists : Lists Distinct index.dictionary := fun term list hlist => (h.lists term list hlist).1
    have hscored := scored_foldl hscorer hlists (uniqueTerms (queryTokenizer.tokenize query))
    refine (exact_results hscored h hmin (mt Or.inl hnonempty)).of_perm (perm_take_mergeSort _ ?_)
    exact (List.length_filterMap_le _ _).trans ((hscored.length_entries_le h).trans hlimit)

/-- **Boolean search is exact**, after any calls. -/
theorem search_exact [Add S] [DecidableLT S] {scorer : Scorer S} (hscorer : scorer.NonNegative)
    (calls : List Call) (query : Bytes) {options : QueryOptions S}
    (hlimit : (latest calls).entries.length ≤ options.limit) (hmin : options.minScore = 0) :
    Exact tokenizer (latest calls).lookup ((tokenizer.tokenize query).map Token.term)
      options.requireAllTerms (search tokenizer scorer (run tokenizer {} calls) query options) :=
  exact_search hscorer (represents_run tokenizer calls) tokenizer query hlimit hmin

/-- A score that counts occurrences. -/
def countingScorer : Scorer Nat where
  idf := fun _ _ => 1
  scoreTerm := fun idfValue termFreq _ _ => idfValue * termFreq.toNat
  average := fun totalTokens totalDocs => totalTokens.toNat / totalDocs

theorem nonNegative_countingScorer : countingScorer.NonNegative where
  zero := Nat.not_lt_zero 0
  add := fun _ _ _ _ => Nat.not_lt_zero _
  scoreTerm := fun _ _ _ _ => Nat.not_lt_zero _

/-- Of two documents with a term of the query one has both. -/
theorem search_exact_two :
    let calls := [Call.indexDocument 7 [98, 98, 32, 99, 99], .indexDocument 5 [98, 98]]
    let options : QueryOptions Nat := { minScore := 0, requireAllTerms := true }
    let results := search .new countingScorer (run .new {} calls) [99, 99, 32, 98, 98, 32, 99, 99]
      options
    Exact .new (latest calls).lookup
        ((Tokenizer.new.tokenize [99, 99, 32, 98, 98, 32, 99, 99]).map Token.term) true results
      ∧ results = [{ docId := 7, score := 2, matchedTerms := [[99, 99], [98, 98]] }] := by
  intro calls options results
  have hlimit : (latest calls).entries.length ≤ options.limit := by decide
  have hmin : options.minScore = 0 := rfl
  exact ⟨search_exact nonNegative_countingScorer calls _ hlimit hmin, by decide +kernel⟩

/-- A query without a token asks for all terms of none, and no document is found. -/
theorem not_exact_of_empty_query :
    let calls := [Call.indexDocument 7 [98, 98]]
    let results := search .new countingScorer (run .new {} calls) []
      { minScore := 0, requireAllTerms := true }
    (latest calls).lookup 7 = some [98, 98]
      ∧ (∀ term ∈ (Tokenizer.new.tokenize []).map Token.term, HasTerm .new [98, 98] term)
      ∧ 7 ∉ results.map SearchResult.docId := by
  refine ⟨rfl, ?_, List.not_mem_nil⟩
  intro term hterm
  cases hterm

end InvertedIndex

end NebulaFS
