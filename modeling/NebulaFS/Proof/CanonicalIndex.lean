import Mathlib.Data.Option.Basic
import NebulaFS.Proof.PostingLists

/-!
# The index is canonical

An index represents the latest contents of the documents that are in it (`Represents`). Each call
changes what is represented as its name says, and two indexes that represent the same contents are the
same up to the order of their lists (`sameIndex_of_represents`).
-/

namespace NebulaFS

namespace InvertedIndex

open PostingList

/-- Where the term stands in the document. -/
def positionsOf (tokens : List Token) (term : Bytes) : List UInt32 :=
  (tokens.filter fun tok => tok.term = term).map Token.position

/-- The posting of a document with these tokens. -/
def postingOf (docId : UInt64) (tokens : List Token) (term : Bytes) : Option Posting :=
  let positions := positionsOf tokens term
  if positions = [] then none
  else
    some { docId := docId
           termFrequency := UInt32.ofNat positions.length
           positions := positions }

/-- The index has the postings and the lengths of these documents. -/
structure Represents (tokenizer : Tokenizer) (docs : UInt64 → Option Bytes) (index : InvertedIndex) :
    Prop where
  lists : Lists (fun list => list.Distinct ∧ list.postings ≠ []) index.dictionary
  postingAt : ∀ docId term, postingAt index.dictionary docId term
    = (docs docId).bind fun content => postingOf docId (tokenizer.tokenize content) term
  docLengths : ∀ docId, index.docLengths.lookup docId
    = (docs docId).map fun content => (tokenizer.tokenize content).length
  totalTokens : index.totalTokens = UInt64.ofNat (index.docLengths.total id)

def record (docs : UnorderedMap UInt64 Bytes) : Call → UnorderedMap UInt64 Bytes
  | .indexDocument docId content => docs.insert docId content
  | .removeDocument docId => docs.erase docId
  | .clear => ∅

/-- The contents that the documents in the index have after the calls. -/
def latest (calls : List Call) : UnorderedMap UInt64 Bytes := calls.foldl record ∅

/-- Both lists have the same postings and the same total. -/
def SameList (list other : PostingList) : Prop :=
  list.postings.Perm other.postings ∧ list.totalTf = other.totalTf

structure SameIndex (index other : InvertedIndex) : Prop where
  docLengths : ∀ docId, index.docLengths.lookup docId = other.docLengths.lookup docId
  totalTokens : index.totalTokens = other.totalTokens
  dictionary : ∀ term,
    Option.Rel SameList (index.dictionary.lookup term) (other.dictionary.lookup term)

/-- The index after the calls is the one that only the documents still in it make, indexed in any
order. -/
structure Canonical (tokenizer : Tokenizer) (calls : List Call) : Prop where
  same : ∀ order : List (Sigma fun _ : UInt64 => Bytes), order.Perm (latest calls).entries →
    SameIndex (run tokenizer {} calls)
      (run tokenizer {} (order.map fun entry => .indexDocument entry.1 entry.2))
  ne_nil : ∀ term list, (run tokenizer {} calls).dictionary.lookup term = some list →
    list.postings ≠ []
  totalTokens : (run tokenizer {} calls).totalTokens
    = UInt64.ofNat ((run tokenizer {} calls).docLengths.total id)

variable {tokenizer : Tokenizer} {docs : UInt64 → Option Bytes} {index other : InvertedIndex}
  {dictionary : UnorderedMap Bytes PostingList} {docId : UInt64} {tokens : List Token} {term : Bytes}

/-! ### Inserting the tokens of a document -/

theorem positionsOf_cons (tok : Token) (tokens : List Token) (term : Bytes) :
    positionsOf (tok :: tokens) term
      = if term = tok.term then tok.position :: positionsOf tokens term
        else positionsOf tokens term := by
  rw [positionsOf, List.filter_cons]
  by_cases hterm : term = tok.term
  · rw [if_pos (decide_eq_true hterm.symm), if_pos hterm]
    rfl
  · rw [if_neg fun heq => hterm (of_decide_eq_true heq).symm, if_neg hterm]
    rfl

theorem foldl_after_some (docId : UInt64) (posting : Posting) (positions : List UInt32) :
    positions.foldl (fun old position => some (Posting.after docId old position)) (some posting)
      = some { posting with
          termFrequency := posting.termFrequency + UInt32.ofNat positions.length
          positions := posting.positions ++ positions } := by
  induction positions generalizing posting with
  | nil => simp
  | cons position positions ih =>
      have hcount : posting.termFrequency + 1 + UInt32.ofNat positions.length
          = posting.termFrequency + UInt32.ofNat (position :: positions).length := by
        rw [List.length_cons, UInt32.ofNat_add, UInt32.add_assoc, UInt32.add_comm 1]
        rfl
      rw [List.foldl_cons, Posting.after, ih, Posting.occur]
      simp only [hcount, List.append_assoc, List.singleton_append]

theorem foldl_after_none (docId : UInt64) (tokens : List Token) (term : Bytes) :
    (positionsOf tokens term).foldl (fun old position => some (Posting.after docId old position)) none
      = postingOf docId tokens term := by
  rw [postingOf]
  cases positionsOf tokens term with
  | nil => rfl
  | cons position positions =>
      rw [List.foldl_cons, Posting.after, foldl_after_some, if_neg (List.cons_ne_nil _ _),
        List.length_cons, Nat.add_comm, UInt32.ofNat_add]
      rfl

theorem lists_foldl_addToken
    (h : Lists (fun list => list.Distinct ∧ list.postings ≠ []) dictionary) (docId : UInt64)
    (tokens : List Token) :
    Lists (fun list => list.Distinct ∧ list.postings ≠ []) (tokens.foldl (addToken docId) dictionary)
    := by
  induction tokens generalizing dictionary with
  | nil => exact h
  | cons tok tokens ih =>
      have hdistinct : Lists Distinct dictionary := fun term list hlist => (h term list hlist).1
      have hlist := hdistinct.getD distinct_empty tok.term
      exact ih (h.addToken docId tok
        ⟨hlist.addOccurrence docId tok.position, addOccurrence_ne_nil hlist docId tok.position⟩)

theorem postingAt_foldl_addToken
    (h : Lists (fun list => list.Distinct ∧ list.postings ≠ []) dictionary) (docId : UInt64)
    (tokens : List Token) (other : UInt64) (term : Bytes) :
    postingAt (tokens.foldl (addToken docId) dictionary) other term
      = if other = docId then
          (positionsOf tokens term).foldl
            (fun old position => some (Posting.after docId old position))
            (postingAt dictionary docId term)
        else postingAt dictionary other term := by
  induction tokens generalizing dictionary with
  | nil =>
      split
      · rename_i heq
        rw [heq]
        rfl
      · rfl
  | cons tok tokens ih =>
      have hdistinct : Lists Distinct dictionary := fun term list hlist => (h term list hlist).1
      have hlists : Lists (fun list => list.Distinct ∧ list.postings ≠ [])
          (addToken docId dictionary tok) := lists_foldl_addToken h docId [tok]
      rw [List.foldl_cons, ih hlists, postingAt_addToken hdistinct, postingAt_addToken hdistinct]
      by_cases hother : other = docId
      · rw [if_pos hother, if_pos hother]
        by_cases hterm : term = tok.term
        · rw [if_pos ⟨rfl, hterm⟩, positionsOf_cons, if_pos hterm]
          rfl
        · rw [if_neg fun hboth => hterm hboth.2, positionsOf_cons, if_neg hterm]
      · rw [if_neg hother, if_neg hother, if_neg fun hboth => hother hboth.1]

/-! ### What the calls do to what is represented -/

theorem represents_empty (tokenizer : Tokenizer) : Represents tokenizer (fun _ => none) {} := by
  constructor
  case lists => exact lists_empty
  case postingAt => exact fun docId term => rfl
  case docLengths => exact fun docId => rfl
  case totalTokens => rfl

theorem total_insert_of_represents (h : Represents tokenizer docs index)
    (hold : ∀ content, docs docId = some content → tokenizer.tokenize content = []) (length : Nat) :
    (index.docLengths.insert docId length).total id = length + index.docLengths.total id := by
  cases hdoc : docs docId with
  | none =>
      apply AList.total_insert
      rw [← AList.lookup_eq_none, h.docLengths, hdoc]
      rfl
  | some content =>
      have hlookup : index.docLengths.lookup docId = some 0 := by
        rw [h.docLengths, hdoc, Option.map_some, hold content hdoc]
        rfl
      have hreplace := AList.total_insert_of_lookup id hlookup length
      exact (Nat.zero_add _).symm.trans hreplace

/-- A document that is not in the index, or has no tokens there, can be inserted. -/
theorem Represents.insertDocument (h : Represents tokenizer docs index) (docId : UInt64)
    (hold : ∀ content, docs docId = some content → tokenizer.tokenize content = [])
    (content : Bytes) :
    Represents tokenizer (Function.update docs docId (some content))
      (index.insertDocument tokenizer docId content) := by
  constructor
  case lists => exact lists_foldl_addToken h.lists docId _
  case postingAt =>
    intro other term
    rw [InvertedIndex.insertDocument, postingAt_foldl_addToken h.lists]
    by_cases hother : other = docId
    · have hnone : InvertedIndex.postingAt index.dictionary docId term = none := by
        rw [h.postingAt]
        cases hdoc : docs docId with
        | none => rfl
        | some old =>
            rw [Option.bind_some, hold old hdoc]
            rfl
      rw [if_pos hother, hnone, foldl_after_none, hother, Function.update_self]
      rfl
    · rw [if_neg hother, Function.update_of_ne hother, h.postingAt]
  case docLengths =>
    intro other
    rw [InvertedIndex.insertDocument]
    by_cases hother : other = docId
    · rw [hother, AList.lookup_insert, Function.update_self]
      rfl
    · rw [AList.lookup_insert_ne hother, Function.update_of_ne hother, h.docLengths]
  case totalTokens =>
    rw [InvertedIndex.insertDocument, total_insert_of_represents h hold, h.totalTokens,
      UInt64.ofNat_add, UInt64.add_comm]

theorem Represents.removeDocument (h : Represents tokenizer docs index) (docId : UInt64) :
    Represents tokenizer (Function.update docs docId none) (index.removeDocument docId).2 := by
  rw [InvertedIndex.removeDocument]
  cases hlookup : index.docLengths.lookup docId with
  | none =>
      have hdoc : docs docId = none := by
        rw [h.docLengths, Option.map_eq_none_iff] at hlookup
        exact hlookup
      rw [← hdoc, Function.update_eq_self]
      exact h
  | some length =>
      constructor
      case lists =>
        refine Lists.removeDocument h.lists ?_
        intro list rest hlist hrest
        exact ⟨distinct_withoutDocument hlist.1 hrest, (postings_withoutDocument hrest).2⟩
      case postingAt =>
        intro other term
        simp only
        rw [postingAt_removeDocument]
        by_cases hother : other = docId
        · rw [if_pos hother, hother, Function.update_self]
          rfl
        · rw [if_neg hother, Function.update_of_ne hother, h.postingAt]
      case docLengths =>
        intro other
        simp only
        by_cases hother : other = docId
        · rw [hother, AList.lookup_erase, Function.update_self]
          rfl
        · rw [AList.lookup_erase_ne hother, Function.update_of_ne hother, h.docLengths]
      case totalTokens =>
        have htotal : length + (index.docLengths.erase docId).total id
            = index.docLengths.total id := AList.total_erase id hlookup
        simp only
        rw [h.totalTokens, ← htotal, UInt64.ofNat_add, UInt64.add_comm, UInt64.add_sub_cancel]

theorem Represents.indexDocument (h : Represents tokenizer docs index) (docId : UInt64)
    (content : Bytes) :
    Represents tokenizer (Function.update docs docId (some content))
      (index.indexDocument tokenizer docId content) := by
  rw [InvertedIndex.indexDocument]
  split
  · have hremoved := h.removeDocument docId
    have hnone : Function.update docs docId none docId = none := Function.update_self ..
    have hinserted := hremoved.insertDocument docId
      (fun old hold => by rw [hnone] at hold; cases hold) content
    rw [Function.update_idem] at hinserted
    exact hinserted
  · rename_i habsent
    refine h.insertDocument docId (fun old hold => ?_) content
    rw [hasDocument, h.docLengths, hold] at habsent
    exact absurd rfl habsent

/-! ### Counted lists -/

/-- What is in a list is the posting of a document that is represented. -/
theorem Represents.posting_of_mem (h : Represents tokenizer docs index) {list : PostingList}
    (hlist : index.dictionary.lookup term = some list) {posting : Posting}
    (hmem : posting ∈ list.postings) :
    ∃ content, docs posting.docId = some content
      ∧ postingOf posting.docId (tokenizer.tokenize content) term = some posting := by
  have hfind : list.findDoc posting.docId = some posting :=
    (findDoc_eq_some_iff (h.lists term list hlist).1).mpr ⟨hmem, rfl⟩
  have hposting := h.postingAt posting.docId term
  rw [InvertedIndex.postingAt, hlist, Option.bind_some, hfind] at hposting
  exact Option.bind_eq_some_iff.mp hposting.symm

theorem positions_of_postingOf {posting : Posting} (h : postingOf docId tokens term = some posting) :
    posting.positions = positionsOf tokens term := by
  rw [postingOf] at h
  split at h
  · cases h
  · cases h
    rfl

/-- No document has so many tokens that its counts overflow. -/
def Few (tokenizer : Tokenizer) (docs : UInt64 → Option Bytes) : Prop :=
  ∀ docId content, docs docId = some content → (tokenizer.tokenize content).length < 2 ^ 32

/-- No term is in a document so often that its frequency overflows. -/
def Sparse (tokenizer : Tokenizer) (docs : UInt64 → Option Bytes) : Prop :=
  ∀ docId content, docs docId = some content →
    ∀ term, (positionsOf (tokenizer.tokenize content) term).length < 2 ^ 32

theorem length_positionsOf_le (tokens : List Token) (term : Bytes) :
    (positionsOf tokens term).length ≤ tokens.length := by
  rw [positionsOf, List.length_map]
  exact List.length_filter_le _ _

theorem Few.sparse (h : Few tokenizer docs) : Sparse tokenizer docs :=
  fun docId content hdoc term => (length_positionsOf_le _ term).trans_lt (h docId content hdoc)

theorem counted_foldl_addToken
    (h : Lists (fun list => list.Distinct ∧ list.postings ≠ []) dictionary)
    (hcounted : Lists Counted dictionary) (docId : UInt64) (tokens : List Token) :
    Lists Counted (tokens.foldl (addToken docId) dictionary) := by
  induction tokens generalizing dictionary with
  | nil => exact hcounted
  | cons tok tokens ih =>
      have hdistinct : Lists Distinct dictionary := fun term list hlist => (h term list hlist).1
      refine ih (lists_foldl_addToken h docId [tok]) (hcounted.addToken docId tok ?_)
      exact (hcounted.getD counted_empty tok.term).addOccurrence
        (hdistinct.getD distinct_empty tok.term) docId tok.position

theorem counted_removeDocument (h : Represents tokenizer docs index) (hsparse : Sparse tokenizer docs)
    (hcounted : Lists Counted index.dictionary) (docId : UInt64) :
    Lists Counted (index.removeDocument docId).2.dictionary := by
  rw [InvertedIndex.removeDocument]
  cases index.docLengths.lookup docId with
  | none => exact hcounted
  | some length =>
      intro term rest hlookup
      rw [AList.lookup_filterMapValues, Option.bind_eq_some_iff] at hlookup
      obtain ⟨list, hlist, hrest⟩ := hlookup
      refine counted_withoutDocument (hcounted term list hlist) ?_ hrest
      intro posting hmem
      obtain ⟨content, hdoc, hposting⟩ := h.posting_of_mem hlist hmem
      rw [positions_of_postingOf hposting]
      exact hsparse posting.docId content hdoc term

theorem counted_indexDocument (h : Represents tokenizer docs index) (hsparse : Sparse tokenizer docs)
    (hcounted : Lists Counted index.dictionary) (docId : UInt64) (content : Bytes) :
    Lists Counted (index.indexDocument tokenizer docId content).dictionary := by
  rw [InvertedIndex.indexDocument]
  split
  · exact counted_foldl_addToken (h.removeDocument docId).lists
      (counted_removeDocument h hsparse hcounted docId) docId _
  · exact counted_foldl_addToken h.lists hcounted docId _

theorem counted_step (h : Represents tokenizer docs index) (hsparse : Sparse tokenizer docs)
    (hcounted : Lists Counted index.dictionary) (call : Call) :
    Lists Counted (index.step tokenizer call).dictionary := by
  cases call with
  | indexDocument docId content => exact counted_indexDocument h hsparse hcounted docId content
  | removeDocument docId => exact counted_removeDocument h hsparse hcounted docId
  | clear => exact lists_empty

/-! ### Two indexes of the same documents -/

theorem sameList_of_represents (h : Represents tokenizer docs index)
    (hother : Represents tokenizer docs other) (hcounted : Lists Counted index.dictionary)
    (hcounted' : Lists Counted other.dictionary) {list list' : PostingList}
    (hlist : index.dictionary.lookup term = some list)
    (hlist' : other.dictionary.lookup term = some list') : SameList list list' := by
  have hdistinct := (h.lists term list hlist).1
  have hdistinct' := (hother.lists term list' hlist').1
  have hperm : list.postings.Perm list'.postings := by
    apply (List.perm_ext_iff_of_nodup hdistinct.of_map hdistinct'.of_map).mpr
    intro posting
    have hpostingAt := (h.postingAt posting.docId term).trans
      (hother.postingAt posting.docId term).symm
    rw [InvertedIndex.postingAt, InvertedIndex.postingAt, hlist, hlist'] at hpostingAt
    have hsame : list.findDoc posting.docId = list'.findDoc posting.docId := hpostingAt
    calc posting ∈ list.postings
        ↔ list.findDoc posting.docId = some posting := by
          rw [findDoc_eq_some_iff hdistinct, and_iff_left rfl]
      _ ↔ list'.findDoc posting.docId = some posting := by rw [hsame]
      _ ↔ posting ∈ list'.postings := by
          rw [findDoc_eq_some_iff hdistinct', and_iff_left rfl]
  refine ⟨hperm, ?_⟩
  rw [(hcounted term list hlist).totalTf, (hcounted' term list' hlist').totalTf]
  exact congrArg UInt64.ofNat (hperm.map _).sum_eq

/-- A term without a list is in none of the documents. -/
theorem lookup_eq_none_of_represents (h : Represents tokenizer docs index)
    (hother : Represents tokenizer docs other) (hlist : index.dictionary.lookup term = none) :
    other.dictionary.lookup term = none := by
  cases hlist' : other.dictionary.lookup term with
  | none => rfl
  | some list' =>
      obtain ⟨posting, hmem⟩ := List.exists_mem_of_ne_nil _ (hother.lists term list' hlist').2
      obtain ⟨content, hdoc, hposting⟩ := hother.posting_of_mem hlist' hmem
      have hpostingAt := h.postingAt posting.docId term
      rw [InvertedIndex.postingAt, hlist, hdoc, Option.bind_some, hposting] at hpostingAt
      cases hpostingAt

theorem sameIndex_of_represents (h : Represents tokenizer docs index)
    (hother : Represents tokenizer docs other) (hcounted : Lists Counted index.dictionary)
    (hcounted' : Lists Counted other.dictionary) : SameIndex index other := by
  have hlengths : ∀ docId, index.docLengths.lookup docId = other.docLengths.lookup docId :=
    fun docId => (h.docLengths docId).trans (hother.docLengths docId).symm
  constructor
  case docLengths => exact hlengths
  case totalTokens => rw [h.totalTokens, hother.totalTokens, AList.total_congr id hlengths]
  case dictionary =>
    intro term
    cases hlist : index.dictionary.lookup term with
    | none =>
        rw [lookup_eq_none_of_represents h hother hlist]
        exact Option.Rel.none
    | some list =>
        cases hlist' : other.dictionary.lookup term with
        | none =>
            rw [lookup_eq_none_of_represents hother h hlist'] at hlist
            cases hlist
        | some list' =>
            exact Option.Rel.some
              (sameList_of_represents h hother hcounted hcounted' hlist hlist')

/-! ### Runs -/

theorem lookup_record_indexDocument (docs : UnorderedMap UInt64 Bytes) (docId : UInt64)
    (content : Bytes) :
    (record docs (.indexDocument docId content)).lookup
      = Function.update docs.lookup docId (some content) := by
  funext other
  by_cases hother : other = docId
  · rw [hother, Function.update_self, record, AList.lookup_insert]
  · rw [Function.update_of_ne hother, record, AList.lookup_insert_ne hother]

theorem lookup_record_removeDocument (docs : UnorderedMap UInt64 Bytes) (docId : UInt64) :
    (record docs (.removeDocument docId)).lookup = Function.update docs.lookup docId none := by
  funext other
  by_cases hother : other = docId
  · rw [hother, Function.update_self, record, AList.lookup_erase]
  · rw [Function.update_of_ne hother, record, AList.lookup_erase_ne hother]

theorem Represents.step {docs : UnorderedMap UInt64 Bytes}
    (h : Represents tokenizer docs.lookup index) (call : Call) :
    Represents tokenizer (record docs call).lookup (index.step tokenizer call) := by
  cases call with
  | indexDocument docId content =>
      rw [lookup_record_indexDocument]
      exact h.indexDocument docId content
  | removeDocument docId =>
      rw [lookup_record_removeDocument]
      exact h.removeDocument docId
  | clear => exact represents_empty tokenizer

theorem represents_run (tokenizer : Tokenizer) (calls : List Call) :
    Represents tokenizer (latest calls).lookup (run tokenizer {} calls) := by
  rw [latest, run]
  refine List.foldl_rel
    (r := fun (docs : UnorderedMap UInt64 Bytes) index => Represents tokenizer docs.lookup index)
    (represents_empty tokenizer) ?_
  intro call _ docs index h
  exact h.step call

/-- No document of the call has so many tokens that its counts overflow. -/
def Call.Few (tokenizer : Tokenizer) : Call → Prop
  | .indexDocument _ content => (tokenizer.tokenize content).length < 2 ^ 32
  | .removeDocument _ | .clear => True

/-- What a run keeps of the index and the contents recorded beside it. -/
structure Kept (tokenizer : Tokenizer) (docs : UnorderedMap UInt64 Bytes) (index : InvertedIndex) :
    Prop where
  represents : Represents tokenizer docs.lookup index
  few : Few tokenizer docs.lookup
  counted : Lists Counted index.dictionary

theorem kept_empty (tokenizer : Tokenizer) : Kept tokenizer ∅ {} := by
  constructor
  case represents => exact represents_empty tokenizer
  case few =>
    intro docId content hdoc
    cases hdoc
  case counted => exact lists_empty

/-- What the content of the call and the recorded ones have, the ones recorded after the call have. -/
theorem forall_record {P : Bytes → Prop} {docs : UnorderedMap UInt64 Bytes}
    (h : ∀ docId content, docs.lookup docId = some content → P content) {call : Call}
    (hcall : ∀ docId content, call = .indexDocument docId content → P content) :
    ∀ docId content, (record docs call).lookup docId = some content → P content := by
  intro other old hdoc
  cases call with
  | indexDocument docId content =>
      rw [record] at hdoc
      by_cases hother : other = docId
      · rw [hother, AList.lookup_insert] at hdoc
        cases hdoc
        exact hcall docId _ rfl
      · rw [AList.lookup_insert_ne hother] at hdoc
        exact h other old hdoc
  | removeDocument docId =>
      rw [record] at hdoc
      by_cases hother : other = docId
      · rw [hother, AList.lookup_erase] at hdoc
        cases hdoc
      · rw [AList.lookup_erase_ne hother] at hdoc
        exact h other old hdoc
  | clear => cases hdoc

theorem Few.record {docs : UnorderedMap UInt64 Bytes} (h : Few tokenizer docs.lookup) {call : Call}
    (hfew : call.Few tokenizer) : Few tokenizer (record docs call).lookup := by
  refine forall_record h ?_
  intro docId content hcall
  rw [hcall] at hfew
  exact hfew

theorem Kept.step {docs : UnorderedMap UInt64 Bytes} (h : Kept tokenizer docs index) {call : Call}
    (hfew : call.Few tokenizer) : Kept tokenizer (record docs call) (index.step tokenizer call) := by
  constructor
  case represents => exact h.represents.step call
  case few => exact h.few.record hfew
  case counted => exact counted_step h.represents h.few.sparse h.counted call

theorem kept_run {calls : List Call} (hfew : ∀ call ∈ calls, call.Few tokenizer) :
    Kept tokenizer (latest calls) (run tokenizer {} calls) := by
  rw [latest, run]
  refine List.foldl_rel (kept_empty tokenizer) ?_
  intro call hmem docs index h
  exact h.step (hfew call hmem)

/-- **The inverted index is canonical**, for any sequence of calls. -/
theorem canonical (calls : List Call)
    (hfew : ∀ docId content, .indexDocument docId content ∈ calls →
      (tokenizer.tokenize content).length < 2 ^ 32) :
    Canonical tokenizer calls := by
  have hkept : Kept tokenizer (latest calls) (run tokenizer {} calls) := by
    refine kept_run ?_
    intro call hcall
    cases call with
    | indexDocument docId content => exact hfew docId content hcall
    | removeDocument docId => trivial
    | clear => trivial
  constructor
  case same =>
    intro order horder
    have hnodup : order.NodupKeys := (List.perm_nodupKeys horder).mpr (latest calls).nodupKeys
    have hfew' : ∀ call ∈ order.map fun entry => Call.indexDocument entry.1 entry.2,
        call.Few tokenizer := by
      intro call hcall
      obtain ⟨entry, hentry, rfl⟩ := List.mem_map.mp hcall
      have hlookup : (latest calls).lookup entry.1 = some entry.2 :=
        AList.mem_lookup_iff.mpr (horder.subset hentry)
      exact hkept.few entry.1 entry.2 hlookup
    have hrebuilt := kept_run hfew'
    have hdocs : (order.foldl (fun docs entry => record docs (.indexDocument entry.1 entry.2))
        ∅).lookup = (latest calls).lookup := by
      funext docId
      have hinserted := AList.lookup_foldl_insert hnodup ∅ docId
      rw [AList.lookup_empty, Option.or_none, List.perm_dlookup docId hnodup horder] at hinserted
      exact hinserted
    have hrepresents := hrebuilt.represents
    rw [latest, List.foldl_map, hdocs] at hrepresents
    exact sameIndex_of_represents hkept.represents hrepresents hkept.counted hrebuilt.counted
  case ne_nil => exact fun term list hlist => (hkept.represents.lists term list hlist).2
  case totalTokens => exact hkept.represents.totalTokens

theorem canonical_reindexed :
    Canonical Tokenizer.new
      [.indexDocument 1 [97, 97], .indexDocument 2 [98, 98], .indexDocument 1 [98, 98, 32, 99, 99],
        .removeDocument 2] := by
  apply canonical
  intro docId content hcall
  apply (Tokenizer.length_tokenize_le content).trans_lt
  simp only [List.mem_cons, Call.indexDocument.injEq, reduceCtorEq, List.not_mem_nil, or_false]
    at hcall
  rcases hcall with ⟨-, rfl⟩ | ⟨-, rfl⟩ | ⟨-, rfl⟩
  all_goals decide

end InvertedIndex

end NebulaFS
