import NebulaFS.Proof.CanonicalIndex
import NebulaFS.Proof.PostingCodec

/-!
# Inverted indexes that travel

What is decoded has the maps of the index, whatever order they were written in. The number of tokens is
not stored but added up from the lengths of the documents.
-/

namespace NebulaFS

open Cursor

namespace InvertedIndex

open PostingList

variable {bytes rest : Bytes} {offset : Nat} {memory : PostingMemory} {tokenizer : Tokenizer}
  {index other : InvertedIndex}

/-- The same index up to the order of its maps. -/
structure SameMaps (index other : InvertedIndex) : Prop where
  docLengths : ∀ docId, index.docLengths.lookup docId = other.docLengths.lookup docId
  totalTokens : index.totalTokens = other.totalTokens
  dictionary : ∀ term, index.dictionary.lookup term = other.dictionary.lookup term

/-! ### Reading back -/

theorem readLength_of_remaining {docId : UInt64} {len : Nat}
    (h : Remaining bytes offset (serializeLength docId len ++ rest)) :
    readLength bytes offset
      = .ok ((docId, UInt64.ofNat len), offset + (serializeLength docId len).length) := by
  rw [serializeLength, List.append_assoc] at h
  rw [readLength, readNext_of_remaining _ h]
  simp only [bind, Except.bind]
  rw [readNext_of_remaining _ h.advance]
  simp only [pure, Except.pure, serializeLength, List.length_append, Nat.add_assoc]

theorem readSubspan_of_remaining {item : Bytes} (hitem : item.length < wordSize - 1)
    (h : Remaining bytes offset (item ++ rest)) :
    readSubspan bytes offset item.length = .ok (item, offset + item.length) := by
  rw [readSubspan, if_neg (by omega), readRange_of_remaining h]

theorem readTerm_of_remaining {term : Bytes} {pList : PostingList} (hbytes : bytes.length < 2 ^ 64)
    (hwhole : pList.Whole) (hmemory : memory.Holds pList)
    (h : Remaining bytes offset (serializeTerm term pList ++ rest)) :
    readTerm memory bytes offset
      = .ok ((term, pList), offset + (serializeTerm term pList).length) := by
  have hlength := h.length_eq
  have htermLen := VarInt.length_encode_pos (UInt64.ofNat term.length)
  simp only [serializeTerm, List.length_append] at hlength
  have hterm : (UInt64.ofNat term.length).toNat = term.length := toNat_ofNat_of_lt (by omega)
  have hpBytes : (UInt64.ofNat pList.serialize.length).toNat = pList.serialize.length :=
    toNat_ofNat_of_lt (by omega)
  simp only [serializeTerm, List.append_assoc] at h
  have h1 := h.advance
  have h2 := h1.advance
  have h3 := h2.advance
  -- a list of the largest length, which would be read as the rest, does not fit behind its term
  have hspan : pList.serialize.length < wordSize - 1 := by
    rw [wordSize]
    omega
  rw [readTerm, readNext_of_remaining _ h]
  simp only [bind, Except.bind]
  rw [hterm, require_sum_of_remaining _ hbytes h1]
  simp only
  rw [readRange_of_remaining h1]
  simp only
  rw [readNext_of_remaining _ h2]
  simp only
  rw [hpBytes, require_sum_of_remaining _ hbytes h3]
  simp only
  rw [readSubspan_of_remaining hspan h3]
  simp only
  rw [PostingList.deserialize_serialize hwhole hmemory (by omega)]
  simp only [pure, Except.pure, serializeTerm, List.length_append]
  congr 2
  omega

/-! ### What is read is filled in again -/

theorem foldl_totalTokens (entries : List (Sigma fun _ : UInt64 => Nat)) (total : Nat) :
    entries.foldl (fun total entry => total + UInt64.ofNat entry.2) (UInt64.ofNat total)
      = UInt64.ofNat (total + (entries.map fun entry => entry.2).sum) := by
  induction entries generalizing total with
  | nil => rfl
  | cons entry entries ih =>
      rw [List.foldl_cons, ← UInt64.ofNat_add, ih, List.map_cons, List.sum_cons, Nat.add_assoc]

/-- What `serialize` needs of an index to be undone. -/
structure Encodable (memory : PostingMemory) (index : InvertedIndex) : Prop where
  docLengths : ∀ docId len, index.docLengths.lookup docId = some len → len < 2 ^ 64
  totalTokens : index.totalTokens = UInt64.ofNat (index.docLengths.total id)
  whole : Lists Whole index.dictionary
  memory : Lists memory.Holds index.dictionary

theorem sameMaps_ofRead (h : Encodable memory index) :
    SameMaps (ofRead (index.docLengths.entries.map fun entry => (entry.1, UInt64.ofNat entry.2))
      (index.dictionary.entries.map fun entry => (entry.1, entry.2))) index := by
  constructor
  case docLengths =>
    intro docId
    have hsame : index.docLengths.entries.foldl
          (fun (map : UnorderedMap UInt64 Nat) entry =>
            map.insert entry.1 (UInt64.ofNat entry.2).toNat) ∅
        = index.docLengths.entries.foldl (fun map entry => map.insert entry.1 entry.2) ∅ := by
      apply List.foldl_ext
      intro map entry hmem
      rw [toNat_ofNat_of_lt (h.docLengths entry.1 entry.2 (AList.mem_lookup_iff.mpr hmem))]
    show ((index.docLengths.entries.map fun entry => (entry.1, UInt64.ofNat entry.2)).foldl
      (fun (map : UnorderedMap UInt64 Nat) read => map.insert read.1 read.2.toNat) ∅).lookup docId = _
    rw [List.foldl_map, hsame, AList.lookup_foldl_insert index.docLengths.nodupKeys,
      AList.lookup_empty, Option.or_none]
    rfl
  case totalTokens =>
    rw [h.totalTokens]
    show (index.docLengths.entries.map fun entry => (entry.1, UInt64.ofNat entry.2)).foldl
      (fun total read => total + read.2) 0 = _
    rw [List.foldl_map]
    exact (foldl_totalTokens _ 0).trans (congrArg UInt64.ofNat (Nat.zero_add _))
  case dictionary =>
    intro term
    rw [ofRead, List.foldl_map, AList.lookup_foldl_insert index.dictionary.nodupKeys,
      AList.lookup_empty, Option.or_none]
    rfl

theorem length_entries_le (index : InvertedIndex) :
    index.docLengths.entries.length ≤ index.serialize.length
      ∧ index.dictionary.entries.length ≤ index.serialize.length := by
  have hlengths : index.docLengths.entries.length * 1
      ≤ (index.docLengths.entries.flatMap fun entry => serializeLength entry.1 entry.2).length := by
    apply length_mul_le_length_flatMap
    intro entry _
    have hpos := VarInt.length_encode_pos entry.1
    rw [serializeLength, List.length_append]
    omega
  have hterms : index.dictionary.entries.length * 1
      ≤ (index.dictionary.entries.flatMap fun entry => serializeTerm entry.1 entry.2).length := by
    apply length_mul_le_length_flatMap
    intro entry _
    have hpos := VarInt.length_encode_pos (UInt64.ofNat entry.1.length)
    rw [serializeTerm, List.length_append]
    omega
  simp only [serialize, List.length_append]
  omega

theorem deserialize_serialize (h : Encodable memory index)
    (hfits : index.serialize.length < 2 ^ 64) :
    ∃ restored, deserialize memory index.serialize = .ok (.new, restored)
      ∧ SameMaps restored index := by
  obtain ⟨hdocs, hterms⟩ := length_entries_le index
  have hnumDocs : (UInt64.ofNat index.docLengths.entries.length).toNat
      = index.docLengths.entries.length := toNat_ofNat_of_lt (by omega)
  have hnumTerms : (UInt64.ofNat index.dictionary.entries.length).toNat
      = index.dictionary.entries.length := toNat_ofNat_of_lt (by omega)
  have h0 := remaining_start index.serialize
  nth_rewrite 2 [serialize] at h0
  have h1 := h0.advance
  have h2 := h1.advance
  have h3 := h2.advance
  rw [← List.append_nil (index.dictionary.entries.flatMap _)] at h3
  have hlengthsLoop := readMany_flatMap
    (fun (entry : Sigma fun _ : UInt64 => Nat) _ pos rest
      (h : Remaining index.serialize pos (serializeLength entry.1 entry.2 ++ rest)) =>
        readLength_of_remaining h) h1
  have hread : ∀ entry ∈ index.dictionary.entries, ∀ pos rest,
      Remaining index.serialize pos (serializeTerm entry.1 entry.2 ++ rest) →
      readTerm memory index.serialize pos
        = .ok ((entry.1, entry.2), pos + (serializeTerm entry.1 entry.2).length) := by
    intro entry hmem pos rest hremaining
    have hlookup : index.dictionary.lookup entry.1 = some entry.2 := AList.mem_lookup_iff.mpr hmem
    exact readTerm_of_remaining hfits (h.whole entry.1 entry.2 hlookup)
      (h.memory entry.1 entry.2 hlookup) hremaining
  have htermsLoop := readMany_flatMap hread h3
  have hne : index.serialize ≠ [] := by simp [serialize, VarInt.encode_ne_nil]
  refine ⟨_, ?_, sameMaps_ofRead h⟩
  rw [deserialize, if_neg hne, readVarInt_of_remaining _ h0]
  simp only [bind, Except.bind]
  rw [hnumDocs, hlengthsLoop]
  simp only
  rw [readNext_of_remaining _ h2]
  simp only
  rw [hnumTerms, htermsLoop]
  rfl

/-! ### Runs -/

/-- What a run keeps of the index and the contents recorded beside it. -/
structure Tracked (tokenizer : Tokenizer) (docs : UnorderedMap UInt64 Bytes) (index : InvertedIndex) :
    Prop where
  represents : Represents tokenizer docs.lookup index
  sparse : Sparse tokenizer docs.lookup
  length_lt : ∀ docId content, docs.lookup docId = some content → content.length < 2 ^ 64
  counted : Lists Counted index.dictionary

/-- The content that a call brings is a string, and has no term too often. -/
structure Call.Ordinary (tokenizer : Tokenizer) (call : Call) : Prop where
  sparse : ∀ docId content, call = .indexDocument docId content →
    ∀ term, (positionsOf (tokenizer.tokenize content) term).length < 2 ^ 32
  length_lt : ∀ docId content, call = .indexDocument docId content → content.length < 2 ^ 64

theorem tracked_empty (tokenizer : Tokenizer) : Tracked tokenizer ∅ {} := by
  constructor
  case represents => exact represents_empty tokenizer
  case sparse =>
    intro docId content hdoc
    cases hdoc
  case length_lt =>
    intro docId content hdoc
    cases hdoc
  case counted => exact lists_empty

theorem Tracked.step {docs : UnorderedMap UInt64 Bytes} (h : Tracked tokenizer docs index)
    {call : Call} (hcall : call.Ordinary tokenizer) :
    Tracked tokenizer (record docs call) (index.step tokenizer call) := by
  constructor
  case represents => exact h.represents.step call
  case sparse => exact forall_record h.sparse hcall.sparse
  case length_lt => exact forall_record h.length_lt hcall.length_lt
  case counted => exact counted_step h.represents h.sparse h.counted call

theorem tracked_run {calls : List Call} (hcalls : ∀ call ∈ calls, call.Ordinary tokenizer) :
    Tracked tokenizer (latest calls) (run tokenizer {} calls) := by
  rw [latest, run]
  refine List.foldl_rel (tracked_empty tokenizer) ?_
  intro call hmem docs index h
  exact h.step (hcalls call hmem)

theorem tracked_of_run (calls : List Call)
    (hfew : ∀ docId content, .indexDocument docId content ∈ calls → content.length < 2 ^ 64
      ∧ ∀ term, (positionsOf (tokenizer.tokenize content) term).length < 2 ^ 32) :
    Tracked tokenizer (latest calls) (run tokenizer {} calls) := by
  apply tracked_run
  intro call hcall
  constructor
  case sparse =>
    rintro docId content rfl
    exact (hfew docId content hcall).2
  case length_lt =>
    rintro docId content rfl
    exact (hfew docId content hcall).1

theorem Represents.of_sameMaps {docs : UInt64 → Option Bytes} (h : Represents tokenizer docs index)
    (hsame : SameMaps other index) : Represents tokenizer docs other := by
  constructor
  case lists =>
    intro term list hlist
    rw [hsame.dictionary] at hlist
    exact h.lists term list hlist
  case postingAt =>
    intro docId term
    rw [← h.postingAt, InvertedIndex.postingAt, InvertedIndex.postingAt, hsame.dictionary]
  case docLengths =>
    intro docId
    rw [hsame.docLengths, h.docLengths]
  case totalTokens =>
    rw [hsame.totalTokens, h.totalTokens, AList.total_congr id hsame.docLengths]

/-- An index with the maps of the run can be encoded, whatever their order. -/
theorem Tracked.encodable {docs : UnorderedMap UInt64 Bytes} (h : Tracked tokenizer docs index)
    (hsame : SameMaps other index) (hmemory : Lists memory.Holds index.dictionary) :
    Encodable memory other := by
  have hother := h.represents.of_sameMaps hsame
  constructor
  case docLengths =>
    intro docId len hlen
    rw [hother.docLengths] at hlen
    obtain ⟨content, hdoc, rfl⟩ := Option.map_eq_some_iff.mp hlen
    exact (Tokenizer.length_tokenize_le content).trans_lt (h.length_lt docId content hdoc)
  case totalTokens => exact hother.totalTokens
  case whole =>
    intro term list hlist
    rw [hsame.dictionary] at hlist
    refine (h.counted term list hlist).whole ?_
    intro p hmem
    obtain ⟨content, hdoc, hposting⟩ := h.represents.posting_of_mem hlist hmem
    rw [positions_of_postingOf hposting]
    exact h.sparse p.docId content hdoc term
  case memory =>
    intro term list hlist
    rw [hsame.dictionary] at hlist
    exact hmemory term list hlist

/-- **The encoding of the inverted index is lossless**, in whatever order its maps are written. -/
theorem restored_of_run (calls : List Call)
    (hfew : ∀ docId content, .indexDocument docId content ∈ calls →
      content.length < 2 ^ 64
        ∧ ∀ term, (positionsOf (tokenizer.tokenize content) term).length < 2 ^ 32)
    (hwritten : SameMaps index (run tokenizer {} calls))
    (hmemory : ∀ term list, (run tokenizer {} calls).dictionary.lookup term = some list →
      memory.Holds list)
    (hfits : index.serialize.length < 2 ^ 64) :
    ∃ queryTokenizer restored, deserialize memory index.serialize = .ok (queryTokenizer, restored)
      ∧ SameMaps restored (run tokenizer {} calls) := by
  have htracked := tracked_of_run calls hfew
  obtain ⟨restored, hrestored, hsame⟩ :=
    deserialize_serialize (htracked.encodable hwritten hmemory) hfits
  refine ⟨.new, restored, hrestored, ?_⟩
  constructor
  case docLengths => exact fun docId => (hsame.docLengths docId).trans (hwritten.docLengths docId)
  case totalTokens => exact hsame.totalTokens.trans hwritten.totalTokens
  case dictionary => exact fun term => (hsame.dictionary term).trans (hwritten.dictionary term)

/-- What one document leaves when another one is removed. -/
theorem restored_of_run_removed :
    let index := run .new {} [.indexDocument 9 [98, 98, 32, 99, 99], .indexDocument 4 [98, 98],
      .removeDocument 9]
    ∃ queryTokenizer restored,
      deserialize ⟨fun _ => true, fun _ => true⟩ index.serialize = .ok (queryTokenizer, restored)
        ∧ SameMaps restored index := by
  intro index
  apply restored_of_run
  case hfew =>
    intro docId content hcall
    have hshort : content.length ≤ 5 := by
      simp only [List.mem_cons, Call.indexDocument.injEq, reduceCtorEq, List.not_mem_nil, or_false]
        at hcall
      rcases hcall with ⟨-, rfl⟩ | ⟨-, rfl⟩
      all_goals decide
    refine ⟨by omega, fun term => ?_⟩
    have hpositions := length_positionsOf_le (Tokenizer.new.tokenize content) term
    have htokens := Tokenizer.new.length_tokenize_le content
    omega
  case hwritten => exact ⟨fun _ => rfl, rfl, fun _ => rfl⟩
  case hmemory => exact fun _ _ _ => ⟨rfl, fun _ _ => rfl⟩
  case hfits => decide +kernel

end InvertedIndex

end NebulaFS
