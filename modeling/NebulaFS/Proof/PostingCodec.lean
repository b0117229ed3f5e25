import Mathlib.Data.List.Induction
import NebulaFS.IndexCodec
import NebulaFS.Proof.VarIntLemmas
import NebulaFS.Proof.PostingLists

/-!
# Posting lists that travel

The differences are taken and undone in the same width, so that their order does not matter. The decoder
reads as many positions as the term frequency says, which is 32 bits wide: a list comes back if the
frequencies are the true numbers of positions.
-/

namespace NebulaFS

open Cursor

/-- There is memory for the list and for the positions of each of its postings. -/
structure PostingMemory.Holds (memory : PostingMemory) (list : PostingList) : Prop where
  postings : memory.postings list.postings.length = true
  positions : ∀ p ∈ list.postings, memory.positions p.positions.length = true

namespace PostingList

variable {bytes rest : Bytes} {offset : Nat} {memory : PostingMemory} {list : PostingList}
  {postings : List Posting}

/-! ### Differences -/

def positionDeltas : (prevPos : UInt32) → List UInt32 → List UInt64
  | _, [] => []
  | prevPos, pos :: positions => (pos - prevPos).toUInt64 :: positionDeltas pos positions

def docIdDeltas : (prevDocId : UInt64) → List Posting → List Posting
  | _, [] => []
  | prevDocId, p :: postings => { p with docId := p.docId - prevDocId } :: docIdDeltas p.docId postings

/-- A posting as it is written, with the difference as its id. -/
def serializePosting (p : Posting) : Bytes :=
  VarInt.encode p.docId ++ (VarInt.encode p.termFrequency.toUInt64 ++ serializePositions 0 p.positions)

theorem serializePositions_eq (prevPos : UInt32) (positions : List UInt32) :
    serializePositions prevPos positions = (positionDeltas prevPos positions).flatMap VarInt.encode := by
  induction positions generalizing prevPos with
  | nil => rfl
  | cons pos positions ih => rw [serializePositions, positionDeltas, List.flatMap_cons, ih]

theorem length_positionDeltas (prevPos : UInt32) (positions : List UInt32) :
    (positionDeltas prevPos positions).length = positions.length := by
  induction positions generalizing prevPos with
  | nil => rfl
  | cons pos positions ih => rw [positionDeltas, List.length_cons, List.length_cons, ih]

theorem sumPositions_positionDeltas (prevPos : UInt32) (positions : List UInt32) :
    sumPositions prevPos (positionDeltas prevPos positions) = positions := by
  induction positions generalizing prevPos with
  | nil => rfl
  | cons pos positions ih =>
      have hpos : prevPos + (pos - prevPos).toUInt64.toUInt32 = pos := by
        rw [UInt32.toUInt32_toUInt64, UInt32.add_comm, UInt32.sub_add_cancel]
      rw [positionDeltas, sumPositions, hpos, ih]

theorem serializePostings_eq (prevDocId : UInt64) (postings : List Posting) :
    serializePostings prevDocId postings
      = (docIdDeltas prevDocId postings).flatMap serializePosting := by
  induction postings generalizing prevDocId with
  | nil => rfl
  | cons p postings ih =>
      rw [serializePostings, docIdDeltas, List.flatMap_cons, ih, serializePosting]
      simp only [List.append_assoc]

theorem length_docIdDeltas (prevDocId : UInt64) (postings : List Posting) :
    (docIdDeltas prevDocId postings).length = postings.length := by
  induction postings generalizing prevDocId with
  | nil => rfl
  | cons p postings ih => rw [docIdDeltas, List.length_cons, List.length_cons, ih]

theorem sumDocIds_docIdDeltas (prevDocId : UInt64) (postings : List Posting) :
    sumDocIds prevDocId (docIdDeltas prevDocId postings) = postings := by
  induction postings generalizing prevDocId with
  | nil => rfl
  | cons p postings ih =>
      have hdocId : prevDocId + (p.docId - prevDocId) = p.docId := by
        rw [UInt64.add_comm, UInt64.sub_add_cancel]
      rw [docIdDeltas, sumDocIds, hdocId, ih]

/-- Of a posting the differences change nothing but the id. -/
theorem exists_of_mem_docIdDeltas {prevDocId : UInt64} {p : Posting}
    (h : p ∈ docIdDeltas prevDocId postings) :
    ∃ old ∈ postings, p.termFrequency = old.termFrequency ∧ p.positions = old.positions := by
  induction postings generalizing prevDocId with
  | nil => cases h
  | cons head postings ih =>
      rcases List.mem_cons.mp h with rfl | hmem
      · exact ⟨head, List.mem_cons_self, rfl, rfl⟩
      · obtain ⟨old, hold, hsame⟩ := ih hmem
        exact ⟨old, List.mem_cons_of_mem _ hold, hsame⟩

/-! ### Reading back -/

/-- The frequencies and the total of the list are those of its positions and its postings. -/
structure Whole (list : PostingList) : Prop where
  termFrequency : ∀ p ∈ list.postings, p.termFrequency.toNat = p.positions.length
  foldl_addPosting : list.postings.foldl addPosting {} = list

theorem Counted.whole (h : list.Counted)
    (hfew : ∀ p ∈ list.postings, p.positions.length < 2 ^ 32) : list.Whole := by
  constructor
  case termFrequency =>
    intro p hmem
    rw [h.termFrequency p hmem, UInt32.toNat_ofNat_of_lt' (hfew p hmem)]
  case foldl_addPosting =>
    have hpostings := postings_foldl_addPosting {} list.postings
    rw [List.nil_append] at hpostings
    have hcounted := counted_empty.foldl_addPosting
      fun p hmem => ⟨h.termFrequency p hmem, hfew p hmem⟩
    have htotal := hcounted.totalTf
    rw [hpostings, ← h.totalTf] at htotal
    cases hrebuilt : list.postings.foldl addPosting {} with
    | mk postings totalTf =>
        rw [hrebuilt] at hpostings htotal
        cases list
        simp only at hpostings htotal
        rw [hpostings, htotal]

theorem readPosting_of_remaining {p : Posting} (hcount : p.termFrequency.toNat = p.positions.length)
    (hmemory : memory.positions p.positions.length = true)
    (h : Remaining bytes offset (serializePosting p ++ rest)) :
    readPosting memory bytes offset = .ok (p, offset + (serializePosting p).length) := by
  simp only [serializePosting, serializePositions_eq, List.append_assoc] at h
  have h1 := h.advance
  have h2 := h1.advance
  have hread : ∀ delta ∈ positionDeltas 0 p.positions, ∀ pos rest,
      Remaining bytes pos (VarInt.encode delta ++ rest) →
      readNext noIndex bytes pos = .ok (id delta, pos + (VarInt.encode delta).length) :=
    fun delta _ pos rest h => readNext_of_remaining noIndex h
  have hloop := readMany_flatMap hread h2
  rw [List.map_id, length_positionDeltas] at hloop
  rw [readPosting, readNext_of_remaining _ h]
  simp only [bind, Except.bind]
  rw [readNext_of_remaining _ h1]
  simp only [UInt32.toUInt32_toUInt64]
  rw [hcount, require_of_true hmemory]
  simp only
  rw [hloop]
  simp only [pure, Except.pure, sumPositions_positionDeltas, serializePosting,
    serializePositions_eq, List.length_append]
  congr 2
  omega

theorem length_postings_le (list : PostingList) :
    list.postings.length + 1 ≤ list.serialize.length := by
  have hleast : (docIdDeltas 0 list.postings).length * 1
      ≤ ((docIdDeltas 0 list.postings).flatMap serializePosting).length := by
    apply length_mul_le_length_flatMap
    intro p _
    have hpos := VarInt.length_encode_pos p.docId
    rw [serializePosting, List.length_append]
    omega
  have hcount := VarInt.length_encode_pos (UInt64.ofNat list.postings.length)
  rw [length_docIdDeltas] at hleast
  rw [serialize, serializePostings_eq, List.length_append]
  omega

theorem deserialize_serialize (hwhole : list.Whole) (hmemory : memory.Holds list)
    (hfits : list.serialize.length < 2 ^ 64) : deserialize memory list.serialize = .ok list := by
  have hlength := length_postings_le list
  have hcount : (UInt64.ofNat list.postings.length).toNat = list.postings.length :=
    toNat_ofNat_of_lt (by omega)
  have hne : list.serialize ≠ [] := List.ne_nil_of_length_pos (by omega)
  have h := remaining_start list.serialize
  nth_rewrite 2 [serialize] at h
  rw [serializePostings_eq] at h
  have h1 := h.advance
  rw [← List.append_nil (List.flatMap _ _)] at h1
  have hread : ∀ p ∈ docIdDeltas 0 list.postings, ∀ pos rest,
      Remaining list.serialize pos (serializePosting p ++ rest) →
      readPosting memory list.serialize pos = .ok (id p, pos + (serializePosting p).length) := by
    intro p hmem pos rest h
    obtain ⟨old, hold, hfrequency, hpositions⟩ := exists_of_mem_docIdDeltas hmem
    have hcounts := hwhole.termFrequency old hold
    have hpositionsMemory := hmemory.positions old hold
    rw [← hfrequency, ← hpositions] at hcounts
    rw [← hpositions] at hpositionsMemory
    exact readPosting_of_remaining hcounts hpositionsMemory h
  have hloop := readMany_flatMap hread h1
  rw [List.map_id, length_docIdDeltas] at hloop
  rw [deserialize, if_neg hne, readVarInt_of_remaining _ h]
  simp only [bind, Except.bind]
  rw [hcount, require_of_true hmemory.postings]
  simp only
  rw [hloop]
  simp only [pure, Except.pure, sumDocIds_docIdDeltas, hwhole.foldl_addPosting]

/-! ### Lists built by occurrences -/

/-- The list that these calls of `addOccurrence` build. -/
def ofOccurrences (occurrences : List (UInt64 × UInt32)) : PostingList :=
  occurrences.foldl (fun list occurrence => list.addOccurrence occurrence.1 occurrence.2) {}

/-- How many of the occurrences are in the document. -/
def occurrencesIn (occurrences : List (UInt64 × UInt32)) (docId : UInt64) : Nat :=
  occurrences.countP fun occurrence => occurrence.1 = docId

theorem ofOccurrences_append (occurrences : List (UInt64 × UInt32)) (docId : UInt64)
    (position : UInt32) :
    ofOccurrences (occurrences ++ [(docId, position)])
      = (ofOccurrences occurrences).addOccurrence docId position := by
  rw [ofOccurrences, List.foldl_append]
  rfl

theorem occurrencesIn_append (occurrences : List (UInt64 × UInt32)) (docId : UInt64)
    (position : UInt32) (other : UInt64) :
    occurrencesIn (occurrences ++ [(docId, position)]) other
      = occurrencesIn occurrences other + if other = docId then 1 else 0 := by
  rw [occurrencesIn, List.countP_append, List.countP_singleton, occurrencesIn]
  exact congrArg _ (if_congr (decide_eq_true_iff.trans eq_comm) rfl rfl)

/-- What the calls keep: one posting a document, with as many positions as the document has
occurrences. -/
structure Built (occurrences : List (UInt64 × UInt32)) (list : PostingList) : Prop where
  distinct : list.Distinct
  counted : list.Counted
  length_positions : ∀ p ∈ list.postings, p.positions.length = occurrencesIn occurrences p.docId
  docId_mem : ∀ docId, occurrencesIn occurrences docId ≠ 0 → docId ∈ list.postings.map Posting.docId

theorem Built.addOccurrence {occurrences : List (UInt64 × UInt32)} (h : Built occurrences list)
    (docId : UInt64) (position : UInt32) :
    Built (occurrences ++ [(docId, position)]) (list.addOccurrence docId position) := by
  constructor
  case distinct => exact h.distinct.addOccurrence docId position
  case counted => exact h.counted.addOccurrence h.distinct docId position
  case length_positions =>
    intro p hmem
    have hfind := (findDoc_eq_some_iff (h.distinct.addOccurrence docId position)).mpr ⟨hmem, rfl⟩
    rw [findDoc_addOccurrence h.distinct] at hfind
    rw [occurrencesIn_append]
    split at hfind
    · rename_i hdoc
      rw [if_pos hdoc]
      cases hold : list.findDoc docId with
      | none =>
          have hnone : occurrencesIn occurrences docId = 0 := by
            by_contra hne
            exact findDoc_eq_none_iff.mp hold (h.docId_mem docId hne)
          rw [hold] at hfind
          cases hfind
          show 1 = occurrencesIn occurrences docId + 1
          rw [hnone]
      | some old =>
          obtain ⟨hmem', hid⟩ := (findDoc_eq_some_iff h.distinct).mp hold
          rw [hold] at hfind
          cases hfind
          rw [hdoc, ← hid, ← h.length_positions old hmem']
          exact List.length_append
    · rename_i hdoc
      rw [if_neg hdoc]
      exact h.length_positions p ((findDoc_eq_some_iff h.distinct).mp hfind).1
  case docId_mem =>
    intro other hne
    rw [occurrencesIn_append] at hne
    by_contra habsent
    rw [← findDoc_eq_none_iff, findDoc_addOccurrence h.distinct] at habsent
    split at habsent
    · cases habsent
    · rename_i hother
      rw [if_neg hother] at hne
      exact findDoc_eq_none_iff.mp habsent (h.docId_mem other hne)

theorem built_ofOccurrences (occurrences : List (UInt64 × UInt32)) :
    Built occurrences (ofOccurrences occurrences) := by
  induction occurrences using List.reverseRecOn with
  | nil =>
      constructor
      case distinct => exact distinct_empty
      case counted => exact counted_empty
      case length_positions => exact fun p hmem => absurd hmem List.not_mem_nil
      case docId_mem => exact fun docId hne => absurd rfl hne
  | append_singleton occurrences occurrence ih =>
      rw [ofOccurrences_append]
      exact ih.addOccurrence occurrence.1 occurrence.2

/-- **A posting list that was encoded and decoded is the same list**, in whatever order its documents and
positions came. -/
theorem restored_of_occurrences (occurrences : List (UInt64 × UInt32))
    (hfew : ∀ docId, occurrencesIn occurrences docId < 2 ^ 32) (memory : PostingMemory)
    (hmemory : memory.Holds (ofOccurrences occurrences))
    (hfits : (ofOccurrences occurrences).serialize.length < 2 ^ 64) :
    deserialize memory (ofOccurrences occurrences).serialize = .ok (ofOccurrences occurrences) := by
  have hbuilt := built_ofOccurrences occurrences
  refine deserialize_serialize (hbuilt.counted.whole ?_) hmemory hfits
  intro p hmem
  rw [hbuilt.length_positions p hmem]
  exact hfew p.docId

/-- The second document has the smaller id, and its positions go down. -/
theorem restored_of_occurrences_unordered :
    let list := ofOccurrences [(9, 4), (2, 7), (2, 3), (9, 6)]
    (deserialize ⟨fun n => n ≤ 2, fun n => n ≤ 2⟩ list.serialize = .ok list)
      ∧ list.postings = [⟨9, 2, [4, 6]⟩, ⟨2, 2, [7, 3]⟩] := by
  intro list
  have hfew : ∀ docId, occurrencesIn [(9, 4), (2, 7), (2, 3), (9, 6)] docId < 2 ^ 32 :=
    fun docId => lt_of_le_of_lt List.countP_le_length (by decide)
  have hmemory : (PostingMemory.mk (fun n => n ≤ 2) fun n => n ≤ 2).Holds list :=
    ⟨by decide, by decide⟩
  exact ⟨restored_of_occurrences _ hfew _ hmemory (by decide), by decide⟩

end PostingList

end NebulaFS
