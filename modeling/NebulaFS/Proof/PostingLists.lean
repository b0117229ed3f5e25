import Mathlib.Algebra.Order.Ring.Nat
import NebulaFS.InvertedIndex

/-!
# Posting lists

A list that has one posting for each document is read by `findDoc`, and `addOccurrence` changes what
it says of one document only (`findDoc_addOccurrence`). The same holds one level up of the dictionary
(`postingAt_addToken`).
-/

namespace NebulaFS

/-- The posting of a document after one more occurrence. -/
def Posting.after (docId : UInt64) (old : Option Posting) (position : UInt32) : Posting :=
  match old with
  | some posting => posting.occur position
  | none => { docId := docId, termFrequency := 1, positions := [position] }

namespace PostingList

variable {list : PostingList} {postings : List Posting} {docId : UInt64} {position : UInt32}

/-- No document has two postings. -/
def Distinct (list : PostingList) : Prop := (list.postings.map Posting.docId).Nodup

/-- The frequencies count the positions. -/
structure Counted (list : PostingList) : Prop where
  termFrequency : ∀ posting ∈ list.postings,
    posting.termFrequency = UInt32.ofNat posting.positions.length
  totalTf : list.totalTf
    = UInt64.ofNat (list.postings.map fun posting => posting.positions.length).sum

/-! ### What `addOccurrence` does -/

theorem modify_eq_map (hnodup : (postings.map Posting.docId).Nodup) {i : Nat} {posting : Posting}
    (hi : postings[i]? = some posting) (change : Posting → Posting) :
    postings.modify i change
      = postings.map fun other => if other.docId = posting.docId then change other else other := by
  apply List.ext_getElem?
  intro j
  rw [List.getElem?_modify, List.getElem?_map]
  cases hj : postings[j]? with
  | none => simp
  | some other =>
      have hlt : i < (postings.map Posting.docId).length := by
        rw [List.length_map]
        exact (List.getElem?_eq_some_iff.mp hi).1
      have hsame : i = j ↔ other.docId = posting.docId := by
        rw [← List.getElem?_inj hlt hnodup, List.getElem?_map, List.getElem?_map, hi, hj]
        exact ⟨fun heq => (Option.some.inj heq).symm, fun heq => congrArg some heq.symm⟩
      simp [hsame]

theorem postings_addOccurrence_of_mem (hdistinct : list.Distinct)
    (h : docId ∈ list.postings.map Posting.docId) :
    (list.addOccurrence docId position).postings
      = list.postings.map fun posting =>
          if posting.docId = docId then posting.occur position else posting := by
  obtain ⟨found, hfound, hid⟩ := List.mem_map.mp h
  rw [addOccurrence]
  split
  · rename_i hlast
    obtain ⟨last, hlast, hid⟩ := (Option.any_eq_true _ _).mp hlast
    rw [List.getLast?_eq_getElem?] at hlast
    rw [← of_decide_eq_true hid]
    exact modify_eq_map hdistinct hlast _
  · have hexists : ∃ posting ∈ list.postings, decide (posting.docId = docId) = true :=
      ⟨found, hfound, decide_eq_true hid⟩
    rw [if_pos (List.any_eq_true.mpr hexists)]
    have hindex := List.findIdx_lt_length_of_exists hexists
    have hdoc := of_decide_eq_true (List.findIdx_getElem (w := hindex))
    simp only
    conv_rhs => rw [← hdoc]
    exact modify_eq_map hdistinct (List.getElem?_eq_getElem hindex) _

theorem postings_addOccurrence_of_not_mem (h : docId ∉ list.postings.map Posting.docId) :
    (list.addOccurrence docId position).postings
      = list.postings ++ [Posting.after docId none position] := by
  have hother : ∀ posting ∈ list.postings, posting.docId ≠ docId :=
    fun posting hmem heq => h (List.mem_map.mpr ⟨posting, hmem, heq⟩)
  rw [addOccurrence, if_neg, if_neg]
  · rfl
  · intro hany
    obtain ⟨posting, hmem, hid⟩ := List.any_eq_true.mp hany
    exact hother posting hmem (of_decide_eq_true hid)
  · intro hany
    obtain ⟨posting, hlast, hid⟩ := (Option.any_eq_true _ _).mp hany
    exact hother posting (List.mem_of_getLast? hlast) (of_decide_eq_true hid)

theorem totalTf_addOccurrence (list : PostingList) (docId : UInt64) (position : UInt32) :
    (list.addOccurrence docId position).totalTf = list.totalTf + 1 := by
  rw [addOccurrence]
  split
  · rfl
  · split <;> rfl

theorem findDoc_eq_none_iff : list.findDoc docId = none ↔ docId ∉ list.postings.map Posting.docId := by
  simp [findDoc, List.find?_eq_none]

theorem findDoc_eq_some_iff (hdistinct : list.Distinct) {posting : Posting} :
    list.findDoc docId = some posting ↔ posting ∈ list.postings ∧ posting.docId = docId := by
  have hfound : ∀ found, list.findDoc docId = some found →
      found ∈ list.postings ∧ found.docId = docId := by
    intro found hfind
    rw [findDoc] at hfind
    have hid := List.find?_some hfind
    exact ⟨List.mem_of_find?_eq_some hfind, of_decide_eq_true hid⟩
  refine ⟨hfound posting, ?_⟩
  rintro ⟨hmem, hid⟩
  cases hfind : list.findDoc docId with
  | none => exact absurd (hid ▸ List.mem_map_of_mem hmem) (findDoc_eq_none_iff.mp hfind)
  | some found =>
      obtain ⟨hmem', hid'⟩ := hfound found hfind
      rw [List.inj_on_of_nodup_map hdistinct hmem' hmem (hid'.trans hid.symm)]

/-- An occurrence adds to what the list says of its document. -/
theorem findDoc_addOccurrence (hdistinct : list.Distinct) (docId : UInt64) (position : UInt32)
    (other : UInt64) :
    (list.addOccurrence docId position).findDoc other
      = if other = docId then some (Posting.after docId (list.findDoc docId) position)
        else list.findDoc other := by
  by_cases h : docId ∈ list.postings.map Posting.docId
  · have hsame : ((fun posting : Posting => decide (posting.docId = other)) ∘ fun posting =>
        if posting.docId = docId then posting.occur position else posting)
        = fun posting => decide (posting.docId = other) := by
      funext posting
      simp only [Function.comp_apply]
      split <;> rfl
    rw [findDoc, postings_addOccurrence_of_mem hdistinct h, List.find?_map, hsame]
    show (list.findDoc other).map _ = _
    split
    · rename_i heq
      subst heq
      cases hfind : list.findDoc other with
      | none => exact absurd h (findDoc_eq_none_iff.mp hfind)
      | some posting =>
          rw [Option.map_some, if_pos ((findDoc_eq_some_iff hdistinct).mp hfind).2]
          rfl
    · rename_i hne
      cases hfind : list.findDoc other with
      | none => rfl
      | some posting =>
          have hid := ((findDoc_eq_some_iff hdistinct).mp hfind).2
          rw [Option.map_some, if_neg (fun heq => hne (hid.symm.trans heq))]
  · rw [findDoc, postings_addOccurrence_of_not_mem h, List.find?_append]
    show (list.findDoc other).or _ = _
    split
    · rename_i heq
      subst heq
      rw [findDoc_eq_none_iff.mpr h, Option.none_or]
      exact List.find?_cons_of_pos (decide_eq_true rfl)
    · rename_i hne
      rw [List.find?_cons_of_neg (fun heq => hne (of_decide_eq_true heq).symm), List.find?_nil,
        Option.or_none]

theorem Distinct.addOccurrence (h : list.Distinct) (docId : UInt64) (position : UInt32) :
    (list.addOccurrence docId position).Distinct := by
  by_cases hmem : docId ∈ list.postings.map Posting.docId
  · have hsame : (Posting.docId ∘ fun posting : Posting =>
        if posting.docId = docId then posting.occur position else posting) = Posting.docId := by
      funext posting
      simp only [Function.comp_apply]
      split <;> rfl
    rw [Distinct, postings_addOccurrence_of_mem h hmem, List.map_map, hsame]
    exact h
  · rw [Distinct, postings_addOccurrence_of_not_mem hmem, List.map_append]
    refine List.Nodup.append h (List.nodup_singleton _) ?_
    intro other hother hnew
    rw [List.mem_singleton.mp hnew] at hother
    exact hmem hother

theorem addOccurrence_ne_nil (h : list.Distinct) (docId : UInt64) (position : UInt32) :
    (list.addOccurrence docId position).postings ≠ [] := by
  intro hnil
  have hfind := findDoc_addOccurrence h docId position docId
  rw [if_pos rfl, findDoc, hnil] at hfind
  cases hfind

theorem sum_positions_occur (position : UInt32) (hnodup : (postings.map Posting.docId).Nodup)
    (h : docId ∈ postings.map Posting.docId) :
    (postings.map fun posting =>
        (if posting.docId = docId then posting.occur position else posting).positions.length).sum
      = (postings.map fun posting => posting.positions.length).sum + 1 := by
  induction postings with
  | nil => cases h
  | cons head rest ih =>
      rw [List.map_cons, List.nodup_cons] at hnodup
      rw [List.map_cons, List.map_cons, List.sum_cons, List.sum_cons]
      by_cases hhead : head.docId = docId
      · have hrest : (rest.map fun posting =>
            (if posting.docId = docId then posting.occur position else posting).positions.length)
            = rest.map fun posting => posting.positions.length := by
          apply List.map_congr_left
          intro posting hmem
          rw [if_neg]
          intro hid
          exact hnodup.1 (hhead ▸ hid ▸ List.mem_map_of_mem hmem)
        rw [if_pos hhead, hrest, Posting.occur, List.length_append, List.length_singleton]
        omega
      · have hmem : docId ∈ rest.map Posting.docId :=
          (List.mem_cons.mp h).resolve_left (Ne.symm hhead)
        rw [if_neg hhead, ih hnodup.2 hmem, Nat.add_assoc]

theorem Counted.addOccurrence (h : list.Counted) (hdistinct : list.Distinct) (docId : UInt64)
    (position : UInt32) : (list.addOccurrence docId position).Counted := by
  by_cases hmem : docId ∈ list.postings.map Posting.docId
  · constructor
    case termFrequency =>
      rw [postings_addOccurrence_of_mem hdistinct hmem]
      intro posting hposting
      obtain ⟨old, hold, rfl⟩ := List.mem_map.mp hposting
      split
      · rw [Posting.occur, h.termFrequency old hold, List.length_append, List.length_singleton,
          UInt32.ofNat_add]
        rfl
      · exact h.termFrequency old hold
    case totalTf =>
      rw [totalTf_addOccurrence, h.totalTf, postings_addOccurrence_of_mem hdistinct hmem,
        List.map_map]
      have hsum := sum_positions_occur position hdistinct hmem
      exact (UInt64.ofNat_add _ 1).symm.trans (congrArg UInt64.ofNat hsum.symm)
  · constructor
    case termFrequency =>
      rw [postings_addOccurrence_of_not_mem hmem]
      intro posting hposting
      rcases List.mem_append.mp hposting with hold | hnew
      · exact h.termFrequency posting hold
      · rw [List.mem_singleton.mp hnew]
        rfl
    case totalTf =>
      rw [totalTf_addOccurrence, h.totalTf, postings_addOccurrence_of_not_mem hmem, List.map_append,
        List.sum_append]
      exact (UInt64.ofNat_add _ 1).symm

/-! ### Lists put together again -/

theorem postings_foldl_addPosting (list : PostingList) (postings : List Posting) :
    (postings.foldl addPosting list).postings = list.postings ++ postings := by
  induction postings generalizing list with
  | nil => exact (List.append_nil _).symm
  | cons posting postings ih =>
      rw [List.foldl_cons, ih, addPosting, List.append_assoc]
      rfl

theorem Counted.foldl_addPosting (h : list.Counted)
    (hcounted : ∀ posting ∈ postings, posting.termFrequency = UInt32.ofNat posting.positions.length
      ∧ posting.positions.length < 2 ^ 32) :
    (postings.foldl addPosting list).Counted := by
  induction postings generalizing list with
  | nil => exact h
  | cons posting postings ih =>
      obtain ⟨hfrequency, hlength⟩ := hcounted posting List.mem_cons_self
      refine ih ?_ fun other hmem => hcounted other (List.mem_cons_of_mem _ hmem)
      constructor
      case termFrequency =>
        intro other hother
        rcases List.mem_append.mp hother with hold | hnew
        · exact h.termFrequency other hold
        · rw [List.mem_singleton.mp hnew]
          exact hfrequency
      case totalTf =>
        have hword : (UInt32.ofNat posting.positions.length).toUInt64
            = UInt64.ofNat posting.positions.length := by
          rw [← UInt64.toNat_inj, UInt32.toNat_toUInt64, UInt32.toNat_ofNat_of_lt' hlength,
            UInt64.toNat_ofNat_of_lt' (hlength.trans (by decide))]
        rw [addPosting, h.totalTf, hfrequency, hword, List.map_append, List.sum_append,
          UInt64.ofNat_add]
        rfl

theorem distinct_empty : Distinct {} := List.nodup_nil

theorem counted_empty : Counted {} :=
  ⟨fun _ hmem => absurd hmem List.not_mem_nil, rfl⟩

end PostingList

namespace InvertedIndex

open PostingList

variable {list : PostingList} {docId : UInt64} {term : Bytes}

theorem withoutDocument_eq_none_iff :
    withoutDocument docId list = none ↔ ∀ posting ∈ list.postings, posting.docId = docId := by
  rw [withoutDocument, ite_eq_left_iff, docFrequency, postings_foldl_addPosting]
  simp

theorem postings_withoutDocument {rest : PostingList} (h : withoutDocument docId list = some rest) :
    rest.postings = list.postings.filter (fun posting => posting.docId ≠ docId)
      ∧ rest.postings ≠ [] := by
  rw [withoutDocument] at h
  split at h
  · cases h
  · rename_i hfrequency
    cases h
    refine ⟨(postings_foldl_addPosting _ _).trans (List.nil_append _), ?_⟩
    intro hnil
    rw [docFrequency, hnil] at hfrequency
    exact hfrequency rfl

theorem findDoc_withoutDocument (list : PostingList) (docId other : UInt64) :
    ((withoutDocument docId list).bind fun rest => rest.findDoc other)
      = if other = docId then none else list.findDoc other := by
  cases hrest : withoutDocument docId list with
  | none =>
      have hall := withoutDocument_eq_none_iff.mp hrest
      rw [Option.bind_none]
      split
      · rfl
      · rename_i hne
        symm
        apply findDoc_eq_none_iff.mpr
        intro hmem
        obtain ⟨posting, hposting, hid⟩ := List.mem_map.mp hmem
        exact hne (hid.symm.trans (hall posting hposting))
  | some rest =>
      rw [Option.bind_some, findDoc, (postings_withoutDocument hrest).1, List.find?_filter, findDoc]
      split
      · rename_i heq
        apply List.find?_eq_none.mpr
        intro posting _
        simp [heq]
      · rename_i hne
        congr 1
        funext posting
        simp only [decide_eq_true_eq]
        apply decide_eq_decide.mpr
        constructor
        · exact fun h => h.2
        · intro h
          exact ⟨h ▸ hne, h⟩

theorem distinct_withoutDocument {rest : PostingList} (hdistinct : list.Distinct)
    (h : withoutDocument docId list = some rest) : rest.Distinct := by
  rw [Distinct, (postings_withoutDocument h).1]
  exact List.Nodup.sublist (List.filter_sublist.map _) hdistinct

theorem counted_withoutDocument {rest : PostingList} (hcounted : list.Counted)
    (hlengths : ∀ posting ∈ list.postings, posting.positions.length < 2 ^ 32)
    (h : withoutDocument docId list = some rest) : rest.Counted := by
  rw [withoutDocument] at h
  split at h
  · cases h
  · cases h
    apply Counted.foldl_addPosting counted_empty
    intro posting hmem
    have hposting := List.mem_of_mem_filter hmem
    exact ⟨hcounted.termFrequency posting hposting, hlengths posting hposting⟩

/-! ### The dictionary -/

/-- What the dictionary says of a document under a term. -/
def postingAt (dictionary : UnorderedMap Bytes PostingList) (docId : UInt64) (term : Bytes) :
    Option Posting :=
  (dictionary.lookup term).bind fun list => list.findDoc docId

/-- All posting lists of the dictionary are such. -/
def Lists (P : PostingList → Prop) (dictionary : UnorderedMap Bytes PostingList) : Prop :=
  ∀ term list, dictionary.lookup term = some list → P list

variable {dictionary : UnorderedMap Bytes PostingList} {P : PostingList → Prop}

theorem lists_empty : Lists P (∅ : UnorderedMap Bytes PostingList) := by
  intro term list hlookup
  rw [AList.lookup_empty] at hlookup
  cases hlookup

theorem Lists.getD (h : Lists P dictionary) (hempty : P {}) (term : Bytes) :
    P ((dictionary.lookup term).getD {}) := by
  cases hlookup : dictionary.lookup term with
  | none => exact hempty
  | some list => exact h term list hlookup

theorem Lists.addToken (h : Lists P dictionary) (docId : UInt64) (tok : Token)
    (hadd : P (((dictionary.lookup tok.term).getD {}).addOccurrence docId tok.position)) :
    Lists P (addToken docId dictionary tok) := by
  intro term list hlookup
  by_cases hterm : term = tok.term
  · rw [hterm, InvertedIndex.addToken, AList.lookup_insert] at hlookup
    cases hlookup
    exact hadd
  · rw [InvertedIndex.addToken, AList.lookup_insert_ne hterm] at hlookup
    exact h term list hlookup

theorem Lists.removeDocument (h : Lists P dictionary)
    (hrest : ∀ list rest, P list → withoutDocument docId list = some rest → P rest) :
    Lists P (dictionary.filterMapValues fun _ => withoutDocument docId) := by
  intro term rest hlookup
  rw [AList.lookup_filterMapValues, Option.bind_eq_some_iff] at hlookup
  obtain ⟨list, hlist, hkept⟩ := hlookup
  exact hrest list rest (h term list hlist) hkept

theorem postingAt_addToken (h : Lists Distinct dictionary) (docId : UInt64) (tok : Token)
    (other : UInt64) (term : Bytes) :
    postingAt (addToken docId dictionary tok) other term
      = if other = docId ∧ term = tok.term then
          some (Posting.after docId (postingAt dictionary docId term) tok.position)
        else postingAt dictionary other term := by
  by_cases hterm : term = tok.term
  · subst hterm
    have hold : ∀ id, postingAt dictionary id tok.term
        = ((dictionary.lookup tok.term).getD {}).findDoc id := by
      intro id
      rw [postingAt]
      cases dictionary.lookup tok.term <;> rfl
    rw [postingAt, addToken, AList.lookup_insert, Option.bind_some,
      findDoc_addOccurrence (h.getD distinct_empty tok.term), hold, hold]
    exact if_congr (and_iff_left rfl).symm rfl rfl
  · rw [if_neg fun hboth => hterm hboth.2, postingAt, addToken, AList.lookup_insert_ne hterm]
    rfl

theorem postingAt_removeDocument (dictionary : UnorderedMap Bytes PostingList)
    (docId other : UInt64) (term : Bytes) :
    postingAt (dictionary.filterMapValues fun _ => withoutDocument docId) other term
      = if other = docId then none else postingAt dictionary other term := by
  rw [postingAt, postingAt, AList.lookup_filterMapValues]
  cases dictionary.lookup term with
  | none =>
      rw [Option.bind_none, Option.bind_none, ite_self]
  | some list => exact findDoc_withoutDocument list docId other

end InvertedIndex

end NebulaFS
