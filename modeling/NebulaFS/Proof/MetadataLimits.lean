import Mathlib.Data.List.TakeWhile
import NebulaFS.Lib.Association
import NebulaFS.Proof.MetadataPrefix

/-!
# Metadata that the reader refuses

The writer stores keys and values of any length and the reader takes them up to its limits. Read back
on its own, a section gives the entries before the first one that is too long
(`parse_serialize_of_fits`); only when that is the first of all is there an error
(`parse_serialize_of_not_fits`).
-/

namespace NebulaFS

open Cursor

namespace MetadataStore

variable {entry head : Sigma fun _ : Bytes => Bytes}
  {entries front back : List (Sigma fun _ : Bytes => Bytes)}

/-- The reader takes a key and a value of these lengths. -/
def fits (entry : Sigma fun _ : Bytes => Bytes) : Bool :=
  entry.1.length ≤ MetadataParser.maxKeyLength ∧ entry.2.length ≤ MetadataParser.maxValueLength

/-- Reading the section of the store gives the same map back, or an error. -/
def NeverShortened (store : MetadataStore) : Prop :=
  (∃ found, MetadataParser.parse store.serialize store.serialize.length = .ok found
      ∧ ∀ key, found.getString key = store.getString key)
    ∨ ∃ e, MetadataParser.parse store.serialize store.serialize.length = .error (.returned e)

/-- The store after the entries were set, one after the other. -/
def setAll (entries : List (Sigma fun _ : Bytes => Bytes)) (store : MetadataStore) :
    MetadataStore :=
  entries.foldl (fun store entry => store.set entry.1 entry.2) store

theorem getString_setAll (hnodup : entries.NodupKeys) (store : MetadataStore) (key : Bytes) :
    (setAll entries store).getString key = (entries.dlookup key).or (store.getString key) := by
  have hentries : (setAll entries store).entries
      = entries.foldl (fun map entry => map.insert entry.1 entry.2) store.entries :=
    (List.foldl_hom MetadataStore.entries fun _ _ => rfl).symm
  rw [getString, hentries, AList.lookup_foldl_insert hnodup]
  rfl

theorem getString_setAll_entries (store : MetadataStore) (key : Bytes) :
    (setAll store.entries.entries {}).getString key = store.getString key := by
  rw [getString_setAll store.entries.nodupKeys]
  exact Option.or_none

/-- The first entry left out is missed. -/
theorem getString_setAll_front {store : MetadataStore}
    (h : store.entries.entries = front ++ entry :: back) :
    (setAll front {}).getString entry.1 ≠ store.getString entry.1 := by
  have hnodup : (front ++ entry :: back).NodupKeys := h ▸ store.entries.nodupKeys
  have hfront : front.NodupKeys := hnodup.sublist (List.sublist_append_left _ _)
  have habsent : front.dlookup entry.1 = none := by
    rw [List.NodupKeys, List.keys, List.map_append, List.map_cons] at hnodup
    apply List.dlookup_eq_none.mpr
    intro hmem
    exact (List.nodup_append.mp hnodup).2.2 _ hmem _ (List.mem_cons_self ..) rfl
  have hstored : store.getString entry.1 = some entry.2 := by
    show store.entries.entries.dlookup entry.1 = some entry.2
    rw [h, List.dlookup_append, habsent, Option.none_or]
    exact List.dlookup_cons_eq _ _ _
  rw [getString_setAll hfront, habsent, hstored]
  intro hsome
  cases hsome

end MetadataStore

namespace MetadataParser

open MetadataStore

variable {data rest : Bytes} {offset fuel : Nat} {key value : Bytes}
  {entries : List (Sigma fun _ : Bytes => Bytes)}

theorem length_serializeEntry_pos (key value : Bytes) : 0 < (serializeEntry key value).length := by
  have hpos := VarInt.length_encode_pos (UInt64.ofNat key.length)
  simp only [serializeEntry, List.length_append]
  omega

theorem parseEntry_of_fits (hsize : data.length < 2 ^ 64)
    (h : Remaining data offset (serializeEntry key value ++ rest)) (hfits : fits ⟨key, value⟩ = true) :
    parseEntry data offset = .ok ((key, value), offset + (serializeEntry key value).length) := by
  obtain ⟨hkeyShort, hvalueShort⟩ := of_decide_eq_true hfits
  have hlength := h.length_eq
  have htotal : (serializeEntry key value).length
      = (VarInt.encode (UInt64.ofNat key.length)).length
        + (VarInt.encode (UInt64.ofNat value.length)).length + key.length + value.length := by
    simp only [serializeEntry, List.length_append]
  rw [List.length_append, htotal] at hlength
  have hkey : (UInt64.ofNat key.length).toNat = key.length := toNat_ofNat_of_lt (by omega)
  have hvalue : (UInt64.ofNat value.length).toNat = value.length := toNat_ofNat_of_lt (by omega)
  have hbytes := h.2
  simp only [serializeEntry, List.append_assoc] at hbytes
  have hentry : EntryAt data offset
      ⟨UInt64.ofNat key.length, (VarInt.encode (UInt64.ofNat key.length)).length, true⟩
      ⟨UInt64.ofNat value.length, (VarInt.encode (UInt64.ofNat value.length)).length, true⟩ := by
    constructor
    case key => rw [hbytes, VarInt.decode_encode_append]
    case keyValid => rfl
    case keyShort => exact (Nat.le_of_eq hkey).trans hkeyShort
    case val => rw [hbytes, List.drop_left, VarInt.decode_encode_append]
    case valValid => rfl
    case valShort => exact (Nat.le_of_eq hvalue).trans hvalueShort
    case inside =>
      simp only [hkey, hvalue]
      omega
  rw [hentry.parseEntry]
  refine congrArg Except.ok (Prod.ext (Prod.ext ?_ ?_) ?_)
  all_goals simp only [entryOf, entryEnd, hkey, hvalue]
  · rw [slice, hbytes, ← List.append_assoc, ← List.length_append, List.drop_left, List.take_left]
  · rw [slice, hbytes, ← List.append_assoc, ← List.append_assoc, ← List.length_append,
      ← List.length_append, List.drop_left, List.take_left]
  · rw [htotal]

theorem parseEntry_of_not_fits (hsize : data.length < 2 ^ 64)
    (h : Remaining data offset (serializeEntry key value ++ rest)) (hfits : fits ⟨key, value⟩ = false) :
    ∃ e, parseEntry data offset = .error (.returned e) := by
  rcases parseEntry_cases data h.1 with ⟨entry, next, heq, -⟩ | herror
  · obtain ⟨keyLen, valLen, hentry, -⟩ := entryAt_of_parseEntry heq
    have hlength := h.length_eq
    have hbytes := h.2
    simp only [serializeEntry, List.length_append] at hlength
    simp only [serializeEntry, List.append_assoc] at hbytes
    have hkey := hentry.key
    rw [hbytes, VarInt.decode_encode_append] at hkey
    have hval := hentry.val
    rw [hbytes, ← hkey, List.drop_left, VarInt.decode_encode_append] at hval
    have hkeyShort := hentry.keyShort
    have hvalShort := hentry.valShort
    rw [← hkey, toNat_ofNat_of_lt (by omega)] at hkeyShort
    rw [← hval, toNat_ofNat_of_lt (by omega)] at hvalShort
    exact absurd ⟨hkeyShort, hvalShort⟩ (of_decide_eq_false hfits)
  · exact herror

/-- Unless it starts with an entry that is too long, the loop takes the entries up to that one. -/
theorem parseLoop_of_remaining (hsize : data.length < 2 ^ 64)
    (h : Remaining data offset
      (entries.flatMap fun entry => serializeEntry entry.1 entry.2))
    (hfuel : data.length ≤ offset + fuel)
    (hfirst : offset = 0 → ∀ head ∈ entries.head?, fits head = true) (store : MetadataStore) :
    parseLoop data data.length fuel offset store
      = .ok (setAll (entries.takeWhile fits) store) := by
  have hlength := h.length_eq
  induction fuel generalizing entries offset store with
  | zero =>
      rw [parseLoop, if_pos (by omega)]
      cases entries with
      | nil => rfl
      | cons head entries =>
          have hpos := length_serializeEntry_pos head.1 head.2
          rw [List.flatMap_cons, List.length_append] at hlength
          omega
  | succ fuel ih =>
      rw [parseLoop]
      cases entries with
      | nil =>
          rw [List.flatMap_nil, List.length_nil] at hlength
          rw [if_pos (by omega)]
          rfl
      | cons head entries =>
          have hpos := length_serializeEntry_pos head.1 head.2
          rw [List.flatMap_cons] at h
          rw [List.flatMap_cons, List.length_append] at hlength
          rw [if_neg (by omega)]
          cases hfits : fits head with
          | true =>
              rw [parseEntry_of_fits hsize h hfits, List.takeWhile_cons_of_pos hfits]
              exact ih h.advance (by omega) (fun hzero => by omega) _ (by omega)
          | false =>
              obtain ⟨e, herror⟩ := parseEntry_of_not_fits hsize h hfits
              have hoffset : offset ≠ 0 := by
                intro hzero
                rw [hfirst hzero head rfl] at hfits
                cases hfits
              rw [herror, List.takeWhile_cons_of_neg (by rw [hfits]; exact Bool.false_ne_true)]
              simp only
              rw [if_neg hoffset]
              rfl

end MetadataParser

namespace MetadataStore

open MetadataParser

section

variable {store : MetadataStore} {entry : Sigma fun _ : Bytes => Bytes}
  {front back : List (Sigma fun _ : Bytes => Bytes)} (hsize : store.serialize.length < 2 ^ 64)

include hsize

theorem parse_serialize_of_fits (hfirst : ∀ head ∈ store.entries.entries.head?, fits head = true) :
    parse store.serialize store.serialize.length
      = .ok (setAll (store.entries.entries.takeWhile fits) {}) := by
  rw [parse, if_neg (Nat.lt_irrefl _)]
  exact parseLoop_of_remaining hsize (remaining_start _) (Nat.le_add_left ..) (fun _ => hfirst) {}

theorem parse_serialize_of_not_fits (hhead : store.entries.entries.head? = some entry)
    (hentry : fits entry = false) :
    ∃ e, parse store.serialize store.serialize.length = .error (.returned e) := by
  obtain ⟨entries, hcons⟩ := List.head?_eq_some_iff.mp hhead
  have hremaining : Remaining store.serialize 0 (serializeEntry entry.1 entry.2
      ++ entries.flatMap fun entry => serializeEntry entry.1 entry.2) := by
    refine ⟨Nat.zero_le _, ?_⟩
    rw [List.drop_zero, serialize, hcons, List.flatMap_cons]
  have hpos := length_serializeEntry_pos entry.1 entry.2
  have hlength := hremaining.length_eq
  rw [List.length_append] at hlength
  obtain ⟨e, herror⟩ := parseEntry_of_not_fits hsize hremaining hentry
  refine ⟨e, ?_⟩
  rw [parse, if_neg (Nat.lt_irrefl _)]
  obtain ⟨fuel, hfuel⟩ : ∃ fuel, store.serialize.length = fuel + 1 :=
    Nat.exists_eq_add_one.mpr (by omega)
  rw [hfuel, parseLoop, if_neg (by omega), herror]
  exact if_pos rfl

/-- An entry that is too long behind one that is not takes the rest of the store with it. -/
theorem not_neverShortened_of_not_fits (h : store.entries.entries = front ++ entry :: back)
    (hne : front ≠ []) (hfront : ∀ other ∈ front, fits other = true) (hentry : fits entry = false) :
    ¬ NeverShortened store := by
  have hfirst : ∀ head ∈ store.entries.entries.head?, fits head = true := by
    intro head hhead
    rw [h, List.head?_append_of_ne_nil _ hne] at hhead
    exact hfront head (List.mem_of_mem_head? hhead)
  have htaken : (store.entries.entries.takeWhile fits) = front := by
    rw [h, List.takeWhile_append_of_pos hfront,
      List.takeWhile_cons_of_neg (by rw [hentry]; exact Bool.false_ne_true), List.append_nil]
  have hparse := parse_serialize_of_fits hsize hfirst
  rw [htaken] at hparse
  rintro (⟨found, hfound, hsame⟩ | ⟨e, herror⟩)
  · rw [hparse] at hfound
    have hstore : setAll front {} = found := Except.ok.inj hfound
    exact getString_setAll_front h (hstore ▸ hsame entry.1)
  · rw [hparse] at herror
    cases herror

/-- **When metadata is read back whole or refused.** It is just when the first entry of the store,
in the order in which it is written, is too long for the reader, or none of the entries is. -/
theorem neverShortened_iff :
    NeverShortened store
      ↔ (∃ head ∈ store.entries.entries.head?, fits head = false)
        ∨ ∀ entry ∈ store.entries.entries, fits entry = true := by
  by_cases hfirst : ∃ head ∈ store.entries.entries.head?, fits head = false
  · obtain ⟨head, hhead, hentry⟩ := id hfirst
    exact ⟨fun _ => .inl hfirst, fun _ => .inr (parse_serialize_of_not_fits hsize hhead hentry)⟩
  · rw [or_iff_right hfirst]
    have hhead : ∀ head ∈ store.entries.entries.head?, fits head = true := by
      intro head hhead
      by_contra hentry
      exact hfirst ⟨head, hhead, Bool.eq_false_iff.mpr hentry⟩
    constructor
    · intro hkept
      cases hfind : store.entries.entries.find? fun entry => !fits entry with
      | none => simpa using hfind
      | some entry =>
          obtain ⟨hentry, front, back, hsplit, hfront⟩ := List.find?_eq_some_iff_append.mp hfind
          simp only [Bool.not_eq_true', Bool.not_not] at hentry hfront
          refine absurd hkept (not_neverShortened_of_not_fits hsize hsplit ?_ hfront hentry)
          rintro rfl
          rw [hhead entry (by rw [hsplit]; rfl)] at hentry
          cases hentry
    · intro hall
      left
      refine ⟨_, parse_serialize_of_fits hsize hhead, fun key => ?_⟩
      rw [List.takeWhile_eq_self_iff.mpr hall]
      exact getString_setAll_entries store key

end

/-- A key of 4097 bytes that is written first: the reader refuses the two entries. -/
theorem neverShortened_iff_longFirst :
    NeverShortened (set (set {} [107] [118]) (List.replicate 4097 0) []) := by
  have hentries : (set (set {} [107] [118]) (List.replicate 4097 0) []).entries.entries
      = [⟨List.replicate 4097 0, []⟩, ⟨[107], [118]⟩] := by
    refine congrArg (List.cons (⟨List.replicate 4097 0, []⟩ : Sigma fun _ : Bytes => Bytes))
      (List.kerase_of_notMem_keys ?_)
    intro hmem
    have hkey := congrArg List.length (List.mem_singleton.mp hmem)
    rw [List.length_replicate] at hkey
    cases hkey
  refine (neverShortened_iff ?_).mpr (.inl ⟨⟨List.replicate 4097 0, []⟩, ?_, ?_⟩)
  · rw [serialize, hentries]
    simp only [List.flatMap_cons, List.flatMap_nil, serializeEntry, List.length_append,
      List.length_replicate]
    decide
  · rw [hentries]
    rfl
  · rw [fits, List.length_replicate]
    decide

/-- A key of 4097 bytes that is written second: the reader gives back the first entry alone. -/
theorem not_neverShortened_longKey :
    ¬ NeverShortened (set (set {} (List.replicate 4097 0) []) [107] [118]) := by
  have hentries : (set (set {} (List.replicate 4097 0) []) [107] [118]).entries.entries
      = [⟨[107], [118]⟩] ++ ⟨List.replicate 4097 0, []⟩ :: [] := by
    refine congrArg (List.cons (⟨[107], [118]⟩ : Sigma fun _ : Bytes => Bytes))
      (List.kerase_of_notMem_keys ?_)
    intro hmem
    have hkey := congrArg List.length (List.mem_singleton.mp hmem)
    rw [List.length_replicate] at hkey
    cases hkey
  refine not_neverShortened_of_not_fits ?_ hentries (List.cons_ne_nil _ _) ?_ ?_
  · rw [serialize, hentries]
    simp only [List.flatMap_append, List.flatMap_cons, List.flatMap_nil, serializeEntry,
      List.length_append, List.length_replicate]
    decide
  · decide
  · rw [fits, List.length_replicate]
    decide

end MetadataStore

end NebulaFS
