import NebulaFS.EntryMetadata
import NebulaFS.Proof.MetadataAgreement

/-!
# Round trip of the metadata of an entry

The decoder stops early where the bytes end and leaves out what is above its limit. Behind every part that
was written the next one follows with its length, so the bytes end behind the last one only, and all parts
are read back (`restored_of_calls`).
-/

namespace NebulaFS

open Cursor

namespace EntryMetadata

variable {data rest string : Bytes} {offset : Nat} {metadata : EntryMetadata}

/-- Two listings of the same metadata; the hash map may list its entries in any order. -/
structure SameContents (left right : EntryMetadata) : Prop where
  attributes : ∀ name, left.attributes.lookup name = right.attributes.lookup name
  tags : left.tags = right.tags
  contentType : left.contentType = right.contentType
  sourcePath : left.sourcePath = right.sourcePath
  notes : left.notes = right.notes

theorem SameContents.trans {left middle right : EntryMetadata} (h : SameContents left middle)
    (h' : SameContents middle right) : SameContents left right where
  attributes name := (h.attributes name).trans (h'.attributes name)
  tags := h.tags.trans h'.tags
  contentType := h.contentType.trans h'.contentType
  sourcePath := h.sourcePath.trans h'.sourcePath
  notes := h.notes.trans h'.notes

/-- No part is longer than the decoder takes it. -/
structure WithinLimits (metadata : EntryMetadata) : Prop where
  attributes : ∀ name value, metadata.attributes.lookup name = some value →
    name.length ≤ maxStringSize ∧ value.length ≤ maxStringSize
  tags : ∀ tag ∈ metadata.tags, tag.length ≤ maxStringSize
  contentType : metadata.contentType.length ≤ maxStringSize
  sourcePath : metadata.sourcePath.length ≤ maxStringSize
  notes : metadata.notes.length ≤ maxStringSize

theorem WithinLimits.of_sameContents {left right : EntryMetadata} (h : right.WithinLimits)
    (hsame : SameContents left right) : left.WithinLimits where
  attributes name value hvalue := h.attributes name value (hsame.attributes name ▸ hvalue)
  tags tag htag := h.tags tag (hsame.tags ▸ htag)
  contentType := hsame.contentType ▸ h.contentType
  sourcePath := hsame.sourcePath ▸ h.sourcePath
  notes := hsame.notes ▸ h.notes

/-! ### The parts -/

theorem length_serializeString_pos (string : Bytes) : 0 < (serializeString string).length := by
  rw [serializeString, List.length_append]
  exact Nat.add_pos_left (VarInt.length_encode_pos _) _

theorem lt_length_of_remaining {first : Bytes} (h : Remaining data offset (first ++ rest))
    (hpos : 0 < first.length) : ¬ data.length ≤ offset := by
  have hlength := h.length_eq
  rw [List.length_append] at hlength
  omega

theorem readString_of_remaining (hlimit : string.length ≤ maxStringSize)
    (h : Remaining data offset (serializeString string ++ rest)) :
    readString data offset = .ok (some string, offset + (serializeString string).length) := by
  rw [serializeString, List.append_assoc] at h
  have hmax : maxStringSize < 2 ^ 64 := by decide
  have hstring := h.advance
  have hlength := hstring.length_eq
  rw [List.length_append] at hlength
  rw [readString, tryVarInt_of_remaining h]
  change (if _ ∧ _ ∧ _ then _ else _ : Except _ _) = _
  rw [toNat_ofNat_of_lt (by omega), if_pos ⟨hstring.1, by omega, hlimit⟩,
    readRange_of_remaining hstring, serializeString, List.length_append, Nat.add_assoc]
  rfl

/-- The loop takes every tag that is ahead. -/
theorem readTags_of_remaining {tags : List Bytes} (hlimits : ∀ tag ∈ tags, tag.length ≤ maxStringSize)
    (h : Remaining data offset (tags.flatMap serializeString ++ rest)) (before : List Bytes) :
    readTags data tags.length offset before
      = .ok (before ++ tags, offset + (tags.flatMap serializeString).length) := by
  induction tags generalizing offset before with
  | nil =>
      rw [List.append_nil]
      rfl
  | cons tag tags ih =>
      rw [List.flatMap_cons, List.append_assoc] at h
      rw [List.length_cons, readTags, readString_of_remaining (hlimits tag List.mem_cons_self) h]
      change readTags data tags.length _ (before ++ [tag]) = _
      rw [ih (fun other hother => hlimits other (List.mem_cons_of_mem _ hother)) h.advance,
        List.append_assoc, List.flatMap_cons, List.length_append, Nat.add_assoc]
      rfl

theorem readTagList_of_remaining {tags : List Bytes} (hcount : tags.length < 2 ^ 64)
    (hlimits : ∀ tag ∈ tags, tag.length ≤ maxStringSize)
    (h : Remaining data offset (VarInt.encode (UInt64.ofNat tags.length)
      ++ (tags.flatMap serializeString ++ rest))) :
    ∃ next, readTagList data offset = .ok (tags, next) ∧ Remaining data next rest := by
  have htags := readTags_of_remaining hlimits h.advance []
  refine ⟨_, ?_, h.advance.advance⟩
  rw [readTagList, tryVarInt_of_remaining h]
  change readTags data (UInt64.ofNat tags.length).toNat _ [] = _
  rw [toNat_ofNat_of_lt hcount, htags, List.nil_append]

/-- What is read behind the attributes, part by part. -/
theorem readRest_of_remaining (hlimits : metadata.WithinLimits) (hcount : metadata.tags.length < 2 ^ 64)
    (h : Remaining data offset (VarInt.encode (UInt64.ofNat metadata.tags.length)
      ++ (metadata.tags.flatMap serializeString ++ (serializeString metadata.contentType
      ++ (serializeString metadata.sourcePath ++ serializeString metadata.notes)))))
    (attributes : UnorderedMap Bytes Bytes) :
    ∃ next, readRest data offset { attributes := attributes }
      = .ok ({ metadata with attributes := attributes }, next) := by
  obtain ⟨next, htags, htype⟩ := readTagList_of_remaining hcount hlimits.tags h
  have hpath := htype.advance
  have hnotes := hpath.advance
  rw [← List.append_nil (serializeString metadata.notes)] at hnotes
  refine ⟨next + (serializeString metadata.contentType).length
    + (serializeString metadata.sourcePath).length + (serializeString metadata.notes).length, ?_⟩
  rw [readRest, if_neg (lt_length_of_remaining h (VarInt.length_encode_pos _)), htags]
  change (if _ then _ else _ : Except _ _) = _
  rw [if_neg (lt_length_of_remaining htype (length_serializeString_pos _)),
    readString_of_remaining hlimits.contentType htype]
  change (if _ then _ else _ : Except _ _) = _
  rw [if_neg (lt_length_of_remaining hpath (length_serializeString_pos _)),
    readString_of_remaining hlimits.sourcePath hpath]
  change (if _ then _ else _ : Except _ _) = _
  rw [if_neg (lt_length_of_remaining hnotes (length_serializeString_pos _)),
    readString_of_remaining hlimits.notes hnotes]
  rfl

/-! ### The attributes -/

theorem readAttribute_of_remaining {name value : Bytes} (hname : name.length ≤ maxStringSize)
    (hvalue : value.length ≤ maxStringSize)
    (h : Remaining data offset (MetadataStore.serializeEntry name value ++ rest)) :
    readAttribute data offset
      = .ok ((name, value), offset + (MetadataStore.serializeEntry name value).length) := by
  have hnameLen := h
  simp only [MetadataStore.serializeEntry, List.append_assoc] at hnameLen
  have hvalLen := hnameLen.advance
  rw [readAttribute, readVarInt_of_remaining _ hnameLen]
  change ((readVarInt _ data _ >>= _) : Except _ _) = _
  rw [readVarInt_of_remaining _ hvalLen]
  change MetadataStore.readSized data _ _ _ = _
  rw [MetadataStore.readSized_of_remaining hname hvalue hvalLen.advance]
  simp only [MetadataStore.serializeEntry, List.length_append, Nat.add_assoc]

/-- The attributes that the loop has set. -/
theorem foldl_setAttribute (entries : List (Sigma fun _ : Bytes => Bytes)) (metadata : EntryMetadata) :
    (entries.map fun entry => (entry.1, entry.2)).foldl
        (fun metadata found => metadata.setAttribute found.1 found.2) metadata
      = { metadata with
          attributes := entries.foldl (fun map entry => map.insert entry.1 entry.2)
            metadata.attributes } := by
  induction entries generalizing metadata with
  | nil => rfl
  | cons entry entries ih =>
      rw [List.map_cons, List.foldl_cons, List.foldl_cons, ih]
      rfl

theorem readAttributes_of_remaining (hlimits : metadata.WithinLimits)
    (hcount : metadata.attributes.entries.length < 2 ^ 64)
    (h : Remaining data offset ((metadata.attributes.entries.flatMap fun entry =>
      MetadataStore.serializeEntry entry.1 entry.2) ++ rest)) :
    ∃ attributes next,
      readAttributes data offset (UInt64.ofNat metadata.attributes.entries.length)
        = ({ attributes := attributes }, .ok next)
      ∧ (∀ name, attributes.lookup name = metadata.attributes.lookup name)
      ∧ Remaining data next rest := by
  have hread : ∀ entry ∈ metadata.attributes.entries, ∀ pos rest,
      Remaining data pos (MetadataStore.serializeEntry entry.1 entry.2 ++ rest) →
        readAttribute data pos = .ok ((entry.1, entry.2),
          pos + (MetadataStore.serializeEntry entry.1 entry.2).length) := by
    intro entry hentry pos rest h
    obtain ⟨hname, hvalue⟩ := hlimits.attributes entry.1 entry.2
      ((List.mem_dlookup_iff metadata.attributes.nodupKeys).mpr hentry)
    exact readAttribute_of_remaining hname hvalue h
  have hloop := readMany_flatMap hread h
  refine ⟨metadata.attributes.entries.foldl (fun map entry => map.insert entry.1 entry.2) ∅, _, ?_,
    fun name => ?_, h.advance⟩
  · rw [readAttributes, toNat_ofNat_of_lt hcount, hloop]
    simp only [collected]
    rw [foldl_setAttribute]
  · rw [AList.lookup_foldl_insert metadata.attributes.nodupKeys]
    exact Option.or_none

/-! ### All of it -/

theorem counts_lt_of_serialize (hsize : metadata.serialize.length < 2 ^ 64) :
    metadata.attributes.entries.length < 2 ^ 64 ∧ metadata.tags.length < 2 ^ 64 := by
  have hattributes : metadata.attributes.entries.length * 1 ≤
      (metadata.attributes.entries.flatMap fun entry =>
        MetadataStore.serializeEntry entry.1 entry.2).length :=
    length_mul_le_length_flatMap fun entry _ =>
      MetadataParser.length_serializeEntry_pos entry.1 entry.2
  have htags : metadata.tags.length * 1 ≤ (metadata.tags.flatMap serializeString).length :=
    length_mul_le_length_flatMap fun tag _ => length_serializeString_pos tag
  simp only [serialize, List.length_append] at hsize
  omega

/-- What was written is read back. -/
theorem deserialize_serialize (hlimits : metadata.WithinLimits)
    (hsize : metadata.serialize.length < 2 ^ 64) :
    ∃ restored, deserialize metadata.serialize = (restored, none)
      ∧ restored.SameContents metadata := by
  obtain ⟨hattributes, htags⟩ := counts_lt_of_serialize hsize
  have hcount : Remaining metadata.serialize 0
      (VarInt.encode (UInt64.ofNat metadata.attributes.entries.length)
        ++ ((metadata.attributes.entries.flatMap fun entry =>
          MetadataStore.serializeEntry entry.1 entry.2)
        ++ (VarInt.encode (UInt64.ofNat metadata.tags.length)
        ++ (metadata.tags.flatMap serializeString ++ (serializeString metadata.contentType
        ++ (serializeString metadata.sourcePath ++ serializeString metadata.notes)))))) :=
    remaining_start metadata.serialize
  obtain ⟨attributes, next, hread, hsame, hrest⟩ :=
    readAttributes_of_remaining hlimits hattributes hcount.advance
  obtain ⟨last, hlast⟩ := readRest_of_remaining hlimits htags hrest attributes
  refine ⟨{ metadata with attributes := attributes }, ?_, hsame, rfl, rfl, rfl, rfl⟩
  rw [deserialize, if_neg (lt_length_of_remaining hcount (VarInt.length_encode_pos _)),
    readVarInt_of_remaining _ hcount]
  simp only [hread, hlast]

/-- **Round trip.** Whatever the calls and in whatever order the attributes are listed, the decoder
restores what was built. -/
theorem restored_of_calls (calls : List Call) (hlisted : metadata.SameContents (built calls))
    (hlimits : (built calls).WithinLimits) (hsize : metadata.serialize.length < 2 ^ 64) :
    ∃ restored, deserialize metadata.serialize = (restored, none)
      ∧ restored.SameContents (built calls) := by
  obtain ⟨restored, hrestored, hsame⟩ :=
    deserialize_serialize (hlimits.of_sameContents hlisted) hsize
  exact ⟨restored, hrestored, hsame.trans hlisted⟩

/-- A name without a value, a tag that is added twice and one that is removed. -/
def fewCalls : List Call :=
  [.setAttribute [1] [], .addTag [2], .addTag [3], .addTag [2], .removeTag [2], .setNotes [4, 5]]

theorem restored_of_calls_few :
    ∃ restored, deserialize (built fewCalls).serialize = (restored, none)
      ∧ restored.SameContents (built fewCalls) := by
  refine restored_of_calls fewCalls ⟨fun _ => rfl, rfl, rfl, rfl, rfl⟩ ⟨fun name value h => ?_, by decide,
    by decide, by decide, by decide⟩ (by decide)
  have hmem : (⟨name, value⟩ : Sigma fun _ : Bytes => Bytes) ∈ [⟨[1], []⟩] :=
    (List.mem_dlookup_iff (built fewCalls).attributes.nodupKeys).mp h
  simp only [List.mem_cons, List.not_mem_nil, or_false, Sigma.mk.injEq, heq_eq_eq] at hmem
  obtain ⟨rfl, rfl⟩ := hmem
  decide

end EntryMetadata

end NebulaFS
