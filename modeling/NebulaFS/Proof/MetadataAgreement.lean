import NebulaFS.Proof.MetadataLimits

/-!
# The two decoders of the metadata

The store and the parser of its section write the same bytes. What is within the limits of the parser is
within those of the store, so both read all of it back (`decoders_agree`).
-/

namespace NebulaFS

open Cursor

namespace MetadataStore

variable {data rest key value : Bytes} {offset fuel : Nat}
  {entries : List (Sigma fun _ : Bytes => Bytes)}

/-- The key and the value that follow their lengths pass the checks and are copied. -/
theorem readSized_of_remaining (hkey : key.length ≤ maxEntrySize) (hvalue : value.length ≤ maxEntrySize)
    (h : Remaining data offset (key ++ (value ++ rest))) :
    readSized data offset (UInt64.ofNat key.length) (UInt64.ofNat value.length)
      = .ok ((key, value), offset + key.length + value.length) := by
  have hlength := h.length_eq
  rw [List.length_append, List.length_append] at hlength
  have hmax : maxEntrySize < 2 ^ 64 := by decide
  have hstart : require (decide (offset ≤ data.length)) .corruptMetadata = .ok () :=
    require_of_true (decide_eq_true h.1) _
  have hinside : require (decide (key.length ≤ data.length - offset
      ∧ value.length ≤ data.length - offset - key.length)) .corruptMetadata = .ok () :=
    require_of_true (decide_eq_true (by omega)) _
  have hlimits : require (decide (key.length ≤ maxEntrySize ∧ value.length ≤ maxEntrySize))
      .corruptMetadata = .ok () := require_of_true (decide_eq_true ⟨hkey, hvalue⟩) _
  rw [readSized, toNat_ofNat_of_lt (by omega), toNat_ofNat_of_lt (by omega), hstart]
  simp only
  rw [hinside, hlimits, readRange_of_remaining h]
  change ((readRange data (offset + key.length) value.length >>= _) : Except _ _) = _
  rw [readRange_of_remaining h.advance]
  rfl

theorem readEntry_of_remaining (hkey : key.length ≤ maxEntrySize) (hvalue : value.length ≤ maxEntrySize)
    (h : Remaining data offset (serializeEntry key value ++ rest)) :
    readEntry data offset
      = .ok (some (key, value), offset + (serializeEntry key value).length) := by
  have hkeyLen := h
  simp only [serializeEntry, List.append_assoc] at hkeyLen
  have hvalLen := hkeyLen.advance
  have hsized := readSized_of_remaining hkey hvalue hvalLen.advance
  rw [readEntry, tryVarInt_of_remaining hkeyLen]
  change ((tryVarInt data _ >>= _) : Except _ _) = _
  rw [tryVarInt_of_remaining hvalLen]
  change ((readSized data _ _ _ >>= _) : Except _ _) = _
  rw [hsized]
  simp only [serializeEntry, List.length_append, Nat.add_assoc]
  rfl

/-- The loop sets every entry that is ahead. -/
theorem deserializeLoop_of_remaining
    (hlimits : ∀ entry ∈ entries, entry.1.length ≤ maxEntrySize ∧ entry.2.length ≤ maxEntrySize)
    (h : Remaining data offset (entries.flatMap fun entry => serializeEntry entry.1 entry.2))
    (hfuel : data.length ≤ offset + fuel) (store : MetadataStore) :
    deserializeLoop data fuel offset store = ((setAll entries store, data.length), none) := by
  induction entries generalizing fuel offset store with
  | nil =>
      have hlength : offset = data.length := by simpa using h.length_eq
      rw [hlength]
      cases fuel <;> rw [deserializeLoop, if_pos (Nat.le_refl _)] <;> rfl
  | cons head entries ih =>
      have hpos := MetadataParser.length_serializeEntry_pos head.1 head.2
      have hlength := h.length_eq
      rw [List.flatMap_cons, List.length_append] at hlength
      rw [List.flatMap_cons] at h
      obtain ⟨hkey, hvalue⟩ := hlimits head List.mem_cons_self
      cases fuel with
      | zero => omega
      | succ fuel =>
          rw [deserializeLoop, if_neg (by omega), readEntry_of_remaining hkey hvalue h]
          exact ih (fun other hother => hlimits other (List.mem_cons_of_mem _ hother)) h.advance
            (by omega) (store.set head.1 head.2)

/-- Every store within the limits is read back by its own decoder. -/
theorem deserialize_serialize {store : MetadataStore}
    (hlimits : ∀ entry ∈ store.entries.entries,
      entry.1.length ≤ maxEntrySize ∧ entry.2.length ≤ maxEntrySize) :
    deserialize store.serialize = (setAll store.entries.entries {}, none) := by
  have hloop : deserializeLoop store.serialize store.serialize.length 0 {} = _ :=
    deserializeLoop_of_remaining hlimits (remaining_start _) (Nat.le_add_left _ _) {}
  rw [deserialize, hloop]

/-- What the parser of the section takes, the store takes. -/
theorem le_maxEntrySize_of_fits {entry : Sigma fun _ : Bytes => Bytes} (h : fits entry = true) :
    entry.1.length ≤ maxEntrySize ∧ entry.2.length ≤ maxEntrySize := by
  obtain ⟨hkey, hvalue⟩ := of_decide_eq_true h
  exact ⟨hkey.trans (by decide), hvalue.trans (by decide)⟩

theorem serialize_eq (store : MetadataStore) : MetadataParser.serialize store = store.serialize := rfl

/-- **Agreement.** The two encoders write the same bytes, and the two decoders read the same map from them. -/
theorem decoders_agree {store : MetadataStore} (hsize : store.serialize.length < 2 ^ 64)
    (hlimits : ∀ key value, store.getString key = some value →
      key.length ≤ MetadataParser.maxKeyLength ∧ value.length ≤ MetadataParser.maxValueLength) :
    MetadataParser.serialize store = store.serialize
      ∧ ∃ restored parsed, deserialize store.serialize = (restored, none)
        ∧ MetadataParser.parse store.serialize store.serialize.length = .ok parsed
        ∧ (∀ key, restored.getString key = store.getString key)
        ∧ ∀ key, parsed.getString key = store.getString key := by
  have hfits : ∀ entry ∈ store.entries.entries, fits entry = true := by
    intro entry hentry
    exact decide_eq_true (hlimits entry.1 entry.2
      ((List.mem_dlookup_iff store.entries.nodupKeys).mpr hentry))
  have hparse := parse_serialize_of_fits hsize fun head hhead =>
    hfits head (List.mem_of_mem_head? hhead)
  rw [List.takeWhile_eq_self_iff.mpr hfits] at hparse
  exact ⟨serialize_eq store, _, _,
    deserialize_serialize fun entry hentry => le_maxEntrySize_of_fits (hfits entry hentry), hparse,
    getString_setAll_entries store, getString_setAll_entries store⟩

/-- An empty key, and a key with an empty value. -/
def emptyParts : MetadataStore := (({} : MetadataStore).set [] [7]).set [1] []

theorem decoders_agree_emptyParts :
    MetadataParser.serialize emptyParts = emptyParts.serialize
      ∧ ∃ restored parsed, deserialize emptyParts.serialize = (restored, none)
        ∧ MetadataParser.parse emptyParts.serialize emptyParts.serialize.length = .ok parsed
        ∧ (∀ key, restored.getString key = emptyParts.getString key)
        ∧ ∀ key, parsed.getString key = emptyParts.getString key := by
  refine decoders_agree (by decide) fun key value h => ?_
  have hmem : (⟨key, value⟩ : Sigma fun _ : Bytes => Bytes) ∈ [⟨[1], []⟩, ⟨[], [7]⟩] :=
    (List.mem_dlookup_iff emptyParts.entries.nodupKeys).mp h
  simp only [List.mem_cons, List.not_mem_nil, or_false, Sigma.mk.injEq, heq_eq_eq] at hmem
  rcases hmem with ⟨rfl, rfl⟩ | ⟨rfl, rfl⟩
  · decide
  · decide

end MetadataStore

end NebulaFS
