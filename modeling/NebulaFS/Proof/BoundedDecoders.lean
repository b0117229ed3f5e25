import Mathlib.Logic.Relation
import NebulaFS.EntryMetadata
import NebulaFS.Proof.SectionCodecs

/-!
# Decoders that stay inside their input

The decoders of the metadata and of the index compare every length with what is left of the input before
they add it to the offset. So an offset inside the input stays inside, whatever the input says
(`readSized_inside` and the lemmas on the rounds below it), and a read from inside never leaves it.
-/

namespace NebulaFS

open Cursor

variable {E : Fault ErrorCode → Prop} {data : Bytes} {offset : Nat}

/-- A decoder has ended without leaving its input: with success, or with the one error it returns. -/
def Ends (ec : ErrorCode) (status : Status) : Prop :=
  status = none ∨ status = some (.returned ec)

/-- The offset goes forward and stays inside. -/
def Forward {β : Type} (data : Bytes) (offset : Nat) (found : β × Nat) : Prop :=
  offset ≤ found.2 ∧ found.2 ≤ data.length

/-- A decoder that ends, and whose offset never leaves the input: `moves` is what one read of the decoder
makes of the offset. -/
structure Safe (ec : ErrorCode) (data : Bytes) (status : Status) (moves : Nat → Nat → Prop) : Prop where
  ends : Ends ec status
  inside : ∀ pos, Relation.ReflTransGen moves 0 pos → pos ≤ data.length

theorem inside_of_moves {moves : Nat → Nat → Prop}
    (hmoves : ∀ {pos next}, pos ≤ data.length → moves pos next → next ≤ data.length) (pos : Nat)
    (h : Relation.ReflTransGen moves 0 pos) : pos ≤ data.length := by
  induction h with
  | refl => exact Nat.zero_le _
  | tail _ hmove ih => exact hmoves ih hmove

theorem Forward.trans {β γ : Type} {found : β × Nat} {next : γ × Nat} (h : Forward data offset found)
    (hnext : Forward data found.2 next) : Forward data offset next :=
  ⟨Nat.le_trans h.1 hnext.1, hnext.2⟩

/-! ### The reads -/

theorem readVarInt_forward (ec : ErrorCode) (h : offset ≤ data.length) :
    Yields (· = .returned ec) (Forward data offset) (readVarInt ec data offset) :=
  (readVarInt_inside ec h).mono fun _ hfound => ⟨Nat.le_of_lt hfound.1, hfound.2⟩

/-- It never fails, and with a number it goes on. -/
theorem tryVarInt_forward (h : offset ≤ data.length) :
    Yields E (fun found => Forward data offset found ∧ (found.1.isSome → offset < found.2))
      (tryVarInt data offset) := by
  have hinside := readVarInt_inside .corruptMetadata h
  rw [readVarInt, if_neg (Nat.not_lt.mpr h)] at hinside
  rw [tryVarInt, if_neg (Nat.not_lt.mpr h)]
  simp only at hinside ⊢
  split
  · rename_i hvalid
    rw [if_pos hvalid] at hinside
    exact ⟨⟨Nat.le_of_lt hinside.1, hinside.2⟩, fun _ => hinside.1⟩
  · exact ⟨⟨Nat.le_refl _, h⟩, fun hsome => by cases hsome⟩

namespace MetadataStore

theorem readSized_inside (offset : Nat) (keyLen valLen : UInt64) :
    Yields (· = .returned .corruptMetadata) (Forward data offset)
      (readSized data offset keyLen valLen) := by
  rw [readSized]
  by_cases hoffset : offset ≤ data.length
  · rw [require_of_true (decide_eq_true hoffset)]
    by_cases hfits : keyLen.toNat ≤ data.length - offset
        ∧ valLen.toNat ≤ data.length - offset - keyLen.toNat
    · simp only [bind, Except.bind]
      rw [require_of_true (decide_eq_true hfits)]
      by_cases hsmall : keyLen.toNat ≤ maxEntrySize ∧ valLen.toNat ≤ maxEntrySize
      · simp only
        rw [require_of_true (decide_eq_true hsmall),
          readRange_of_le (show offset + keyLen.toNat ≤ data.length by omega)]
        simp only
        rw [readRange_of_le (show offset + keyLen.toNat + valLen.toNat ≤ data.length by omega)]
        refine ⟨?_, ?_⟩
        · show offset ≤ offset + keyLen.toNat + valLen.toNat
          omega
        · show offset + keyLen.toNat + valLen.toNat ≤ data.length
          omega
      · simp only
        rw [require_of_false (decide_eq_false hsmall)]
        rfl
    · simp only [bind, Except.bind]
      rw [require_of_false (decide_eq_false hfits)]
      rfl
  · rw [require_of_false (decide_eq_false hoffset)]
    rfl

/-- A round with an entry goes on. -/
theorem readEntry_inside (h : offset ≤ data.length) :
    Yields (· = .returned .corruptMetadata)
      (fun found => Forward data offset found ∧ (found.1.isSome → offset < found.2))
      (readEntry data offset) := by
  rw [readEntry]
  refine (tryVarInt_forward h).bind ?_
  rintro ⟨keyLen, afterKey⟩ ⟨hkey, hgoes⟩
  cases keyLen with
  | none => exact ⟨hkey, fun hsome => by cases hsome⟩
  | some keyLen =>
      refine (tryVarInt_forward hkey.2).bind ?_
      rintro ⟨valLen, afterVal⟩ ⟨hval, -⟩
      cases valLen with
      | none => exact ⟨hkey.trans hval, fun hsome => by cases hsome⟩
      | some valLen =>
          refine (readSized_inside afterVal keyLen valLen).bind ?_
          rintro ⟨entry, next⟩ hentry
          refine ⟨hkey.trans (hval.trans hentry), fun _ => ?_⟩
          have hlt : offset < afterKey := hgoes rfl
          have hforward : afterKey ≤ afterVal := hval.1
          have hlast : afterVal ≤ next := hentry.1
          show offset < next
          omega

theorem deserializeLoop_ends {fuel : Nat} (hoffset : offset ≤ data.length)
    (hfuel : data.length ≤ offset + fuel) (store : MetadataStore) :
    Ends .corruptMetadata (deserializeLoop data fuel offset store).2
      ∧ (deserializeLoop data fuel offset store).1.2 ≤ data.length := by
  induction fuel generalizing offset store with
  | zero =>
      rw [deserializeLoop, if_pos (by omega)]
      exact ⟨.inl rfl, hoffset⟩
  | succ fuel ih =>
      have hround := readEntry_inside hoffset
      rw [deserializeLoop]
      split
      · exact ⟨.inl rfl, hoffset⟩
      · cases hread : readEntry data offset with
        | error e =>
            rw [hread] at hround
            obtain rfl : e = .returned .corruptMetadata := hround
            exact ⟨.inr rfl, hoffset⟩
        | ok found =>
            obtain ⟨entry, next⟩ := found
            rw [hread] at hround
            obtain ⟨hforward, hgoes⟩ := hround
            cases entry with
            | none => exact ⟨.inl rfl, hforward.2⟩
            | some entry =>
                have hlt : offset < next := hgoes rfl
                exact ih hforward.2 (by omega) _

theorem deserialize_ends (data : Bytes) : Ends .corruptMetadata (deserialize data).2 :=
  (deserializeLoop_ends (Nat.zero_le _) (by omega) {}).1

def Moves (data : Bytes) (pos next : Nat) : Prop := ∃ item, readEntry data pos = .ok (item, next)

theorem Moves.inside {pos next : Nat} (hpos : pos ≤ data.length) (h : Moves data pos next) :
    next ≤ data.length := by
  obtain ⟨item, hread⟩ := h
  exact ((readEntry_inside hpos).of_ok hread).1.2

end MetadataStore

namespace EntryMetadata

theorem readAttribute_inside (h : offset ≤ data.length) :
    Yields (· = .returned .corruptMetadata) (Forward data offset) (readAttribute data offset) := by
  rw [readAttribute]
  refine (readVarInt_forward .corruptMetadata h).bind ?_
  rintro ⟨nameLen, afterName⟩ hname
  refine (readVarInt_forward .corruptMetadata hname.2).bind ?_
  rintro ⟨valLen, afterVal⟩ hval
  exact (MetadataStore.readSized_inside afterVal nameLen valLen).mono
    fun _ hentry => hname.trans (hval.trans hentry)

theorem readString_inside (h : offset ≤ data.length) :
    Yields E (Forward data offset) (readString data offset) := by
  rw [readString]
  refine (tryVarInt_forward h).bind ?_
  rintro ⟨length, next⟩ ⟨hlength, -⟩
  cases length with
  | none => exact hlength
  | some length =>
      simp only
      split
      · rename_i hfits
        have hrange : next + length.toNat ≤ data.length := by omega
        rw [readRange_of_le hrange]
        exact hlength.trans ⟨Nat.le_add_right _ _, hrange⟩
      · exact hlength

theorem readTags_inside (count : Nat) (h : offset ≤ data.length) (tags : List Bytes) :
    Yields E (Forward data offset) (readTags data count offset tags) := by
  induction count generalizing offset tags with
  | zero => exact ⟨Nat.le_refl _, h⟩
  | succ count ih =>
      rw [readTags]
      refine (readString_inside h).bind ?_
      rintro ⟨tag, next⟩ htag
      cases tag with
      | none => exact htag
      | some tag => exact (ih htag.2 _).mono fun _ hrest => htag.trans hrest

theorem readTagList_inside (h : offset ≤ data.length) :
    Yields E (Forward data offset) (readTagList data offset) := by
  rw [readTagList]
  refine (tryVarInt_forward h).bind ?_
  rintro ⟨tagCount, next⟩ ⟨hcount, -⟩
  cases tagCount with
  | none => exact hcount
  | some tagCount => exact (readTags_inside _ hcount.2 _).mono fun _ hrest => hcount.trans hrest

theorem readRest_inside (h : offset ≤ data.length) (metadata : EntryMetadata) :
    Yields E (Forward data offset) (readRest data offset metadata) := by
  rw [readRest]
  split
  · exact ⟨Nat.le_refl _, h⟩
  · refine (readTagList_inside h).bind ?_
    rintro ⟨tags, afterTags⟩ htags
    simp only
    split
    · exact htags
    · refine (readString_inside htags.2).bind ?_
      rintro ⟨contentType, afterType⟩ htype
      simp only
      split
      · exact htags.trans htype
      · refine (readString_inside htype.2).bind ?_
        rintro ⟨sourcePath, afterPath⟩ hpath
        simp only
        split
        · exact htags.trans (htype.trans hpath)
        · refine (readString_inside hpath.2).bind ?_
          rintro ⟨notes, afterNotes⟩ hnotes
          exact htags.trans (htype.trans (hpath.trans hnotes))

theorem readAttributes_inside (h : offset ≤ data.length) (attrCount : UInt64) :
    Yields (· = .returned .corruptMetadata) (· ≤ data.length)
      (readAttributes data offset attrCount).2 := by
  have hround : ∀ pos, offset ≤ pos → pos ≤ data.length → Yields (· = .returned .corruptMetadata)
      (fun found => pos ≤ found.2 ∧ found.2 ≤ data.length) (readAttribute data pos) :=
    fun pos _ hpos => readAttribute_inside hpos
  have hloop := readMany_advances hround attrCount.toNat (Nat.le_refl _) h
  rw [readAttributes]
  cases hread : readMany (readAttribute data) attrCount.toNat offset with
  | error failed => exact hloop.of_error hread
  | ok found => exact (hloop.of_ok hread).2

theorem deserialize_ends (data : Bytes) : Ends .corruptMetadata (deserialize data).2 := by
  have hcount := readVarInt_forward .corruptMetadata (Nat.zero_le data.length)
  rw [deserialize]
  split
  · exact .inl rfl
  · cases hread : readVarInt .corruptMetadata data 0 with
    | error e =>
        obtain rfl : e = .returned .corruptMetadata := hcount.of_error hread
        exact .inr rfl
    | ok found =>
        obtain ⟨attrCount, start⟩ := found
        have hstart := hcount.of_ok hread
        have hloop := readAttributes_inside hstart.2 attrCount
        simp only
        cases hattributes : readAttributes data start attrCount with
        | mk metadata result =>
            rw [hattributes] at hloop
            cases result with
            | error e =>
                obtain rfl : e = .returned .corruptMetadata := hloop
                exact .inr rfl
            | ok next =>
                have hrest : Yields (fun _ => False) (Forward data next) (readRest data next metadata) :=
                  readRest_inside hloop metadata
                simp only
                cases hread : readRest data next metadata with
                | error e => exact (hrest.of_error hread).elim
                | ok found => exact .inl rfl

def Moves (data : Bytes) (pos next : Nat) : Prop :=
  (∃ number, readVarInt .corruptMetadata data pos = .ok (number, next))
    ∨ (∃ item, readAttribute data pos = .ok (item, next))
    ∨ (∃ number, tryVarInt data pos = .ok (number, next))
    ∨ ∃ item, readString data pos = .ok (item, next)

theorem Moves.inside {pos next : Nat} (hpos : pos ≤ data.length) (h : Moves data pos next) :
    next ≤ data.length := by
  rcases h with ⟨number, hread⟩ | ⟨item, hread⟩ | ⟨number, hread⟩ | ⟨item, hread⟩
  · exact ((readVarInt_forward .corruptMetadata hpos).of_ok hread).2
  · exact ((readAttribute_inside hpos).of_ok hread).2
  · have hforward := tryVarInt_forward (E := fun _ => False) hpos
    exact (hforward.of_ok hread).1.2
  · have hforward := readString_inside (E := fun _ => False) hpos
    exact (hforward.of_ok hread).2

end EntryMetadata

namespace MetadataParser

def Moves (data : Bytes) (pos next : Nat) : Prop := ∃ item, parseEntry data pos = .ok (item, next)

theorem Moves.inside {pos next : Nat} (hpos : pos ≤ data.length) (h : Moves data pos next) :
    next ≤ data.length := by
  obtain ⟨item, hread⟩ := h
  rcases parseEntry_cases data hpos with ⟨entry, other, heq, -, hinside⟩ | ⟨e, heq⟩
  · cases hread.symm.trans heq
    exact hinside
  · cases hread.symm.trans heq

end MetadataParser

namespace IndexManager

theorem readEntry_inside (h : offset ≤ data.length) :
    Yields (· = .returned .corruptIndex) (Forward data offset) (readEntry data offset) := by
  rw [readEntry]
  refine (readVarInt_forward .corruptIndex h).bind ?_
  rintro ⟨entryId, afterId⟩ hid
  refine (readVarInt_forward .corruptIndex hid.2).bind ?_
  rintro ⟨entryOffset, afterOffset⟩ hoffset
  refine (readVarInt_forward .corruptIndex hoffset.2).bind ?_
  rintro ⟨size, afterSize⟩ hsize
  simp only
  by_cases hchecksum : afterSize + 32 ≤ data.length
  · obtain ⟨checksum, harr⟩ := readArr_of_le hchecksum
    rw [require_of_true (decide_eq_true hchecksum)]
    simp only [bind, Except.bind, harr]
    exact hid.trans (hoffset.trans (hsize.trans ⟨Nat.le_add_right _ _, hchecksum⟩))
  · rw [require_of_false (decide_eq_false hchecksum)]
    rfl

theorem deserialize_ends (data : Bytes) : Ends .corruptIndex (deserialize data).2 := by
  have hcount := readVarInt_forward .corruptIndex (Nat.zero_le data.length)
  rw [deserialize]
  cases hread : readVarInt .corruptIndex data 0 with
  | error e =>
      obtain rfl : e = .returned .corruptIndex := hcount.of_error hread
      exact .inr rfl
  | ok found =>
      obtain ⟨count, start⟩ := found
      have hstart := hcount.of_ok hread
      have hround : ∀ pos, start ≤ pos → pos ≤ data.length → Yields (· = .returned .corruptIndex)
          (fun found => pos ≤ found.2 ∧ found.2 ≤ data.length) (readEntry data pos) :=
        fun pos _ hpos => readEntry_inside hpos
      have hloop := readMany_advances hround count.toNat (Nat.le_refl _) hstart.2
      simp only
      split
      · exact .inr rfl
      · cases hentries : readMany (readEntry data) count.toNat start with
        | error failed =>
            obtain ⟨entries, e⟩ := failed
            obtain rfl : e = .returned .corruptIndex := hloop.of_error hentries
            exact .inr rfl
        | ok found => exact .inl rfl

def Moves (data : Bytes) (pos next : Nat) : Prop :=
  (∃ number, readVarInt .corruptIndex data pos = .ok (number, next))
    ∨ ∃ item, readEntry data pos = .ok (item, next)

theorem Moves.inside {pos next : Nat} (hpos : pos ≤ data.length) (h : Moves data pos next) :
    next ≤ data.length := by
  rcases h with ⟨number, hread⟩ | ⟨item, hread⟩
  · exact ((readVarInt_forward .corruptIndex hpos).of_ok hread).2
  · exact ((readEntry_inside hpos).of_ok hread).2

end IndexManager

/-- **The bounded decoders are safe on every input.** -/
theorem bounded_decoders_safe (data : Bytes) :
    Safe .corruptMetadata data (MetadataStore.deserialize data).2 (MetadataStore.Moves data)
      ∧ Safe .corruptMetadata data (EntryMetadata.deserialize data).2 (EntryMetadata.Moves data)
      ∧ Safe .corruptIndex data (IndexManager.deserialize data).2 (IndexManager.Moves data)
      ∧ (∀ metadataSize, (∃ store, MetadataParser.parse data metadataSize = .ok store)
        ∨ ∃ e, MetadataParser.parse data metadataSize = .error (.returned e))
      ∧ ∀ pos, Relation.ReflTransGen (MetadataParser.Moves data) 0 pos → pos ≤ data.length :=
  ⟨⟨MetadataStore.deserialize_ends data, inside_of_moves MetadataStore.Moves.inside⟩,
    ⟨EntryMetadata.deserialize_ends data, inside_of_moves EntryMetadata.Moves.inside⟩,
    ⟨IndexManager.deserialize_ends data, inside_of_moves IndexManager.Moves.inside⟩,
    MetadataParser.parse_cases data, inside_of_moves MetadataParser.Moves.inside⟩

/-- Two bytes that announce 127 entries. -/
theorem bounded_decoders_safe_shortTable :
    (MetadataStore.deserialize [127, 0]).2 = some (.returned .corruptMetadata) :=
  (bounded_decoders_safe [127, 0]).1.ends.resolve_left (by decide +kernel)

end NebulaFS
