import NebulaFS.ArchiveReader
import NebulaFS.Proof.BlockFiles
import NebulaFS.Proof.SectionCodecs

/-!
# Damaged archive headers

The checksum of an archive header is computed with its own place at zero, and a stored checksum of zero
is not checked. Where it is not zero, a reader refuses every archive whose header is damaged beside the
checksum in up to 32 bits in a row (`refused_of_damaged`).
-/

namespace NebulaFS

open Cursor LittleEndian ShiftRegister Crc32

namespace ArchiveHeader

/-! ### A header is its bytes -/

theorem leBytes_ofNat_two {data : Bytes} {pos : Nat} (h : pos + 2 ≤ data.length) :
    leBytes 2 (UInt16.ofNat (field data pos 2)).toNat = slice data pos 2 := by
  have hlength : (slice data pos 2).length = 2 := length_slice h
  have hlt := leValue_lt (slice data pos 2)
  have hback := leBytes_leValue (slice data pos 2)
  rw [hlength] at hlt hback
  rwa [field, UInt16.toNat_ofNat_of_lt' hlt]

theorem leBytes_ofNat_eight {data : Bytes} {pos : Nat} (h : pos + 8 ≤ data.length) :
    leBytes 8 (UInt64.ofNat (field data pos 8)).toNat = slice data pos 8 := by
  have hlength : (slice data pos 8).length = 8 := length_slice h
  have hlt := leValue_lt (slice data pos 8)
  have hback := leBytes_leValue (slice data pos 8)
  rw [hlength] at hlt hback
  rwa [field, UInt64.toNat_ofNat_of_lt' hlt]

theorem slice_append_slice (data : Bytes) {pos n next : Nat} (h : next = pos + n) (m : Nat) :
    slice data pos n ++ slice data next m = slice data pos (n + m) := by
  rw [h, slice, slice, slice, List.take_add, List.drop_drop]

/-- Where the checksum lies. -/
def checksumPos : Nat := 122

theorem serialize_ofBytes {data : Bytes} (h : headerSize ≤ data.length) (checksum : UInt32) :
    { ofBytes data h with headerChecksum := checksum }.serialize
      = data.take checksumPos ++ (leBytes 4 checksum.toNat ++ slice data 126 32) := by
  have hlength : 158 ≤ data.length := h
  have hfields : data.take checksumPos = slice data 0 4 ++ (slice data 4 2 ++ (slice data 6 2
      ++ (slice data 8 2 ++ (slice data 10 8 ++ (slice data 18 8 ++ (slice data 26 8
      ++ (slice data 34 8 ++ (slice data 42 8 ++ (slice data 50 8 ++ (slice data 58 8
      ++ (slice data 66 8 ++ (slice data 74 8 ++ (slice data 82 8 ++ (slice data 90 8
      ++ (slice data 98 8 ++ (slice data 106 8 ++ slice data 114 8)))))))))))))))) := by
    have hwhole : data.take checksumPos = slice data 0 122 := rfl
    simp (disch := decide) only [hwhole, slice_append_slice, Nat.reduceAdd]
  rw [hfields]
  simp (disch := omega) only [serialize, ofBytes, leBytes_ofNat_two, leBytes_ofNat_eight,
    List.append_assoc]
  rfl

theorem computedChecksum_ofBytes {platform : Platform} (hlinks : platform.LinksCrc32) {data : Bytes}
    (h : headerSize ≤ data.length) :
    (ofBytes data h).computedChecksum platform
      = checksum (data.take checksumPos ++ (leBytes 4 0 ++ slice data 126 32)) := by
  have hserialize := serialize_ofBytes h 0
  have hlength : (data.take checksumPos ++ (leBytes 4 0 ++ slice data 126 32)).length < 2 ^ 32 := by
    rw [List.length_append, List.length_append, length_leBytes, List.length_take, slice,
      List.length_take, checksumPos]
    omega
  rw [computedChecksum, hserialize]
  exact ChecksumEngine.crc32_of_links hlinks hlength

theorem serialize_archiveChecksum (header : ArchiveHeader) (archiveChecksum : ByteArr 32) :
    { header with archiveChecksum := archiveChecksum }.serialize
      = header.serialize.take 126 ++ archiveChecksum.toList := by
  simp (disch := simp) [serialize, List.take_append, List.take_of_length_le]

/-- Damage of a header beside its checksum. -/
structure Damaged (content damaged : Bytes) : Prop where
  burst : Burst 32 (bitsOfBytes (content.take headerSize)) (bitsOfBytes (damaged.take headerSize))
  checksum_eq : slice damaged checksumPos 4 = slice content checksumPos 4

theorem take_headerSize (data : Bytes) :
    data.take headerSize = data.take checksumPos ++ (slice data checksumPos 4 ++ slice data 126 32) := by
  have hrest : slice data checksumPos 4 ++ slice data 126 32 = slice data checksumPos 36 :=
    slice_append_slice data rfl 32
  have hwhole : slice data 0 122 ++ slice data 122 36 = slice data 0 158 :=
    slice_append_slice data rfl 36
  rw [hrest]
  exact hwhole.symm

theorem Damaged.checksum_ne {content damaged : Bytes} (h : Damaged content damaged)
    (hcontent : headerSize ≤ content.length) (hdamaged : headerSize ≤ damaged.length) :
    checksum (content.take checksumPos ++ (leBytes 4 0 ++ slice content 126 32))
      ≠ checksum (damaged.take checksumPos ++ (leBytes 4 0 ++ slice damaged 126 32)) := by
  have hburst := h.burst
  rw [take_headerSize content, take_headerSize damaged, h.checksum_eq] at hburst
  refine checksum_ne_of_burst ?_
  simp only [bitsOfBytes_append] at hburst ⊢
  refine hburst.replace ?_ ?_
  · rw [length_bitsOfBytes, length_bitsOfBytes, List.length_take, List.length_take,
      Nat.min_eq_left (by rw [checksumPos]; rw [headerSize] at hcontent; omega),
      Nat.min_eq_left (by rw [checksumPos]; rw [headerSize] at hdamaged; omega)]
  · rw [length_bitsOfBytes, length_bitsOfBytes, length_leBytes,
      length_slice (by rw [checksumPos]; rw [headerSize] at hcontent; omega)]

/-- What a header that is accepted has passed. -/
theorem passed_of_parse {platform : Platform} {content : Bytes} {header : ArchiveHeader}
    (hparse : parse platform {} content = (header, none)) :
    ∃ h : headerSize ≤ content.length, ofBytes content h = header
      ∧ header.verifyChecksum platform = true := by
  unfold parse at hparse
  split at hparse
  · cases hparse
  · next hlong =>
      dsimp only at hparse
      split at hparse
      · cases hparse
      · split at hparse
        · cases hparse
        · split at hparse
          · cases hparse
          · next hverify =>
              obtain rfl := congrArg Prod.fst hparse
              exact ⟨Nat.not_lt.mp hlong, rfl, not_not.mp hverify⟩

theorem Damaged.parse_ne {platform : Platform} (hlinks : platform.LinksCrc32)
    {content damaged : Bytes} {header other : ArchiveHeader} (h : Damaged content damaged)
    (hparse : parse platform {} content = (header, none)) (hchecksum : header.headerChecksum ≠ 0) :
    parse platform {} damaged ≠ (other, none) := by
  intro hother
  obtain ⟨hcontent, rfl, hverify⟩ := passed_of_parse hparse
  obtain ⟨hdamaged, rfl, hverify'⟩ := passed_of_parse hother
  have hstored : (ofBytes damaged hdamaged).headerChecksum = (ofBytes content hcontent).headerChecksum := by
    change UInt32.ofNat (leValue (slice damaged checksumPos 4))
      = UInt32.ofNat (leValue (slice content checksumPos 4))
    rw [h.checksum_eq]
  have hcomputed (header : ArchiveHeader) (hne : header.headerChecksum ≠ 0)
      (hpassed : header.verifyChecksum platform = true) :
      header.computedChecksum platform = header.headerChecksum := by
    rw [verifyChecksum, Bool.or_eq_true, decide_eq_true_iff, decide_eq_true_iff] at hpassed
    exact hpassed.resolve_left hne
  have hsame := hcomputed _ (hstored ▸ hchecksum) hverify'
  rw [hstored, ← hcomputed _ hchecksum hverify, computedChecksum_ofBytes hlinks,
    computedChecksum_ofBytes hlinks] at hsame
  exact h.checksum_ne hcontent hdamaged hsame.symm

end ArchiveHeader

theorem parse_of_not_header {platform : Platform} {data : Bytes}
    (h : ∀ header, ArchiveHeader.parse platform {} data ≠ (header, none)) (strictMode : Bool) :
    ∃ fault, Parser.parse platform strictMode data = .error fault := by
  have hheader : ∃ fault, Parser.parseHeader platform data = .error fault := by
    rw [Parser.parseHeader]
    split
    · next header hparse => exact (h header hparse).elim
    · exact ⟨_, rfl⟩
    · exact ⟨_, rfl⟩
    · exact ⟨_, rfl⟩
  obtain ⟨fault, hfault⟩ := hheader
  rw [Parser.parse, hfault]
  split
  · exact ⟨_, rfl⟩
  · exact ⟨fault, rfl⟩

/-- No reader opens an archive whose header was accepted and is damaged since. -/
theorem refused_of_damaged {platform : Platform} (hlinks : platform.LinksCrc32)
    {content damaged : Bytes} {header : ArchiveHeader}
    (hparse : ArchiveHeader.parse platform {} content = (header, none))
    (hchecksum : header.headerChecksum ≠ 0) (hdamaged : ArchiveHeader.Damaged content damaged)
    (reader : ArchiveReader) : (reader.openArchive platform (some damaged)).2 ≠ none := by
  obtain ⟨fault, hfault⟩ := parse_of_not_header
    (fun _ => hdamaged.parse_ne hlinks hparse hchecksum) false
  rw [ArchiveReader.openArchive, ArchiveReader.parseArchive, hfault]
  split
  · simp
  · cases fault <;> simp

/-- The header of an empty archive, and the same with a bit of the archive checksum turned. -/
def emptyHeader : ArchiveHeader := ArchiveHeader.updateChecksum .reference {}

def turnedHeader : ArchiveHeader :=
  { emptyHeader with archiveChecksum := ⟨List.replicate 31 0 ++ [1], rfl⟩ }

theorem headerChecksum_emptyHeader : emptyHeader.headerChecksum = 3571312566 := by
  have hbytes : ({ headerChecksum := 0 } : ArchiveHeader).serialize = [0x4E, 0x42, 0x46, 1, 1]
      ++ (List.replicate 51 0 ++ (List.replicate 51 0 ++ List.replicate 51 0)) := by decide +kernel
  have hfirst : List.foldl Platform.crc32Byte 0xFFFFFFFF
      ([0x4E, 0x42, 0x46, 1, 1] ++ List.replicate 51 0) = 1460935469 := by decide +kernel
  have hsecond : List.foldl Platform.crc32Byte 1460935469 (List.replicate 51 0) = 1644878746 := by
    decide +kernel
  have hthird : List.foldl Platform.crc32Byte 1644878746 (List.replicate 51 0) = 723654729 := by
    decide +kernel
  change Platform.reference.crc32 (({ headerChecksum := 0 } : ArchiveHeader).serialize.take _) = _
  rw [List.take_of_length_le (by rw [ArchiveHeader.length_serialize]; decide), hbytes,
    ← List.append_assoc]
  change List.foldl Platform.crc32Byte 0xFFFFFFFF _ ^^^ 0xFFFFFFFF = _
  rw [List.foldl_append, hfirst, List.foldl_append, hsecond, hthird]
  rfl

theorem damaged_turnedHeader :
    ArchiveHeader.Damaged emptyHeader.serialize turnedHeader.serialize := by
  have hempty : emptyHeader.serialize
      = emptyHeader.serialize.take 126 ++ (List.replicate 31 0 ++ [0]) :=
    emptyHeader.serialize_archiveChecksum (zeroArr 32)
  have hturned : turnedHeader.serialize
      = emptyHeader.serialize.take 126 ++ (List.replicate 31 0 ++ [1]) :=
    emptyHeader.serialize_archiveChecksum _
  have hlast : Burst 32 (bitsOfBytes [0]) (bitsOfBytes [1]) :=
    .of_length_le (by decide) (by decide) (by decide)
  constructor
  · rw [List.take_of_length_le (ArchiveHeader.length_serialize _).le,
      List.take_of_length_le (ArchiveHeader.length_serialize _).le, hempty, hturned,
      ← List.append_assoc, ← List.append_assoc, bitsOfBytes_append _ [0], bitsOfBytes_append _ [1]]
    exact Burst.append_left_iff.mpr hlast
  · have hinside : ArchiveHeader.checksumPos + 4 ≤ (emptyHeader.serialize.take 126).length := by
      rw [List.length_take, ArchiveHeader.length_serialize]
      decide
    rw [hturned, slice_append_left hinside]
    exact slice_take (by decide)

theorem refused_of_damaged_turnedHeader :
    (ArchiveReader.openArchive .reference {} (some turnedHeader.serialize)).2 ≠ none := by
  have hparse : ArchiveHeader.parse .reference {} emptyHeader.serialize = (emptyHeader, none) := by
    have hvalid : ArchiveHeader.isValid {} := by decide
    have hwritten := ArchiveHeader.parse_serialize .reference hvalid []
    rwa [List.append_nil] at hwritten
  have hchecksum : emptyHeader.headerChecksum ≠ 0 := by
    rw [headerChecksum_emptyHeader]
    decide
  exact refused_of_damaged links_reference hparse hchecksum damaged_turnedHeader {}

end NebulaFS
