import Mathlib.Data.Nat.Digits.Lemmas
import NebulaFS.Buffer
import NebulaFS.Proof.VarIntLemmas

/-!
# Which encodings the varint decoders take

An encoding is a run of groups that each ask for another one, and a last group. The two decoders do the
same with one of at most ten groups. `VarInt::decode` takes an eleventh group too, which its shift has no
place for, and of a tenth group it keeps one bit. So its value is exact for every encoding but those of
eleven groups and those of ten whose last one is more than a bit (`exact_iff`), and the two decoders agree
on all but those of eleven groups (`agree_iff`).
-/

namespace NebulaFS

namespace VarInt

variable {buf rest groups : Bytes} {last byte : UInt8}

/-- The sum of the groups, each with its power of 128. -/
def groupSum (code : Bytes) : Nat :=
  Nat.ofDigits 128 (code.map fun byte => byte.toNat % 128)

/-- The bytes are a first encoding, with `groups` before its `last` group, and a rest. -/
structure Splits (buf groups : Bytes) (last : UInt8) (rest : Bytes) : Prop where
  eq : buf = groups ++ last :: rest
  continued : ∀ byte ∈ groups, 0x80 ≤ byte
  ends : last < 0x80

/-- What `decode` takes it reads without a loss, and what has no place in the word it refuses. -/
structure Exact (buf : Bytes) : Prop where
  consumed_le : (decode buf).valid → (decode buf).consumed ≤ maxEncodedSize
  shifts_lt : (decode buf).valid → ∀ shift ∈ decodeShifts buf 0, shift < 64
  value_eq : (decode buf).valid →
    (decode buf).value.toNat = groupSum (buf.take (decode buf).consumed)
  refuses : ∀ groups last rest, Splits buf groups last rest →
    2 ^ 64 ≤ groupSum (groups ++ [last]) → (decode buf).valid = false

theorem groupSum_append (code more : Bytes) :
    groupSum (code ++ more) = groupSum code + 128 ^ code.length * groupSum more := by
  rw [groupSum, List.map_append, Nat.ofDigits_append, List.length_map]
  rfl

theorem groupSum_lt (code : Bytes) : groupSum code < 128 ^ code.length := by
  have hdigits : ∀ digit ∈ code.map fun byte => byte.toNat % 128, digit < 128 := by
    intro digit hdigit
    obtain ⟨byte, -, rfl⟩ := List.mem_map.mp hdigit
    exact Nat.mod_lt _ (by decide)
  have hlt := Nat.ofDigits_lt_base_pow_length (by decide) hdigits
  rwa [List.length_map] at hlt

theorem groupSum_singleton (byte : UInt8) : groupSum [byte] = byte.toNat % 128 := by
  simp [groupSum]

theorem groupSum_concat (code : Bytes) (byte : UInt8) :
    groupSum (code ++ [byte]) = groupSum code + byte.toNat % 128 * 2 ^ (7 * code.length) := by
  rw [groupSum_append, groupSum_singleton, pow_mul, Nat.mul_comm]
  rfl

theorem groupSum_lt_two_pow (code : Bytes) : groupSum code < 2 ^ (7 * code.length) := by
  have hlt := groupSum_lt code
  rwa [pow_mul]

/-! ### The loops on a first encoding -/

theorem exists_splits (buf : Bytes) :
    (∀ byte ∈ buf, 0x80 ≤ byte) ∨ ∃ groups last rest, Splits buf groups last rest := by
  induction buf with
  | nil => exact Or.inl fun _ hmem => absurd hmem List.not_mem_nil
  | cons byte buf ih =>
      by_cases hbyte : byte < 0x80
      · exact Or.inr ⟨[], byte, buf, rfl, fun _ hmem => absurd hmem List.not_mem_nil, hbyte⟩
      · rw [UInt8.not_lt] at hbyte
        rcases ih with hall | ⟨groups, last, rest, h⟩
        · exact Or.inl (List.forall_mem_cons.mpr ⟨hbyte, hall⟩)
        · exact Or.inr ⟨byte :: groups, last, rest, congrArg (byte :: ·) h.eq,
            List.forall_mem_cons.mpr ⟨hbyte, h.continued⟩, h.ends⟩

/-- The first nine groups fit, and the two loops read them alike. -/
theorem loops_groups (hgroups : ∀ byte ∈ groups, 0x80 ≤ byte) (i : Nat)
    (hi : i + groups.length ≤ 9) (value : UInt64) (hvalue : value.toNat < 2 ^ (7 * i))
    (tail : Bytes) :
    ∃ read : UInt64, read.toNat = value.toNat + groupSum groups * 2 ^ (7 * i)
      ∧ decodeLoop (groups ++ tail) i (7 * i) value
        = decodeLoop tail (i + groups.length) (7 * (i + groups.length)) read
      ∧ Buffer.readVarIntLoop (groups ++ tail) i (7 * i) value
        = Buffer.readVarIntLoop tail (i + groups.length) (7 * (i + groups.length)) read := by
  induction groups generalizing i value with
  | nil => exact ⟨value, by simp [groupSum], rfl, rfl⟩
  | cons byte groups ih =>
      rw [List.length_cons] at hi
      obtain ⟨hbyte, hgroups⟩ := List.forall_mem_cons.mp hgroups
      have hcontinued : 128 ≤ byte.toNat := UInt8.le_iff_toNat_le.mp hbyte
      have hnot : ¬ (byte &&& 0x80 = 0) := by
        rw [(byte_groups byte).2.1]
        omega
      have hpow : 2 ^ (7 * i) ≤ 2 ^ 56 := Nat.pow_le_pow_right (by decide) (by omega)
      have hgroup : byte.toNat % 128 * 2 ^ (7 * i) ≤ 127 * 2 ^ (7 * i) :=
        Nat.mul_le_mul_right _ (by omega)
      have hshifted : byte.toNat % 128 * 2 ^ (7 * i) < 2 ^ 64 := by omega
      have hor := toNat_or_shiftLeft (by omega) hvalue hshifted
      have hnext : 2 ^ (7 * (i + 1)) = 128 * 2 ^ (7 * i) := by
        rw [Nat.mul_succ, pow_add, Nat.mul_comm]
        norm_num
      obtain ⟨read, hread, hdecode, hbuffer⟩ := ih hgroups (i + 1) (by omega)
        (value ||| ((byte &&& 0x7F).toUInt64 <<< (7 * i).toUInt64)) (by rw [hor]; omega)
      have hindex : i + 1 + groups.length = i + (groups.length + 1) := by omega
      rw [hindex] at hdecode hbuffer
      refine ⟨read, ?_, ?_, ?_⟩
      · have hsum : groupSum (byte :: groups) = byte.toNat % 128 + 128 * groupSum groups :=
          Nat.ofDigits_cons
        rw [hread, hor, hsum, hnext]
        ring
      · rw [List.cons_append, decodeLoop_continue hcontinued _ _ (by omega), List.length_cons]
        exact hdecode
      · rw [List.cons_append, Buffer.readVarIntLoop, if_neg hnot, if_neg (by omega),
          List.length_cons]
        exact hbuffer

theorem Splits.last_lt (h : Splits buf groups last rest) : last.toNat < 128 :=
  UInt8.lt_iff_toNat_lt.mp h.ends

/-- Up to ten groups are taken. -/
theorem Splits.loops (h : Splits buf groups last rest) (hlength : groups.length ≤ 9) :
    ∃ value : UInt64, decode buf = ⟨value, groups.length + 1, true⟩
      ∧ Buffer.readVarIntLoop buf 0 0 0 = (value, groups.length + 1)
      ∧ (groupSum (groups ++ [last]) < 2 ^ 64 → value.toNat = groupSum (groups ++ [last])) := by
  obtain ⟨read, hread, hdecode, hbuffer⟩ := loops_groups h.continued 0 (by omega) 0
    (by simp) (last :: rest)
  simp only [UInt64.toNat_zero, Nat.mul_zero, pow_zero, Nat.mul_one, Nat.zero_add]
    at hread hdecode hbuffer
  have hlast := h.last_lt
  refine ⟨read ||| ((last &&& 0x7F).toUInt64 <<< (7 * groups.length).toUInt64), ?_, ?_, ?_⟩
  · rw [decode, h.eq, hdecode, decodeLoop_last hlast]
  · rw [h.eq, hbuffer, Buffer.readVarIntLoop, if_pos ((byte_groups last).2.1.mpr hlast)]
  · intro hfits
    rw [groupSum_concat] at hfits ⊢
    rw [← hread] at hfits ⊢
    apply toNat_or_shiftLeft (by omega) _ (by omega)
    rw [hread]
    exact groupSum_lt_two_pow groups

/-- The eleventh group is taken by the one loop and not reached by the other. -/
theorem Splits.loops_of_eleven (h : Splits buf groups last rest) (hlength : groups.length = 10) :
    (decode buf).valid = true ∧ (decode buf).consumed = 11
      ∧ (Buffer.readVarIntLoop buf 0 0 0).2 = 10 := by
  obtain ⟨first, tenth, hsplit⟩ : ∃ first tenth, groups = first ++ [tenth] :=
    ⟨_, _, (List.dropLast_append_getLast (List.ne_nil_of_length_pos (by omega))).symm⟩
  have hcontinued := h.continued
  have heq := h.eq
  rw [hsplit] at hcontinued heq hlength
  rw [List.length_append, List.length_singleton] at hlength
  obtain ⟨hfirst, htenth⟩ := List.forall_mem_append.mp hcontinued
  have hbyte : 128 ≤ tenth.toNat := UInt8.le_iff_toNat_le.mp (htenth tenth (by simp))
  have hnot : ¬ (tenth &&& 0x80 = 0) := by
    rw [(byte_groups tenth).2.1]
    omega
  obtain ⟨read, -, hdecode, hbuffer⟩ := loops_groups hfirst 0 (by omega) 0
    (by simp) (tenth :: last :: rest)
  rw [List.append_assoc, List.singleton_append] at heq
  have hnine : first.length = 9 := by omega
  simp only [Nat.mul_zero, Nat.zero_add, hnine] at hdecode hbuffer
  refine ⟨?_, ?_, ?_⟩
  · rw [decode, heq, hdecode, decodeLoop_continue hbyte _ _ (by omega), decodeLoop_last h.last_lt]
  · rw [decode, heq, hdecode, decodeLoop_continue hbyte _ _ (by omega), decodeLoop_last h.last_lt]
  · rw [heq, hbuffer, Buffer.readVarIntLoop, if_neg hnot, if_pos (by omega)]

/-- The loop of `decode` ends at an eleventh group that asks for another one. -/
theorem Splits.not_valid_of_long (h : Splits buf groups last rest) (hlength : 11 ≤ groups.length) :
    (decode buf).valid = false := by
  obtain ⟨first, more, hsplit, hnine⟩ : ∃ first more, groups = first ++ more ∧ first.length = 9 :=
    ⟨groups.take 9, groups.drop 9, (List.take_append_drop 9 groups).symm, by simp; omega⟩
  have hcontinued := h.continued
  have heq := h.eq
  rw [hsplit] at hcontinued heq hlength
  rw [List.length_append] at hlength
  obtain ⟨hfirst, hmore⟩ := List.forall_mem_append.mp hcontinued
  obtain ⟨read, -, hdecode, -⟩ := loops_groups hfirst 0 (by omega) 0
    (by simp) (more ++ last :: rest)
  simp only [Nat.mul_zero, Nat.zero_add, hnine] at hdecode
  obtain ⟨tenth, eleventh, later, rfl⟩ : ∃ tenth eleventh later, more = tenth :: eleventh :: later := by
    match more, hlength with
    | tenth :: eleventh :: later, _ => exact ⟨tenth, eleventh, later, rfl⟩
    | [], hlength | [_], hlength => simp [hnine] at hlength
  have htenth : 128 ≤ tenth.toNat := UInt8.le_iff_toNat_le.mp (hmore tenth (by simp))
  have heleventh : ¬ (eleventh &&& 0x80 = 0) := by
    rw [(byte_groups eleventh).2.1, not_lt]
    exact UInt8.le_iff_toNat_le.mp (hmore eleventh (by simp))
  rw [decode, heq, List.append_assoc, hdecode, List.cons_append, List.cons_append,
    decodeLoop_continue htenth _ _ (by omega), decodeLoop, if_neg heleventh, if_pos (by omega)]
  split <;> rfl

theorem not_valid_of_continued (h : ∀ byte ∈ buf, 0x80 ≤ byte) : (decode buf).valid = false :=
  decodeLoop_continued (fun byte hbyte => UInt8.le_iff_toNat_le.mp (h byte hbyte)) 0 0 0

theorem mem_decodeShifts (hgroups : ∀ byte ∈ groups, 0x80 ≤ byte) (hlast : last < 0x80)
    (start : Nat) {shift : Nat} (hshift : shift ∈ decodeShifts (groups ++ last :: rest) start) :
    shift ≤ start + 7 * groups.length := by
  induction groups generalizing start with
  | nil =>
      have hends : last &&& 0x80 = 0 := (byte_groups last).2.1.mpr (UInt8.lt_iff_toNat_lt.mp hlast)
      rw [List.nil_append, decodeShifts, if_pos (Or.inl hends), List.mem_singleton] at hshift
      omega
  | cons byte groups ih =>
      rw [List.cons_append, decodeShifts] at hshift
      rw [List.length_cons]
      split at hshift
      · rw [List.mem_singleton] at hshift
        omega
      · rcases List.mem_cons.mp hshift with rfl | hmem
        · omega
        · have hle := ih (List.forall_mem_cons.mp hgroups).2 (start + 7) hmem
          omega

/-! ### What is read exactly -/

/-- A tenth group has room for one bit. -/
theorem Splits.groupSum_lt_iff (h : Splits buf groups last rest) (hlength : groups.length ≤ 9) :
    groupSum (groups ++ [last]) < 2 ^ 64 ↔ (groups.length = 9 → last ≤ 1) := by
  have hgroups := groupSum_lt_two_pow groups
  have hlast := h.last_lt
  have hle : last ≤ 1 ↔ last.toNat ≤ 1 := UInt8.le_iff_toNat_le
  rw [groupSum_concat, Nat.mod_eq_of_lt hlast, hle]
  by_cases hnine : groups.length = 9
  · rw [hnine] at hgroups ⊢
    omega
  · have hpow : 2 ^ (7 * groups.length) ≤ 2 ^ 56 := Nat.pow_le_pow_right (by decide) (by omega)
    have hgroup : last.toNat * 2 ^ (7 * groups.length) ≤ 127 * 2 ^ (7 * groups.length) :=
      Nat.mul_le_mul_right _ (by omega)
    refine iff_of_true (by omega) fun hlength => absurd hlength hnine

theorem Splits.take_eq (h : Splits buf groups last rest) :
    buf.take (groups.length + 1) = groups ++ [last] := by
  rw [h.eq, List.take_append, List.take_of_length_le (by omega)]
  simp

/-- Where no encoding is too long, what is taken is a first encoding that fits. -/
theorem exists_fitting (hfits : ∀ groups last rest, Splits buf groups last rest →
      groups.length ≠ 10 ∧ (groups.length = 9 → last ≤ 1))
    (hvalid : (decode buf).valid = true) :
    ∃ groups last rest, Splits buf groups last rest ∧ groups.length ≤ 9
      ∧ (decode buf).consumed = groups.length + 1
      ∧ (decode buf).value.toNat = groupSum (groups ++ [last]) := by
  rcases exists_splits buf with hall | ⟨groups, last, rest, h⟩
  · rw [not_valid_of_continued hall] at hvalid
    cases hvalid
  · obtain ⟨hten, hbit⟩ := hfits groups last rest h
    have hlength : groups.length ≤ 9 := by
      by_contra hlong
      rw [h.not_valid_of_long (by omega)] at hvalid
      cases hvalid
    obtain ⟨value, hdecode, -, hvalue⟩ := h.loops hlength
    refine ⟨groups, last, rest, h, hlength, by rw [hdecode], ?_⟩
    rw [hdecode]
    exact hvalue ((h.groupSum_lt_iff hlength).mpr hbit)

/-- **A decoded varint is exact** unless its encoding has eleven groups, or ten with more than a bit in
the last one. -/
theorem exact_iff (buf : Bytes) :
    Exact buf ↔ ∀ groups last rest, Splits buf groups last rest →
      groups.length ≠ 10 ∧ (groups.length = 9 → last ≤ 1) := by
  constructor
  · intro hexact groups last rest h
    constructor
    · intro hlength
      obtain ⟨hvalid, hconsumed, -⟩ := h.loops_of_eleven hlength
      have hle := hexact.consumed_le hvalid
      rw [hconsumed, maxEncodedSize] at hle
      omega
    · intro hlength
      by_contra hlast
      have hlarge : 2 ^ 64 ≤ groupSum (groups ++ [last]) := by
        rw [← not_lt, h.groupSum_lt_iff (le_of_eq hlength)]
        exact fun hbit => hlast (hbit hlength)
      obtain ⟨value, hdecode, -⟩ := h.loops (le_of_eq hlength)
      have hrefused := hexact.refuses groups last rest h hlarge
      rw [hdecode] at hrefused
      cases hrefused
  · intro hfits
    constructor
    case consumed_le =>
        intro hvalid
        obtain ⟨groups, last, rest, h, hlength, hconsumed, -⟩ := exists_fitting hfits hvalid
        rw [hconsumed, maxEncodedSize]
        omega
    case shifts_lt =>
        intro hvalid shift hshift
        obtain ⟨groups, last, rest, h, hlength, -⟩ := exists_fitting hfits hvalid
        rw [h.eq] at hshift
        have hle := mem_decodeShifts h.continued h.ends 0 hshift
        omega
    case value_eq =>
        intro hvalid
        obtain ⟨groups, last, rest, h, -, hconsumed, hvalue⟩ := exists_fitting hfits hvalid
        rw [hvalue, hconsumed, h.take_eq]
    case refuses =>
        intro groups last rest h hlarge
        obtain ⟨hten, hbit⟩ := hfits groups last rest h
        apply h.not_valid_of_long
        by_contra hshort
        exact absurd ((h.groupSum_lt_iff (by omega)).mpr hbit) (not_lt.mpr hlarge)

/-- Ten groups that stand for `2 ^ 64` are read as zero, and eleven that stand for `2 ^ 70` as 64. -/
theorem not_exact_overlong :
    decode (List.replicate 9 0x80 ++ [2]) = ⟨0, 10, true⟩
      ∧ groupSum (List.replicate 9 0x80 ++ [2]) = 2 ^ 64
      ∧ decode (List.replicate 10 0x80 ++ [1]) = ⟨64, 11, true⟩
      ∧ groupSum (List.replicate 10 0x80 ++ [1]) = 2 ^ 70
      ∧ ¬ Exact (List.replicate 9 0x80 ++ [2]) ∧ ¬ Exact (List.replicate 10 0x80 ++ [1]) := by
  have hten : decode (List.replicate 9 0x80 ++ [2]) = ⟨0, 10, true⟩ := by decide +kernel
  have heleven : decode (List.replicate 10 0x80 ++ [1]) = ⟨64, 11, true⟩ := by decide +kernel
  have hsum : groupSum (List.replicate 9 0x80 ++ [2]) = 2 ^ 64 := by decide +kernel
  refine ⟨hten, hsum, heleven, by decide +kernel, ?_, ?_⟩
  · intro h
    have hrefused := h.refuses (List.replicate 9 0x80) 2 [] ⟨rfl, by decide +kernel, by decide⟩
      (le_of_eq hsum.symm)
    rw [hten] at hrefused
    cases hrefused
  · intro h
    have hconsumed := h.consumed_le (by rw [heleven])
    rw [heleven] at hconsumed
    exact absurd hconsumed (by decide)

/-! ### The two decoders -/

/-- Where `VarInt::decode` takes a varint, `Buffer::readVarInt` takes the same. -/
def ReadersAgree (buffer : Buffer) (pos : Nat) : Prop :=
  (decode (buffer.data.drop pos)).valid → buffer.readVarInt pos
    = ((decode (buffer.data.drop pos)).value, (decode (buffer.data.drop pos)).consumed)

/-- **The two varint readers agree** unless the encoding at the position has eleven groups. -/
theorem readersAgree_iff (buffer : Buffer) (pos : Nat) :
    ReadersAgree buffer pos ↔ ∀ groups last rest,
      Splits (buffer.data.drop pos) groups last rest → groups.length ≠ 10 := by
  constructor
  · intro hagree groups last rest h hlength
    obtain ⟨hvalid, hconsumed, hadvanced⟩ := h.loops_of_eleven hlength
    have heq := congrArg Prod.snd (hagree hvalid)
    rw [hconsumed, Buffer.readVarInt, hadvanced] at heq
    cases heq
  · intro hfits hvalid
    rcases exists_splits (buffer.data.drop pos) with hall | ⟨groups, last, rest, h⟩
    · rw [not_valid_of_continued hall] at hvalid
      cases hvalid
    · have hten := hfits groups last rest h
      have hlength : groups.length ≤ 9 := by
        by_contra hlong
        rw [h.not_valid_of_long (by omega)] at hvalid
        cases hvalid
      obtain ⟨value, hdecode, hbuffer, -⟩ := h.loops hlength
      rw [Buffer.readVarInt, hbuffer, hdecode]

/-- Eleven groups: the one reader takes all of them, the other ten. -/
theorem not_readersAgree_elevenGroups :
    decode (List.replicate 10 0x80 ++ [1]) = ⟨64, 11, true⟩
      ∧ (Buffer.mk (List.replicate 10 0x80 ++ [1])).readVarInt 0 = (0, 10)
      ∧ ¬ ReadersAgree (Buffer.mk (List.replicate 10 0x80 ++ [1])) 0 := by
  have hdecode : decode (List.replicate 10 0x80 ++ [1]) = ⟨64, 11, true⟩ := by decide +kernel
  have hread : (Buffer.mk (List.replicate 10 0x80 ++ [1])).readVarInt 0 = (0, 10) := by
    decide +kernel
  refine ⟨hdecode, hread, ?_⟩
  intro hagree
  rw [ReadersAgree, List.drop_zero, hread, hdecode] at hagree
  cases hagree rfl

end VarInt

end NebulaFS
