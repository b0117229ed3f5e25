import NebulaFS.VarInt
import Mathlib.Tactic.Ring

/-!
# The varint code is complete and prefix free

`decode_encode_append` reads a varint back whatever follows it, and `decode_of_torn` refuses every
proper prefix of one. The second is what lets a torn file be cut at the last complete record. The
loop invariant of the first is that the groups read so far and the value still to come add up to the
encoded value, so no group is ever shifted out of the word. `encodedSize` and the two overloads of
`encode` stop at the same group (`roundTrip`).
-/

namespace NebulaFS

-- `UInt64.size` written as the power that `omega` knows
theorem toNat_ofNat_of_lt {n : Nat} (h : n < 2 ^ 64) : (UInt64.ofNat n).toNat = n :=
  UInt64.toNat_ofNat_of_lt' h

namespace VarInt

theorem toNat_shiftRight_seven (value : UInt64) : (value >>> 7).toNat = value.toNat / 128 := by
  rw [UInt64.toNat_shiftRight]
  simp [Nat.shiftRight_eq_div_pow]

theorem toNat_low_group (value : UInt64) :
    ((value &&& 0x7F).toUInt8).toNat = value.toNat % 128 := by
  rw [UInt64.toNat_toUInt8, UInt64.toNat_and]
  have hmask : (0x7F : UInt64).toNat = 2 ^ 7 - 1 := rfl
  rw [hmask, Nat.and_two_pow_sub_one_eq_mod]
  omega

theorem shiftRight_seven_eq_zero_iff (value : UInt64) : value >>> 7 = 0 ↔ value.toNat < 128 := by
  rw [← UInt64.toNat_inj, toNat_shiftRight_seven]
  simp only [UInt64.toNat_zero]
  omega

theorem byte_groups :
    ∀ byte : UInt8, (byte &&& 0x7F).toNat = byte.toNat % 128
      ∧ (byte &&& 0x80 = 0 ↔ byte.toNat < 128)
      ∧ (byte.toNat < 128 → (byte ||| 0x80).toNat = byte.toNat + 128) := by
  intro byte
  have hall : ∀ n : Fin 256, (UInt8.ofFin n &&& 0x7F).toNat = (UInt8.ofFin n).toNat % 128
      ∧ (UInt8.ofFin n &&& 0x80 = 0 ↔ (UInt8.ofFin n).toNat < 128)
      ∧ ((UInt8.ofFin n).toNat < 128 →
        (UInt8.ofFin n ||| 0x80).toNat = (UInt8.ofFin n).toNat + 128) := by
    decide +kernel
  exact hall byte.toFin

theorem encodeBuf_ne_nil (bufSize : Nat) (value : UInt64) : encodeBuf (bufSize + 1) value ≠ [] := by
  simp only [encodeBuf]
  split <;> simp

theorem encode_ne_nil (value : UInt64) : encode value ≠ [] := encodeBuf_ne_nil 9 value

theorem length_encode_pos (value : UInt64) : 0 < (encode value).length :=
  List.length_pos_iff.mpr (encode_ne_nil value)

theorem encodeBuf_succ_eq (bufSize : Nat) (value : UInt64) :
    encodeBuf (bufSize + 1) value
      = if value >>> 7 ≠ 0 then
          ((value &&& 0x7F).toUInt8 ||| 0x80) :: encodeBuf bufSize (value >>> 7)
        else [(value &&& 0x7F).toUInt8] := rfl

theorem encodeBuf_mono {bufSize : Nat} {value : UInt64} (h : value.toNat < 128 ^ (bufSize + 1)) :
    encodeBuf (bufSize + 1) value = encodeBuf (bufSize + 2) value := by
  induction bufSize generalizing value with
  | zero =>
      have hzero : value >>> 7 = 0 := by
        rw [shiftRight_seven_eq_zero_iff]
        simpa using h
      simp [encodeBuf_succ_eq, hzero]
  | succ bufSize ih =>
      have hnext : (value >>> 7).toNat < 128 ^ (bufSize + 1) := by
        rw [toNat_shiftRight_seven, Nat.div_lt_iff_lt_mul (by decide)]
        rwa [pow_succ] at h
      rw [encodeBuf_succ_eq (bufSize + 1), encodeBuf_succ_eq (bufSize + 2), ih hnext]

/-- The loop of `encode(value, buf)` as the source writes it, without the bound. -/
theorem encode_eq (value : UInt64) :
    encode value = if value >>> 7 ≠ 0 then
        ((value &&& 0x7F).toUInt8 ||| 0x80) :: encode (value >>> 7)
      else [(value &&& 0x7F).toUInt8] := by
  have hsmall : (value >>> 7).toNat < 128 ^ 9 := by
    rw [toNat_shiftRight_seven]
    have := value.toNat_lt
    norm_num at *
    omega
  rw [encode, encode, maxEncodedSize, encodeBuf_succ_eq, encodeBuf_mono hsmall]

/-! ### Decoding what was encoded -/

/-- One round of the decoder's accumulator: the group lands above everything read before it. -/
theorem toNat_or_shiftLeft {value : UInt64} {byte : UInt8} {shift : Nat} (hshift : shift < 64)
    (hvalue : value.toNat < 2 ^ shift) (hfits : byte.toNat % 128 * 2 ^ shift < 2 ^ 64) :
    (value ||| ((byte &&& 0x7F).toUInt64 <<< shift.toUInt64)).toNat
      = value.toNat + byte.toNat % 128 * 2 ^ shift := by
  have hamount : (shift.toUInt64).toNat = shift := by
    rw [Nat.toUInt64, UInt64.toNat_ofNat']
    omega
  rw [UInt64.toNat_or, UInt64.toNat_shiftLeft, UInt8.toNat_toUInt64, (byte_groups byte).1, hamount,
    Nat.mod_eq_of_lt hshift, Nat.shiftLeft_eq, Nat.mod_eq_of_lt hfits, Nat.or_comm, Nat.mul_comm,
    ← Nat.two_pow_add_eq_or_of_lt hvalue, Nat.add_comm]

theorem decodeLoop_last {byte : UInt8} (h : byte.toNat < 128) (rest : Bytes) (i shift : Nat)
    (value : UInt64) :
    decodeLoop (byte :: rest) i shift value
      = ⟨value ||| ((byte &&& 0x7F).toUInt64 <<< shift.toUInt64), i + 1, true⟩ := by
  rw [decodeLoop, if_pos ((byte_groups byte).2.1.mpr h)]

theorem decodeLoop_continue {byte : UInt8} (h : 128 ≤ byte.toNat) (rest : Bytes) (i : Nat)
    {shift : Nat} (hshift : shift + 7 ≤ 70) (value : UInt64) :
    decodeLoop (byte :: rest) i shift value
      = decodeLoop rest (i + 1) (shift + 7)
          (value ||| ((byte &&& 0x7F).toUInt64 <<< shift.toUInt64)) := by
  have hbyte : ¬ (byte &&& 0x80 = 0) := by
    rw [(byte_groups byte).2.1]
    omega
  rw [decodeLoop, if_neg hbyte, if_neg (by omega)]

/-- The low group and what is left above it make up the value. -/
theorem low_group_add_rest (n shift : Nat) :
    n % 128 * 2 ^ shift + n / 128 * 2 ^ (shift + 7) = n * 2 ^ shift := by
  have hpow : 2 ^ (shift + 7) = 128 * 2 ^ shift := by
    rw [pow_add, Nat.mul_comm]
    norm_num
  calc n % 128 * 2 ^ shift + n / 128 * 2 ^ (shift + 7)
      = (n % 128 + 128 * (n / 128)) * 2 ^ shift := by
        rw [hpow]
        ring
    _ = n * 2 ^ shift := by rw [Nat.mod_add_div]

theorem shift_add_seven_lt {n shift : Nat} (hlarge : 128 ≤ n) (htotal : n * 2 ^ shift < 2 ^ 64) :
    shift + 7 < 64 := by
  by_contra hover
  have hpow : 2 ^ 64 ≤ 2 ^ (shift + 7) := Nat.pow_le_pow_right (by decide) (by omega)
  have hgroup : 128 * 2 ^ shift ≤ n * 2 ^ shift := Nat.mul_le_mul_right _ hlarge
  rw [pow_add, Nat.mul_comm] at hpow
  omega

theorem toNat_continued (value : UInt64) :
    ((value &&& 0x7F).toUInt8 ||| 0x80).toNat = value.toNat % 128 + 128 := by
  have hgroup := toNat_low_group value
  rw [(byte_groups (value &&& 0x7F).toUInt8).2.2 (by omega), hgroup]

theorem toNat_or_continued (value : UInt64) {read : UInt64} {shift : Nat} (hshift : shift < 64)
    (hread : read.toNat < 2 ^ shift) (htotal : value.toNat * 2 ^ shift < 2 ^ 64) :
    (read ||| ((((value &&& 0x7F).toUInt8 ||| 0x80) &&& 0x7F).toUInt64 <<< shift.toUInt64)).toNat
      = read.toNat + value.toNat % 128 * 2 ^ shift := by
  have hgroup : ((value &&& 0x7F).toUInt8 ||| 0x80).toNat % 128 = value.toNat % 128 := by
    rw [toNat_continued]
    omega
  have hfits : value.toNat % 128 * 2 ^ shift ≤ value.toNat * 2 ^ shift :=
    Nat.mul_le_mul_right _ (Nat.mod_le _ _)
  rw [toNat_or_shiftLeft hshift hread (by rw [hgroup]; omega), hgroup]

theorem decodeLoop_encodeBuf (bufSize : Nat) :
    ∀ (value read : UInt64) (i shift : Nat) (rest : Bytes),
      value.toNat < 128 ^ (bufSize + 1) → shift < 64 → read.toNat < 2 ^ shift →
      read.toNat + value.toNat * 2 ^ shift < 2 ^ 64 →
      decodeLoop (encodeBuf (bufSize + 1) value ++ rest) i shift read
        = ⟨UInt64.ofNat (read.toNat + value.toNat * 2 ^ shift),
            i + (encodeBuf (bufSize + 1) value).length, true⟩ := by
  induction bufSize with
  | zero =>
      intro value read i shift rest hvalue hshift hread htotal
      have hsmall : value.toNat < 128 := by simpa using hvalue
      have hlast : value >>> 7 = 0 := (shiftRight_seven_eq_zero_iff value).mpr hsmall
      have hbyte : ((value &&& 0x7F).toUInt8).toNat = value.toNat := by
        rw [toNat_low_group, Nat.mod_eq_of_lt hsmall]
      rw [encodeBuf_succ_eq, if_neg (not_not.mpr hlast), List.singleton_append,
        decodeLoop_last (by omega), List.length_singleton]
      congr 1
      apply UInt64.toNat_inj.mp
      rw [toNat_or_shiftLeft hshift hread (by rw [hbyte, Nat.mod_eq_of_lt hsmall]; omega), hbyte,
        Nat.mod_eq_of_lt hsmall, toNat_ofNat_of_lt htotal]
  | succ bufSize ih =>
      intro value read i shift rest hvalue hshift hread htotal
      by_cases hlast : value >>> 7 = 0
      · -- the value has no group left for a longer buffer: this is the previous case
        have hsmall : value.toNat < 128 := (shiftRight_seven_eq_zero_iff value).mp hlast
        have hshort : value.toNat < 128 ^ (bufSize + 1) :=
          lt_of_lt_of_le hsmall (Nat.le_self_pow (by omega) 128)
        rw [← encodeBuf_mono hshort]
        exact ih value read i shift rest hshort hshift hread htotal
      · have hlarge : 128 ≤ value.toNat := by
          by_contra h
          exact hlast ((shiftRight_seven_eq_zero_iff value).mpr (by omega))
        have hcontinued := toNat_continued value
        have hread' := toNat_or_continued value hshift hread (by omega)
        have hnext := toNat_shiftRight_seven value
        have hparts := low_group_add_rest value.toNat shift
        have hnextSmall : (value >>> 7).toNat < 128 ^ (bufSize + 1) := by
          rw [hnext, Nat.div_lt_iff_lt_mul (by decide), ← pow_succ]
          exact hvalue
        have hreadSmall : read.toNat + value.toNat % 128 * 2 ^ shift < 2 ^ (shift + 7) := by
          have hgroup : value.toNat % 128 * 2 ^ shift ≤ 127 * 2 ^ shift :=
            Nat.mul_le_mul_right _ (by omega)
          rw [pow_add]
          omega
        rw [encodeBuf_succ_eq, if_pos hlast, List.cons_append,
          decodeLoop_continue (by omega) _ _ (by omega),
          ih (value >>> 7) _ (i + 1) (shift + 7) rest hnextSmall
            (shift_add_seven_lt hlarge (by omega)) (by rw [hread']; exact hreadSmall)
            (by rw [hread', hnext]; omega),
          hread', hnext, Nat.add_assoc, hparts, List.length_cons]
        congr 1
        omega

/-- **Round trip.** A varint is read back exactly, whatever bytes follow it. -/
theorem decode_encode_append (value : UInt64) (rest : Bytes) :
    decode (encode value ++ rest) = ⟨value, (encode value).length, true⟩ := by
  have hvalue := value.toNat_lt
  have hloop := decodeLoop_encodeBuf 9 value 0 0 0 rest (by norm_num; omega) (by decide) (by simp)
    (by simpa using hvalue)
  rw [decode, encode, maxEncodedSize, hloop]
  simp

/-! ### No proper prefix decodes -/

theorem encodeBuf_eq_append (bufSize : Nat) (value : UInt64) :
    ∃ init last, encodeBuf (bufSize + 1) value = init ++ [last] ∧ ∀ byte ∈ init, 128 ≤ byte.toNat := by
  induction bufSize generalizing value with
  | zero =>
      rw [encodeBuf_succ_eq]
      split
      · exact ⟨[], _, rfl, by simp⟩
      · exact ⟨[], _, rfl, by simp⟩
  | succ bufSize ih =>
      rw [encodeBuf_succ_eq]
      split
      · obtain ⟨init, last, heq, hinit⟩ := ih (value >>> 7)
        refine ⟨((value &&& 0x7F).toUInt8 ||| 0x80) :: init, last, by rw [heq]; rfl, ?_⟩
        intro byte hbyte
        rcases List.mem_cons.mp hbyte with rfl | hbyte
        · rw [(byte_groups _).2.2 (by rw [toNat_low_group]; omega)]
          omega
        · exact hinit byte hbyte
      · exact ⟨[], _, rfl, by simp⟩

theorem decodeLoop_continued {buf : Bytes} (h : ∀ byte ∈ buf, 128 ≤ byte.toNat) (i shift : Nat)
    (value : UInt64) : (decodeLoop buf i shift value).valid = false := by
  induction buf generalizing i shift value with
  | nil => rfl
  | cons byte rest ih =>
      have hbyte : 128 ≤ byte.toNat := h byte (by simp)
      by_cases hshift : shift + 7 ≤ 70
      · rw [decodeLoop_continue hbyte rest i hshift]
        exact ih (fun other hother => h other (by simp [hother])) _ _ _
      · have hcontinue : ¬ (byte &&& 0x80 = 0) := by
          rw [(byte_groups byte).2.1]
          omega
        rw [decodeLoop, if_neg hcontinue, if_pos (by omega)]
        split <;> rfl

/-- **Prefix freeness.** Every byte but the last asks for another one, so a cut varint is never
valid. -/
theorem decode_of_torn {value : UInt64} {piece : Bytes} (hpre : piece <+: encode value)
    (hshort : piece.length < (encode value).length) : (decode piece).valid = false := by
  obtain ⟨init, last, heq, hinit⟩ := encodeBuf_eq_append 9 value
  have hencode : encode value = init ++ [last] := heq
  apply decodeLoop_continued
  intro byte hbyte
  rw [hencode] at hpre hshort
  have hsub : piece <+: init := by
    rw [List.prefix_concat_iff] at hpre
    rcases hpre with hfull | hsub
    · rw [hfull] at hshort
      omega
    · exact hsub
  exact hinit byte (hsub.subset hbyte)

/-! ### How far it reads -/

theorem lt_consumed_decodeLoop {buf : Bytes} {i shift : Nat} {value : UInt64}
    (h : (decodeLoop buf i shift value).valid = true) :
    i < (decodeLoop buf i shift value).consumed := by
  induction buf generalizing i shift value with
  | nil => cases h
  | cons byte rest ih =>
      rw [decodeLoop] at h ⊢
      split
      · exact Nat.lt_succ_self i
      · rename_i hbyte
        rw [if_neg hbyte] at h
        split
        · rename_i hshift
          rw [if_pos hshift] at h
          split at h <;> cases h
        · rename_i hshift
          rw [if_neg hshift] at h
          exact Nat.lt_of_succ_lt (ih h)

/-- A varint is read from a beginning of the buffer just when it ends in it. -/
theorem decodeLoop_take {buf : Bytes} {n i shift : Nat} {value : UInt64} {result : DecodeResult}
    (hvalid : result.valid = true) :
    decodeLoop (buf.take n) i shift value = result
      ↔ decodeLoop buf i shift value = result ∧ result.consumed ≤ i + n := by
  induction buf generalizing n i shift value with
  | nil =>
      have hnil : decodeLoop [] i shift value ≠ result := by
        rintro rfl
        cases hvalid
      rw [List.take_nil]
      simp [hnil]
  | cons byte rest ih =>
      cases n with
      | zero =>
          rw [List.take_zero]
          constructor
          · rintro rfl
            cases hvalid
          · rintro ⟨rfl, hconsumed⟩
            have hlt := lt_consumed_decodeLoop hvalid
            omega
      | succ n =>
          rw [List.take_succ_cons, decodeLoop, decodeLoop]
          split
          · refine ⟨fun heq => ⟨heq, ?_⟩, fun heq => heq.1⟩
            rw [← heq]
            show i + 1 ≤ i + (n + 1)
            omega
          · split
            · constructor
              · rintro rfl
                split at hvalid <;> cases hvalid
              · rintro ⟨rfl, -⟩
                split at hvalid <;> cases hvalid
            · rw [ih, Nat.add_right_comm i 1 n, Nat.add_assoc i n 1]

theorem decode_take {buf : Bytes} {n : Nat} {result : DecodeResult} (hvalid : result.valid = true) :
    decode (buf.take n) = result ↔ decode buf = result ∧ result.consumed ≤ n := by
  rw [decode, decode, decodeLoop_take hvalid, Nat.zero_add]

/-! ### The three loops agree -/

theorem encodedSize_eq_length (value : UInt64) : encodedSize value = (encode value).length := by
  rw [encodedSize, encode_eq]
  have hlarge : (0x80 ≤ value) ↔ value >>> 7 ≠ 0 := by
    rw [UInt64.le_iff_toNat_le, ne_eq, shiftRight_seven_eq_zero_iff, not_lt]
    rfl
  by_cases h : 0x80 ≤ value
  · have hnext := encodedSize_eq_length (value >>> 7)
    rw [if_pos h, if_pos (hlarge.mp h), hnext, List.length_cons]
  · rw [if_neg h, if_neg (mt hlarge.mpr h), List.length_singleton]
termination_by value.toNat
decreasing_by
  have hle : 128 ≤ value.toNat := UInt64.le_iff_toNat_le.mp h
  rw [toNat_shiftRight_seven]
  omega

theorem length_encodeBuf_le (bufSize : Nat) (value : UInt64) :
    (encodeBuf bufSize value).length ≤ bufSize := by
  induction bufSize generalizing value with
  | zero => exact Nat.le_refl 0
  | succ bufSize ih =>
      rw [encodeBuf_succ_eq]
      split
      · have hrest := ih (value >>> 7)
        rw [List.length_cons]
        omega
      · rw [List.length_singleton]
        omega

/-- A buffer that is large enough takes the whole encoding. -/
theorem encodeBuf_of_le {bufSize : Nat} {value : UInt64} (h : (encode value).length ≤ bufSize) :
    encodeBuf bufSize value = encode value := by
  induction bufSize generalizing value with
  | zero => exact absurd h (Nat.not_le.mpr (length_encode_pos value))
  | succ bufSize ih =>
      rw [encode_eq] at h
      rw [encodeBuf_succ_eq, encode_eq]
      split
      next hmore =>
          rw [if_pos hmore, List.length_cons] at h
          rw [ih (by omega)]
      next => rfl

/-- **A varint in every way.** Whatever follows it, it is read back with as many bytes as it was written
with, which are those that `encodedSize` says and never more than ten. A buffer of that size takes the
same bytes, and no first part of them is a varint. -/
theorem roundTrip (value : UInt64) (rest : Bytes) :
    decode (encode value ++ rest) = ⟨value, (encode value).length, true⟩
      ∧ (encode value).length = encodedSize value
      ∧ 1 ≤ encodedSize value ∧ encodedSize value ≤ maxEncodedSize
      ∧ (∀ bufSize, encodedSize value ≤ bufSize →
        encodeBuf bufSize value = encode value
          ∧ (encodeBuf bufSize value).length = encodedSize value)
      ∧ ∀ piece, piece <+: encode value → piece ≠ encode value → (decode piece).valid = false := by
  have hsize := encodedSize_eq_length value
  refine ⟨decode_encode_append value rest, hsize.symm, ?_, ?_, ?_, ?_⟩
  · rw [hsize]
    exact length_encode_pos value
  · rw [hsize]
    exact length_encodeBuf_le maxEncodedSize value
  · intro bufSize hbuf
    rw [hsize] at hbuf
    rw [encodeBuf_of_le hbuf]
    exact ⟨rfl, hsize.symm⟩
  · intro piece hpre hne
    apply decode_of_torn hpre
    have hle := hpre.length_le
    have hshort : piece.length ≠ (encode value).length := mt hpre.eq_of_length hne
    omega

end VarInt

/-! ### Reads at a position -/

open Cursor

variable {data rest piece : Bytes} {offset : Nat}

theorem readVarInt_of_remaining (ec : ErrorCode) {value : UInt64}
    (h : Remaining data offset (VarInt.encode value ++ rest)) :
    readVarInt ec data offset = .ok (value, offset + (VarInt.encode value).length) := by
  rw [readVarInt, if_neg (Nat.not_lt.mpr h.1), h.2, VarInt.decode_encode_append]
  rfl

theorem readVarInt_of_torn (ec : ErrorCode) {value : UInt64} (h : Remaining data offset piece)
    (hpre : piece <+: VarInt.encode value) (hshort : piece.length < (VarInt.encode value).length) :
    readVarInt ec data offset = .error (.returned ec) := by
  rw [readVarInt, if_neg (Nat.not_lt.mpr h.1), h.2]
  simp [VarInt.decode_of_torn hpre hshort]

theorem tryVarInt_of_remaining {value : UInt64}
    (h : Remaining data offset (VarInt.encode value ++ rest)) :
    tryVarInt data offset = .ok (some value, offset + (VarInt.encode value).length) := by
  rw [tryVarInt, if_neg (Nat.not_lt.mpr h.1), h.2, VarInt.decode_encode_append]
  rfl

theorem readNext_of_remaining (ec : ErrorCode) {value : UInt64}
    (h : Remaining data offset (VarInt.encode value ++ rest)) :
    readNext ec data offset = .ok (value, offset + (VarInt.encode value).length) := by
  have hlength := h.length_eq
  have hpos := VarInt.length_encode_pos value
  rw [List.length_append] at hlength
  rw [readNext, if_pos (by omega), readVarInt_of_remaining ec h]

theorem readRange_of_remaining {bytes : Bytes} (h : Remaining data offset (bytes ++ rest)) :
    readRange data offset bytes.length = .ok (bytes, offset + bytes.length) := by
  have hlength := h.length_eq
  rw [List.length_append] at hlength
  rw [readRange, if_pos (by omega), h.slice_eq]

theorem readArr_of_remaining {n : Nat} {arr : ByteArr n}
    (h : Remaining data offset (arr.toList ++ rest)) :
    readArr n data offset = .ok (arr, offset + n) := by
  have hlength := h.length_eq
  rw [List.length_append, List.Vector.toList_length] at hlength
  rw [readArr, dif_pos (by omega)]
  congr 2
  exact Subtype.ext (h.slice_eq_of_length (List.Vector.toList_length arr))

theorem readByte_of_remaining {byte : UInt8} (h : Remaining data offset (byte :: rest)) :
    readByte data offset = .ok (byte, offset + 1) := by
  have hbyte : data[offset]? = some byte := by
    rw [← Nat.add_zero offset, ← List.getElem?_drop, h.2]
    rfl
  rw [readByte, hbyte]

theorem readByte_of_lt (h : offset < data.length) :
    readByte data offset = .ok (data[offset], offset + 1) := by
  rw [readByte, List.getElem?_eq_getElem h]

theorem readRange_of_le {n : Nat} (h : offset + n ≤ data.length) :
    readRange data offset n = .ok (slice data offset n, offset + n) :=
  if_pos h

theorem readArr_of_le {n : Nat} (h : offset + n ≤ data.length) :
    ∃ arr, readArr n data offset = .ok (arr, offset + n) :=
  ⟨_, dif_pos h⟩

theorem require_of_true {condition : Bool} (h : condition = true) (ec : ErrorCode) :
    require condition ec = .ok () := if_pos h

theorem require_of_false {condition : Bool} (h : condition = false) (ec : ErrorCode) :
    require condition ec = .error (.returned ec) :=
  if_neg (Bool.not_eq_true condition ▸ h)

/-- A length behind the position, with the sum of `size_t`, passes its check on genuine input. -/
theorem require_sum_of_remaining (ec : ErrorCode) {bytes : Bytes} (hdata : data.length < 2 ^ 64)
    (h : Remaining data offset (bytes ++ rest)) :
    require ((offset + bytes.length) % wordSize ≤ data.length) ec = .ok () := by
  have hlength := h.length_eq
  rw [List.length_append] at hlength
  apply require_of_true
  rw [decide_eq_true_iff, wordSize, Nat.mod_eq_of_lt (by omega)]
  omega

/-! ### Where the reads end -/

theorem readVarInt_inside (ec : ErrorCode) (h : offset ≤ data.length) :
    Yields (· = .returned ec) (fun read => offset < read.2 ∧ read.2 ≤ data.length)
      (readVarInt ec data offset) := by
  rw [readVarInt, if_neg (Nat.not_lt.mpr h)]
  simp only
  split
  · rename_i hvalid
    have hconsumed := VarInt.lt_consumed_decodeLoop hvalid
    have hwhole : VarInt.decode ((data.drop offset).take (data.drop offset).length)
        = VarInt.decode (data.drop offset) := by rw [List.take_length]
    have hinside := ((VarInt.decode_take hvalid).mp hwhole).2
    rw [List.length_drop] at hinside
    refine ⟨Nat.lt_add_of_pos_right hconsumed, ?_⟩
    show offset + (VarInt.decode (data.drop offset)).consumed ≤ data.length
    omega
  · rfl

theorem readNext_inside (ec : ErrorCode) (data : Bytes) (offset : Nat) :
    Yields (· = .returned ec) (fun read => offset < read.2 ∧ read.2 ≤ data.length)
      (readNext ec data offset) := by
  rw [readNext]
  split
  · rename_i hlt
    exact readVarInt_inside ec (Nat.le_of_lt hlt)
  · rfl

theorem readVarInt_yields (ec : ErrorCode) (data : Bytes) (offset : Nat) :
    Yields (· ≠ .outOfFuel) (fun read => offset < read.2 ∧ read.2 ≤ data.length)
      (readVarInt ec data offset) := by
  by_cases h : offset ≤ data.length
  · have hinside := readVarInt_inside ec h
    cases hread : readVarInt ec data offset with
    | ok read =>
        rw [hread] at hinside
        exact hinside
    | error e =>
        rw [hread] at hinside
        obtain rfl : e = .returned ec := hinside
        exact fun hfuel => by cases hfuel
  · rw [readVarInt, if_pos (Nat.not_le.mp h)]
    exact fun hfuel => by cases hfuel

theorem readRange_yields (data : Bytes) (offset length : Nat) :
    Yields (· ≠ .outOfFuel) (fun read => offset ≤ read.2 ∧ read.2 ≤ data.length)
      (readRange data offset length) := by
  rw [readRange]
  split
  · exact ⟨Nat.le_add_right _ _, ‹_›⟩
  · exact fun h => by cases h

theorem readArr_yields (n : Nat) (data : Bytes) (offset : Nat) :
    Yields (· ≠ .outOfFuel) (fun _ => True) (readArr n data offset) := by
  rw [readArr]
  split
  · trivial
  · exact fun h => by cases h

theorem readByte_yields (data : Bytes) (offset : Nat) :
    Yields (· ≠ .outOfFuel) (fun _ => True) (readByte data offset) := by
  rw [readByte]
  split
  · trivial
  · exact fun h => by cases h

theorem require_yields (condition : Bool) (ec : ErrorCode) :
    Yields (· ≠ .outOfFuel) (fun _ => True) (require condition ec) := by
  rw [require]
  split
  · trivial
  · exact fun h => by cases h

end NebulaFS
