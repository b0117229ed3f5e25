import NebulaFS.Types

/-!
# Variable-length integers and the reads a decoder makes

`VarInt` of `utils/VarInt.cpp`: seven bits a byte, low group first, the top bit set on every byte but
the last. Below it are the three kinds of read that every `deserialize` is made of. Each takes the
whole buffer and a position, and says so when the range it reads does not lie inside the buffer.
-/

namespace NebulaFS

namespace VarInt

/-- `kMaxEncodedSize`: a 64-bit value has at most ten groups of seven bits. -/
def maxEncodedSize : Nat := 10

/-- The bytes `encode(value, buf, bufSize)` writes: the loop stops when the buffer is full. -/
def encodeBuf : Nat → UInt64 → Bytes
  | 0, _ => []
  | bufSize + 1, value =>
      let byte := (value &&& 0x7F).toUInt8
      let value := value >>> 7
      if value ≠ 0 then (byte ||| 0x80) :: encodeBuf bufSize value else [byte]

/-- The bytes `encode(value, buf)` appends to a vector. The loop has no bound of its own; ten rounds
are all a 64-bit value takes, see `encode_eq`. -/
def encode (value : UInt64) : Bytes :=
  encodeBuf maxEncodedSize value

structure DecodeResult where
  value : UInt64
  consumed : Nat
  valid : Bool
deriving DecidableEq

/-- The loop of `decode` on the bytes it has not read yet. The eleventh byte is still shifted in
before `shift > 70` ends the loop: its shift of 70 is taken modulo 64, as the processor does. -/
def decodeLoop : Bytes → Nat → Nat → UInt64 → DecodeResult
  | [], _, _, _ => ⟨0, 0, false⟩
  | byte :: rest, i, shift, value =>
      let value := value ||| ((byte &&& 0x7F).toUInt64 <<< shift.toUInt64)
      if byte &&& 0x80 = 0 then ⟨value, i + 1, true⟩
      else if shift + 7 > 70 then
        -- a continuation bit on the very last byte is reported with nothing consumed
        if rest = [] then ⟨0, 0, false⟩ else ⟨0, i + 1, false⟩
      else decodeLoop rest (i + 1) (shift + 7) value

def decode (buf : Bytes) : DecodeResult :=
  decodeLoop buf 0 0 0

/-- The amounts by which the loop of `decode` shifts, in order. -/
def decodeShifts : Bytes → Nat → List Nat
  | [], _ => []
  | byte :: rest, shift =>
      if byte &&& 0x80 = 0 ∨ shift + 7 > 70 then [shift] else shift :: decodeShifts rest (shift + 7)

def encodedSize (value : UInt64) : Nat :=
  if 0x80 ≤ value then encodedSize (value >>> 7) + 1 else 1
termination_by value.toNat
decreasing_by
  rename_i hlarge
  have hle : 128 ≤ value.toNat := UInt64.le_iff_toNat_le.mp hlarge
  rw [UInt64.toNat_shiftRight]
  simp only [UInt64.reduceToNat, Nat.reduceMod, Nat.shiftRight_eq_div_pow]
  omega

end VarInt

/-! ### Reads at a position -/

abbrev Read (α : Type) := Except (Fault ErrorCode) (α × Nat)

/-- `VarInt::decode(data.subspan(offset))`, with `ec` returned when it is not valid. -/
def readVarInt (ec : ErrorCode) (data : Bytes) (offset : Nat) : Read UInt64 :=
  if data.length < offset then .error .outOfBounds
  else
    let result := VarInt.decode (data.drop offset)
    if result.valid then .ok (result.value, offset + result.consumed) else .error (.returned ec)

/-- The same behind a check that there is a byte left. -/
def readNext (ec : ErrorCode) (data : Bytes) (offset : Nat) : Read UInt64 :=
  if offset < data.length then readVarInt ec data offset else .error (.returned ec)

/-- A varint where the caller goes on without the number, from the same position, if it is not valid. -/
def tryVarInt (data : Bytes) (offset : Nat) : Read (Option UInt64) :=
  if data.length < offset then .error .outOfBounds
  else
    let result := VarInt.decode (data.drop offset)
    if result.valid then .ok (some result.value, offset + result.consumed) else .ok (none, offset)

def readRange (data : Bytes) (offset length : Nat) : Read Bytes :=
  if offset + length ≤ data.length then .ok (Cursor.slice data offset length, offset + length)
  else .error .outOfBounds

/-- `memcpy` of `n` bytes into an array. -/
def readArr (n : Nat) (data : Bytes) (offset : Nat) : Read (ByteArr n) :=
  if h : offset + n ≤ data.length then
    .ok (⟨Cursor.slice data offset n, Cursor.length_slice h⟩, offset + n)
  else .error .outOfBounds

/-- `data[offset++]`. -/
def readByte (data : Bytes) (offset : Nat) : Read UInt8 :=
  match data[offset]? with
  | some byte => .ok (byte, offset + 1)
  | none => .error .outOfBounds

def require (condition : Bool) (ec : ErrorCode) : Except (Fault ErrorCode) Unit :=
  if condition then .ok () else .error (.returned ec)

end NebulaFS
