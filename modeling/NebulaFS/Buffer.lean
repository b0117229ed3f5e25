import NebulaFS.Types

/-!
# The buffer

`utils/Buffer.cpp`, as far as it reads varints and ranges. `Buffer::readVarInt` has a loop of its own
beside the one of `VarInt::decode`. It has no way to refuse: where the bytes end, or where no group is left
in the word, it returns what it has read so far. The accessors of ranges ask `checkBounds` first, which
throws; nothing else keeps them inside.
-/

namespace NebulaFS

structure Buffer where
  data : Bytes := []
deriving DecidableEq

namespace Buffer

/-- The loop of `readVarInt` on the bytes it has not read yet: the value and `i - pos`. -/
def readVarIntLoop : Bytes → (advanced : Nat) → (shift : Nat) → UInt64 → UInt64 × Nat
  | [], advanced, _, value => (value, advanced)
  | byte :: rest, advanced, shift, value =>
      let value := value ||| ((byte &&& 0x7F).toUInt64 <<< shift.toUInt64)
      if byte &&& 0x80 = 0 then (value, advanced + 1)
      else if 64 ≤ shift + 7 then (value, advanced + 1)
      else readVarIntLoop rest (advanced + 1) (shift + 7) value

def readVarInt (buffer : Buffer) (pos : Nat) : UInt64 × Nat :=
  readVarIntLoop (buffer.data.drop pos) 0 0 0

/-! ### Ranges -/

/-- `std::out_of_range`, which is thrown with this text. -/
structure OutOfRange where
  what : String
deriving DecidableEq

/-- A span over bytes of the buffer. Nothing is copied. -/
structure Span where
  start : Nat
  length : Nat
deriving DecidableEq

def outOfRange (pos length size : Nat) : OutOfRange :=
  { what := "Buffer::checkBounds: pos=" ++ toString pos ++ " length=" ++ toString length
      ++ " size=" ++ toString size }

/-- The sum is one of `size_t`. -/
def checkBounds (buffer : Buffer) (pos length : UInt64) : Except (Fault OutOfRange) Unit :=
  if buffer.data.length < (pos + length).toNat then
    .error (.returned (outOfRange pos.toNat length.toNat buffer.data.length))
  else .ok ()

/-- `memcpy` of a range of the buffer, or the constructor from a pointer and a length. -/
def copyRange (buffer : Buffer) (pos length : Nat) : Except (Fault OutOfRange) Bytes :=
  if pos + length ≤ buffer.data.length then .ok (Cursor.slice buffer.data pos length)
  else .error .outOfBounds

/-- What is at `data` afterwards. -/
def read (buffer : Buffer) (pos length : UInt64) : Except (Fault OutOfRange) Bytes := do
  buffer.checkBounds pos length
  buffer.copyRange pos.toNat length.toNat

/-- `data` is what the pointer leads to. -/
def writeAt (buffer : Buffer) (pos length : UInt64) (data : ByteArr length.toNat) :
    Except (Fault OutOfRange) Buffer := do
  buffer.checkBounds pos length
  if pos.toNat + length.toNat ≤ buffer.data.length then
    return { data := buffer.data.take pos.toNat ++ data.toList
      ++ buffer.data.drop (pos.toNat + length.toNat) }
  else .error .outOfBounds

def view (buffer : Buffer) (pos length : UInt64) : Except (Fault OutOfRange) Span := do
  buffer.checkBounds pos length
  return { start := pos.toNat, length := length.toNat }

def mutableView (buffer : Buffer) (pos length : UInt64) : Except (Fault OutOfRange) Span := do
  buffer.checkBounds pos length
  return { start := pos.toNat, length := length.toNat }

def slice (buffer : Buffer) (pos length : UInt64) : Except (Fault OutOfRange) Buffer := do
  buffer.checkBounds pos length
  let copied ← buffer.copyRange pos.toNat length.toNat
  return { data := copied }

end Buffer

end NebulaFS
