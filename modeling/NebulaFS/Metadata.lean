import NebulaFS.VarInt

/-!
# The metadata section

`metadata/MetadataStore.cpp` and the reader of its section, `parser/MetadataParser.cpp`. The store is
a map from keys to values. A key longer than 4096 bytes or a value longer than a mebibyte is written
and then refused by the reader of the section, which keeps the entries before it. The store has a reader
of its own, with a mebibyte as the limit of both.
-/

namespace NebulaFS

open Cursor

structure MetadataStore where
  entries : UnorderedMap Bytes Bytes := ∅

namespace MetadataStore

def set (store : MetadataStore) (key value : Bytes) : MetadataStore :=
  { entries := store.entries.insert key value }

def getString (store : MetadataStore) (key : Bytes) : Option Bytes :=
  store.entries.lookup key

def serializeEntry (key value : Bytes) : Bytes :=
  VarInt.encode (UInt64.ofNat key.length) ++ VarInt.encode (UInt64.ofNat value.length) ++ key ++ value

def serialize (store : MetadataStore) : Bytes :=
  store.entries.entries.flatMap fun entry => serializeEntry entry.1 entry.2

/-- `kMaxEntrySize`. -/
def maxEntrySize : Nat := 1024 * 1024

/-- What follows the two lengths of an entry: the checks of `deserialize` and its two copies. -/
def readSized (data : Bytes) (offset : Nat) (keyLen valLen : UInt64) :
    Except (Fault ErrorCode) ((Bytes × Bytes) × Nat) := do
  require (offset ≤ data.length) .corruptMetadata
  let remaining := data.length - offset
  require (keyLen.toNat ≤ remaining ∧ valLen.toNat ≤ remaining - keyLen.toNat) .corruptMetadata
  require (keyLen.toNat ≤ maxEntrySize ∧ valLen.toNat ≤ maxEntrySize) .corruptMetadata
  let (key, offset) ← readRange data offset keyLen.toNat
  let (value, offset) ← readRange data offset valLen.toNat
  return ((key, value), offset)

/-- One round of the loop of `deserialize`. A length that is no varint ends the loop. -/
def readEntry (data : Bytes) (offset : Nat) :
    Except (Fault ErrorCode) (Option (Bytes × Bytes) × Nat) := do
  let (keyLen, offset) ← tryVarInt data offset
  match keyLen with
  | none => return (none, offset)
  | some keyLen =>
      let (valLen, offset) ← tryVarInt data offset
      match valLen with
      | none => return (none, offset)
      | some valLen =>
          let (entry, offset) ← readSized data offset keyLen valLen
          return (some entry, offset)

/-- The store at the end of the loop, with the offset there and the status. -/
def deserializeLoop (data : Bytes) :
    (fuel : Nat) → (offset : Nat) → MetadataStore → (MetadataStore × Nat) × Status
  | 0, offset, store =>
      if data.length ≤ offset then ((store, offset), none) else ((store, offset), some .outOfFuel)
  | fuel + 1, offset, store =>
      if data.length ≤ offset then ((store, offset), none)
      else
        match readEntry data offset with
        | .error e => ((store, offset), some e)
        | .ok (none, offset) => ((store, offset), none)
        | .ok (some (key, value), offset) => deserializeLoop data fuel offset (store.set key value)

def deserialize (data : Bytes) : MetadataStore × Status :=
  let ((store, _), status) := deserializeLoop data data.length 0 {}
  (store, status)

end MetadataStore

namespace MetadataParser

/-- `kMaxFileNameLength`. -/
def maxKeyLength : Nat := 4096

/-- `kMaxMetadataSize`, which is also the `kMaxEntrySize` of `parseEntry`. -/
def maxValueLength : Nat := 1048576

def corrupt {α : Type} (offset : Nat) (message : String := "") : Result α :=
  .error (.returned (toParseError .corruptMetadata .metadata (UInt64.ofNat offset) message))

def parseEntry (data : Bytes) (offset : Nat) : Result ((Bytes × Bytes) × Nat) :=
  if data.length < offset then .error .outOfBounds
  else
    let span := data.drop offset
    let keyLen := VarInt.decode span
    if ¬ keyLen.valid ∨ keyLen.consumed = 0 then corrupt offset
    else if maxKeyLength < keyLen.value.toNat then corrupt offset "metadata key too long"
    else
      let valLen := VarInt.decode (span.drop keyLen.consumed)
      if ¬ valLen.valid then corrupt offset
      else if maxValueLength < valLen.value.toNat then corrupt offset "metadata value too large"
      else
        let pos := keyLen.consumed + valLen.consumed
        let keySize := keyLen.value.toNat
        let valSize := valLen.value.toNat
        if data.length < offset + pos then corrupt pos
        else if data.length - (offset + pos) < keySize then corrupt pos
        else if data.length - (offset + pos) - keySize < valSize then corrupt (pos + keySize)
        else
          .ok ((slice span pos keySize, slice span (pos + keySize) valSize),
            offset + (pos + keySize + valSize))

/-- The loop of `parse`: a bad entry ends it, and is an error only when it is the first. -/
def parseLoop (data : Bytes) (metadataSize : Nat) :
    (fuel : Nat) → Nat → MetadataStore → Result MetadataStore
  | 0, offset, store => if metadataSize ≤ offset then .ok store else .error .outOfFuel
  | fuel + 1, offset, store =>
      if metadataSize ≤ offset then .ok store
      else
        match parseEntry data offset with
        | .ok ((key, value), offset) => parseLoop data metadataSize fuel offset (store.set key value)
        | .error (.returned e) => if offset = 0 then .error (.returned e) else .ok store
        | .error fault => .error fault

def parse (data : Bytes) (metadataSize : Nat) : Result MetadataStore :=
  if data.length < metadataSize then
    .error (.returned (toParseError .corruptMetadata .metadata (UInt64.ofNat data.length)
      "metadata section truncated"))
  else parseLoop data metadataSize metadataSize 0 {}

def serialize (metadata : MetadataStore) : Bytes :=
  metadata.entries.entries.flatMap fun entry =>
    VarInt.encode (UInt64.ofNat entry.1.length) ++ VarInt.encode (UInt64.ofNat entry.2.length)
      ++ entry.1 ++ entry.2

end MetadataParser

end NebulaFS
