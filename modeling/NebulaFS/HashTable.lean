import NebulaFS.Lib.MaskedProbe
import NebulaFS.VarInt

/-!
# The hash table

`index/HashTable.cpp`. Open addressing with linear probing under a mask. An insertion carries an entry
along the probe and swaps it with every stored entry of a smaller probe length. Neither its loop nor the
one of `rehash` has a bound, so both take fuel and return `none` without it. `probeLength` is a
`uint32_t` in the source and a natural number here: it stays below the number of slots an insertion
passes.
-/

namespace NebulaFS

open MaskedProbe

namespace HashTable

structure Entry where
  hash : UInt64 := 0
  entryId : EntryID := 0
  probeLength : Nat := 0
  occupied : Bool := false
  tombstone : Bool := false
deriving DecidableEq

/-- `entry.occupied && !entry.tombstone`. -/
def Entry.live (entry : Entry) : Bool := entry.occupied && !entry.tombstone

end HashTable

structure HashTable where
  entries : List HashTable.Entry
  size : Nat := 0
deriving DecidableEq

namespace HashTable

def new (initialCapacity : Nat) : HashTable :=
  { entries := List.replicate (max initialCapacity 16) {} }

def capacity (table : HashTable) : Nat := table.entries.length

/-- FNV-1a. -/
def hashKey (key : Bytes) : UInt64 :=
  key.foldl (fun hash c => (hash ^^^ c.toUInt64) * 1099511628211) 14695981039346656037

def idealSlot (capacity : Nat) (hash : UInt64) : Nat := hash.toNat &&& (capacity - 1)

/-- `entries_[slot]`. A slot lies inside the mask and so inside the table. -/
def entryAt (entries : List Entry) (slot : Nat) : Entry := entries.getD slot {}

/-! ### Looking up -/

def maxProbe (entries : List Entry) : Nat := entries.foldr (fun entry n => max entry.probeLength n) 0

/-- The loop of `find` and `remove`: the slot of the live entry with this hash. -/
def probeLoop (entries : List Entry) (fullHash : UInt64) :
    (fuel slot probeLength : Nat) → Option Nat
  | 0, _, _ => none
  | fuel + 1, slot, probeLength =>
      let entry := entryAt entries slot
      if entry.probeLength < probeLength then none
      else if entry.occupied && !entry.tombstone && entry.hash == fullHash then some slot
      else if !entry.occupied && !entry.tombstone then none
      else probeLoop entries fullHash fuel (next entries.length slot) (probeLength + 1)

/-- No probe length is above `maxProbe`, so the loop ends by itself within this fuel. -/
def probe (entries : List Entry) (fullHash : UInt64) : Option Nat :=
  probeLoop entries fullHash (maxProbe entries + 1) (idealSlot entries.length fullHash) 0

/-- The same loop with its accesses to `entries_[slot]`, of which one outside is an error. A table without
slots has none inside; the mask of `capacity - 1` is then that of every bit in the source and of none
here. -/
def checkedLoop (entries : List Entry) (fullHash : UInt64) :
    (fuel slot probeLength : Nat) → Except (Fault ErrorCode) (Option Nat)
  | 0, _, _ => .error .outOfFuel
  | fuel + 1, slot, probeLength =>
      match entries[slot]? with
      | none => .error .outOfBounds
      | some entry =>
          if entry.probeLength < probeLength then .ok none
          else if entry.occupied && !entry.tombstone && entry.hash == fullHash then .ok (some slot)
          else if !entry.occupied && !entry.tombstone then .ok none
          else checkedLoop entries fullHash fuel (next entries.length slot) (probeLength + 1)

def checkedProbe (entries : List Entry) (fullHash : UInt64) : Except (Fault ErrorCode) (Option Nat) :=
  checkedLoop entries fullHash (maxProbe entries + 2) (idealSlot entries.length fullHash) 0

def find (table : HashTable) (key : Bytes) : Option EntryID :=
  (probe table.entries (hashKey key)).map fun slot => (entryAt table.entries slot).entryId

def contains (table : HashTable) (key : Bytes) : Bool := (table.find key).isSome

def remove (table : HashTable) (key : Bytes) : HashTable × Bool :=
  match probe table.entries (hashKey key) with
  | none => (table, false)
  | some slot =>
      ({ entries := table.entries.set slot
          { entryAt table.entries slot with tombstone := true, occupied := false }
         size := table.size - 1 }, true)

/-! ### Inserting -/

/-- The loops of `insert` and `rehash`, with the entry in flight. `insert` knows the hash that it looks
for and the value to store under it; `rehash` does not compare hashes. The flag of the result says that
a slot was filled. -/
def placeLoop (known : Option (UInt64 × EntryID)) :
    (fuel : Nat) → List Entry → (slot : Nat) → Entry → Option (List Entry × Bool)
  | 0, _, _, _ => none
  | fuel + 1, entries, slot, newEntry =>
      let current := entryAt entries slot
      if !current.occupied || current.tombstone then some (entries.set slot newEntry, true)
      else
        match known.filter fun target => current.hash == target.1 with
        | some target => some (entries.set slot { current with entryId := target.2 }, false)
        | none =>
            if current.probeLength < newEntry.probeLength then
              placeLoop known fuel (entries.set slot newEntry) (next entries.length slot)
                { current with probeLength := current.probeLength + 1 + 1 }
            else
              placeLoop known fuel entries (next entries.length slot)
                { newEntry with probeLength := newEntry.probeLength + 1 }

/-- `static_cast<double>` of a `size_t`: 53 bits are kept, and ties go to the even number. -/
def toDouble (n : Nat) : Nat :=
  let ulp := 2 ^ (n.log2 - 52)
  let up := if ulp < 2 * (n % ulp) ∨ (ulp = 2 * (n % ulp) ∧ n / ulp % 2 = 1) then 1 else 0
  (n / ulp + up) * ulp

/-- `loadFactor() > 0.7`. The literal is the double `6305039478318694 / 2 ^ 53`, and a quotient rounds
to a larger one exactly if it is above the middle between this and the next double. -/
def overloaded (table : HashTable) : Bool :=
  12610078956637389 * toDouble table.capacity < toDouble table.size * 2 ^ 54

def rehashLoop (fuel : Nat) : List Entry → HashTable → Option HashTable
  | [], table => some table
  | entry :: oldEntries, table =>
      if entry.occupied && !entry.tombstone then do
        let (entries, _) ← placeLoop none fuel table.entries
          (idealSlot table.entries.length entry.hash) { entry with probeLength := 0 }
        rehashLoop fuel oldEntries { entries := entries, size := table.size + 1 }
      else rehashLoop fuel oldEntries table

/-- The new slots are there: `growIfNeeded` doubles a table that is in memory, and `reserve` looks. -/
def rehash (fuel : Nat) (table : HashTable) (newCapacity : Nat) : Option HashTable :=
  rehashLoop fuel table.entries { entries := List.replicate newCapacity {} }

def growIfNeeded (fuel : Nat) (table : HashTable) : Option HashTable :=
  if table.overloaded then table.rehash fuel (table.capacity * 2) else some table

/-- `entries_.max_size()`: a vector has at most `PTRDIFF_MAX` bytes, and an entry has 24. -/
def maxSize : Nat := (2 ^ 63 - 1) / 24

/-- Above `maxSize` the `resize` of `rehash` throws. The entries were moved out before, and no table is
left. -/
def reserve (fuel : Nat) (table : HashTable) (newCapacity : Nat) : Option HashTable :=
  if table.capacity < newCapacity then
    if maxSize < newCapacity then none else table.rehash fuel newCapacity
  else some table

def insert (fuel : Nat) (table : HashTable) (key : Bytes) (value : EntryID) : Option HashTable := do
  let table ← table.growIfNeeded fuel
  let (entries, filled) ← placeLoop (some (hashKey key, value)) fuel table.entries
    (idealSlot table.entries.length (hashKey key))
    { hash := hashKey key, entryId := value, probeLength := 0, occupied := true, tombstone := false }
  some { entries := entries, size := if filled then table.size + 1 else table.size }

/-- `insert` for one pair after the other. -/
def insertAll (fuel : Nat) (table : HashTable) : List (Bytes × EntryID) → Option HashTable
  | [] => some table
  | (key, value) :: pairs => do
      let table ← table.insert fuel key value
      table.insertAll fuel pairs

def clear (table : HashTable) : HashTable :=
  { entries := table.entries.map fun entry =>
      { entry with occupied := false, tombstone := false, probeLength := 0 } }

/-! ### Persistence -/

def serializeEntry (entry : Entry) : Bytes :=
  (if entry.occupied then 1 else 0) :: (if entry.tombstone then 1 else 0) ::
    if entry.occupied then
      VarInt.encode entry.hash ++ VarInt.encode entry.entryId
        ++ VarInt.encode (UInt64.ofNat entry.probeLength)
    else []

def serialize (table : HashTable) : Bytes :=
  VarInt.encode (UInt64.ofNat table.entries.length) ++ VarInt.encode (UInt64.ofNat table.size)
    ++ table.entries.flatMap serializeEntry

/-- One round of the loop, on the entry that is in the slot so far. What an entry that is not occupied
keeps of it is never looked at. -/
def deserializeEntry (data : Bytes) (entry : Entry) (offset : Nat) :
    Entry × Except (Fault ErrorCode) Nat :=
  match readByte data offset with
  | .error e => (entry, .error e)
  | .ok (occupied, offset) =>
      match readByte data offset with
      | .error e => (entry, .error e)
      | .ok (tombstone, offset) =>
          if occupied ≠ 0 then
            match readVarInt .corruptIndex data offset with
            | .error e => (entry, .error e)
            | .ok (hash, offset) =>
                let entry := { entry with hash := hash }
                match readVarInt .corruptIndex data offset with
                | .error e => (entry, .error e)
                | .ok (entryId, offset) =>
                    let entry := { entry with entryId := entryId }
                    match readVarInt .corruptIndex data offset with
                    | .error e => (entry, .error e)
                    | .ok (probeLength, offset) =>
                        ({ entry with
                            probeLength := probeLength.toNat % 2 ^ 32
                            occupied := true
                            tombstone := tombstone ≠ 0 }, .ok offset)
          else
            ({ entry with occupied := false, tombstone := tombstone ≠ 0, probeLength := 0 },
              .ok offset)

/-- The loop of `deserialize` over the slots. It leaves those the data does not get to as they are. -/
def deserializeEntries (data : Bytes) : List Entry → Nat → List Entry × Status
  | [], _ => ([], none)
  | entry :: entries, offset =>
      if data.length < offset + 2 then (entry :: entries, none)
      else
        match deserializeEntry data entry offset with
        | (entry, .error e) => (entry :: entries, some e)
        | (entry, .ok offset) =>
            let (entries, status) := deserializeEntries data entries offset
            (entry :: entries, status)

/-- `entries_.resize(capacity)`. -/
def resize (entries : List Entry) (capacity : Nat) : List Entry :=
  entries.take capacity ++ List.replicate (capacity - entries.length) ({} : Entry)

/-- The size and the slots are assigned before the checks of the capacity. -/
def deserialize (table : HashTable) (data : Bytes) : HashTable × Status :=
  match readVarInt .corruptIndex data 0 with
  | .error e => (table, some e)
  | .ok (capacity, offset) =>
      match readVarInt .corruptIndex data offset with
      | .error e => (table, some e)
      | .ok (size, offset) =>
          let table : HashTable :=
            { entries := resize table.entries capacity.toNat, size := size.toNat }
          if data.length < offset then (table, some (.returned .corruptIndex))
          else if (data.length - offset) / 2 < capacity.toNat then
            (table, some (.returned .corruptIndex))
          else if 1024 * 1024 < capacity.toNat then (table, some (.returned .corruptIndex))
          else
            let (entries, status) := deserializeEntries data table.entries offset
            ({ table with entries := entries }, status)

/-! ### Runs -/

inductive Op
  | insert (key : Bytes) (value : EntryID)
  | remove (key : Bytes)
  | reserve (newCapacity : Nat)

def step (fuel : Nat) (table : HashTable) : Op → Option HashTable
  | .insert key value => table.insert fuel key value
  | .remove key => some (table.remove key).1
  | .reserve newCapacity => table.reserve fuel newCapacity

/-- The operation ends, and in this table. -/
def Step (table : HashTable) (op : Op) (after : HashTable) : Prop :=
  ∃ fuel, table.step fuel op = some after

end HashTable

end NebulaFS
