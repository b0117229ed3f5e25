import NebulaFS.VarInt

/-!
# The index table

`index/IndexManager.cpp`. The entries in the order they came, and three maps into them by id, path
and type. Only the entries are encoded; decoding restores the map by id and leaves the other two
empty. A removal takes an entry out of the middle and shifts the positions in the map by id, but not
those in the map by type.
-/

namespace NebulaFS

open Cursor

structure IndexManager where
  entries : List IndexEntry := []
  idIndex : UnorderedMap EntryID Nat := ∅
  pathMap : UnorderedMap Bytes EntryID := ∅
  typeIndex : UnorderedMap EntryType (List Nat) := ∅
  sorted : Bool := false

namespace IndexManager

def toIndexEntry (entry : ArchiveEntry) : IndexEntry :=
  { entryId := entry.id
    offset := entry.offset
    size := entry.storedSize
    checksum := entry.checksum }

def insert (manager : IndexManager) (entry : ArchiveEntry) : IndexManager :=
  let position := manager.entries.length
  { entries := manager.entries ++ [toIndexEntry entry]
    idIndex := manager.idIndex.insert entry.id position
    pathMap :=
      if entry.path ≠ [] then manager.pathMap.insert entry.path entry.id else manager.pathMap
    typeIndex := manager.typeIndex.insert entry.type
      ((manager.typeIndex.lookup entry.type).getD [] ++ [position])
    sorted := false }

def findById (manager : IndexManager) (id : EntryID) : Option IndexEntry :=
  match manager.idIndex.lookup id with
  | none => none
  | some position => manager.entries[position]?

def findByPath (manager : IndexManager) (path : Bytes) : Option IndexEntry :=
  match manager.pathMap.lookup path with
  | none => none
  | some id => manager.findById id

/-- `path.find(prefix) == 0` says that the path starts with the prefix. -/
def findByPrefix (manager : IndexManager) (start : Bytes) : List IndexEntry :=
  manager.pathMap.entries.filterMap fun entry =>
    if start.isPrefixOf entry.1 then manager.findById entry.2 else none

/-- `entries_[position]`. -/
def entryAt (manager : IndexManager) (position : Nat) : Except (Fault ErrorCode) IndexEntry :=
  match manager.entries[position]? with
  | none => .error .outOfBounds
  | some entry => .ok entry

def findByType (manager : IndexManager) (type : EntryType) :
    Except (Fault ErrorCode) (List IndexEntry) :=
  ((manager.typeIndex.lookup type).getD []).mapM manager.entryAt

def contains (manager : IndexManager) (id : EntryID) : Bool := (manager.idIndex.lookup id).isSome

def containsPath (manager : IndexManager) (path : Bytes) : Bool :=
  (manager.pathMap.lookup path).isSome

/-! ### Removing -/

/-- The first path of the entry is erased. -/
def erasePath (pathMap : UnorderedMap Bytes EntryID) (id : EntryID) : UnorderedMap Bytes EntryID :=
  match pathMap.entries.find? fun entry => entry.2 == id with
  | none => pathMap
  | some entry => pathMap.erase entry.1

/-- The position is erased from the first list that has it. -/
def erasePosition (typeIndex : UnorderedMap EntryType (List Nat)) (idx : Nat) :
    UnorderedMap EntryType (List Nat) :=
  match typeIndex.entries.find? fun entry => entry.2.contains idx with
  | none => typeIndex
  | some entry => typeIndex.insert entry.1 (entry.2.erase idx)

def shiftPositions (idIndex : UnorderedMap EntryID Nat) (idx : Nat) : UnorderedMap EntryID Nat :=
  { entries := idIndex.entries.map
      (Sigma.map id fun _ eidx => if idx < eidx then eidx - 1 else eidx)
    nodupKeys := List.NodupKeys.map₂ _ _ idIndex.nodupKeys }

def remove (manager : IndexManager) (id : EntryID) : IndexManager × Bool :=
  match manager.idIndex.lookup id with
  | none => (manager, false)
  | some idx =>
      ({ manager with
          pathMap := erasePath manager.pathMap id
          typeIndex := erasePosition manager.typeIndex idx
          entries := manager.entries.eraseIdx idx
          idIndex := shiftPositions (manager.idIndex.erase id) idx }, true)

def validate (manager : IndexManager) : Bool :=
  manager.entries.length == manager.idIndex.entries.length
    && manager.idIndex.entries.all fun entry =>
      (manager.entries[entry.2]?).any fun indexed => indexed.entryId == entry.1

/-! ### The encoding -/

def serializeEntry (entry : IndexEntry) : Bytes :=
  VarInt.encode entry.entryId ++ (VarInt.encode entry.offset ++ (VarInt.encode entry.size
    ++ entry.checksum.toList))

def serialize (manager : IndexManager) : Bytes :=
  VarInt.encode (UInt64.ofNat manager.entries.length) ++ manager.entries.flatMap serializeEntry

def readEntry (data : Bytes) (offset : Nat) :
    Except (Fault ErrorCode) (IndexEntry × Nat) := do
  let (entryId, offset) ← readVarInt .corruptIndex data offset
  let (entryOffset, offset) ← readVarInt .corruptIndex data offset
  let (size, offset) ← readVarInt .corruptIndex data offset
  require (offset + 32 ≤ data.length) .corruptIndex
  let (checksum, offset) ← readArr 32 data offset
  return ({ entryId := entryId, offset := entryOffset, size := size, checksum := checksum }, offset)

def indexById (entries : List IndexEntry) : UnorderedMap EntryID Nat :=
  entries.zipIdx.foldl (fun index pair => index.insert pair.1.entryId pair.2) ∅

/-- `kMinBytesPerEntry`: three varints and the checksum. -/
def minBytesPerEntry : Nat := 35

def deserialize (data : Bytes) : IndexManager × Status :=
  match readVarInt .corruptIndex data 0 with
  | .error e => ({}, some e)
  | .ok (count, offset) =>
      if (data.length - offset) / minBytesPerEntry < count.toNat then
        ({}, some (.returned .corruptIndex))
      else
        let loop := readMany (readEntry data) count.toNat offset
        let manager : IndexManager :=
          { entries := collected loop, idIndex := indexById (collected loop) }
        match loop with
        | .error (_, e) => (manager, some e)
        | .ok _ => (manager, none)

end IndexManager

end NebulaFS
