import NebulaFS.Metadata

/-!
# The metadata of an entry

`metadata/EntryMetadata.cpp`: attributes, tags and three strings. The decoder returns an error for a bad
attribute only. Behind the attributes it takes what it can read: a bad tag ends the tags, and a bad string
is left empty.
-/

namespace NebulaFS

open Cursor

structure EntryMetadata where
  attributes : UnorderedMap Bytes Bytes := ∅
  tags : List Bytes := []
  contentType : Bytes := []
  sourcePath : Bytes := []
  notes : Bytes := []

namespace EntryMetadata

def setAttribute (metadata : EntryMetadata) (name value : Bytes) : EntryMetadata :=
  { metadata with attributes := metadata.attributes.insert name value }

/-- Whether there was such an attribute comes with it. -/
def removeAttribute (metadata : EntryMetadata) (name : Bytes) : EntryMetadata × Bool :=
  ({ metadata with attributes := metadata.attributes.erase name },
    (metadata.attributes.lookup name).isSome)

def setTags (metadata : EntryMetadata) (tags : List Bytes) : EntryMetadata :=
  { metadata with tags := tags }

def hasTag (metadata : EntryMetadata) (tag : Bytes) : Bool := metadata.tags.contains tag

def addTag (metadata : EntryMetadata) (tag : Bytes) : EntryMetadata :=
  if ¬ metadata.hasTag tag then { metadata with tags := metadata.tags ++ [tag] } else metadata

/-- The first such tag, if there is one. -/
def removeTag (metadata : EntryMetadata) (tag : Bytes) : EntryMetadata × Bool :=
  if metadata.hasTag tag then ({ metadata with tags := metadata.tags.erase tag }, true)
  else (metadata, false)

def setContentType (metadata : EntryMetadata) (mimeType : Bytes) : EntryMetadata :=
  { metadata with contentType := mimeType }

def setSourcePath (metadata : EntryMetadata) (path : Bytes) : EntryMetadata :=
  { metadata with sourcePath := path }

def setNotes (metadata : EntryMetadata) (notes : Bytes) : EntryMetadata :=
  { metadata with notes := notes }

/-- The calls that change an entry's metadata. Every one of them leaves the metadata of an entry. -/
inductive Call
  | setAttribute (name value : Bytes)
  | removeAttribute (name : Bytes)
  | setTags (tags : List Bytes)
  | addTag (tag : Bytes)
  | removeTag (tag : Bytes)
  | setContentType (mimeType : Bytes)
  | setSourcePath (path : Bytes)
  | setNotes (notes : Bytes)
  | clear
deriving DecidableEq

def apply (metadata : EntryMetadata) : Call → EntryMetadata
  | .setAttribute name value => metadata.setAttribute name value
  | .removeAttribute name => (metadata.removeAttribute name).1
  | .setTags tags => metadata.setTags tags
  | .addTag tag => metadata.addTag tag
  | .removeTag tag => (metadata.removeTag tag).1
  | .setContentType mimeType => metadata.setContentType mimeType
  | .setSourcePath path => metadata.setSourcePath path
  | .setNotes notes => metadata.setNotes notes
  | .clear => {}

/-- What the calls build, one after the other. -/
def built (calls : List Call) : EntryMetadata := calls.foldl apply {}

/-- A tag or one of the three strings. -/
def serializeString (string : Bytes) : Bytes :=
  VarInt.encode (UInt64.ofNat string.length) ++ string

/-- An attribute is written as `MetadataStore` writes an entry. -/
def serialize (metadata : EntryMetadata) : Bytes :=
  VarInt.encode (UInt64.ofNat metadata.attributes.entries.length)
    ++ ((metadata.attributes.entries.flatMap fun entry =>
      MetadataStore.serializeEntry entry.1 entry.2)
    ++ (VarInt.encode (UInt64.ofNat metadata.tags.length)
    ++ (metadata.tags.flatMap serializeString ++ (serializeString metadata.contentType
    ++ (serializeString metadata.sourcePath ++ serializeString metadata.notes)))))

/-- `kMaxStringSize`. -/
def maxStringSize : Nat := 1024 * 1024

/-- One round of the loop over the attributes, with the checks and copies of `MetadataStore`. -/
def readAttribute (data : Bytes) (offset : Nat) :
    Except (Fault ErrorCode) ((Bytes × Bytes) × Nat) := do
  let (nameLen, offset) ← readVarInt .corruptMetadata data offset
  let (valLen, offset) ← readVarInt .corruptMetadata data offset
  MetadataStore.readSized data offset nameLen valLen

/-- A tag or one of the three strings; none if its length is not valid or too large. -/
def readString (data : Bytes) (offset : Nat) :
    Except (Fault ErrorCode) (Option Bytes × Nat) := do
  let (length, offset) ← tryVarInt data offset
  match length with
  | none => return (none, offset)
  | some length =>
      if offset ≤ data.length ∧ length.toNat ≤ data.length - offset ∧ length.toNat ≤ maxStringSize then
        let (string, offset) ← readRange data offset length.toNat
        return (some string, offset)
      else return (none, offset)

/-- The loop over the tags. -/
def readTags (data : Bytes) : (count : Nat) → (offset : Nat) → (tags : List Bytes) →
    Except (Fault ErrorCode) (List Bytes × Nat)
  | 0, offset, tags => .ok (tags, offset)
  | count + 1, offset, tags => do
      let (tag, offset) ← readString data offset
      match tag with
      | none => return (tags, offset)
      | some tag => readTags data count offset (tags ++ [tag])

def readTagList (data : Bytes) (offset : Nat) : Except (Fault ErrorCode) (List Bytes × Nat) := do
  let (tagCount, offset) ← tryVarInt data offset
  match tagCount with
  | none => return ([], offset)
  | some tagCount => readTags data tagCount.toNat offset []

/-- What follows the attributes. Every part is read only if the input goes on. -/
def readRest (data : Bytes) (offset : Nat) (metadata : EntryMetadata) :
    Except (Fault ErrorCode) (EntryMetadata × Nat) :=
  if data.length ≤ offset then .ok (metadata, offset)
  else do
    let (tags, offset) ← readTagList data offset
    let metadata := { metadata with tags := tags }
    if data.length ≤ offset then .ok (metadata, offset)
    else
      let (contentType, offset) ← readString data offset
      let metadata := { metadata with contentType := contentType.getD [] }
      if data.length ≤ offset then .ok (metadata, offset)
      else
        let (sourcePath, offset) ← readString data offset
        let metadata := { metadata with sourcePath := sourcePath.getD [] }
        if data.length ≤ offset then .ok (metadata, offset)
        else
          let (notes, offset) ← readString data offset
          return ({ metadata with notes := notes.getD [] }, offset)

/-- Of the loop over the attributes, the metadata and the offset it leaves. -/
def readAttributes (data : Bytes) (offset : Nat) (attrCount : UInt64) :
    EntryMetadata × Except (Fault ErrorCode) Nat :=
  let loop := readMany (readAttribute data) attrCount.toNat offset
  let metadata := (collected loop).foldl
    (fun metadata found => metadata.setAttribute found.1 found.2) {}
  match loop with
  | .error (_, e) => (metadata, .error e)
  | .ok (_, offset) => (metadata, .ok offset)

def deserialize (data : Bytes) : EntryMetadata × Status :=
  if data.length ≤ 0 then ({}, none)
  else
    match readVarInt .corruptMetadata data 0 with
    | .error e => ({}, some e)
    | .ok (attrCount, offset) =>
        match readAttributes data offset attrCount with
        | (metadata, .error e) => (metadata, some e)
        | (metadata, .ok offset) =>
            match readRest data offset metadata with
            | .error e => (metadata, some e)
            | .ok (metadata, _) => (metadata, none)

end EntryMetadata

end NebulaFS
