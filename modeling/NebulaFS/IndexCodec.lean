import NebulaFS.InvertedIndex
import NebulaFS.VarInt

/-!
# The encoding of the inverted index

`serialize` and `deserialize` of `search/PostingList.cpp` and `search/InvertedIndex.cpp`. Document ids
and positions are stored as differences to the one before. The options of the tokenizer are not stored,
and the decoder fills an index that is constructed with the default ones. `std::nullopt` is the error
`noIndex`, and the exception of a `reserve` without memory is `outOfMemory`.
-/

namespace NebulaFS

open Cursor

def noIndex : ErrorCode := .internalError

/-- For which numbers of postings and of positions a `reserve` finds memory. -/
structure PostingMemory where
  postings : Nat → Bool
  positions : Nat → Bool

namespace PostingList

def serializePositions : (prevPos : UInt32) → List UInt32 → Bytes
  | _, [] => []
  | prevPos, pos :: positions =>
      VarInt.encode (pos - prevPos).toUInt64 ++ serializePositions pos positions

def serializePostings : (prevDocId : UInt64) → List Posting → Bytes
  | _, [] => []
  | prevDocId, p :: postings =>
      VarInt.encode (p.docId - prevDocId) ++ (VarInt.encode p.termFrequency.toUInt64
        ++ (serializePositions 0 p.positions ++ serializePostings p.docId postings))

def serialize (list : PostingList) : Bytes :=
  VarInt.encode (UInt64.ofNat list.postings.length) ++ serializePostings 0 list.postings

/-- `currentPos += delta; positions.push_back(currentPos);` for the differences in turn. -/
def sumPositions : (currentPos : UInt32) → (deltas : List UInt64) → List UInt32
  | _, [] => []
  | currentPos, delta :: deltas =>
      let currentPos := currentPos + delta.toUInt32
      currentPos :: sumPositions currentPos deltas

/-- `currentDocId += delta;` for postings that were read with the difference as their id. -/
def sumDocIds : (currentDocId : UInt64) → List Posting → List Posting
  | _, [] => []
  | currentDocId, p :: postings =>
      let currentDocId := currentDocId + p.docId
      { p with docId := currentDocId } :: sumDocIds currentDocId postings

/-- A posting with the difference of the ids in the place of its id. -/
def readPosting (memory : PostingMemory) (bytes : Bytes) (offset : Nat) :
    Except (Fault ErrorCode) (Posting × Nat) := do
  let (delta, offset) ← readNext noIndex bytes offset
  let (tf, offset) ← readNext noIndex bytes offset
  require (memory.positions tf.toUInt32.toNat) .outOfMemory
  match readMany (readNext noIndex bytes) tf.toUInt32.toNat offset with
  | .error (_, e) => .error e
  | .ok (deltas, offset) =>
      return ({ docId := delta
                termFrequency := tf.toUInt32
                positions := sumPositions 0 deltas }, offset)

def deserialize (memory : PostingMemory) (bytes : Bytes) :
    Except (Fault ErrorCode) PostingList := do
  if bytes = [] then return {}
  let (numDocs, offset) ← readVarInt noIndex bytes 0
  require (memory.postings numDocs.toNat) .outOfMemory
  match readMany (readPosting memory bytes) numDocs.toNat offset with
  | .error (_, e) => .error e
  | .ok (postings, _) => return (sumDocIds 0 postings).foldl addPosting {}

end PostingList

namespace InvertedIndex

def serializeLength (docId : UInt64) (len : Nat) : Bytes :=
  VarInt.encode docId ++ VarInt.encode (UInt64.ofNat len)

def serializeTerm (term : Bytes) (pList : PostingList) : Bytes :=
  VarInt.encode (UInt64.ofNat term.length) ++ (term
    ++ (VarInt.encode (UInt64.ofNat pList.serialize.length) ++ pList.serialize))

def serialize (index : InvertedIndex) : Bytes :=
  VarInt.encode (UInt64.ofNat index.docLengths.entries.length)
    ++ ((index.docLengths.entries.flatMap fun entry => serializeLength entry.1 entry.2)
    ++ (VarInt.encode (UInt64.ofNat index.dictionary.entries.length)
    ++ index.dictionary.entries.flatMap fun entry => serializeTerm entry.1 entry.2))

def readLength (bytes : Bytes) (offset : Nat) :
    Except (Fault ErrorCode) ((UInt64 × UInt64) × Nat) := do
  let (docId, offset) ← readNext noIndex bytes offset
  let (len, offset) ← readNext noIndex bytes offset
  return ((docId, len), offset)

/-- `bytes.subspan(offset, count)` and `offset += count`. The largest count is `std::dynamic_extent`,
which stands for the rest of the bytes, whereas the sum steps back by one. -/
def readSubspan (bytes : Bytes) (offset count : Nat) : Read Bytes :=
  if count = wordSize - 1 then .ok (bytes.drop offset, (offset + count) % wordSize)
  else readRange bytes offset count

def readTerm (memory : PostingMemory) (bytes : Bytes) (offset : Nat) :
    Except (Fault ErrorCode) ((Bytes × PostingList) × Nat) := do
  let (termLen, offset) ← readNext noIndex bytes offset
  require ((offset + termLen.toNat) % wordSize ≤ bytes.length) noIndex
  let (term, offset) ← readRange bytes offset termLen.toNat
  let (pBytesLen, offset) ← readNext noIndex bytes offset
  require ((offset + pBytesLen.toNat) % wordSize ≤ bytes.length) noIndex
  let (pBytes, offset) ← readSubspan bytes offset pBytesLen.toNat
  let pList ← PostingList.deserialize memory pBytes
  return ((term, pList), offset)

/-- The maps of a decoded index, from the pairs that were read. -/
def ofRead (lengths : List (UInt64 × UInt64)) (terms : List (Bytes × PostingList)) :
    InvertedIndex :=
  { docLengths := lengths.foldl (fun map read => map.insert read.1 read.2.toNat) ∅
    totalTokens := lengths.foldl (fun total read => total + read.2) 0
    dictionary := terms.foldl (fun map read => map.insert read.1 read.2) ∅ }

/-- The decoded index and its tokenizer. -/
def deserialize (memory : PostingMemory) (bytes : Bytes) :
    Except (Fault ErrorCode) (Tokenizer × InvertedIndex) := do
  if bytes = [] then return (.new, {})
  let (numDocs, offset) ← readVarInt noIndex bytes 0
  match readMany (readLength bytes) numDocs.toNat offset with
  | .error (_, e) => .error e
  | .ok (lengths, offset) =>
      let (numTerms, offset) ← readNext noIndex bytes offset
      match readMany (readTerm memory bytes) numTerms.toNat offset with
      | .error (_, e) => .error e
      | .ok (terms, _) => return (.new, ofRead lengths terms)

end InvertedIndex

end NebulaFS
