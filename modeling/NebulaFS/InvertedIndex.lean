import Mathlib.Logic.Function.Basic
import NebulaFS.Lib.Association
import NebulaFS.Tokenizer

/-!
# The inverted index

`search/PostingList.cpp` and `search/InvertedIndex.cpp`, without the scores. The index has a posting
list for each term, the number of tokens of each document and the sum of these numbers.
`indexDocument` lets go of its lock to remove the old version of a document, so its last part is an
operation of its own, `insertDocument`.
-/

namespace NebulaFS

structure Posting where
  docId : UInt64 := 0
  termFrequency : UInt32 := 0
  positions : List UInt32 := []
deriving DecidableEq

structure PostingList where
  postings : List Posting := []
  totalTf : UInt64 := 0
deriving DecidableEq

/-- `termFrequency++; positions.push_back(position);`. -/
def Posting.occur (posting : Posting) (position : UInt32) : Posting :=
  { posting with
    termFrequency := posting.termFrequency + 1
    positions := posting.positions ++ [position] }

namespace PostingList

def addOccurrence (list : PostingList) (docId : UInt64) (position : UInt32) : PostingList :=
  let totalTf := list.totalTf + 1
  let postings := list.postings
  if postings.getLast?.any (fun posting => posting.docId = docId) then
    { postings := postings.modify (postings.length - 1) fun posting => posting.occur position
      totalTf := totalTf }
  else if postings.any fun posting => posting.docId = docId then
    { postings :=
        postings.modify (postings.findIdx fun posting => posting.docId = docId) fun posting =>
          posting.occur position
      totalTf := totalTf }
  else
    { postings := postings ++ [{ docId := docId, termFrequency := 1, positions := [position] }]
      totalTf := totalTf }

def addPosting (list : PostingList) (posting : Posting) : PostingList :=
  { postings := list.postings ++ [posting]
    totalTf := list.totalTf + posting.termFrequency.toUInt64 }

def findDoc (list : PostingList) (docId : UInt64) : Option Posting :=
  list.postings.find? fun posting => posting.docId = docId

def docFrequency (list : PostingList) : Nat := list.postings.length

end PostingList

structure InvertedIndex where
  dictionary : UnorderedMap Bytes PostingList := ∅
  docLengths : UnorderedMap UInt64 Nat := ∅
  totalTokens : UInt64 := 0

namespace InvertedIndex

/-- `dictionary_[tok.term].addOccurrence(docId, tok.position);`. -/
def addToken (docId : UInt64) (dictionary : UnorderedMap Bytes PostingList) (tok : Token) :
    UnorderedMap Bytes PostingList :=
  let list := (dictionary.lookup tok.term).getD {}
  dictionary.insert tok.term (list.addOccurrence docId tok.position)

/-- What `indexDocument` does once the document is not, or no longer, in the index. -/
def insertDocument (tokenizer : Tokenizer) (index : InvertedIndex) (docId : UInt64)
    (content : Bytes) : InvertedIndex :=
  let tokens := tokenizer.tokenize content
  { docLengths := index.docLengths.insert docId tokens.length
    totalTokens := index.totalTokens + UInt64.ofNat tokens.length
    dictionary := tokens.foldl (addToken docId) index.dictionary }

/-- The postings of the other documents, if there are any. -/
def withoutDocument (docId : UInt64) (pList : PostingList) : Option PostingList :=
  let updated := (pList.postings.filter fun p => p.docId ≠ docId).foldl PostingList.addPosting {}
  if updated.docFrequency = 0 then none else some updated

def removeDocument (index : InvertedIndex) (docId : UInt64) : Bool × InvertedIndex :=
  match index.docLengths.lookup docId with
  | none => (false, index)
  | some length =>
      (true,
        { totalTokens := index.totalTokens - UInt64.ofNat length
          docLengths := index.docLengths.erase docId
          dictionary := index.dictionary.filterMapValues fun _ => withoutDocument docId })

def hasDocument (index : InvertedIndex) (docId : UInt64) : Bool :=
  (index.docLengths.lookup docId).isSome

def indexDocument (tokenizer : Tokenizer) (index : InvertedIndex) (docId : UInt64)
    (content : Bytes) : InvertedIndex :=
  if index.hasDocument docId then
    (index.removeDocument docId).2.insertDocument tokenizer docId content
  else index.insertDocument tokenizer docId content

def clear (_index : InvertedIndex) : InvertedIndex := {}

/-! ### Runs -/

inductive Call
  | indexDocument (docId : UInt64) (content : Bytes)
  | removeDocument (docId : UInt64)
  | clear
deriving DecidableEq

def step (tokenizer : Tokenizer) (index : InvertedIndex) : Call → InvertedIndex
  | .indexDocument docId content => index.indexDocument tokenizer docId content
  | .removeDocument docId => (index.removeDocument docId).2
  | .clear => index.clear

def run (tokenizer : Tokenizer) (index : InvertedIndex) (calls : List Call) : InvertedIndex :=
  calls.foldl (step tokenizer) index

/-! ### Interleaved calls -/

/-- Where a call of `indexDocument` stands: it has not looked yet, it has let go of the lock to remove
the old document, or the old document is removed and it is to insert the new one. -/
inductive Phase
  | start
  | removing
  | inserting
  | done
deriving DecidableEq

structure Indexing where
  content : Bytes
  phase : Phase := .start
deriving DecidableEq

/-- The next section that a call of `indexDocument` runs under the lock. -/
def Indexing.advance (tokenizer : Tokenizer) (docId : UInt64) (index : InvertedIndex)
    (call : Indexing) : InvertedIndex × Indexing :=
  match call.phase with
  | .start =>
      if index.hasDocument docId then (index, { call with phase := .removing })
      else (index.insertDocument tokenizer docId call.content, { call with phase := .done })
  | .removing => ((index.removeDocument docId).2, { call with phase := .inserting })
  | .inserting => (index.insertDocument tokenizer docId call.content, { call with phase := .done })
  | .done => (index, call)

/-- The index and two calls of `indexDocument` for one document. -/
structure Writers where
  index : InvertedIndex
  calls : Bool → Indexing

/-- What runs next: a section of one of the two calls, or a call of `removeDocument`. -/
inductive Section
  | indexDocument (call : Bool)
  | removeDocument (docId : UInt64)
deriving DecidableEq

namespace Writers

def start (index : InvertedIndex) (contents : Bool → Bytes) : Writers :=
  { index := index, calls := fun call => { content := contents call } }

def next (tokenizer : Tokenizer) (docId : UInt64) (writers : Writers) : Section → Writers
  | .indexDocument call =>
      let (index, after) := (writers.calls call).advance tokenizer docId writers.index
      { index := index, calls := Function.update writers.calls call after }
  | .removeDocument other => { writers with index := (writers.index.removeDocument other).2 }

def run (tokenizer : Tokenizer) (docId : UInt64) (writers : Writers) (schedule : List Section) :
    Writers :=
  schedule.foldl (next tokenizer docId) writers

end Writers

end InvertedIndex

end NebulaFS
