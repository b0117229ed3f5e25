import NebulaFS.InvertedIndex

/-!
# Queries

`InvertedIndex::search`. A document gets the terms of the query that it has and the sum of their scores,
and the documents are sorted by score. The scores are values of any type with a sum and a comparison,
and `BM25Scorer` is a parameter.
-/

namespace NebulaFS

structure SearchResult (S : Type) where
  docId : UInt64 := 0
  score : S
  matchedTerms : List Bytes := []
deriving DecidableEq

structure QueryOptions (S : Type) where
  limit : Nat := 10
  minScore : S
  requireAllTerms : Bool := false

/-- `BM25Scorer`, with the quotient that the average document length is. -/
structure Scorer (S : Type) where
  idf : (totalDocs docFrequency : Nat) → S
  scoreTerm : (idfValue : S) → (termFreq : UInt32) → (docLength : Nat) → (avgDocLength : S) → S
  average : (totalTokens : UInt64) → (totalDocs : Nat) → S

namespace InvertedIndex

structure Accumulator (S : Type) where
  score : S
  matched : List Bytes := []

/-- The terms of a query, each where it comes first. -/
def uniqueTerms (queryTokens : List Token) : List Bytes :=
  queryTokens.foldl
    (fun terms tok => if terms.contains tok.term then terms else terms ++ [tok.term]) []

variable {S : Type} [Zero S] [Add S] [LT S] [DecidableLT S]

def averageDocumentLength (scorer : Scorer S) (index : InvertedIndex) : S :=
  if index.docLengths.entries = [] then 0
  else scorer.average index.totalTokens index.docLengths.entries.length

/-- What a posting of the term adds to the score of its document. -/
def termScore (scorer : Scorer S) (index : InvertedIndex) (pList : PostingList) (posting : Posting) :
    S :=
  let idfVal := scorer.idf index.docLengths.entries.length pList.docFrequency
  let docLen := (index.docLengths.lookup posting.docId).getD 0
  scorer.scoreTerm idfVal posting.termFrequency docLen (index.averageDocumentLength scorer)

/-- `acc.score += termScore; acc.matched.push_back(term);`. -/
def accumulate (term : Bytes) (score : S) (acc : Option (Accumulator S)) : Accumulator S :=
  let acc := acc.getD { score := 0 }
  { score := acc.score + score, matched := acc.matched ++ [term] }

/-- The round of `search` for one term. -/
def scorePostings (scorer : Scorer S) (index : InvertedIndex)
    (scores : UnorderedMap UInt64 (Accumulator S)) (term : Bytes) :
    UnorderedMap UInt64 (Accumulator S) :=
  match index.dictionary.lookup term with
  | none => scores
  | some pList =>
      pList.postings.foldl (fun scores posting =>
        scores.insert posting.docId (accumulate term (index.termScore scorer pList posting)
          (scores.lookup posting.docId))) scores

/-- The result for a document, unless the options leave it out. -/
def toResult (options : QueryOptions S) (uniqueTerms : List Bytes)
    (entry : Sigma fun _ : UInt64 => Accumulator S) : Option (SearchResult S) :=
  if options.requireAllTerms ∧ entry.2.matched.length < uniqueTerms.length then none
  else if entry.2.score < options.minScore then none
  else some { docId := entry.1, score := entry.2.score, matchedTerms := entry.2.matched }

/-- `std::sort` leaves open in what order results of the same score come; here they stay as they are. -/
def search (tokenizer : Tokenizer) (scorer : Scorer S) (index : InvertedIndex) (query : Bytes)
    (options : QueryOptions S) : List (SearchResult S) :=
  let queryTokens := tokenizer.tokenize query
  if queryTokens = [] ∨ index.docLengths.entries = [] then []
  else
    let terms := uniqueTerms queryTokens
    let scores := terms.foldl (index.scorePostings scorer) ∅
    let results := scores.entries.filterMap (toResult options terms)
    let results := results.mergeSort fun result other => ¬ result.score < other.score
    results.take options.limit

end InvertedIndex

end NebulaFS
