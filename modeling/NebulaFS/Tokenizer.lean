import NebulaFS.Types

/-!
# The tokenizer

`search/Tokenizer.cpp`, under the `C` locale. A text is cut at white space and, by option, at
punctuation. The pieces of the right length that are no stop words are its tokens, numbered in turn.
-/

namespace NebulaFS

structure Token where
  term : Bytes
  position : UInt32 := 0
  byteOffset : UInt32 := 0
  byteLength : UInt32 := 0
deriving DecidableEq

structure TokenizerOptions where
  toLower : Bool := true
  removePunctuation : Bool := true
  filterStopwords : Bool := true
  minTermLength : Nat := 2
  maxTermLength : Nat := 64
deriving DecidableEq

structure Tokenizer where
  options : TokenizerOptions
  stopwords : List Bytes

namespace Tokenizer

def isspace (c : UInt8) : Bool := c = 0x20 ∨ (0x09 ≤ c ∧ c ≤ 0x0D)

def ispunct (c : UInt8) : Bool :=
  (0x21 ≤ c ∧ c ≤ 0x2F) ∨ (0x3A ≤ c ∧ c ≤ 0x40) ∨ (0x5B ≤ c ∧ c ≤ 0x60) ∨ (0x7B ≤ c ∧ c ≤ 0x7E)

def tolower (c : UInt8) : UInt8 := if 0x41 ≤ c ∧ c ≤ 0x5A then c + 0x20 else c

/-- `kDefaultWords`. -/
def defaultWords : List String :=
  ["a", "about", "above", "after", "again", "against", "all", "am", "an", "and",
    "any", "are", "aren't", "as", "at", "be", "because", "been", "before", "being",
    "below", "between", "both", "but", "by", "can't", "cannot", "could", "couldn't",
    "did", "didn't", "do", "does", "doesn't", "doing", "don't", "down", "during",
    "each", "few", "for", "from", "further", "had", "hadn't", "has", "hasn't",
    "have", "haven't", "having", "he", "he'd", "he'll", "he's", "her", "here",
    "here's", "hers", "herself", "him", "himself", "his", "how", "how's", "i",
    "i'd", "i'll", "i'm", "i've", "if", "in", "into", "is", "isn't", "it",
    "it's", "its", "itself", "let's", "me", "more", "most", "mustn't", "my",
    "myself", "no", "nor", "not", "of", "off", "on", "once", "only", "or",
    "other", "ought", "our", "ours", "ourselves", "out", "over", "own", "same",
    "shan't", "she", "she'd", "she'll", "she's", "should", "shouldn't", "so",
    "some", "such", "than", "that", "that's", "the", "their", "theirs", "them",
    "themselves", "then", "there", "there's", "these", "they", "they'd", "they'll",
    "they're", "they've", "this", "those", "through", "to", "too", "under",
    "until", "up", "very", "was", "wasn't", "we", "we'd", "we'll", "we're",
    "we've", "were", "weren't", "what", "what's", "when", "when's", "where",
    "where's", "which", "while", "who", "who's", "whom", "why", "why's", "with",
    "won't", "would", "wouldn't", "you", "you'd", "you'll", "you're", "you've",
    "your", "yours", "yourself", "yourselves"]

def new (options : TokenizerOptions := {}) : Tokenizer :=
  { options := options, stopwords := defaultWords.map fun word => word.toUTF8.toList }

variable (tokenizer : Tokenizer)

def isStopword (term : Bytes) : Bool := term ∈ tokenizer.stopwords

def isDelimiter (c : UInt8) : Bool :=
  isspace c || (tokenizer.options.removePunctuation && ispunct c)

/-- The loop of `tokenize` over what is left of the text, from offset `i` on. -/
def tokenizeLoop : (fuel : Nat) → (text : Bytes) → (i : Nat) → (position : UInt32) → List Token
  | 0, _, _, _ => []
  | fuel + 1, text, i, position =>
      let startOffset := i + (text.takeWhile tokenizer.isDelimiter).length
      let text := text.dropWhile tokenizer.isDelimiter
      if text = [] then []
      else
        let piece := text.takeWhile fun c => !tokenizer.isDelimiter c
        let text := text.dropWhile fun c => !tokenizer.isDelimiter c
        let i := startOffset + piece.length
        let options := tokenizer.options
        if options.minTermLength ≤ piece.length ∧ piece.length ≤ options.maxTermLength then
          let term := if options.toLower then piece.map tolower else piece
          if ¬ options.filterStopwords ∨ ¬ tokenizer.isStopword term then
            { term := term
              position := position
              byteOffset := UInt32.ofNat startOffset
              byteLength := UInt32.ofNat piece.length }
              :: tokenizeLoop fuel text i (position + 1)
          else tokenizeLoop fuel text i position
        else tokenizeLoop fuel text i position

def tokenize (text : Bytes) : List Token := tokenizer.tokenizeLoop text.length text 0 0

/-! ### Facts -/

variable {tokenizer}

theorem length_dropWhile_piece_lt {text : Bytes} (h : text.dropWhile tokenizer.isDelimiter ≠ []) :
    ((text.dropWhile tokenizer.isDelimiter).dropWhile
      fun c => !tokenizer.isDelimiter c).length < text.length := by
  have hrest := (List.dropWhile_suffix tokenizer.isDelimiter (l := text)).length_le
  have hhead := List.head?_dropWhile_not tokenizer.isDelimiter text
  cases hsplit : text.dropWhile tokenizer.isDelimiter with
  | nil => exact absurd hsplit h
  | cons c rest =>
      rw [hsplit] at hhead hrest
      have hc : tokenizer.isDelimiter c = false := hhead
      have htail := (List.dropWhile_suffix (fun c => !tokenizer.isDelimiter c) (l := rest)).length_le
      rw [List.dropWhile_cons_of_pos (by rw [hc]; rfl)]
      rw [List.length_cons] at hrest
      omega

/-- A piece takes at least one byte of the text, so that the fuel is enough. -/
theorem tokenizeLoop_fuel {fuel more : Nat} {text : Bytes} (hfuel : text.length ≤ fuel)
    (hmore : text.length ≤ more) (i : Nat) (position : UInt32) :
    tokenizer.tokenizeLoop fuel text i position = tokenizer.tokenizeLoop more text i position := by
  induction fuel generalizing more text i position with
  | zero =>
      obtain rfl := List.eq_nil_of_length_eq_zero (Nat.le_zero.mp hfuel)
      cases more with
      | zero => rfl
      | succ more => rw [tokenizeLoop, tokenizeLoop, List.dropWhile_nil, if_pos rfl]
  | succ fuel ih =>
      cases more with
      | zero =>
          obtain rfl := List.eq_nil_of_length_eq_zero (Nat.le_zero.mp hmore)
          rw [tokenizeLoop, tokenizeLoop, List.dropWhile_nil, if_pos rfl]
      | succ more =>
          rw [tokenizeLoop, tokenizeLoop]
          by_cases hrest : text.dropWhile tokenizer.isDelimiter = []
          · simp only [if_pos hrest]
          · have hlt := length_dropWhile_piece_lt hrest
            have hnext : ∀ rest : Bytes, rest.length < text.length → ∀ i position,
                tokenizer.tokenizeLoop fuel rest i position
                  = tokenizer.tokenizeLoop more rest i position :=
              fun rest hrest i position => ih (by omega) (by omega) i position
            simp only [if_neg hrest, hnext _ hlt]

theorem length_tokenizeLoop_le (fuel : Nat) (text : Bytes) (i : Nat) (position : UInt32) :
    (tokenizer.tokenizeLoop fuel text i position).length ≤ text.length := by
  induction fuel generalizing text i position with
  | zero => exact Nat.zero_le _
  | succ fuel ih =>
      rw [tokenizeLoop]
      by_cases hrest : text.dropWhile tokenizer.isDelimiter = []
      · simp only [if_pos hrest]
        exact Nat.zero_le _
      · have hlt := length_dropWhile_piece_lt hrest
        have hnext := fun i position => Nat.lt_of_le_of_lt (ih _ i position) hlt
        simp only [if_neg hrest]
        split_ifs
        -- the piece is a token, or it is not
        all_goals first
          | exact Nat.succ_le_of_lt (hnext _ _)
          | exact Nat.le_of_lt (hnext _ _)

/-- No text has more tokens than bytes. -/
theorem length_tokenize_le (text : Bytes) : (tokenizer.tokenize text).length ≤ text.length :=
  length_tokenizeLoop_le _ _ _ _

end Tokenizer

end NebulaFS
