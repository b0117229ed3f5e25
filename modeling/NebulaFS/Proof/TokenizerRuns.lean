import NebulaFS.Lib.MaximalRuns
import NebulaFS.Tokenizer

/-!
# What the tokenizer returns

The loop of `tokenize` stands behind a run or at the start of the text whenever a round begins
(`TokensFrom`), and one round comes to the next run. Filtering leaves a run out of the tokens and touches
neither the positions nor the offsets of the others.
-/

namespace NebulaFS

open Cursor MaximalRuns

namespace Tokenizer

variable {tokenizer : Tokenizer} {text : Bytes} {i start length stop : Nat} {position : UInt32}
  {tokens : List Token}

/-- What a piece of the text is turned into. -/
def form (tokenizer : Tokenizer) (piece : Bytes) : Bytes :=
  if tokenizer.options.toLower then piece.map tolower else piece

/-- The piece has the right length and is no stop word that is filtered out. -/
def Admits (tokenizer : Tokenizer) (piece : Bytes) : Prop :=
  (tokenizer.options.minTermLength ≤ piece.length ∧ piece.length ≤ tokenizer.options.maxTermLength)
    ∧ (tokenizer.options.filterStopwords = true → tokenizer.form piece ∉ tokenizer.stopwords)

/-- The token stands for the bytes of this range. -/
def Spans (tok : Token) (start length : Nat) : Prop :=
  tok.byteOffset.toNat = start ∧ tok.byteLength.toNat = length

/-- The tokens are the admitted runs of the text, in order and numbered. -/
structure TokensOf (tokenizer : Tokenizer) (text : Bytes) (tokens : List Token) : Prop where
  runs : ∀ start length, (∃ tok ∈ tokens, Spans tok start length)
    ↔ IsRun tokenizer.isDelimiter text start length ∧ tokenizer.Admits (slice text start length)
  term : ∀ tok ∈ tokens,
    tok.term = tokenizer.form (slice text tok.byteOffset.toNat tok.byteLength.toNat)
  ordered : tokens.Pairwise fun tok next =>
    tok.byteOffset.toNat + tok.byteLength.toNat ≤ next.byteOffset.toNat
  position : ∀ (k : Nat) tok, tokens[k]? = some tok → tok.position.toNat = k

/-- The same for the rest of the text, with the positions counted on. -/
structure TokensFrom (tokenizer : Tokenizer) (text : Bytes) (i : Nat) (position : UInt32)
    (tokens : List Token) : Prop where
  runs : ∀ start length, (∃ tok ∈ tokens, Spans tok start length)
    ↔ (i ≤ start ∧ IsRun tokenizer.isDelimiter text start length)
      ∧ tokenizer.Admits (slice text start length)
  term : ∀ tok ∈ tokens,
    tok.term = tokenizer.form (slice text tok.byteOffset.toNat tok.byteLength.toNat)
  ordered : tokens.Pairwise fun tok next =>
    tok.byteOffset.toNat + tok.byteLength.toNat ≤ next.byteOffset.toNat
  position : ∀ (k : Nat) tok, tokens[k]? = some tok → tok.position = position + UInt32.ofNat k

theorem tokensFrom_nil (hgaps : ∀ j, i ≤ j → Gap tokenizer.isDelimiter text j) :
    TokensFrom tokenizer text i position [] := by
  constructor
  case runs =>
    intro start length
    refine iff_of_false ?_ ?_
    · rintro ⟨tok, hmem, -⟩
      cases hmem
    · rintro ⟨⟨hstart, hrun⟩, -⟩
      exact not_isRun_of_gaps hgaps hstart hrun
  case term => exact fun tok hmem => absurd hmem List.not_mem_nil
  case ordered => exact List.Pairwise.nil
  case position =>
    intro k tok htok
    cases htok

/-- The scan stands at `i`, the next run goes from `start` to `stop`. -/
structure NextRun (tokenizer : Tokenizer) (text : Bytes) (i start stop : Nat) : Prop where
  le_start : i ≤ start
  start_lt : start < stop
  le_length : stop ≤ text.length
  after : Gap tokenizer.isDelimiter text stop
  first : ∀ s n, i ≤ s ∧ IsRun tokenizer.isDelimiter text s n
    ↔ (s = start ∧ n = stop - start) ∨ (stop ≤ s ∧ IsRun tokenizer.isDelimiter text s n)

/-- A run that is not admitted is left out. -/
theorem TokensFrom.skip (h : TokensFrom tokenizer text stop position tokens)
    (hnext : NextRun tokenizer text i start stop)
    (hrefused : ¬ tokenizer.Admits (slice text start (stop - start))) :
    TokensFrom tokenizer text i position tokens := by
  constructor
  case runs =>
    intro s n
    rw [h.runs, hnext.first]
    apply and_congr_left
    intro hadmits
    refine (or_iff_right ?_).symm
    rintro ⟨rfl, rfl⟩
    exact hrefused hadmits
  case term => exact h.term
  case ordered => exact h.ordered
  case position => exact h.position

/-- The token of the run from `start` to `stop`. -/
def tokenAt (tokenizer : Tokenizer) (text : Bytes) (start stop : Nat) (position : UInt32) : Token :=
  { term := tokenizer.form (slice text start (stop - start))
    position := position
    byteOffset := UInt32.ofNat start
    byteLength := UInt32.ofNat (stop - start) }

theorem NextRun.spans_tokenAt (hnext : NextRun tokenizer text i start stop)
    (hshort : text.length < 2 ^ 32) (position : UInt32) :
    Spans (tokenizer.tokenAt text start stop position) start (stop - start) := by
  have hstop := hnext.le_length
  have hstart := hnext.start_lt
  exact ⟨UInt32.toNat_ofNat_of_lt' (show start < 2 ^ 32 by omega),
    UInt32.toNat_ofNat_of_lt' (show stop - start < 2 ^ 32 by omega)⟩

theorem Spans.eq_of {tok : Token} {start' length' : Nat} (h : Spans tok start length)
    (hother : Spans tok start' length') : start' = start ∧ length' = length :=
  ⟨hother.1.symm.trans h.1, hother.2.symm.trans h.2⟩

/-- A run that is admitted becomes the next token. -/
theorem TokensFrom.cons (h : TokensFrom tokenizer text stop (position + 1) tokens)
    (hnext : NextRun tokenizer text i start stop) (hshort : text.length < 2 ^ 32)
    (hadmits : tokenizer.Admits (slice text start (stop - start))) :
    TokensFrom tokenizer text i position (tokenizer.tokenAt text start stop position :: tokens) := by
  have hspans := hnext.spans_tokenAt hshort position
  constructor
  case runs =>
    intro s n
    rw [hnext.first, or_and_right, ← h.runs]
    constructor
    · rintro ⟨tok, hmem, htok⟩
      rcases List.mem_cons.mp hmem with rfl | hmem
      · obtain ⟨rfl, rfl⟩ := hspans.eq_of htok
        exact Or.inl ⟨⟨rfl, rfl⟩, hadmits⟩
      · exact Or.inr ⟨tok, hmem, htok⟩
    · rintro (⟨⟨rfl, rfl⟩, -⟩ | ⟨tok, hmem, htok⟩)
      · exact ⟨_, List.mem_cons_self, hspans⟩
      · exact ⟨tok, List.mem_cons_of_mem _ hmem, htok⟩
  case term =>
    intro tok hmem
    rcases List.mem_cons.mp hmem with rfl | hmem
    · rw [hspans.1, hspans.2]
      rfl
    · exact h.term tok hmem
  case ordered =>
    refine List.Pairwise.cons ?_ h.ordered
    intro next hmem
    have hlater := ((h.runs _ _).mp ⟨next, hmem, rfl, rfl⟩).1.1
    have hstart := hnext.start_lt
    rw [hspans.1, hspans.2]
    omega
  case position =>
    intro k tok htok
    cases k with
    | zero =>
        cases htok
        exact (UInt32.add_zero position).symm
    | succ k =>
        rw [List.getElem?_cons_succ] at htok
        rw [h.position k tok htok, UInt32.add_assoc, UInt32.add_comm 1]
        exact congrArg (position + ·) (UInt32.ofNat_add k 1).symm

/-! ### One round -/

/-- What a round of the loop comes to, unless only delimiters are left. -/
theorem nextRun_of_scan (hbefore : i = 0 ∨ Gap tokenizer.isDelimiter text i)
    (hstart : start = i + ((text.drop i).takeWhile tokenizer.isDelimiter).length)
    (hstop : stop = start + ((text.drop start).takeWhile fun c => !tokenizer.isDelimiter c).length)
    (hmore : start < text.length) : NextRun tokenizer text i start stop := by
  have hle : i ≤ start := by omega
  have hgaps : ∀ j, i ≤ j → j < start → Gap tokenizer.isDelimiter text j :=
    fun j hij hj => gap_of_skipped hij (by omega)
  have hrun : ∀ j, start ≤ j → j < stop → ¬ Gap tokenizer.isDelimiter text j :=
    fun j hij hj => not_gap_of_taken hij (by omega)
  have hafter : Gap tokenizer.isDelimiter text stop := hstop ▸ gap_stop _ text start
  -- the scan for delimiters stopped at `start`, so that at least this item is taken
  have hnonempty : start < stop := by
    have hstopped := getElem?_stop tokenizer.isDelimiter text i text[start]
    rw [← hstart] at hstopped
    have hitem := hstopped (List.getElem?_eq_getElem hmore)
    rw [hstop, List.drop_eq_getElem_cons hmore, List.takeWhile_cons_of_pos (by rw [hitem]; rfl),
      List.length_cons]
    omega
  constructor
  case le_start => exact hle
  case start_lt => exact hnonempty
  case le_length =>
    have htaken := (List.takeWhile_prefix (fun c => !tokenizer.isDelimiter c)
      (l := text.drop start)).length_le
    rw [List.length_drop] at htaken
    omega
  case after => exact hafter
  case first => exact isRun_iff_first hle hnonempty hbefore hgaps hrun hafter

/-- A round, with the next run and the rest of the text by their positions. -/
theorem tokenizeLoop_succ (position : UInt32) (fuel : Nat)
    (hstart : start = i + ((text.drop i).takeWhile tokenizer.isDelimiter).length)
    (hstop : stop = start + ((text.drop start).takeWhile fun c => !tokenizer.isDelimiter c).length)
    (hmore : start < text.length) :
    (tokenizer.Admits (slice text start (stop - start)) →
        tokenizer.tokenizeLoop (fuel + 1) (text.drop i) i position
          = tokenizer.tokenAt text start stop position
            :: tokenizer.tokenizeLoop fuel (text.drop stop) stop (position + 1))
      ∧ (¬ tokenizer.Admits (slice text start (stop - start)) →
        tokenizer.tokenizeLoop (fuel + 1) (text.drop i) i position
          = tokenizer.tokenizeLoop fuel (text.drop stop) stop position) := by
  have hrest : (text.drop i).dropWhile tokenizer.isDelimiter = text.drop start := by
    rw [dropWhile_drop, hstart]
  have hafter : (text.drop start).dropWhile (fun c => !tokenizer.isDelimiter c) = text.drop stop := by
    rw [dropWhile_drop, hstop]
  have hpiece : (text.drop start).takeWhile (fun c => !tokenizer.isDelimiter c)
      = slice text start (stop - start) := by
    rw [hstop, Nat.add_sub_cancel_left, slice_takeWhile]
  have hne : text.drop start ≠ [] := by
    rw [ne_eq, List.drop_eq_nil_iff]
    omega
  have hlength : (slice text start (stop - start)).length = stop - start := by
    rw [← hpiece, hstop, Nat.add_sub_cancel_left]
  have hend : start + (stop - start) = stop := by omega
  have hform : (if tokenizer.options.toLower = true
        then (slice text start (stop - start)).map tolower else slice text start (stop - start))
      = tokenizer.form (slice text start (stop - start)) := rfl
  rw [tokenizeLoop]
  simp only [← hstart, hrest, if_neg hne, hafter, hpiece, hform, hlength, hend]
  constructor
  · rintro ⟨hbounds, hword⟩
    rw [hlength] at hbounds
    rw [if_pos hbounds, if_pos]
    · rfl
    · by_cases hfilter : tokenizer.options.filterStopwords = true
      · refine Or.inr fun hstopword => hword hfilter (of_decide_eq_true hstopword)
      · exact Or.inl hfilter
  · intro hrefused
    split_ifs with hbounds hword
    · exfalso
      refine hrefused ⟨hlength.symm ▸ hbounds, fun hfilter hmem => ?_⟩
      rcases hword with hoff | hword
      · exact hoff hfilter
      · exact hword (decide_eq_true hmem)
    · rfl
    · rfl

/-! ### The loop -/

theorem tokensFrom_tokenizeLoop (hshort : text.length < 2 ^ 32) {fuel : Nat}
    (hfuel : text.length ≤ i + fuel) (hbefore : i = 0 ∨ Gap tokenizer.isDelimiter text i)
    (position : UInt32) :
    TokensFrom tokenizer text i position
      (tokenizer.tokenizeLoop fuel (text.drop i) i position) := by
  induction fuel generalizing i position with
  | zero => exact tokensFrom_nil fun j hj => gap_of_length_le (by omega)
  | succ fuel ih =>
      obtain ⟨start, hstart⟩ : ∃ start,
        start = i + ((text.drop i).takeWhile tokenizer.isDelimiter).length := ⟨_, rfl⟩
      by_cases hmore : start < text.length
      · obtain ⟨stop, hstop⟩ : ∃ stop, stop
          = start + ((text.drop start).takeWhile fun c => !tokenizer.isDelimiter c).length :=
            ⟨_, rfl⟩
        have hnext := nextRun_of_scan hbefore hstart hstop hmore
        have hround := tokenizeLoop_succ position fuel hstart hstop hmore
        have hle := hnext.le_start
        have hlt := hnext.start_lt
        have hrest : ∀ position, TokensFrom tokenizer text stop position
            (tokenizer.tokenizeLoop fuel (text.drop stop) stop position) := by
          intro position
          exact ih (by omega) (Or.inr hnext.after) position
        by_cases hadmits : tokenizer.Admits (slice text start (stop - start))
        · rw [hround.1 hadmits]
          exact (hrest (position + 1)).cons hnext hshort hadmits
        · rw [hround.2 hadmits]
          exact (hrest position).skip hnext hadmits
      · have hnone : (text.drop i).dropWhile tokenizer.isDelimiter = [] := by
          rw [dropWhile_drop, ← hstart, List.drop_eq_nil_iff]
          omega
        rw [tokenizeLoop]
        simp only [if_pos hnone]
        apply tokensFrom_nil
        intro j hj
        by_cases hskipped : j < start
        · exact gap_of_skipped hj (by omega)
        · exact gap_of_length_le (by omega)

/-- **What the tokenizer returns**: the maximal runs of the text that the options admit. -/
theorem tokensOf_tokenize (tokenizer : Tokenizer) (hshort : text.length < 2 ^ 32) :
    TokensOf tokenizer text (tokenizer.tokenize text) := by
  have hfrom : TokensFrom tokenizer text 0 0 (tokenizer.tokenize text) :=
    tokensFrom_tokenizeLoop hshort (by omega) (Or.inl rfl) 0
  constructor
  case runs =>
    intro start length
    rw [hfrom.runs, and_iff_right (Nat.zero_le start)]
  case term => exact hfrom.term
  case ordered => exact hfrom.ordered
  case position =>
    intro k tok htok
    have hcount := tokenizer.length_tokenize_le text
    have hk := (List.getElem?_eq_some_iff.mp htok).1
    rw [hfrom.position k tok htok, UInt32.zero_add,
      UInt32.toNat_ofNat_of_lt' (show k < 2 ^ 32 by omega)]

/-- Of three runs one is a stop word and one is too short. -/
theorem tokensOf_tokenize_the :
    let text : Bytes := [84, 104, 101, 32, 67, 97, 116, 44, 32, 53]
    TokensOf .new text (Tokenizer.new.tokenize text)
      ∧ Tokenizer.new.tokenize text = [⟨[99, 97, 116], 0, 4, 3⟩] := by
  intro text
  exact ⟨tokensOf_tokenize .new (by decide), by decide +kernel⟩

end Tokenizer

end NebulaFS
