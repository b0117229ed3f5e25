import Mathlib.Data.List.Forall2

/-!
# Wildcard patterns

A pattern matches a text that can be cut into pieces, one for each of its characters: any piece for a
star, one character for a wildcard, and the character itself for every other one (`Matches`).

The second half is about the matcher that goes over both at once and remembers only the last star. One
that compares characters before it looks for a star takes a star in the text for what a star of the
pattern stands for. `Takes` is the relation it decides, cuts in which a star before a star has that one
character for its piece (`takes_iff_cut`). `Scan` is a state of the matcher, and `Scan.Decides` the
invariant: the last star can be given the least text that leads on from it, because whatever a later
start reaches, it reaches further behind (`Takes.of_suffix`).
-/

namespace Wildcard

variable {α : Type*}

section Relations

variable (star wild : α)

/-- The pieces a character of the pattern can stand for. -/
inductive Fits : α → List α → Prop
  | star (piece : List α) : Fits star piece
  | wild (x : α) : Fits wild [x]
  | self {c : α} (hstar : c ≠ star) (hwild : c ≠ wild) : Fits c [c]

/-- A text cut into one piece for each character. -/
def IsCut (pattern text : List α) (pieces : List (List α)) : Prop :=
  List.Forall₂ (Fits star wild) pattern pieces ∧ pieces.flatten = text

def Matches (pattern text : List α) : Prop := ∃ pieces, IsCut star wild pattern text pieces

/-- A star of the pattern before a star of the text has just that star for its piece. -/
def StarForStar : List α → List (List α) → Prop
  | c :: pattern, piece :: pieces =>
      (c = star → (piece ++ pieces.flatten).head? = some star → piece = [star])
        ∧ StarForStar pattern pieces
  | _, _ => True

/-- The character of the pattern takes the one of the text without looking any further. -/
def TakesOne (c x : α) : Prop := c = wild ∨ c = x

inductive Takes : List α → List α → Prop
  | nil : Takes [] []
  | one {c x : α} {pattern text : List α} (hone : TakesOne wild c x) (hrest : Takes pattern text) :
      Takes (c :: pattern) (x :: text)
  | skip {pattern text rest : List α} (hhead : text.head? ≠ some star) (hsuffix : rest <:+ text)
      (hrest : Takes pattern rest) : Takes (star :: pattern) text

end Relations

variable {star wild c x : α} {pattern text rest : List α}

/-! ### Cuts -/

theorem Takes.exists_cut (h : Takes star wild pattern text) :
    ∃ pieces, IsCut star wild pattern text pieces ∧ StarForStar star pattern pieces := by
  induction h with
  | nil => exact ⟨[], ⟨.nil, rfl⟩, trivial⟩
  | @one c x pattern text hone hrest ih =>
      obtain ⟨pieces, ⟨hfits, hflatten⟩, hstars⟩ := ih
      have hfit : Fits star wild c [x] := by
        by_cases hstar : c = star
        · exact hstar ▸ .star [x]
        · rcases hone with rfl | rfl
          · exact .wild x
          · by_cases hwild : c = wild
            · exact hwild ▸ .wild _
            · exact .self hstar hwild
      refine ⟨[x] :: pieces, ⟨.cons hfit hfits, by simp [hflatten]⟩, ?_, hstars⟩
      intro _ hhead
      rw [show x = star by simpa using hhead]
  | @skip pattern text rest hhead hsuffix hrest ih =>
      obtain ⟨pieces, ⟨hfits, hflatten⟩, hstars⟩ := ih
      obtain ⟨piece, rfl⟩ := hsuffix
      refine ⟨piece :: pieces, ⟨.cons (.star piece) hfits, by simp [hflatten]⟩, ?_, hstars⟩
      intro _ hstar
      rw [hflatten] at hstar
      exact absurd hstar hhead

theorem takes_of_cut {pieces : List (List α)} (hcut : IsCut star wild pattern text pieces)
    (hstars : StarForStar star pattern pieces) : Takes star wild pattern text := by
  obtain ⟨hfits, rfl⟩ := hcut
  induction hfits with
  | nil => exact .nil
  | @cons c piece pattern pieces hfit hfits ih =>
      have hrest := ih hstars.2
      cases hfit with
      | star =>
          by_cases hhead : (piece ++ pieces.flatten).head? = some star
          · rw [hstars.1 rfl hhead]
            exact .one (.inr rfl) hrest
          · exact .skip hhead (List.suffix_append _ _) hrest
      | wild x => exact .one (.inl rfl) hrest
      | self hstar hwild => exact .one (.inr rfl) hrest

theorem takes_iff_cut : Takes star wild pattern text
    ↔ ∃ pieces, IsCut star wild pattern text pieces ∧ StarForStar star pattern pieces := by
  constructor
  · intro h
    exact h.exists_cut
  · rintro ⟨pieces, hcut, hstars⟩
    exact takes_of_cut hcut hstars

theorem Takes.isMatch (h : Takes star wild pattern text) : Matches star wild pattern text := by
  obtain ⟨pieces, hcut, -⟩ := h.exists_cut
  exact ⟨pieces, hcut⟩

/-- Without a star in the text there is nothing to take for one. -/
theorem starForStar_of_notMem {pieces : List (List α)} (h : star ∉ pieces.flatten) :
    StarForStar star pattern pieces := by
  induction pieces generalizing pattern with
  | nil => cases pattern <;> exact trivial
  | cons piece pieces ih =>
      cases pattern with
      | nil => exact trivial
      | cons c pattern =>
          rw [List.flatten_cons] at h
          refine ⟨?_, ih fun hmem => h (List.mem_append_right _ hmem)⟩
          intro _ hhead
          exact absurd (List.mem_of_mem_head? hhead) h

/-! ### One character at a time -/

theorem not_takes_nil : ¬ Takes star wild [] (x :: text) := by
  intro h
  cases h

/-- A pattern takes nothing if it has stars only. -/
theorem takes_nil_text_iff : Takes star wild pattern [] ↔ ∀ c ∈ pattern, c = star := by
  induction pattern with
  | nil => exact iff_of_true .nil (fun _ hmem => absurd hmem List.not_mem_nil)
  | cons c pattern ih =>
      rw [List.forall_mem_cons, ← ih]
      constructor
      · intro h
        cases h with
        | skip hhead hsuffix hrest => exact ⟨rfl, List.suffix_nil.mp hsuffix ▸ hrest⟩
      · rintro ⟨rfl, hrest⟩
        exact .skip (by simp) List.suffix_rfl hrest

theorem takes_one_iff (hne : star ≠ wild) (hone : TakesOne wild c x) :
    Takes star wild (c :: pattern) (x :: text) ↔ Takes star wild pattern text := by
  constructor
  · intro h
    cases h with
    | one _ hrest => exact hrest
    | skip hhead _ _ =>
        rcases hone with hwild | rfl
        · exact absurd hwild hne
        · exact absurd rfl hhead
  · intro h
    exact .one hone h

theorem takes_star_iff (hhead : text.head? ≠ some star) (hne : star ≠ wild) :
    Takes star wild (star :: pattern) text ↔ ∃ rest, rest <:+ text ∧ Takes star wild pattern rest := by
  constructor
  · intro h
    cases h with
    | one hone hrest =>
        rcases hone with hwild | rfl
        · exact absurd hwild hne
        · exact absurd rfl hhead
    | skip _ hsuffix hrest => exact ⟨_, hsuffix, hrest⟩
  · rintro ⟨rest, hsuffix, hrest⟩
    exact .skip hhead hsuffix hrest

theorem not_takes_of_mismatch (hone : ¬ TakesOne wild c x) (hstar : c ≠ star) :
    ¬ Takes star wild (c :: pattern) (x :: text) := by
  intro h
  cases h with
  | one hone' _ => exact hone hone'
  | skip _ _ _ => exact hstar rfl

/-! ### The last star -/

/-- Characters taken one by one. -/
abbrev Literally (wild : α) (block run : List α) : Prop := List.Forall₂ (TakesOne wild) block run

theorem takes_append_iff (hne : star ≠ wild) {block run : List α} (h : Literally wild block run) :
    Takes star wild (block ++ pattern) (run ++ text) ↔ Takes star wild pattern text := by
  induction h with
  | nil => exact Iff.rfl
  | cons hone _ ih => exact (takes_one_iff hne hone).trans ih

/-- What begins later than a literal run ends later. -/
theorem Takes.of_suffix (hne : star ≠ wild) {block run later : List α} (h : Literally wild block run)
    (hlater : later <:+ run ++ text) (htakes : Takes star wild (block ++ pattern) later) :
    ∃ rest, rest <:+ text ∧ Takes star wild pattern rest := by
  induction h generalizing later with
  | nil => exact ⟨later, hlater, htakes⟩
  | cons hone _ ih =>
      rcases List.suffix_cons_iff.mp hlater with rfl | hlater
      · -- the same start, where the first character is taken alike
        exact ih List.suffix_rfl ((takes_one_iff hne hone).mp htakes)
      · cases htakes with
        | one _ hrest => exact ih ((List.suffix_cons _ _).trans hlater) hrest
        | skip _ hsuffix hrest => exact ih (hsuffix.trans hlater) hrest

/-! ### The matcher -/

/-- What is left of pattern and text, and what was left of them when the last star was given its
piece. -/
structure Scan (α : Type*) where
  pattern : List α
  text : List α
  mark : Option (List α × List α)

/-- The outcome is decided by what is left, or by what a later start of the last star leaves. -/
def Scan.Decides (star wild : α) (outcome : Prop) (scan : Scan α) : Prop :=
  match scan.mark with
  | none => outcome ↔ Takes star wild scan.pattern scan.text
  | some (after, start) =>
      (∃ block run, Literally wild block run ∧ after = block ++ scan.pattern
        ∧ start = run ++ scan.text)
      ∧ (outcome ↔ ∃ later, later <:+ start ∧ Takes star wild after later)

namespace Scan

variable {outcome : Prop} {mark : Option (List α × List α)} {after start : List α}

theorem decides_start (star wild : α) (pattern text : List α) :
    Decides star wild (Takes star wild pattern text)
      { pattern := pattern, text := text, mark := none } := Iff.rfl

theorem Decides.of_one (hne : star ≠ wild) (hone : TakesOne wild c x)
    (h : Decides star wild outcome { pattern := c :: pattern, text := x :: text, mark := mark }) :
    Decides star wild outcome { pattern := pattern, text := text, mark := mark } := by
  match mark with
  | none => exact h.trans (takes_one_iff hne hone)
  | some (after, start) =>
      obtain ⟨⟨block, run, hliteral, hafter, hstart⟩, hiff⟩ := h
      refine ⟨⟨block ++ [c], run ++ [x], ?_, by simp [hafter], by simp [hstart]⟩, hiff⟩
      exact List.rel_append hliteral (.cons hone .nil)

/-- What is left decides, with the text as it is or from a later place on. -/
theorem Decides.iff_exists (hne : star ≠ wild)
    (h : Decides star wild outcome { pattern := pattern, text := text, mark := some (after, start) }) :
    (Takes star wild pattern text → outcome)
      ∧ (outcome → ∃ rest, rest <:+ text ∧ Takes star wild pattern rest) := by
  obtain ⟨⟨block, run, hliteral, hafter, hstart⟩, hiff⟩ := h
  rw [hiff, hafter, hstart]
  constructor
  · intro htakes
    exact ⟨_, List.suffix_rfl, (takes_append_iff hne hliteral).mpr htakes⟩
  · rintro ⟨later, hsuffix, hlater⟩
    exact hlater.of_suffix hne hliteral hsuffix

/-- A new star makes the one before it irrelevant. -/
theorem Decides.of_star (hne : star ≠ wild) (hhead : text.head? ≠ some star)
    (h : Decides star wild outcome { pattern := star :: pattern, text := text, mark := mark }) :
    Decides star wild outcome { pattern := pattern, text := text, mark := some (pattern, text) } := by
  refine ⟨⟨[], [], .nil, rfl, rfl⟩, ?_⟩
  match mark with
  | none => exact h.trans (takes_star_iff hhead hne)
  | some (after, start) =>
      obtain ⟨henough, hneeded⟩ := h.iff_exists hne
      constructor
      · intro houtcome
        obtain ⟨rest, hsuffix, hrest⟩ := hneeded houtcome
        cases hrest with
        | one _ hrest => exact ⟨_, (List.suffix_cons _ _).trans hsuffix, hrest⟩
        | skip _ hinner hrest => exact ⟨_, hinner.trans hsuffix, hrest⟩
      · rintro ⟨rest, hsuffix, hrest⟩
        exact henough (.skip hhead hsuffix hrest)

/-- After a mismatch the last star takes one character more. -/
theorem Decides.of_retry (hne : star ≠ wild) (hfails : ¬ Takes star wild pattern text)
    (h : Decides star wild outcome
      { pattern := pattern, text := text, mark := some (after, x :: start) }) :
    Decides star wild outcome { pattern := after, text := start, mark := some (after, start) } := by
  refine ⟨⟨[], [], .nil, rfl, rfl⟩, ?_⟩
  obtain ⟨⟨block, run, hliteral, hafter, hstart⟩, hiff⟩ := h
  have hwhole : ¬ Takes star wild after (x :: start) := by
    rw [hafter, hstart]
    exact fun htakes => hfails ((takes_append_iff hne hliteral).mp htakes)
  rw [hiff]
  constructor
  · rintro ⟨later, hsuffix, hlater⟩
    rcases List.suffix_cons_iff.mp hsuffix with rfl | hsuffix
    · exact absurd hlater hwhole
    · exact ⟨later, hsuffix, hlater⟩
  · rintro ⟨later, hsuffix, hlater⟩
    exact ⟨later, hsuffix.trans (List.suffix_cons _ _), hlater⟩

theorem Decides.not_of_fail (hfails : ¬ Takes star wild pattern text)
    (h : Decides star wild outcome { pattern := pattern, text := text, mark := none }) : ¬ outcome :=
  fun houtcome => hfails (h.mp houtcome)

/-- At the end of the text only stars may be left. -/
theorem Decides.of_end (hne : star ≠ wild)
    (h : Decides star wild outcome { pattern := pattern, text := [], mark := mark }) :
    outcome ↔ ∀ c ∈ pattern, c = star := by
  rw [show (∀ c ∈ pattern, c = star) ↔ Takes star wild pattern [] from takes_nil_text_iff.symm]
  match mark with
  | none => exact h
  | some (after, start) =>
      obtain ⟨henough, hneeded⟩ := h.iff_exists hne
      constructor
      · intro houtcome
        obtain ⟨rest, hsuffix, hrest⟩ := hneeded houtcome
        exact List.suffix_nil.mp hsuffix ▸ hrest
      · exact henough

end Scan

end Wildcard
