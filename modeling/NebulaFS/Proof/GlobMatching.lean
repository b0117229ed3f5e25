import Mathlib.Data.List.TakeWhile
import NebulaFS.FileResolver
import NebulaFS.Lib.Wildcard

/-!
# What a pattern matches

The loop of `matchGlob` is the matcher of `Wildcard`, over the ends of pattern and string from its two
indices on (`view`). It ends, because no star is gone back to behind a later one and each gets every start
once, and what it returns is `Wildcard.Takes` (`matchGlob_eq`): a star of the pattern that comes upon a
star of the string is used up on it. So a match is missed exactly if every cut gives such a star something
else (`matchGlob_correct_iff`).
-/

namespace NebulaFS

open Wildcard

namespace FileResolver

variable {pattern str : Bytes} {state next : GlobState} {outcome : Prop}

/-! ### One round of the loop -/

theorem asterisk_ne_questionMark : asterisk ≠ questionMark := by decide

/-- What the loop has before it. -/
def view (pattern str : Bytes) (state : GlobState) : Scan UInt8 :=
  { pattern := pattern.drop state.pi
    text := str.drop state.si
    mark := state.starPos.map fun starPos => (pattern.drop (starPos + 1), str.drop state.matchPos) }

structure InRange (pattern str : Bytes) (state : GlobState) : Prop where
  pi_le : state.pi ≤ pattern.length
  si_le : state.si ≤ str.length
  matchPos_le : state.matchPos ≤ state.si
  starPos_lt : ∀ starPos, state.starPos = some starPos → starPos < state.pi

/-- Stars and starts that are still to come, and then characters. -/
def weight (pattern str : Bytes) (state : GlobState) : Nat :=
  (pattern.length + str.length - state.starPos.elim 0 (· + 1) - state.matchPos) * (str.length + 1)
    + (str.length - state.si)

/-- The rounds there are: a character is taken, a star is noted, or nothing fits. -/
theorem globStep_cases (pattern : Bytes) (hsi : state.si < str.length) :
    (∃ c x, pattern.drop state.pi = c :: pattern.drop (state.pi + 1) ∧ state.pi < pattern.length
        ∧ str.drop state.si = x :: str.drop (state.si + 1) ∧ TakesOne questionMark c x
        ∧ globStep pattern str state = some { state with pi := state.pi + 1, si := state.si + 1 })
      ∨ (pattern.drop state.pi = asterisk :: pattern.drop (state.pi + 1) ∧ state.pi < pattern.length
        ∧ (str.drop state.si).head? ≠ some asterisk
        ∧ globStep pattern str state
          = some { pi := state.pi + 1, si := state.si, starPos := some state.pi
                   matchPos := state.si })
      ∨ (¬ Takes asterisk questionMark (pattern.drop state.pi) (str.drop state.si)
        ∧ globStep pattern str state = state.starPos.map fun starPos =>
          { pi := starPos + 1
            si := state.matchPos + 1
            starPos := some starPos
            matchPos := state.matchPos + 1 }) := by
  have hstr : str.drop state.si = str[state.si] :: str.drop (state.si + 1) :=
    List.drop_eq_getElem_cons hsi
  have hx : str[state.si]? = some str[state.si] := List.getElem?_eq_getElem hsi
  rw [globStep, hx]
  by_cases hpi : state.pi < pattern.length
  · have hpattern : pattern.drop state.pi = pattern[state.pi] :: pattern.drop (state.pi + 1) :=
      List.drop_eq_getElem_cons hpi
    rw [List.getElem?_eq_getElem hpi]
    simp only [Option.isSome_some, true_and, Option.some.injEq]
    by_cases hone : TakesOne questionMark pattern[state.pi] str[state.si]
    · exact .inl ⟨_, _, hpattern, hpi, hstr, hone, if_pos hone⟩
    · rw [if_neg (show ¬ (_ ∨ _) from hone)]
      by_cases hstar : pattern[state.pi] = asterisk
      · rw [hstar] at hpattern hone
        refine .inr (.inl ⟨hpattern, hpi, ?_, if_pos hstar⟩)
        rw [hstr, List.head?_cons]
        exact fun heq => hone (.inr (Option.some.inj heq).symm)
      · refine .inr (.inr ⟨?_, ?_⟩)
        · rw [hpattern, hstr]
          exact not_takes_of_mismatch hone hstar
        · rw [if_neg hstar]
          cases state.starPos <;> rfl
  · have hpattern : pattern.drop state.pi = [] := List.drop_eq_nil_of_le (Nat.not_lt.mp hpi)
    refine .inr (.inr ⟨?_, ?_⟩)
    · rw [hpattern, hstr]
      exact not_takes_nil
    · rw [List.getElem?_eq_none (Nat.not_lt.mp hpi), if_neg (by simp), if_neg (by simp)]
      cases state.starPos <;> rfl

/-- What one round does to the invariant, and how it comes nearer to the end. -/
structure Advances (pattern str : Bytes) (outcome : Prop) (state next : GlobState) : Prop where
  inRange : InRange pattern str next
  weight_lt : weight pattern str next < weight pattern str state
  decides : Scan.Decides asterisk questionMark outcome (view pattern str next)

/-- A character that is taken brings the string nearer to its end. -/
theorem Advances.of_one {c x : UInt8} (hrange : InRange pattern str state)
    (h : Scan.Decides asterisk questionMark outcome (view pattern str state))
    (hpi : state.pi < pattern.length) (hsi : state.si < str.length)
    (hpattern : pattern.drop state.pi = c :: pattern.drop (state.pi + 1))
    (hstr : str.drop state.si = x :: str.drop (state.si + 1)) (hone : TakesOne questionMark c x) :
    Advances pattern str outcome state { state with pi := state.pi + 1, si := state.si + 1 } where
  inRange :=
    { pi_le := hpi
      si_le := hsi
      matchPos_le := Nat.le_succ_of_le hrange.matchPos_le
      starPos_lt := fun starPos hstar => Nat.lt_succ_of_lt (hrange.starPos_lt starPos hstar) }
  weight_lt := by
    simp only [weight]
    omega
  decides := by
    rw [view, hpattern, hstr] at h
    exact h.of_one asterisk_ne_questionMark hone

/-- A star that is noted leaves fewer stars to come. -/
theorem Advances.of_star (hrange : InRange pattern str state)
    (h : Scan.Decides asterisk questionMark outcome (view pattern str state))
    (hpi : state.pi < pattern.length)
    (hpattern : pattern.drop state.pi = asterisk :: pattern.drop (state.pi + 1))
    (hhead : (str.drop state.si).head? ≠ some asterisk) :
    Advances pattern str outcome state
      { pi := state.pi + 1, si := state.si, starPos := some state.pi, matchPos := state.si } where
  inRange :=
    { pi_le := hpi
      si_le := hrange.si_le
      matchPos_le := Nat.le_refl _
      starPos_lt := by
        rintro starPos ⟨⟩
        exact Nat.lt_succ_self _ }
  weight_lt := by
    have hsi := hrange.si_le
    have hmatch := hrange.matchPos_le
    have hfewer : pattern.length + str.length - (state.pi + 1) - state.si
        < pattern.length + str.length - state.starPos.elim 0 (· + 1) - state.matchPos := by
      cases hstar : state.starPos with
      | none =>
          simp only [Option.elim_none]
          omega
      | some starPos =>
          have hbefore := hrange.starPos_lt starPos hstar
          simp only [Option.elim_some]
          omega
    have hproduct := Nat.mul_le_mul_right (str.length + 1) (Nat.succ_le_of_lt hfewer)
    rw [Nat.succ_mul] at hproduct
    simp only [weight, Option.elim_some]
    omega
  decides := by
    rw [view, hpattern] at h
    exact h.of_star asterisk_ne_questionMark hhead

/-- A start that fails leaves fewer starts of the last star to come. -/
theorem Advances.of_retry {starPos : Nat} (hrange : InRange pattern str state)
    (h : Scan.Decides asterisk questionMark outcome (view pattern str state))
    (hsi : state.si < str.length) (hstar : state.starPos = some starPos)
    (hfails : ¬ Takes asterisk questionMark (pattern.drop state.pi) (str.drop state.si)) :
    Advances pattern str outcome state
      { pi := starPos + 1
        si := state.matchPos + 1
        starPos := some starPos
        matchPos := state.matchPos + 1 } where
  inRange :=
    { pi_le := Nat.le_trans (hrange.starPos_lt starPos hstar) hrange.pi_le
      si_le := Nat.lt_of_le_of_lt hrange.matchPos_le hsi
      matchPos_le := Nat.le_refl _
      starPos_lt := by
        rintro other ⟨⟩
        exact Nat.lt_succ_self _ }
  weight_lt := by
    have hmatch := hrange.matchPos_le
    have hpi := hrange.pi_le
    have hbefore := hrange.starPos_lt starPos hstar
    have hfewer : pattern.length + str.length - (starPos + 1) - (state.matchPos + 1) + 1
        = pattern.length + str.length - (starPos + 1) - state.matchPos := by
      omega
    simp only [weight, hstar, Option.elim_some]
    rw [← hfewer, Nat.succ_mul]
    omega
  decides := by
    have hlt : state.matchPos < str.length := Nat.lt_of_le_of_lt hrange.matchPos_le hsi
    have hstart : str.drop state.matchPos = str[state.matchPos] :: str.drop (state.matchPos + 1) :=
      List.drop_eq_getElem_cons hlt
    rw [view, hstar, Option.map_some, hstart] at h
    exact h.of_retry asterisk_ne_questionMark hfails

theorem advances_or_fails (hsi : state.si < str.length) (hrange : InRange pattern str state)
    (h : Scan.Decides asterisk questionMark outcome (view pattern str state)) :
    (∃ next, globStep pattern str state = some next ∧ Advances pattern str outcome state next)
      ∨ globStep pattern str state = none ∧ ¬ outcome := by
  rcases globStep_cases pattern hsi with
    ⟨c, x, hpattern, hlt, hstr, hone, hstep⟩ | ⟨hpattern, hlt, hhead, hstep⟩ | ⟨hfails, hstep⟩
  · exact .inl ⟨_, hstep, .of_one hrange h hlt hsi hpattern hstr hone⟩
  · exact .inl ⟨_, hstep, .of_star hrange h hlt hpattern hhead⟩
  · cases hstar : state.starPos with
    | none =>
        rw [hstar] at hstep
        rw [view, hstar] at h
        exact .inr ⟨hstep, h.not_of_fail hfails⟩
    | some starPos =>
        rw [hstar] at hstep
        exact .inl ⟨_, hstep, .of_retry hrange h hsi hstar hfails⟩

/-! ### The loop -/

theorem globRest_iff {pi : Nat} (hpi : pi ≤ pattern.length) :
    globRest pattern pi = true ↔ ∀ c ∈ pattern.drop pi, c = asterisk := by
  have hlength := List.length_drop (i := pi) (l := pattern)
  have hsublist := List.takeWhile_prefix (l := pattern.drop pi) (· = asterisk)
  rw [globRest, decide_eq_true_eq]
  constructor
  · intro hall
    have hwhole := hsublist.eq_of_length (by omega)
    simpa using List.takeWhile_eq_self_iff.mp hwhole
  · intro hall
    have hwhole := List.takeWhile_eq_self_iff (p := (· = asterisk)) (l := pattern.drop pi)
    rw [hwhole.mpr (by simpa using hall)]
    omega

theorem globLoop_decides {fuel : Nat} (hrange : InRange pattern str state)
    (hfuel : weight pattern str state < fuel)
    (h : Scan.Decides asterisk questionMark outcome (view pattern str state)) :
    ∃ verdict, globLoop pattern str fuel state = some verdict ∧ (verdict = true ↔ outcome) := by
  induction fuel generalizing state with
  | zero => exact absurd hfuel (Nat.not_lt_zero _)
  | succ fuel ih =>
      rw [globLoop]
      by_cases hsi : state.si < str.length
      · rw [if_pos hsi]
        rcases advances_or_fails hsi hrange h with ⟨next, hstep, hnext⟩ | ⟨hstep, hfails⟩
        · rw [hstep]
          exact ih hnext.inRange (Nat.lt_of_lt_of_le hnext.weight_lt (Nat.le_of_lt_succ hfuel))
            hnext.decides
        · rw [hstep]
          exact ⟨false, rfl, iff_of_false Bool.false_ne_true hfails⟩
      · rw [if_neg hsi]
        have hend : str.drop state.si = [] := List.drop_eq_nil_of_le (Nat.not_lt.mp hsi)
        rw [view, hend] at h
        exact ⟨_, rfl, (globRest_iff hrange.pi_le).trans (h.of_end asterisk_ne_questionMark).symm⟩

/-- **What the matcher computes.** -/
theorem matchGlob_eq (pattern str : Bytes) : ∃ verdict, matchGlob pattern str = some verdict
    ∧ (verdict = true ↔ Takes asterisk questionMark pattern str) := by
  refine globLoop_decides ⟨Nat.zero_le _, Nat.zero_le _, Nat.le_refl _, ?_⟩ ?_ ?_
  · rintro starPos ⟨⟩
  · simp only [weight, Option.elim_none, Nat.sub_zero, Nat.succ_mul]
    omega
  · exact Scan.decides_start asterisk questionMark pattern str

/-- **When a pattern is matched right.** A match is found exactly if some cut gives every star of the
pattern that comes upon a star of the string just that character. -/
theorem matchGlob_correct_iff (pattern str : Bytes) :
    (∃ verdict, matchGlob pattern str = some verdict
        ∧ (verdict = true ↔ Matches asterisk questionMark pattern str))
      ↔ (Matches asterisk questionMark pattern str →
        ∃ pieces, IsCut asterisk questionMark pattern str pieces
          ∧ StarForStar asterisk pattern pieces) := by
  obtain ⟨verdict, hmatch, hverdict⟩ := matchGlob_eq pattern str
  rw [← takes_iff_cut, hmatch]
  constructor
  · rintro ⟨_, ⟨⟩, hcorrect⟩ hmatches
    exact hverdict.mp (hcorrect.mpr hmatches)
  · intro hfound
    exact ⟨verdict, rfl, hverdict.trans ⟨Takes.isMatch, hfound⟩⟩

/-- `*a` matches `*ba`, but its star is used up on the star. -/
theorem not_matchGlob_correct :
    ¬ ∃ verdict, matchGlob [0x2A, 0x61] [0x2A, 0x62, 0x61] = some verdict
      ∧ (verdict = true ↔ Matches asterisk questionMark [0x2A, 0x61] [0x2A, 0x62, 0x61]) := by
  have hmatches : Matches asterisk questionMark [0x2A, 0x61] [0x2A, 0x62, 0x61] :=
    ⟨[[0x2A, 0x62], [0x61]],
      .cons (.star _) (.cons (.self (by decide) (by decide)) .nil), rfl⟩
  have hrejected : matchGlob [0x2A, 0x61] [0x2A, 0x62, 0x61] = some false := by decide +kernel
  rintro ⟨verdict, hverdict, hcorrect⟩
  rw [hrejected] at hverdict
  cases hverdict
  exact Bool.false_ne_true (hcorrect.mpr hmatches)

/-- A string without a star is matched right. -/
theorem matchGlob_of_no_asterisk (pattern : Bytes) {str : Bytes} (h : asterisk ∉ str) :
    ∃ verdict, matchGlob pattern str = some verdict
      ∧ (verdict = true ↔ Matches asterisk questionMark pattern str) := by
  obtain ⟨verdict, hmatch, hverdict⟩ := matchGlob_eq pattern str
  refine ⟨verdict, hmatch, hverdict.trans ⟨Takes.isMatch, ?_⟩⟩
  rintro ⟨pieces, hcut⟩
  exact takes_of_cut hcut (starForStar_of_notMem (hcut.2 ▸ h))

theorem filterMapM_eq_some {α β : Type} {f : α → Option (Option β)} {g : α → Option β} {items : List α}
    (h : ∀ item ∈ items, f item = some (g item)) : items.filterMapM f = some (items.filterMap g) := by
  induction items with
  | nil => rfl
  | cons item items ih =>
      have hrest := ih fun other hmem => h other (List.mem_cons_of_mem _ hmem)
      rw [List.filterMapM_cons, h item List.mem_cons_self, hrest, List.filterMap_cons]
      cases g item <;> rfl

/-- `glob` ends, and finds what is indexed under the paths that are matched. -/
theorem glob_eq (index : IndexManager) (pattern : Bytes) :
    ∃ found, glob (some index) pattern = some found
      ∧ ∀ entry, entry ∈ found ↔ ∃ path ∈ index.pathMap.entries,
        Takes asterisk questionMark pattern path.1 ∧ resolveId index path.2 = some entry := by
  choose verdict hmatch hverdict using matchGlob_eq pattern
  have hpaths : ∀ path ∈ index.pathMap.entries,
      (do
        let matched ← matchGlob pattern path.1
        return if matched then resolveId index path.2 else none)
        = some (if verdict path.1 then resolveId index path.2 else none) := by
    intro path _
    rw [hmatch path.1]
    rfl
  refine ⟨_, filterMapM_eq_some hpaths, ?_⟩
  intro entry
  rw [List.mem_filterMap]
  refine exists_congr fun path => and_congr_right fun _ => ?_
  rw [← hverdict path.1]
  cases verdict path.1 <;> simp

end FileResolver

end NebulaFS
