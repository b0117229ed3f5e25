import Mathlib.Data.List.DropRight
import Mathlib.Data.List.TakeWhile
import NebulaFS.Lib.Cursor

/-!
# Maximal runs of a list

The items of a list that are no delimiters stand in maximal runs. A scan that skips the delimiters from a
position on and then takes what is not one comes to the first run behind it, and `isRun_iff_first` says
which runs are left for the rest of the scan.

Of a history, the last run is that of the items with the key of the last one. Its first item stays the
same until an item with another key is added (`firstOfLastRun_concat`).
-/

namespace MaximalRuns

open Cursor

variable {α : Type*} {delim : α → Bool} {text : List α} {i j start length stop : Nat}

/-- There is a delimiter at the position, or no item. -/
def Gap (delim : α → Bool) (text : List α) (j : Nat) : Prop :=
  ∀ c, text[j]? = some c → delim c = true

structure IsRun (delim : α → Bool) (text : List α) (start length : Nat) : Prop where
  length_pos : 0 < length
  not_gap : ∀ j, start ≤ j → j < start + length → ¬ Gap delim text j
  before : start = 0 ∨ Gap delim text (start - 1)
  after : Gap delim text (start + length)

theorem gap_of_length_le (h : text.length ≤ j) : Gap delim text j := by
  intro c hc
  rw [List.getElem?_eq_none h] at hc
  cases hc

theorem IsRun.le_length (h : IsRun delim text start length) : start + length ≤ text.length := by
  have hpos := h.length_pos
  by_contra hlong
  exact h.not_gap (start + length - 1) (by omega) (by omega) (gap_of_length_le (by omega))

/-! ### The first run from a position on -/

theorem not_isRun_of_gaps (hgaps : ∀ j, i ≤ j → Gap delim text j) (hstart : i ≤ start) :
    ¬ IsRun delim text start length := by
  intro h
  have hpos := h.length_pos
  exact h.not_gap start (Nat.le_refl start) (by omega) (hgaps start hstart)

/-- Behind the gap from `i` to `start` comes the run from `start` to `stop`, and all others come later. -/
theorem isRun_iff_first (hi : i ≤ start) (hstop : start < stop) (hbefore : i = 0 ∨ Gap delim text i)
    (hgaps : ∀ j, i ≤ j → j < start → Gap delim text j)
    (hrun : ∀ j, start ≤ j → j < stop → ¬ Gap delim text j) (hafter : Gap delim text stop)
    (s n : Nat) :
    i ≤ s ∧ IsRun delim text s n
      ↔ (s = start ∧ n = stop - start) ∨ (stop ≤ s ∧ IsRun delim text s n) := by
  constructor
  · rintro ⟨hs, h⟩
    have hpos := h.length_pos
    have hgap : ¬ s < start := fun hlt =>
      h.not_gap s (Nat.le_refl s) (by omega) (hgaps s hs hlt)
    by_cases hfirst : s = start
    · subst hfirst
      have hshort : ¬ s + n < stop := fun hlt => hrun (s + n) (by omega) hlt h.after
      have hlong : ¬ stop < s + n := fun hlt => h.not_gap stop (by omega) hlt hafter
      exact Or.inl ⟨rfl, by omega⟩
    · refine Or.inr ⟨?_, h⟩
      by_contra hinside
      rcases h.before with hzero | hbefore
      · omega
      · exact hrun (s - 1) (by omega) (by omega) hbefore
  · rintro (⟨rfl, rfl⟩ | ⟨hs, h⟩)
    · refine ⟨hi, ?_⟩
      constructor
      case length_pos => omega
      case not_gap => exact fun j hj hlt => hrun j hj (by omega)
      case before =>
        by_cases hsame : i = s
        · subst hsame
          exact hbefore.imp_right fun hgap => absurd hgap (hrun i (Nat.le_refl i) hstop)
        · exact Or.inr (hgaps (s - 1) (by omega) (by omega))
      case after =>
        rw [Nat.add_sub_cancel' (by omega)]
        exact hafter
    · exact ⟨by omega, h⟩

/-! ### Scanning -/

theorem dropWhile_drop (p : α → Bool) (text : List α) (i : Nat) :
    (text.drop i).dropWhile p = text.drop (i + ((text.drop i).takeWhile p).length) := by
  calc (text.drop i).dropWhile p
      = ((text.drop i).takeWhile p ++ (text.drop i).dropWhile p).drop
          ((text.drop i).takeWhile p).length := List.drop_left.symm
    _ = (text.drop i).drop ((text.drop i).takeWhile p).length := by
        rw [List.takeWhile_append_dropWhile]
    _ = text.drop (i + ((text.drop i).takeWhile p).length) := List.drop_drop

theorem getElem?_takeWhile (p : α → Bool) (hij : i ≤ j)
    (hj : j < i + ((text.drop i).takeWhile p).length) : ∃ c, text[j]? = some c ∧ p c = true := by
  have hlt : j - i < ((text.drop i).takeWhile p).length := by omega
  have hsame := (List.takeWhile_prefix p (l := text.drop i)).getElem hlt
  have hitem : text[j]? = some (((text.drop i).takeWhile p)[j - i]) := by
    rw [hsame, ← List.getElem?_eq_getElem, List.getElem?_drop, Nat.add_sub_cancel' hij]
  exact ⟨_, hitem, List.mem_takeWhile_imp (List.getElem_mem hlt)⟩

theorem getElem?_stop (p : α → Bool) (text : List α) (i : Nat) (c : α)
    (h : text[i + ((text.drop i).takeWhile p).length]? = some c) : p c = false := by
  have hhead := List.head?_dropWhile_not p (text.drop i)
  rw [dropWhile_drop, List.head?_drop, h] at hhead
  exact hhead

/-- Skipping delimiters. -/
theorem gap_of_skipped (hij : i ≤ j) (hj : j < i + ((text.drop i).takeWhile delim).length) :
    Gap delim text j := by
  obtain ⟨c, hc, hdelim⟩ := getElem?_takeWhile delim hij hj
  intro other hother
  cases hc.symm.trans hother
  exact hdelim

/-- Taking what is no delimiter. -/
theorem not_gap_of_taken (hij : i ≤ j)
    (hj : j < i + ((text.drop i).takeWhile fun c => !delim c).length) : ¬ Gap delim text j := by
  obtain ⟨c, hc, hitem⟩ := getElem?_takeWhile _ hij hj
  intro hgap
  rw [hgap c hc] at hitem
  cases hitem

theorem gap_stop (delim : α → Bool) (text : List α) (i : Nat) :
    Gap delim text (i + ((text.drop i).takeWhile fun c => !delim c).length) := by
  intro c hc
  have hstop := getElem?_stop _ text i c hc
  rw [Bool.not_eq_false'] at hstop
  exact hstop

theorem slice_takeWhile (p : α → Bool) (text : List α) (i : Nat) :
    slice text i ((text.drop i).takeWhile p).length = (text.drop i).takeWhile p := by
  exact (List.prefix_iff_eq_take.mp (List.takeWhile_prefix p)).symm

/-! ### The last run of a history -/

section

variable {β : Type*} [DecidableEq β] {key : α → β} {items : List α} {first : α}

def firstOfLastRun (key : α → β) (items : List α) : Option α :=
  items.getLast?.bind fun last => (items.rtakeWhile fun item => key item = key last).head?

theorem firstOfLastRun_singleton (key : α → β) (item : α) :
    firstOfLastRun key [item] = some item := by
  simp [firstOfLastRun, List.rtakeWhile]

theorem exists_last_of_firstOfLastRun (h : firstOfLastRun key items = some first) :
    ∃ last, items.getLast? = some last ∧ key first = key last := by
  obtain ⟨last, hlast, hhead⟩ := Option.bind_eq_some_iff.mp h
  have hfirst := List.mem_rtakeWhile_imp (List.mem_of_head? hhead)
  exact ⟨last, hlast, of_decide_eq_true hfirst⟩

theorem firstOfLastRun_concat (h : firstOfLastRun key items = some first) (item : α) :
    firstOfLastRun key (items ++ [item])
      = some (if key first = key item then first else item) := by
  obtain ⟨last, hlast, hkey⟩ := exists_last_of_firstOfLastRun h
  have hhead : (items.rtakeWhile fun other => key other = key last).head? = some first := by
    rwa [firstOfLastRun, hlast, Option.bind_some] at h
  rw [firstOfLastRun, List.getLast?_concat, Option.bind_some,
    List.rtakeWhile_concat_pos _ _ _ (by simp), List.head?_append]
  by_cases hsame : key first = key item
  · rw [if_pos hsame, ← hsame, hkey, hhead]
    rfl
  · have hnone : (items.rtakeWhile fun other => key other = key item) = [] := by
      rw [List.rtakeWhile_eq_nil_iff]
      intro hne hitem
      rw [List.getLast?_eq_getLast_of_ne_nil hne] at hlast
      obtain rfl := Option.some.inj hlast
      exact hsame (hkey.trans (of_decide_eq_true hitem))
    rw [if_neg hsame, hnone]
    rfl

end

end MaximalRuns
