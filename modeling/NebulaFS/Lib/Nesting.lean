import Mathlib.Data.List.Basic

/-!
# Nested brackets

In a list some items open a bracket, some close the one opened last, and the plain ones stand between
them. An item that closes where nothing is open does nothing. `inside` collects in one pass the plain
items at which something is open; `unclosed` are those behind a bracket that nothing closes. The two are
the same unless everything that is open at some plain item gets closed (`inside_eq_unclosed_iff`).
-/

namespace Nesting

variable {α : Type*}

inductive Kind
  | opens
  | closes
  | plain
deriving DecidableEq

variable (kind : α → Kind)

/-- How many brackets are open behind the item. -/
def next (depth : Nat) (item : α) : Nat :=
  match kind item with
  | .opens => depth + 1
  | .closes => depth - 1
  | .plain => depth

def level (depth : Nat) (items : List α) : Nat := items.foldl (next kind) depth

/-- The outermost of `depth` open brackets is never closed. -/
def StaysOpen (depth : Nat) (items : List α) : Prop :=
  ∀ n ≤ items.length, 0 < level kind depth (items.take n)

instance (depth : Nat) (items : List α) : Decidable (StaysOpen kind depth items) :=
  inferInstanceAs (Decidable (∀ n ≤ items.length, 0 < level kind depth (items.take n)))

def inside : Nat → List α → List α
  | _, [] => []
  | depth, item :: items =>
      if kind item = .plain ∧ 0 < depth then item :: inside depth items
      else inside (next kind depth item) items

def unclosed : List α → List α
  | [] => []
  | item :: items =>
      if kind item = .opens ∧ StaysOpen kind 1 items then items.filter (kind · = .plain)
      else unclosed items

/-- Nothing that is opened stays open. -/
def AllClosed (items : List α) : Prop :=
  ∀ before item after, items = before ++ item :: after → kind item = .opens →
    ¬ StaysOpen kind 1 after

/-- Where something is open at a plain item, the outermost stays open. -/
def OpenAtPlain (depth : Nat) (items : List α) : Prop :=
  ∀ before item after, items = before ++ item :: after → kind item = .plain →
    0 < level kind depth before → StaysOpen kind (level kind depth before) after

variable {kind} {depth other : Nat} {item : α} {items : List α}

theorem level_mono (h : depth ≤ other) (items : List α) :
    level kind depth items ≤ level kind other items := by
  induction items generalizing depth other with
  | nil => exact h
  | cons item items ih =>
      apply ih
      rw [next, next]
      cases kind item with
      | opens => exact Nat.succ_le_succ h
      | closes => exact Nat.sub_le_sub_right h 1
      | plain => exact h

theorem StaysOpen.mono (h : StaysOpen kind depth items) (hle : depth ≤ other) :
    StaysOpen kind other items :=
  fun n hn => Nat.lt_of_lt_of_le (h n hn) (level_mono hle _)

theorem staysOpen_cons_iff :
    StaysOpen kind depth (item :: items) ↔ 0 < depth ∧ StaysOpen kind (next kind depth item) items := by
  constructor
  · intro h
    refine ⟨h 0 (Nat.zero_le _), ?_⟩
    intro n hn
    exact h (n + 1) (Nat.succ_le_succ hn)
  · rintro ⟨hdepth, h⟩ n hn
    cases n with
    | zero => exact hdepth
    | succ n => exact h n (Nat.le_of_succ_le_succ hn)

theorem StaysOpen.pos (h : StaysOpen kind depth items) : 0 < depth := h 0 (Nat.zero_le _)

theorem allClosed_cons_iff :
    AllClosed kind (item :: items)
      ↔ (kind item = .opens → ¬ StaysOpen kind 1 items) ∧ AllClosed kind items := by
  constructor
  · intro h
    refine ⟨h [] item items rfl, ?_⟩
    intro before other after hsplit
    exact h (item :: before) other after (by rw [hsplit]; rfl)
  · rintro ⟨hhead, htail⟩ before other after hsplit
    cases before with
    | nil =>
        obtain ⟨rfl, rfl⟩ := List.cons.inj hsplit
        exact hhead
    | cons first before =>
        obtain ⟨rfl, hrest⟩ := List.cons.inj hsplit
        exact htail before other after hrest

theorem allClosed_nil : AllClosed kind [] := by
  intro before item after hsplit
  cases before <;> cases hsplit

instance decidableAllClosed : (items : List α) → Decidable (AllClosed kind items)
  | [] => isTrue allClosed_nil
  | item :: items =>
      haveI := decidableAllClosed items
      decidable_of_iff ((kind item = .opens → ¬ StaysOpen kind 1 items) ∧ AllClosed kind items)
        allClosed_cons_iff.symm

theorem unclosed_eq_nil (h : AllClosed kind items) : unclosed kind items = [] := by
  induction items with
  | nil => rfl
  | cons item items ih =>
      obtain ⟨hhead, htail⟩ := allClosed_cons_iff.mp h
      rw [unclosed, if_neg fun hopen => hhead hopen.1 hopen.2]
      exact ih htail

/-- What stays unclosed when `depth` brackets are open before the items. -/
def unclosedFrom (kind : α → Kind) (depth : Nat) (items : List α) : List α :=
  if StaysOpen kind depth items then items.filter (kind · = .plain) else unclosed kind items

theorem unclosedFrom_zero (items : List α) : unclosedFrom kind 0 items = unclosed kind items :=
  if_neg fun h => absurd h.pos (Nat.lt_irrefl 0)

/-- A plain item is unclosed with the brackets around it, and the rest is as if it were not there. -/
theorem unclosedFrom_cons :
    unclosedFrom kind depth (item :: items)
      = (if kind item = .plain ∧ StaysOpen kind depth items then [item] else [])
        ++ unclosedFrom kind (next kind depth item) items := by
  rw [unclosedFrom, unclosedFrom, unclosed, next]
  simp only [staysOpen_cons_iff, next]
  cases hkind : kind item with
  | opens =>
      simp only [hkind, List.filter_cons, reduceCtorEq, decide_false, Bool.false_eq_true, if_false,
        false_and, true_and, List.nil_append]
      by_cases hone : StaysOpen kind 1 items
      · rw [if_pos hone, if_pos (hone.mono (Nat.le_add_left 1 depth)), ite_self]
      · rw [if_neg hone]
        apply if_congr _ rfl rfl
        refine ⟨And.right, fun h => ⟨?_, h⟩⟩
        by_contra hdepth
        obtain rfl : depth = 0 := by omega
        exact hone h
  | closes =>
      simp only [hkind, List.filter_cons, reduceCtorEq, decide_false, Bool.false_eq_true, if_false,
        false_and, List.nil_append]
      apply if_congr _ rfl rfl
      refine ⟨And.right, fun h => ⟨?_, h⟩⟩
      have hpos := h.pos
      omega
  | plain =>
      simp only [hkind, List.filter_cons, reduceCtorEq, decide_true, if_true, false_and, if_false,
        true_and]
      by_cases hopen : StaysOpen kind depth items
      · rw [if_pos ⟨hopen.pos, hopen⟩, if_pos hopen, if_pos hopen]
        rfl
      · rw [if_neg fun h => hopen h.2, if_neg hopen, if_neg hopen]
        rfl

theorem inside_cons :
    inside kind depth (item :: items)
      = (if kind item = .plain ∧ 0 < depth then [item] else [])
        ++ inside kind (next kind depth item) items := by
  rw [inside]
  by_cases h : kind item = .plain ∧ 0 < depth
  · rw [if_pos h, if_pos h, next, h.1]
    rfl
  · rw [if_neg h, if_neg h]
    rfl

theorem unclosedFrom_sublist (kind : α → Kind) (depth : Nat) (items : List α) :
    (unclosedFrom kind depth items).Sublist (inside kind depth items) := by
  induction items generalizing depth with
  | nil =>
      rw [unclosedFrom]
      split <;> exact List.Sublist.refl _
  | cons item items ih =>
      rw [unclosedFrom_cons, inside_cons]
      apply List.Sublist.append _ (ih _)
      by_cases h : kind item = .plain ∧ StaysOpen kind depth items
      · rw [if_pos h, if_pos ⟨h.1, h.2.pos⟩]
      · rw [if_neg h]
        exact List.nil_sublist _

theorem openAtPlain_cons_iff :
    OpenAtPlain kind depth (item :: items)
      ↔ (kind item = .plain → 0 < depth → StaysOpen kind depth items)
        ∧ OpenAtPlain kind (next kind depth item) items := by
  constructor
  · intro h
    refine ⟨h [] item items rfl, ?_⟩
    intro before other after hsplit
    exact h (item :: before) other after (by rw [hsplit]; rfl)
  · rintro ⟨hhead, htail⟩ before other after hsplit
    cases before with
    | nil =>
        obtain ⟨rfl, rfl⟩ := List.cons.inj hsplit
        exact hhead
    | cons first before =>
        obtain ⟨rfl, hrest⟩ := List.cons.inj hsplit
        exact htail before other after hrest

theorem inside_eq_unclosedFrom_iff :
    inside kind depth items = unclosedFrom kind depth items ↔ OpenAtPlain kind depth items := by
  induction items generalizing depth with
  | nil =>
      refine iff_of_true ?_ fun before item after hsplit => ?_
      · rw [unclosedFrom]
        split <;> rfl
      · cases before <;> cases hsplit
  | cons item items ih =>
      rw [inside_cons, unclosedFrom_cons, openAtPlain_cons_iff, ← ih]
      by_cases hkept : kind item = .plain → 0 < depth → StaysOpen kind depth items
      · rw [and_iff_right hkept]
        have hiff : kind item = .plain ∧ 0 < depth ↔ kind item = .plain ∧ StaysOpen kind depth items :=
          and_congr_right fun hplain => ⟨hkept hplain, StaysOpen.pos⟩
        rw [if_congr hiff rfl rfl, List.append_right_inj]
      · -- the item is collected and not unclosed, which makes the left side longer
        obtain ⟨hplain, hopen⟩ := Classical.not_imp.mp hkept
        obtain ⟨hdepth, hnot⟩ := Classical.not_imp.mp hopen
        rw [if_pos ⟨hplain, hdepth⟩, if_neg fun h => hnot h.2, List.nil_append, List.singleton_append]
        have hlength := (unclosedFrom_sublist kind (next kind depth item) items).length_le
        refine iff_of_false (fun heq => ?_) fun h => hkept h.1
        have hlonger := congrArg List.length heq
        rw [List.length_cons] at hlonger
        omega

/-- **When the pass is right**: everything that it collects is behind a bracket that stays open. -/
theorem inside_eq_unclosed_iff :
    inside kind 0 items = unclosed kind items ↔ OpenAtPlain kind 0 items := by
  rw [← unclosedFrom_zero, inside_eq_unclosedFrom_iff]

end Nesting
