import NebulaFS.Lib.Cursor

/-!
# A sequence of records cut at any point

The records of a log are written one after the other, and a crash keeps the first `n` elements of
what was written. `wholeCount` says how many records lie completely inside such a prefix, and
`readMany_take` is the theorem a log reader rests on: if the reader reads back every complete record
and refuses every proper prefix of one, then on the cut log it returns exactly the complete records,
in order, and stops.
-/

namespace Cursor

variable {α β γ ε : Type*}

/-- How many leading items have their encoding completely inside the first `n` elements. -/
def wholeCount (encode : γ → List α) : List γ → Nat → Nat
  | [], _ => 0
  | item :: items, n =>
      if (encode item).length ≤ n then wholeCount encode items (n - (encode item).length) + 1
      else 0

variable {encode : γ → List α}

theorem wholeCount_le_length (items : List γ) (n : Nat) :
    wholeCount encode items n ≤ items.length := by
  induction items generalizing n with
  | nil => simp [wholeCount]
  | cons item items ih =>
      simp only [wholeCount, List.length_cons]
      split
      · have := ih (n - (encode item).length)
        omega
      · omega

theorem length_flatMap_take_wholeCount (encode : γ → List α) (items : List γ) (n : Nat) :
    ((items.take (wholeCount encode items n)).flatMap encode).length ≤ n := by
  induction items generalizing n with
  | nil => simp
  | cons item items ih =>
      simp only [wholeCount]
      split
      · have := ih (n - (encode item).length)
        simp only [List.take_succ_cons, List.flatMap_cons, List.length_append]
        omega
      · simp

theorem le_wholeCount {items : List γ} {m n : Nat} (hm : m ≤ items.length)
    (hfits : ((items.take m).flatMap encode).length ≤ n) : m ≤ wholeCount encode items n := by
  induction items generalizing m n with
  | nil => simpa [wholeCount] using hm
  | cons item items ih =>
      cases m with
      | zero => exact Nat.zero_le _
      | succ m =>
          simp only [List.take_succ_cons, List.flatMap_cons, List.length_append] at hfits
          have hitem : (encode item).length ≤ n := by omega
          have hrest := ih (by simpa using hm) (n := n - (encode item).length) (by omega)
          simp only [wholeCount, hitem, if_true]
          omega

theorem wholeCount_eq_length {items : List γ} {n : Nat}
    (h : (items.flatMap encode).length ≤ n) : wholeCount encode items n = items.length :=
  Nat.le_antisymm (wholeCount_le_length items n) (le_wholeCount (Nat.le_refl _) (by simpa using h))

theorem prefix_append_cases {piece first rest : List α} (h : piece <+: first ++ rest) :
    (piece <+: first ∧ piece.length < first.length)
      ∨ ∃ later, piece = first ++ later ∧ later <+: rest := by
  by_cases hshort : piece.length < first.length
  · exact .inl ⟨List.prefix_of_prefix_length_le h (List.prefix_append _ _)
      (Nat.le_of_lt hshort), hshort⟩
  · obtain ⟨later, rfl⟩ := List.prefix_of_prefix_length_le (List.prefix_append first rest) h
      (Nat.not_lt.mp hshort)
    exact .inr ⟨later, rfl, (List.prefix_append_right_inj first).mp h⟩

/-- **Reading a torn sequence.** What the loop collects from the first `n` elements of an encoded
sequence is exactly the items whose encoding lies completely inside them. A loop that stops early
stops with an error of the torn kind. A reader that adds lengths in a machine word may rely on the
complete sequence ending at or before `limit`. -/
theorem readMany_take {data : List α} {read : Nat → Except ε (β × Nat)} {view : γ → β}
    {Torn : ε → Prop} {items : List γ} {limit : Nat}
    (hwhole : ∀ item ∈ items, ∀ pos rest, Remaining data pos (encode item ++ rest) →
      read pos = .ok (view item, pos + (encode item).length))
    (htorn : ∀ item ∈ items, ∀ pos piece, Remaining data pos piece → piece <+: encode item →
      piece.length < (encode item).length → pos + (encode item).length ≤ limit →
      ∃ e, read pos = .error e ∧ Torn e)
    {pos n : Nat} (h : Remaining data pos ((items.flatMap encode).take n))
    (hlimit : pos + (items.flatMap encode).length ≤ limit) :
    collected (readMany read items.length pos)
        = (items.take (wholeCount encode items n)).map view
      ∧ ∀ got e, readMany read items.length pos = .error (got, e) → Torn e := by
  induction items generalizing pos n with
  | nil => simp [readMany, collected, wholeCount]
  | cons item items ih =>
      rw [List.flatMap_cons, List.take_append] at h
      rw [List.flatMap_cons, List.length_append] at hlimit
      by_cases hfits : (encode item).length ≤ n
      · rw [List.take_of_length_le hfits] at h
        have hhead := hwhole item (by simp) pos _ h
        obtain ⟨hcollected, herror⟩ := ih
          (fun other hother => hwhole other (by simp [hother]))
          (fun other hother => htorn other (by simp [hother])) h.advance (by omega)
        simp only [List.length_cons, readMany, hhead, wholeCount, hfits, if_true,
          List.take_succ_cons, List.map_cons]
        cases hrest : readMany read items.length (pos + (encode item).length) with
        | ok result =>
            rw [hrest] at hcollected
            exact ⟨congrArg (view item :: ·) hcollected, by simp⟩
        | error failure =>
            rw [hrest] at hcollected
            refine ⟨congrArg (view item :: ·) hcollected, ?_⟩
            rintro got e heq
            simp only [Except.error.injEq, Prod.mk.injEq] at heq
            exact herror failure.1 e (by rw [hrest, ← heq.2])
      · -- the cut falls inside this item: nothing of the later ones is left
        have hpiece : (encode item).take n ++
            (items.flatMap encode).take (n - (encode item).length) = (encode item).take n := by
          rw [Nat.sub_eq_zero_of_le (by omega), List.take_zero, List.append_nil]
        rw [hpiece] at h
        obtain ⟨e, hread, he⟩ := htorn item (by simp) pos _ h (List.take_prefix n _)
          (by rw [List.length_take]; omega) (by omega)
        simp only [List.length_cons, readMany, hread, wholeCount, hfits, if_false]
        exact ⟨rfl, by rintro got e' ⟨⟩; exact he⟩

end Cursor
