import Mathlib.Data.Nat.Factorization.Basic
import Mathlib.Tactic.Ring

/-!
# Linear probing under a bit mask

A table of `n` slots that reduces a slot number with the mask `n - 1` instead of a remainder. A probe
starts at a slot inside the mask and goes on with `next`. Where `n` is a power of two it visits all the
slots in turn (`slotAt_two_pow`). In general it goes around a lane of `laneSize n` slots, the largest
power of two that divides `n`, and never leaves it (`slotAt_eq`).
-/

namespace MaskedProbe

def next (n slot : Nat) : Nat := (slot + 1) &&& (n - 1)

def slotAt (n slot j : Nat) : Nat := (next n)^[j] slot

/-- The lowest bit of `n`. -/
def laneSize (n : Nat) : Nat := n - (n &&& (n - 1))

def OnLane (n slot : Nat) : Prop := slot &&& (n - 1) = slot

theorem and_mul_two_pow_add {k b d : Nat} (a c : Nat) (hb : b < 2 ^ k) (hd : d < 2 ^ k) :
    (2 ^ k * a + b) &&& (2 ^ k * c + d) = 2 ^ k * (a &&& c) + (b &&& d) := by
  have hbd : b &&& d < 2 ^ k := lt_of_le_of_lt Nat.and_le_left hb
  apply Nat.eq_of_testBit_eq
  intro i
  rw [Nat.testBit_and, Nat.testBit_two_pow_mul_add a hb, Nat.testBit_two_pow_mul_add c hd,
    Nat.testBit_two_pow_mul_add (a &&& c) hbd]
  split
  · rw [Nat.testBit_and]
  · rw [Nat.testBit_and]

/-- The lowest bit of a positive number, and the bits above it. -/
theorem exists_lowest_bit {n : Nat} (hn : 0 < n) : ∃ t r, n = 2 ^ (t + 1) * r + 2 ^ t := by
  obtain ⟨t, m, hodd, rfl⟩ := Nat.exists_eq_two_pow_mul_odd (Nat.pos_iff_ne_zero.mp hn)
  obtain ⟨r, rfl⟩ := hodd
  exact ⟨t, r, by ring⟩

theorem pred_eq (t r : Nat) : 2 ^ (t + 1) * r + 2 ^ t - 1 = 2 ^ (t + 1) * r + (2 ^ t - 1) := by
  have hpos : 0 < 2 ^ t := Nat.two_pow_pos t
  omega

theorem laneSize_eq (t r : Nat) : laneSize (2 ^ (t + 1) * r + 2 ^ t) = 2 ^ t := by
  have hpos : 0 < 2 ^ t := Nat.two_pow_pos t
  have hlt : 2 ^ t < 2 ^ (t + 1) := Nat.pow_lt_pow_right (by omega) (by omega)
  have hzero : 2 ^ t &&& (2 ^ t - 1) = 0 := by
    rw [Nat.and_two_pow_sub_one_eq_mod, Nat.mod_self]
  rw [laneSize, pred_eq, and_mul_two_pow_add r r hlt (by omega), hzero, Nat.and_self]
  omega

theorem laneSize_pos {n : Nat} (hn : 0 < n) : 0 < laneSize n := by
  obtain ⟨t, r, rfl⟩ := exists_lowest_bit hn
  rw [laneSize_eq]
  exact Nat.two_pow_pos t

theorem laneSize_two_pow (k : Nat) : laneSize (2 ^ k) = 2 ^ k := by
  have h := laneSize_eq k 0
  rwa [Nat.mul_zero, Nat.zero_add] at h

theorem onLane_and (n x : Nat) : OnLane n (x &&& (n - 1)) := by
  rw [OnLane, Nat.and_assoc, Nat.and_self]

theorem OnLane.lt {n slot : Nat} (hn : 0 < n) (h : OnLane n slot) : slot < n := by
  have hle : slot &&& (n - 1) ≤ n - 1 := Nat.and_le_right
  rw [h] at hle
  omega

/-- The bits of a slot inside the mask: some of those of the mask above the lowest bit of the size, and
any below it. -/
theorem OnLane.exists_eq {t r slot : Nat} (h : OnLane (2 ^ (t + 1) * r + 2 ^ t) slot) :
    ∃ a c, slot = 2 ^ (t + 1) * a + c ∧ c < 2 ^ t ∧ a &&& r = a := by
  have hpos : 0 < 2 ^ t := Nat.two_pow_pos t
  have hpow : 2 ^ (t + 1) = 2 ^ t + 2 ^ t := by ring
  have hc : slot % 2 ^ (t + 1) < 2 ^ (t + 1) := Nat.mod_lt _ (Nat.two_pow_pos _)
  have hslot : slot = 2 ^ (t + 1) * (slot / 2 ^ (t + 1)) + slot % 2 ^ (t + 1) :=
    (Nat.div_add_mod _ _).symm
  have hand : 2 ^ (t + 1) * (slot / 2 ^ (t + 1) &&& r) + slot % 2 ^ (t + 1) % 2 ^ t
      = 2 ^ (t + 1) * (slot / 2 ^ (t + 1)) + slot % 2 ^ (t + 1) := by
    rw [← Nat.and_two_pow_sub_one_eq_mod _ t, ← and_mul_two_pow_add _ r hc (by omega), ← pred_eq,
      ← hslot]
    exact h
  have hmod : slot % 2 ^ (t + 1) % 2 ^ t < 2 ^ (t + 1) :=
    lt_trans (Nat.mod_lt _ hpos) (by omega)
  have hhigh : (slot / 2 ^ (t + 1) &&& r) = slot / 2 ^ (t + 1) := by
    have hdiv := congrArg (· / 2 ^ (t + 1)) hand
    simpa [Nat.mul_add_div (Nat.two_pow_pos (t + 1)), Nat.div_eq_of_lt hmod,
      Nat.div_eq_of_lt hc] using hdiv
  refine ⟨slot / 2 ^ (t + 1), slot % 2 ^ (t + 1), hslot, ?_, hhigh⟩
  rw [hhigh] at hand
  have hlow : slot % 2 ^ (t + 1) % 2 ^ t = slot % 2 ^ (t + 1) := by omega
  rw [← hlow]
  exact Nat.mod_lt _ hpos

/-- One step goes around the lane. -/
theorem next_eq {n slot : Nat} (hn : 0 < n) (h : OnLane n slot) :
    next n slot = laneSize n * (slot / laneSize n) + (slot % laneSize n + 1) % laneSize n := by
  obtain ⟨t, r, rfl⟩ := exists_lowest_bit hn
  obtain ⟨a, c, rfl, hc, ha⟩ := h.exists_eq
  have hpos : 0 < 2 ^ t := Nat.two_pow_pos t
  have hpow : 2 ^ (t + 1) = 2 ^ t + 2 ^ t := by ring
  have hsplit : 2 ^ (t + 1) * a + c = 2 ^ t * (2 * a) + c := by ring
  have hdiv : (2 ^ (t + 1) * a + c) / 2 ^ t = 2 * a := by
    rw [hsplit, Nat.mul_add_div hpos, Nat.div_eq_of_lt hc, Nat.add_zero]
  have hmod : (2 ^ (t + 1) * a + c) % 2 ^ t = c := by
    rw [hsplit, Nat.mul_add_mod, Nat.mod_eq_of_lt hc]
  rw [laneSize_eq, hdiv, hmod, next, pred_eq, Nat.add_assoc,
    and_mul_two_pow_add a r (by omega) (by omega), ha, Nat.and_two_pow_sub_one_eq_mod]
  ring

theorem onLane_next (n slot : Nat) : OnLane n (next n slot) := onLane_and n (slot + 1)

theorem onLane_slotAt {n slot : Nat} (h : OnLane n slot) (j : Nat) : OnLane n (slotAt n slot j) := by
  cases j with
  | zero => exact h
  | succ j =>
      rw [slotAt, Function.iterate_succ_apply']
      exact onLane_next n _

theorem slotAt_zero (n slot : Nat) : slotAt n slot 0 = slot := rfl

theorem slotAt_succ (n slot j : Nat) : slotAt n slot (j + 1) = next n (slotAt n slot j) :=
  Function.iterate_succ_apply' _ _ _

theorem slotAt_next (n slot j : Nat) : slotAt n (next n slot) j = slotAt n slot (j + 1) :=
  (Function.iterate_succ_apply _ _ _).symm

theorem slotAt_add (n slot i j : Nat) : slotAt n slot (i + j) = slotAt n (slotAt n slot i) j := by
  rw [Nat.add_comm]
  exact Function.iterate_add_apply _ _ _ _

/-- A probe goes around the lane of its first slot. -/
theorem slotAt_eq {n slot : Nat} (hn : 0 < n) (h : OnLane n slot) (j : Nat) :
    slotAt n slot j
      = laneSize n * (slot / laneSize n) + (slot % laneSize n + j) % laneSize n := by
  have hpos := laneSize_pos hn
  induction j with
  | zero =>
      rw [slotAt_zero, Nat.add_zero, Nat.mod_mod, Nat.div_add_mod]
  | succ j ih =>
      have hlt : (slot % laneSize n + j) % laneSize n < laneSize n := Nat.mod_lt _ hpos
      rw [slotAt_succ, next_eq hn (onLane_slotAt h j), ih, Nat.mul_add_div hpos,
        Nat.div_eq_of_lt hlt, Nat.add_zero, Nat.mul_add_mod, Nat.mod_mod, Nat.mod_add_mod,
        Nat.add_assoc]

theorem slotAt_div {n slot : Nat} (hn : 0 < n) (h : OnLane n slot) (j : Nat) :
    slotAt n slot j / laneSize n = slot / laneSize n := by
  have hpos := laneSize_pos hn
  rw [slotAt_eq hn h, Nat.mul_add_div hpos, Nat.div_eq_of_lt (Nat.mod_lt _ hpos), Nat.add_zero]

theorem slotAt_laneSize {n slot : Nat} (hn : 0 < n) (h : OnLane n slot) :
    slotAt n slot (laneSize n) = slot := by
  rw [slotAt_eq hn h, Nat.add_mod_right, Nat.mod_mod, Nat.div_add_mod]

/-- Every slot of the lane is met. -/
theorem exists_slotAt {n slot other : Nat} (hn : 0 < n) (h : OnLane n slot)
    (hlane : other / laneSize n = slot / laneSize n) :
    ∃ j, j < laneSize n ∧ slotAt n slot j = other := by
  have hpos := laneSize_pos hn
  have hslot := Nat.mod_lt slot hpos
  have hother := Nat.mod_lt other hpos
  have hreach : ∀ j, (slot % laneSize n + j) % laneSize n = other % laneSize n →
      slotAt n slot j = other := by
    intro j hj
    rw [slotAt_eq hn h, hj, ← hlane, Nat.div_add_mod]
  by_cases hle : slot % laneSize n ≤ other % laneSize n
  · refine ⟨other % laneSize n - slot % laneSize n, by omega, hreach _ ?_⟩
    rw [Nat.add_sub_cancel' hle, Nat.mod_mod]
  · refine ⟨other % laneSize n + laneSize n - slot % laneSize n, by omega, hreach _ ?_⟩
    rw [Nat.add_sub_cancel' (by omega), Nat.add_mod_right, Nat.mod_mod]

theorem slotAt_two_pow {k slot : Nat} (h : slot < 2 ^ k) (j : Nat) :
    slotAt (2 ^ k) slot j = (slot + j) % 2 ^ k := by
  have hlane : OnLane (2 ^ k) slot := by
    rw [OnLane, Nat.and_two_pow_sub_one_eq_mod, Nat.mod_eq_of_lt h]
  rw [slotAt_eq (Nat.two_pow_pos k) hlane, laneSize_two_pow, Nat.div_eq_of_lt h, Nat.mul_zero,
    Nat.zero_add, Nat.mod_eq_of_lt h]

/-- How many steps a probe takes from one slot to another where it visits them all. -/
def distance (n start slot : Nat) : Nat := (slot + n - start) % n

theorem distance_mod {n start : Nat} (hstart : start < n) (d : Nat) :
    distance n start ((start + d) % n) = d % n := by
  have hd : d % n < n := Nat.mod_lt d (by omega)
  rw [← Nat.add_mod_mod, distance]
  by_cases hlt : start + d % n < n
  · rw [Nat.mod_eq_of_lt hlt, show start + d % n + n - start = d % n + n by omega,
      Nat.add_mod_right, Nat.mod_mod]
  · have hwrap : (start + d % n) % n = start + d % n - n := by
      rw [Nat.mod_eq_sub_mod (by omega), Nat.mod_eq_of_lt (by omega)]
    rw [hwrap, show start + d % n - n + n - start = d % n by omega, Nat.mod_mod]

end MaskedProbe
