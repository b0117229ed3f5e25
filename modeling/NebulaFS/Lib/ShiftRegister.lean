import Mathlib.Data.BitVec
import Mathlib.Logic.Function.Iterate

/-!
# Shift registers with feedback

A register is shifted to the right, and a bit that falls out of it brings `poly` in. Bits of a message
are added at the low end before each shift. Both are linear over exclusive or, and a bit may be added
earlier as long as it is added as much higher (`absorb_eq`): so a register can take a byte or a word at
a time, in a register as wide as the word (`absorb_setWidth`). Where the top bit of `poly` is set a shift
loses nothing, and messages that differ in no more places in a row than the register has bits leave
different registers (`absorb_ne_of_burst`).
-/

namespace ShiftRegister

variable {w v : Nat} {poly : BitVec w}

def shift (poly r : BitVec w) : BitVec w :=
  if r.getLsbD 0 then (r >>> 1) ^^^ poly else r >>> 1

/-- A bit at the low end. -/
def low (w : Nat) (bit : Bool) : BitVec w := if bit then 1#w else 0#w

def absorb (poly r : BitVec w) (bits : List Bool) : BitVec w :=
  bits.foldl (fun r bit => shift poly (r ^^^ low w bit)) r

/-- The low bits of a register, the lowest first. -/
def ofBits (w : Nat) : List Bool → BitVec w
  | [] => 0#w
  | bit :: bits => (ofBits w bits <<< 1) ^^^ low w bit

/-- The bits of a word, the lowest first. -/
def bitsOf (d : BitVec v) : List Bool := (List.range v).map d.getLsbD

theorem xor_cancel_right (x y z : BitVec w) : (x ^^^ z) ^^^ (y ^^^ z) = x ^^^ y := by
  rw [BitVec.xor_comm y z, BitVec.xor_assoc, ← BitVec.xor_assoc z z y, BitVec.xor_self,
    BitVec.zero_xor]

theorem eq_of_xor_eq_zero {x y : BitVec w} (h : x ^^^ y = 0#w) : x = y := by
  calc x = (x ^^^ y) ^^^ y := by rw [BitVec.xor_assoc, BitVec.xor_self, BitVec.xor_zero]
    _ = y := by rw [h, BitVec.zero_xor]

/-! ### The shift -/

theorem shift_zero (poly : BitVec w) : shift poly 0#w = 0#w := by simp [shift]

theorem shift_xor (poly x y : BitVec w) : shift poly (x ^^^ y) = shift poly x ^^^ shift poly y := by
  simp only [shift, BitVec.getLsbD_xor, BitVec.ushiftRight_xor_distrib]
  cases x.getLsbD 0 <;> cases y.getLsbD 0 <;>
    simp only [Bool.xor_false, Bool.xor_true, Bool.not_false, Bool.not_true, Bool.false_eq_true,
      if_true, if_false]
  · rw [BitVec.xor_assoc]
  · rw [BitVec.xor_assoc, BitVec.xor_assoc, BitVec.xor_comm (y >>> 1)]
  · rw [xor_cancel_right]

theorem iterate_shift_xor (poly x y : BitVec w) (n : Nat) :
    (shift poly)^[n] (x ^^^ y) = (shift poly)^[n] x ^^^ (shift poly)^[n] y := by
  induction n generalizing x y with
  | zero => rfl
  | succ n ih => rw [Function.iterate_succ_apply, shift_xor, ih]; rfl

theorem iterate_shift_zero (poly : BitVec w) (n : Nat) : (shift poly)^[n] 0#w = 0#w :=
  Function.iterate_fixed (shift_zero poly) n

/-- As long as only zeros fall out, a shift is a shift. -/
theorem iterate_shift_of_low {x : BitVec w} {n : Nat} (h : ∀ i < n, x.getLsbD i = false) :
    (shift poly)^[n] x = x >>> n := by
  induction n generalizing x with
  | zero => simp
  | succ n ih =>
      have hfirst : shift poly x = x >>> 1 := if_neg (by simp [h 0 (Nat.succ_pos n)])
      rw [Function.iterate_succ_apply, hfirst, ih fun i hi => ?_]
      · rw [← BitVec.shiftRight_add, Nat.add_comm]
      · rw [BitVec.getLsbD_ushiftRight, Nat.add_comm]
        exact h (i + 1) (by omega)

theorem shift_eq_zero (hpoly : poly.getLsbD (w - 1) = true) {x : BitVec w}
    (h : shift poly x = 0#w) : x = 0#w := by
  have hwidth : 0 < w := by
    by_contra hzero
    rw [BitVec.getLsbD_of_ge poly _ (by omega)] at hpoly
    cases hpoly
  have hlow : x.getLsbD 0 = false := by
    by_contra hset
    rw [Bool.not_eq_false] at hset
    rw [shift, if_pos hset] at h
    have htop := congrArg (fun z : BitVec w => z.getLsbD (w - 1)) h
    simp only [BitVec.getLsbD_xor, BitVec.getLsbD_ushiftRight, hpoly] at htop
    rw [BitVec.getLsbD_of_ge x _ (by omega)] at htop
    simp at htop
  rw [shift, if_neg (by simp [hlow])] at h
  refine BitVec.eq_of_getLsbD_eq fun i hi => ?_
  rw [BitVec.getLsbD_zero]
  cases i with
  | zero => exact hlow
  | succ i =>
      have hbit := congrArg (fun z : BitVec w => z.getLsbD i) h
      simpa [Nat.add_comm] using hbit

theorem shift_injective (hpoly : poly.getLsbD (w - 1) = true) :
    Function.Injective (shift poly) := by
  intro x y h
  refine eq_of_xor_eq_zero (shift_eq_zero hpoly ?_)
  rw [shift_xor, h, BitVec.xor_self]

/-- A wide register does what a narrow one in its low end does. -/
theorem shift_setWidth (poly x : BitVec w) (hv : w ≤ v) :
    shift (poly.setWidth v) (x.setWidth v) = (shift poly x).setWidth v := by
  have hlow : (x.setWidth v).getLsbD 0 = x.getLsbD 0 := by
    rw [BitVec.getLsbD_setWidth]
    cases v with
    | zero => rw [BitVec.getLsbD_of_ge x 0 hv]; rfl
    | succ v => simp
  have hshift : x.setWidth v >>> 1 = (x >>> 1).setWidth v := by
    refine BitVec.eq_of_getLsbD_eq fun i hi => ?_
    simp only [BitVec.getLsbD_ushiftRight, BitVec.getLsbD_setWidth, hi, decide_true, Bool.true_and]
    by_cases hnext : 1 + i < v
    · simp [hnext]
    · rw [BitVec.getLsbD_of_ge x (1 + i) (by omega)]
      simp
  rw [shift, shift, hlow, hshift]
  split
  · rw [BitVec.setWidth_xor]
  · rfl

theorem iterate_shift_setWidth (poly x : BitVec w) (hv : w ≤ v) (n : Nat) :
    (shift (poly.setWidth v))^[n] (x.setWidth v) = ((shift poly)^[n] x).setWidth v := by
  induction n generalizing x with
  | zero => rfl
  | succ n ih =>
      rw [Function.iterate_succ_apply, shift_setWidth poly x hv, ih, Function.iterate_succ_apply]

/-! ### A message -/

@[simp]
theorem absorb_nil (poly r : BitVec w) : absorb poly r [] = r := rfl

theorem absorb_cons (poly r : BitVec w) (bit : Bool) (bits : List Bool) :
    absorb poly r (bit :: bits) = absorb poly (shift poly (r ^^^ low w bit)) bits := rfl

theorem absorb_append (poly r : BitVec w) (left right : List Bool) :
    absorb poly r (left ++ right) = absorb poly (absorb poly r left) right :=
  List.foldl_append

/-- What is in the register already only moves on. -/
theorem absorb_xor (poly r s : BitVec w) (bits : List Bool) :
    absorb poly (r ^^^ s) bits = absorb poly r bits ^^^ (shift poly)^[bits.length] s := by
  induction bits generalizing r s with
  | nil => rfl
  | cons bit bits ih =>
      have hswap : r ^^^ s ^^^ low w bit = r ^^^ low w bit ^^^ s := by
        rw [BitVec.xor_assoc, BitVec.xor_comm s, BitVec.xor_assoc]
      rw [absorb_cons, absorb_cons, hswap, shift_xor, ih, List.length_cons,
        Function.iterate_succ_apply]

@[simp]
theorem length_bitsOf (d : BitVec v) : (bitsOf d).length = v := by simp [bitsOf]

theorem getLsbD_low (bit : Bool) (i : Nat) :
    (low w bit).getLsbD i = (decide (i < w) && (decide (i = 0) && bit)) := by
  cases bit
  · simp [low]
  · by_cases hi : i = 0
    · subst hi
      simp [low, BitVec.getLsbD_one]
    · simp [low, BitVec.getLsbD_one, hi]

theorem getLsbD_ofBits (w : Nat) (bits : List Bool) (i : Nat) :
    (ofBits w bits).getLsbD i = (decide (i < w) && bits.getD i false) := by
  induction bits generalizing i with
  | nil => simp [ofBits]
  | cons bit bits ih =>
      rw [ofBits, BitVec.getLsbD_xor, BitVec.getLsbD_shiftLeft, getLsbD_low]
      cases i with
      | zero => simp
      | succ i =>
          rw [Nat.add_sub_cancel, ih]
          by_cases hi : i + 1 < w
          · simp [hi, Nat.lt_of_succ_lt hi]
          · simp [hi]

theorem ofBits_bitsOf (d : BitVec v) (w : Nat) : ofBits w (bitsOf d) = d.setWidth w := by
  refine BitVec.eq_of_getLsbD_eq fun i hi => ?_
  rw [getLsbD_ofBits, BitVec.getLsbD_setWidth]
  by_cases hv : i < v
  · simp [bitsOf, hv]
  · rw [BitVec.getLsbD_of_ge d i (Nat.not_lt.mp hv)]
    simp [bitsOf, hv]

theorem ofBits_inj {bits others : List Bool} (hlength : bits.length = others.length)
    (hw : bits.length ≤ w) (h : ofBits w bits = ofBits w others) : bits = others := by
  refine List.ext_getElem hlength fun i hi hi' => ?_
  have hbit := congrArg (fun z : BitVec w => z.getLsbD i) h
  simp only [getLsbD_ofBits, decide_eq_true (Nat.lt_of_lt_of_le hi hw), Bool.true_and] at hbit
  simpa [hi, hi'] using hbit

/-- Bits that all fit into the register can be added at once. -/
theorem absorb_eq (poly r : BitVec w) {bits : List Bool} (hw : bits.length ≤ w) :
    absorb poly r bits = (shift poly)^[bits.length] (r ^^^ ofBits w bits) := by
  induction bits generalizing r with
  | nil => simp [ofBits]
  | cons bit bits ih =>
      rw [List.length_cons] at hw
      -- the bits behind the first one come back to their place
      have hback : shift poly (ofBits w bits <<< 1) = ofBits w bits := by
        have hlow : (ofBits w bits <<< 1).getLsbD 0 = false := by simp
        rw [shift, if_neg (by simp [hlow])]
        refine BitVec.eq_of_getLsbD_eq fun i hi => ?_
        rw [BitVec.getLsbD_ushiftRight, BitVec.getLsbD_shiftLeft, Nat.add_comm, Nat.add_sub_cancel]
        by_cases hnext : i + 1 < w
        · simp [hnext]
        · have hend : ¬ i < bits.length := by omega
          simp [getLsbD_ofBits, hend]
      have hswap : r ^^^ ofBits w (bit :: bits) = r ^^^ low w bit ^^^ (ofBits w bits <<< 1) := by
        rw [ofBits, BitVec.xor_comm (ofBits w bits <<< 1), BitVec.xor_assoc]
      rw [absorb_cons, ih _ (by omega), List.length_cons, Function.iterate_succ_apply, hswap,
        shift_xor poly (r ^^^ low w bit), hback]

theorem absorb_bitsOf (poly r : BitVec w) (d : BitVec v) (hw : v ≤ w) :
    absorb poly r (bitsOf d) = (shift poly)^[v] (r ^^^ d.setWidth w) := by
  rw [absorb_eq poly r (by rwa [length_bitsOf]), length_bitsOf, ofBits_bitsOf]

theorem absorb_setWidth (poly r : BitVec w) (bits : List Bool) (hw : 0 < w) (hv : w ≤ v) :
    absorb (poly.setWidth v) (r.setWidth v) bits = (absorb poly r bits).setWidth v := by
  induction bits generalizing r with
  | nil => rfl
  | cons bit bits ih =>
      have hlow : low v bit = (low w bit).setWidth v := by
        refine BitVec.eq_of_getLsbD_eq fun i hi => ?_
        rw [BitVec.getLsbD_setWidth, getLsbD_low, getLsbD_low]
        by_cases hi0 : i = 0
        · simp [hi0, hw]
        · simp [hi0]
      rw [absorb_cons, absorb_cons, hlow, ← BitVec.setWidth_xor, shift_setWidth _ _ hv, ih]

/-! ### Bytes and words -/

/-- The low bits go through the register, and the others move down. -/
theorem iterate_shift_split (poly x : BitVec w) (n : Nat) :
    (shift poly)^[n] x = (x >>> n) ^^^ (shift poly)^[n] ((x.setWidth n).setWidth w) := by
  have hsplit : x = ((x >>> n) <<< n) ^^^ (x.setWidth n).setWidth w := by
    refine BitVec.eq_of_getLsbD_eq fun i hi => ?_
    simp only [BitVec.getLsbD_xor, BitVec.getLsbD_shiftLeft, BitVec.getLsbD_ushiftRight,
      BitVec.getLsbD_setWidth, hi, decide_true, Bool.true_and]
    by_cases hn : i < n
    · simp [hn]
    · simp [hn, Nat.add_sub_cancel' (Nat.not_lt.mp hn)]
  have hhigh : (shift poly)^[n] ((x >>> n) <<< n) = x >>> n := by
    rw [iterate_shift_of_low fun i hi => by simp [hi]]
    refine BitVec.eq_of_getLsbD_eq fun i hi => ?_
    simp only [BitVec.getLsbD_shiftLeft, BitVec.getLsbD_ushiftRight, Nat.add_sub_cancel_left]
    by_cases hin : n + i < w
    · simp [hin]
    · rw [BitVec.getLsbD_of_ge x (n + i) (by omega)]
      simp
  conv_lhs => rw [hsplit]
  rw [iterate_shift_xor, hhigh]

/-- A register takes a word that is at least as wide in the low end of a register of that width. -/
theorem absorb_word (poly r : BitVec w) (d : BitVec v) (hw : 0 < w) (hv : w ≤ v) :
    (absorb poly r (bitsOf d)).setWidth v
      = (shift (poly.setWidth v))^[v] (r.setWidth v ^^^ d) := by
  rw [← absorb_setWidth poly r _ hw hv, absorb_bitsOf _ _ d (Nat.le_refl v), BitVec.setWidth_eq]

theorem setWidth_injective (hv : w ≤ v) : Function.Injective (BitVec.setWidth v : BitVec w → _) := by
  intro x y h
  have hback := congrArg (BitVec.setWidth w) h
  rwa [BitVec.setWidth_setWidth_of_le _ hv, BitVec.setWidth_setWidth_of_le _ hv,
    BitVec.setWidth_eq, BitVec.setWidth_eq] at hback

/-- What is in the register may be added to the next word instead. -/
theorem absorb_xor_word (poly r s : BitVec w) (d : BitVec v) (hw : 0 < w) (hv : w ≤ v) :
    absorb poly (r ^^^ s) (bitsOf d) = absorb poly r (bitsOf (d ^^^ s.setWidth v)) := by
  refine setWidth_injective hv ?_
  rw [absorb_word _ _ _ hw hv, absorb_word _ _ _ hw hv, BitVec.setWidth_xor, BitVec.xor_assoc,
    BitVec.xor_comm (s.setWidth v)]

/-- The digit `k` of a word, `u` bits wide. -/
def digit (u : Nat) (d : BitVec v) (k : Nat) : BitVec u := (d >>> (u * k)).setWidth u

theorem flatMap_bitsOf_digit (u : Nat) (d : BitVec v) (n : Nat) :
    (List.range n).flatMap (fun k => bitsOf (digit u d k)) = (List.range (u * n)).map d.getLsbD := by
  induction n with
  | zero => rfl
  | succ n ih =>
      have hlast : bitsOf (digit u d n) = (List.range u).map fun i => d.getLsbD (u * n + i) := by
        refine List.map_congr_left fun i hi => ?_
        simp [digit, List.mem_range.mp hi]
      rw [List.range_succ, List.flatMap_append, ih, Nat.mul_succ, List.range_add, List.map_append,
        List.map_map, List.flatMap_singleton, hlast]
      rfl

/-- The digits of a word, each sent through the register by itself and as far as its place asks. -/
theorem foldl_digits (poly : BitVec w) {u : Nat} (hu : u ≤ w) (d : BitVec v) {n m : Nat}
    (hm : n ≤ m) :
    (List.range n).foldl
        (fun r k => r ^^^ (shift poly)^[u * (m - k)] ((digit u d k).setWidth w)) 0#w
      = (shift poly)^[u * (m - n)] (absorb poly 0#w ((List.range (u * n)).map d.getLsbD)) := by
  rw [← flatMap_bitsOf_digit]
  induction n with
  | zero => exact (iterate_shift_zero poly _).symm
  | succ n ih =>
      have hsteps : u * (m - n) = u * (m - (n + 1)) + u := by
        rw [← Nat.mul_succ]
        congr 1
        omega
      rw [List.range_succ, List.foldl_append, ih (by omega), List.flatMap_append, absorb_append,
        List.flatMap_singleton, absorb_bitsOf _ _ _ hu, ← Function.iterate_add_apply, ← hsteps,
        iterate_shift_xor]
      rfl

/-! ### Registers that take turns -/

/-- The words that are left, and what the register has to take with the first of them. -/
def pending (poly : BitVec w) (registers : List (BitVec w)) (words : List (BitVec v)) : BitVec w :=
  absorb poly 0#w ((List.zipWith (fun r d => d ^^^ r.setWidth v) registers words
    ++ words.drop registers.length).flatMap bitsOf)

theorem zipWith_zeros (n : Nat) (words : List (BitVec v)) :
    List.zipWith (fun (r : BitVec w) d => d ^^^ r.setWidth v) (List.replicate n 0#w) words
      = words.take n := by
  induction n generalizing words with
  | zero => rfl
  | succ n ih =>
      cases words with
      | nil => rfl
      | cons d words =>
          rw [List.replicate_succ, List.zipWith_cons_cons, ih, List.take_succ_cons]
          simp

theorem pending_register (poly r : BitVec w) (n : Nat) (d : BitVec v) (words : List (BitVec v))
    (hw : 0 < w) (hv : w ≤ v) :
    pending poly (r :: List.replicate n 0#w) (d :: words)
      = absorb poly r ((d :: words).flatMap bitsOf) := by
  have hfirst := absorb_xor_word poly 0#w r d hw hv
  rw [BitVec.zero_xor] at hfirst
  rw [pending, List.zipWith_cons_cons, zipWith_zeros, List.length_cons, List.length_replicate,
    List.drop_succ_cons, List.cons_append, List.take_append_drop, List.flatMap_cons,
    List.flatMap_cons, absorb_append, absorb_append, hfirst]

theorem length_flatMap_bitsOf (words : List (BitVec v)) :
    (words.flatMap bitsOf).length = v * words.length := by
  induction words with
  | nil => rfl
  | cons d words ih =>
      rw [List.flatMap_cons, List.length_append, length_bitsOf, ih, List.length_cons, Nat.mul_succ,
        Nat.add_comm]

/-- The word goes through the register, and as many zeros as the other registers take meanwhile. -/
def advance (poly : BitVec w) (others : Nat) (d : BitVec v) : BitVec w :=
  (shift poly)^[v * others] (absorb poly 0#w (bitsOf d))

/-- The first register takes its word and waits for its next turn. -/
theorem pending_cons (poly r : BitVec w) {registers : List (BitVec w)} (d next : BitVec v)
    {front rest : List (BitVec v)} (hw : 0 < w) (hv : w ≤ v)
    (hlength : registers.length = front.length) :
    pending poly (r :: registers) (d :: (front ++ next :: rest))
      = pending poly (registers ++ [advance poly registers.length (d ^^^ r.setWidth v)])
          (front ++ next :: rest) := by
  generalize hmoved : List.zipWith (fun (r : BitVec w) d => d ^^^ r.setWidth v) registers front = moved
  have hcount : moved.length = registers.length := by
    rw [← hmoved, List.length_zipWith, ← hlength, Nat.min_self]
  have hbefore : List.zipWith (fun (r : BitVec w) d => d ^^^ r.setWidth v) registers
      (front ++ next :: rest) ++ (front ++ next :: rest).drop registers.length
        = moved ++ next :: rest := by
    have happend : List.zipWith (fun (r : BitVec w) d => d ^^^ r.setWidth v) (registers ++ [])
        (front ++ next :: rest) = moved := by
      rw [List.zipWith_append hlength, hmoved, List.zipWith_nil_left, List.append_nil]
    rw [List.append_nil] at happend
    rw [happend, hlength, List.drop_left]
  have hafter (t : BitVec w) :
      List.zipWith (fun (r : BitVec w) d => d ^^^ r.setWidth v) (registers ++ [t])
        (front ++ next :: rest) ++ (front ++ next :: rest).drop (registers ++ [t]).length
        = moved ++ (next ^^^ t.setWidth v) :: rest := by
    rw [List.zipWith_append hlength, hmoved, List.zipWith_cons_cons, List.zipWith_nil_left,
      List.length_append, hlength, List.drop_length_add_append]
    simp
  have hturn := absorb_xor_word poly (absorb poly 0#w (moved.flatMap bitsOf))
    (advance poly registers.length (d ^^^ r.setWidth v)) next hw hv
  have hmove := absorb_xor poly 0#w (absorb poly 0#w (bitsOf (d ^^^ r.setWidth v)))
    (moved.flatMap bitsOf)
  rw [BitVec.zero_xor, length_flatMap_bitsOf, hcount] at hmove
  rw [pending, List.zipWith_cons_cons, List.length_cons, List.drop_succ_cons, List.cons_append,
    hbefore, pending, hafter, List.flatMap_cons, absorb_append, List.flatMap_append,
    List.flatMap_cons, List.flatMap_append, List.flatMap_cons, absorb_append, absorb_append,
    absorb_append, absorb_append, ← hturn, hmove]
  rfl

/-- A round in which every register takes a word. -/
theorem pending_round (poly : BitVec w) {registers done : List (BitVec w)}
    {block words : List (BitVec v)} (hw : 0 < w) (hv : w ≤ v) (hblock : registers.length = block.length)
    (hwords : registers.length + done.length ≤ words.length) {others : Nat}
    (hothers : registers.length + done.length = others + 1) :
    pending poly (registers ++ done) (block ++ words)
      = pending poly (done ++ List.zipWith (fun r d => advance poly others (d ^^^ r.setWidth v))
          registers block) words := by
  induction registers generalizing done block with
  | nil =>
      obtain rfl := List.length_eq_zero_iff.mp hblock.symm
      simp
  | cons r registers ih =>
      obtain ⟨d, block, rfl⟩ := List.exists_cons_of_length_eq_add_one hblock.symm
      have hrest : registers.length = block.length := Nat.add_right_cancel hblock
      simp only [List.length_cons] at hwords hothers
      have hcount : (registers ++ done).length = others := by
        rw [List.length_append]
        omega
      obtain ⟨next, rest, hnext⟩ : ∃ next rest, (block ++ words).drop others = next :: rest := by
        refine List.exists_cons_of_length_pos ?_
        rw [List.length_drop, List.length_append]
        omega
      have hsplit : block ++ words = (block ++ words).take others ++ next :: rest := by
        rw [← hnext, List.take_append_drop]
      have hfront : (registers ++ done).length = ((block ++ words).take others).length := by
        rw [hcount, List.length_take, List.length_append]
        omega
      have hpush : ∀ s : BitVec w, (done ++ [s]).length = done.length + 1 := fun s => by simp
      rw [List.cons_append, List.cons_append, hsplit, pending_cons poly r d next hw hv hfront, ← hsplit,
        hcount, List.append_assoc, ih hrest (by rw [hpush]; omega) (by rw [hpush]; omega),
        List.append_assoc]
      rfl

/-- In the last round each register takes what the ones before it have left as well. -/
theorem pending_last (poly : BitVec w) {registers : List (BitVec w)} {words : List (BitVec v)}
    (hw : 0 < w) (hv : w ≤ v) (hwords : registers.length = words.length) :
    pending poly registers words
      = (registers.zip words).foldl
          (fun s (r, d) => absorb poly 0#w (bitsOf (r.setWidth v ^^^ d ^^^ s.setWidth v))) 0#w := by
  have hrun (s : BitVec w) :
      absorb poly s ((List.zipWith (fun r d => d ^^^ r.setWidth v) registers words).flatMap bitsOf)
        = (registers.zip words).foldl
          (fun s (r, d) => absorb poly 0#w (bitsOf (r.setWidth v ^^^ d ^^^ s.setWidth v))) s := by
    induction registers generalizing words s with
    | nil => rfl
    | cons r registers ih =>
        obtain ⟨d, words, rfl⟩ := List.exists_cons_of_length_eq_add_one hwords.symm
        rw [List.length_cons, List.length_cons, Nat.add_right_cancel_iff] at hwords
        have hfirst := absorb_xor_word poly 0#w s (d ^^^ r.setWidth v) hw hv
        rw [BitVec.zero_xor] at hfirst
        rw [List.zipWith_cons_cons, List.flatMap_cons, absorb_append, ih hwords, List.zip_cons_cons,
          List.foldl_cons, hfirst, BitVec.xor_comm d]
  rw [pending, hwords, List.drop_length, List.append_nil]
  exact hrun 0#w

/-! ### Products

A register is a polynomial over two elements, its top bit the constant one, and a shift is the product
with the variable modulo the polynomial of `poly`. -/

/-- The product with what the low `n` bits of `a` stand for, where bit `n - 1` stands for one. -/
def mulLow (poly a : BitVec w) : Nat → BitVec w → BitVec w
  | 0, _ => 0#w
  | n + 1, b => (if a.getLsbD n then b else 0#w) ^^^ mulLow poly a n (shift poly b)

def mul (poly a b : BitVec w) : BitVec w := mulLow poly a w b

def one (w : Nat) : BitVec w := 1#w <<< (w - 1)

theorem mulLow_of_low {a : BitVec w} {n : Nat} (h : ∀ i < n, a.getLsbD i = false) (b : BitVec w) :
    mulLow poly a n b = 0#w := by
  induction n generalizing b with
  | zero => rfl
  | succ n ih =>
      rw [mulLow, if_neg (by simp [h n (Nat.lt_succ_self n)]),
        ih (fun i hi => h i (Nat.lt_succ_of_lt hi)), BitVec.xor_self]

/-- What is additive and commutes with a shift commutes with a product. -/
theorem map_mulLow {f : BitVec w → BitVec w} (hadd : ∀ x y, f (x ^^^ y) = f x ^^^ f y)
    (hshift : ∀ x, f (shift poly x) = shift poly (f x)) (a : BitVec w) (n : Nat) (b : BitVec w) :
    f (mulLow poly a n b) = mulLow poly a n (f b) := by
  have hzero : f 0#w = 0#w := by
    have hself := hadd 0#w 0#w
    rwa [BitVec.xor_self, BitVec.xor_self] at hself
  induction n generalizing b with
  | zero => exact hzero
  | succ n ih =>
      rw [mulLow, mulLow, hadd, ih, hshift]
      split
      · rfl
      · rw [hzero]

theorem mulLow_xor (a : BitVec w) (n : Nat) (b c : BitVec w) :
    mulLow poly a n (b ^^^ c) = mulLow poly a n b ^^^ mulLow poly a n c := by
  induction n generalizing b c with
  | zero => exact BitVec.xor_self.symm
  | succ n ih =>
      rw [mulLow, mulLow, mulLow, shift_xor, ih]
      split
      · rw [BitVec.xor_assoc, BitVec.xor_assoc, ← BitVec.xor_assoc c, BitVec.xor_comm c,
          BitVec.xor_assoc]
      · rw [BitVec.zero_xor, BitVec.zero_xor, BitVec.zero_xor]

theorem shift_mulLow (a : BitVec w) (n : Nat) (b : BitVec w) :
    shift poly (mulLow poly a n b) = mulLow poly a n (shift poly b) :=
  map_mulLow (shift_xor poly) (fun _ => rfl) a n b

theorem getLsbD_one_shiftLeft (k i : Nat) :
    (1#w <<< k).getLsbD i = (decide (i < w) && decide (i = k)) := by
  rw [BitVec.getLsbD_shiftLeft, BitVec.getLsbD_one]
  by_cases hi : i < w
  · rcases Nat.lt_trichotomy i k with hlt | rfl | hlt
    · simp [hlt, Nat.ne_of_lt hlt]
    · simp [hi, Nat.zero_lt_of_lt hi]
    · have hsub : i - k ≠ 0 := by omega
      simp [hsub, Nat.ne_of_gt hlt]
  · simp [hi]

theorem shift_one_shiftLeft {n : Nat} (hn : n + 1 < w) :
    shift poly (1#w <<< (n + 1)) = 1#w <<< n := by
  rw [shift, if_neg (by simp)]
  refine BitVec.eq_of_getLsbD_eq fun i hi => ?_
  rw [BitVec.getLsbD_ushiftRight, getLsbD_one_shiftLeft, getLsbD_one_shiftLeft]
  by_cases hin : i = n
  · subst hin
    simp [Nat.add_comm 1, hn, hi]
  · have hne : 1 + i ≠ n + 1 := by omega
    simp [hne, hin]

theorem getLsbD_mulLow (a : BitVec w) {n : Nat} (hn : n < w) (i : Nat) :
    (mulLow poly a (n + 1) (1#w <<< n)).getLsbD i = (decide (i ≤ n) && a.getLsbD i) := by
  have hfirst (k : Nat) (hk : k < w) : (if a.getLsbD k then 1#w <<< k else 0#w).getLsbD i
      = (decide (i = k) && a.getLsbD i) := by
    have hone := getLsbD_one_shiftLeft (w := w) k i
    by_cases hik : i = k
    · subst hik
      rw [decide_eq_true hk, decide_eq_true rfl] at hone
      cases hbit : a.getLsbD i
      · rw [if_neg (by simp), BitVec.getLsbD_zero, Bool.and_false]
      · rw [if_pos rfl, hone]
        simp
    · rw [decide_eq_false hik, Bool.and_false] at hone
      rw [decide_eq_false hik, Bool.false_and]
      split
      · exact hone
      · exact BitVec.getLsbD_zero
  induction n with
  | zero =>
      rw [mulLow, mulLow, BitVec.xor_zero, hfirst 0 hn]
      simp
  | succ n ih =>
      rw [mulLow, shift_one_shiftLeft hn, BitVec.getLsbD_xor, ih (by omega), hfirst (n + 1) hn]
      by_cases htop : i = n + 1
      · have hgt : ¬ n + 1 ≤ n := by omega
        simp [htop, hgt]
      · have hle : i ≤ n + 1 ↔ i ≤ n := by omega
        simp [htop, hle]

theorem mul_one (a : BitVec w) : mul poly a (one w) = a := by
  refine BitVec.eq_of_getLsbD_eq fun i hi => ?_
  obtain ⟨n, rfl⟩ := Nat.exists_eq_add_one_of_ne_zero (Nat.ne_of_gt (Nat.zero_lt_of_lt hi))
  rw [mul, one, Nat.add_sub_cancel, getLsbD_mulLow a (Nat.lt_succ_self n)]
  simp [Nat.le_of_lt_succ hi]

theorem mul_comm (a b : BitVec w) : mul poly a b = mul poly b a := by
  calc mul poly a b = mul poly a (mul poly b (one w)) := by rw [mul_one]
    _ = mul poly b (mul poly a (one w)) :=
        map_mulLow (mulLow_xor a w) (fun x => (shift_mulLow a w x).symm) b w (one w)
    _ = mul poly b a := by rw [mul_one]

/-- The product with a power of the variable. -/
theorem mul_iterate_one (n : Nat) (b : BitVec w) :
    mul poly ((shift poly)^[n] (one w)) b = (shift poly)^[n] b := by
  rw [mul_comm]
  induction n generalizing b with
  | zero => exact mul_one b
  | succ n ih =>
      rw [Function.iterate_succ_apply', mul, ← shift_mulLow, ← mul, ih, Function.iterate_succ_apply']

/-! ### Damage -/

theorem absorb_injective (hpoly : poly.getLsbD (w - 1) = true) (bits : List Bool) {x y : BitVec w}
    (h : absorb poly x bits = absorb poly y bits) : x = y := by
  induction bits generalizing x y with
  | nil => exact h
  | cons bit bits ih =>
      rw [absorb_cons, absorb_cons] at h
      exact (BitVec.xor_left_inj _).mp (shift_injective hpoly (ih h))

/-- Two messages that are the same but for places less than `w` apart. -/
structure Burst (w : Nat) (bits damaged : List Bool) : Prop where
  length_eq : bits.length = damaged.length
  ne : bits ≠ damaged
  window : ∃ start, ∀ i, bits[i]? ≠ damaged[i]? → start ≤ i ∧ i < start + w

section

variable {bits damaged left right right' : List Bool}

theorem Burst.of_length_le (hlength : bits.length = damaged.length) (hne : bits ≠ damaged)
    (hw : bits.length ≤ w) : Burst w bits damaged := by
  refine ⟨hlength, hne, 0, fun i hi => ⟨Nat.zero_le i, ?_⟩⟩
  by_contra hge
  rw [List.getElem?_eq_none (by omega), List.getElem?_eq_none (by omega)] at hi
  exact hi rfl

theorem Burst.append_left_iff :
    Burst w (left ++ right) (left ++ right') ↔ Burst w right right' := by
  have hright (other : List Bool) (i : Nat) : (left ++ other)[left.length + i]? = other[i]? := by
    rw [List.getElem?_append_right (Nat.le_add_right ..), Nat.add_sub_cancel_left]
  constructor
  · rintro ⟨hlength, hne, start, hwindow⟩
    refine ⟨by simpa using hlength, fun heq => hne (by rw [heq]), start - left.length, fun i hi => ?_⟩
    have hplace := hwindow (left.length + i) (by rwa [hright, hright])
    omega
  · rintro ⟨hlength, hne, start, hwindow⟩
    refine ⟨by simpa using hlength, fun heq => hne (List.append_cancel_left heq),
      left.length + start, fun i hi => ?_⟩
    by_cases hbefore : i < left.length
    · rw [List.getElem?_append_left hbefore, List.getElem?_append_left hbefore] at hi
      exact (hi rfl).elim
    · obtain ⟨j, rfl⟩ := Nat.exists_eq_add_of_le (Nat.not_lt.mp hbefore)
      rw [hright, hright] at hi
      have hplace := hwindow j hi
      omega

/-- Damage on both sides of a span that is not damaged is further apart than the span is long. -/
theorem Burst.eq_or_eq {left' middle : List Bool} (hleft : left.length = left'.length)
    (hmiddle : w ≤ middle.length)
    (h : Burst w (left ++ middle ++ right) (left' ++ middle ++ right')) :
    left = left' ∨ right = right' := by
  obtain ⟨hlength, -, start, hwindow⟩ := h
  by_contra hboth
  push Not at hboth
  obtain ⟨i, hi⟩ : ∃ i, left[i]? ≠ left'[i]? := by
    by_contra hnone
    push Not at hnone
    exact hboth.1 (List.ext_getElem? hnone)
  obtain ⟨j, hj⟩ : ∃ j, right[j]? ≠ right'[j]? := by
    by_contra hnone
    push Not at hnone
    exact hboth.2 (List.ext_getElem? hnone)
  have hinside : i < left.length := by
    by_contra hbehind
    rw [List.getElem?_eq_none (by omega), List.getElem?_eq_none (by omega)] at hi
    exact hi rfl
  have hfirst := hwindow i (by
    rw [List.append_assoc, List.append_assoc, List.getElem?_append_left hinside,
      List.getElem?_append_left (hleft ▸ hinside : i < left'.length)]
    exact hi)
  have hlast := hwindow (left.length + middle.length + j) (by
    rw [List.getElem?_append_right (by simp), List.getElem?_append_right (by simp [hleft])]
    simpa [hleft] using hj)
  omega

/-- A span that is not damaged may be another one. -/
theorem Burst.replace {left' middle other : List Bool} (hleft : left.length = left'.length)
    (hother : other.length = middle.length)
    (h : Burst w (left ++ (middle ++ right)) (left' ++ (middle ++ right'))) :
    Burst w (left ++ (other ++ right)) (left' ++ (other ++ right')) := by
  obtain ⟨hlength, hne, start, hwindow⟩ := h
  refine ⟨by simp only [List.length_append] at hlength ⊢; omega, fun heq => hne ?_, start,
    fun i hi => hwindow i fun heq => hi ?_⟩
  · obtain ⟨rfl, hrest⟩ := List.append_inj heq hleft
    rw [List.append_cancel_left hrest]
  · simp only [List.getElem?_append, ← hleft, hother] at heq ⊢
    split_ifs with hfront hinside
    · rwa [if_pos hfront, if_pos hfront] at heq
    · rfl
    · rwa [if_neg hfront, if_neg hfront, if_neg hinside, if_neg hinside] at heq

/-- A message of which only a part is damaged, around that part. -/
theorem Burst.exists_window (h : Burst w bits damaged) :
    ∃ front inner inner' back, bits = front ++ inner ++ back ∧ damaged = front ++ inner' ++ back
      ∧ inner.length = inner'.length ∧ inner.length ≤ w := by
  obtain ⟨hlength, -, start, hwindow⟩ := h
  have hsame (i : Nat) (hi : i < start ∨ start + w ≤ i) : bits[i]? = damaged[i]? := by
    by_contra hne
    have hplace := hwindow i hne
    omega
  have hfront : damaged.take start = bits.take start := by
    refine List.ext_getElem? fun i => ?_
    rw [List.getElem?_take, List.getElem?_take]
    split
    · next hi => exact (hsame i (.inl hi)).symm
    · rfl
  have hback : damaged.drop (start + w) = bits.drop (start + w) := by
    refine List.ext_getElem? fun i => ?_
    rw [List.getElem?_drop, List.getElem?_drop]
    exact (hsame _ (.inr (Nat.le_add_right ..))).symm
  have hsplit (message : List Bool) : message = message.take start ++ (message.drop start).take w
      ++ message.drop (start + w) := by
    rw [← List.drop_drop, List.append_assoc, List.take_append_drop, List.take_append_drop]
  refine ⟨bits.take start, (bits.drop start).take w, (damaged.drop start).take w,
    bits.drop (start + w), hsplit bits, ?_, ?_, List.length_take_le ..⟩
  · rw [← hfront, ← hback]
    exact hsplit damaged
  · rw [List.length_take, List.length_take, List.length_drop, List.length_drop, hlength]

theorem absorb_ne_of_burst (hpoly : poly.getLsbD (w - 1) = true) (r : BitVec w)
    (h : Burst w bits damaged) : absorb poly r bits ≠ absorb poly r damaged := by
  have hne := h.ne
  obtain ⟨front, inner, inner', back, rfl, rfl, hlength, hw⟩ := h.exists_window
  intro heq
  rw [absorb_append, absorb_append, absorb_append poly r (front ++ inner'), absorb_append] at heq
  have hinner := absorb_injective hpoly back heq
  rw [absorb_eq poly _ hw, absorb_eq poly _ (hlength ▸ hw : inner'.length ≤ w), hlength] at hinner
  have hbits := (shift_injective hpoly).iterate _ hinner
  have hsame : ofBits w inner = ofBits w inner' := (BitVec.xor_right_inj _).mp hbits
  exact hne (by rw [ofBits_inj hlength hw hsame])

end

end ShiftRegister
