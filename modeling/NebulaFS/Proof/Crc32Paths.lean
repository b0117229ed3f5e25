import NebulaFS.Crc32
import NebulaFS.Lib.ShiftRegister

/-!
# Every path of the CRC-32 computes the same

The tables are those of a shift register (`makeCrcTable_eq`), and the register a table step, a word or a
round of braids leaves is the one the bits leave one by one. So the result does not depend on where the
buffer lies or on how many braids there are (`crc32z_eq`).
-/

namespace NebulaFS

namespace Crc32

open LittleEndian ShiftRegister

variable {braids : Braids}

/-- The bits of the bytes, in the order the register takes them. -/
def bitsOfBytes (bytes : Bytes) : List Bool := bytes.flatMap fun byte => bitsOf byte.toBitVec

theorem bitsOfBytes_append (left right : Bytes) :
    bitsOfBytes (left ++ right) = bitsOfBytes left ++ bitsOfBytes right :=
  List.flatMap_append

/-! ### The tables -/

theorem and_one_ne_zero_iff (p : Crc) : p &&& 1#32 ≠ 0#32 ↔ p.getLsbD 0 = true := by
  rw [BitVec.and_one_eq_setWidth_ofBool_getLsbD]
  cases p.getLsbD 0 <;> decide

theorem next_eq : next = shift poly := by
  funext p
  rw [next, shift]
  simp only [and_one_ne_zero_iff]

theorem and_bit_ne_zero_iff (a : Crc) {i : Nat} (hi : i < 32) :
    a &&& (1#32 <<< i) ≠ 0#32 ↔ a.getLsbD i = true := by
  constructor
  · intro hne
    by_contra hbit
    refine hne (BitVec.eq_of_getLsbD_eq fun j hj => ?_)
    rw [BitVec.getLsbD_and, getLsbD_one_shiftLeft, BitVec.getLsbD_zero]
    by_cases hji : j = i
    · subst hji
      simp [hbit]
    · simp [hji]
  · intro hbit hzero
    have hset := congrArg (fun x : Crc => x.getLsbD i) hzero
    simp only [BitVec.getLsbD_and, getLsbD_one_shiftLeft, BitVec.getLsbD_zero, hbit] at hset
    simp [hi] at hset

theorem and_below_eq_zero_iff (a : Crc) {i : Nat} (hi : i < 32) :
    a &&& ((1#32 <<< i) - 1#32) = 0#32 ↔ ∀ j < i, a.getLsbD j = false := by
  have hmask (j : Nat) (hj : j < 32) : ((1#32 <<< i) - 1#32).getLsbD j = decide (j < i) := by
    have hpow : 2 ^ i < 2 ^ 32 := Nat.pow_lt_pow_right (by decide) hi
    have hpos : 0 < 2 ^ i := Nat.pow_pos (by decide)
    have hvalue : ((1#32 <<< i) - 1#32).toNat = 2 ^ i - 1 := by
      rw [BitVec.toNat_sub, BitVec.toNat_shiftLeft, BitVec.toNat_ofNat, Nat.shiftLeft_eq]
      omega
    rw [BitVec.getLsbD, hvalue, Nat.testBit_two_pow_sub_one]
  constructor
  · intro hzero j hj
    have hbit := congrArg (fun x : Crc => x.getLsbD j) hzero
    simp only [BitVec.getLsbD_and, hmask j (by omega)] at hbit
    simpa [hj] using hbit
  · intro hlow
    refine BitVec.eq_of_getLsbD_eq fun j hj => ?_
    rw [BitVec.getLsbD_and, hmask j hj, BitVec.getLsbD_zero]
    by_cases hji : j < i
    · simp [hlow j hji]
    · simp [hji]

theorem multmodpLoop_eq (a : Crc) {i : Nat} (hi : i ≤ 32) (hset : ∃ j < i, a.getLsbD j = true)
    (b p : Crc) : multmodpLoop a i b p = some (p ^^^ mulLow poly a i b) := by
  induction i generalizing b p with
  | zero =>
      obtain ⟨j, hj, -⟩ := hset
      omega
  | succ i ih =>
      have hm := and_bit_ne_zero_iff a (show i < 32 by omega)
      rw [multmodpLoop, mulLow, next_eq]
      by_cases hbit : a.getLsbD i = true
      · rw [if_pos (hm.mpr hbit), if_pos hbit]
        by_cases hlow : ∀ j < i, a.getLsbD j = false
        · rw [if_pos ((and_below_eq_zero_iff a (by omega)).mpr hlow), mulLow_of_low hlow,
            BitVec.xor_zero]
        · rw [if_neg fun hzero => hlow ((and_below_eq_zero_iff a (by omega)).mp hzero)]
          push Not at hlow
          obtain ⟨j, hj, hjset⟩ := hlow
          rw [ih (by omega) ⟨j, hj, by simpa using hjset⟩, BitVec.xor_assoc]
      · rw [if_neg fun hne => hbit (hm.mp hne), if_neg hbit, BitVec.zero_xor]
        obtain ⟨j, hj, hjset⟩ := hset
        have hne : j ≠ i := fun heq => hbit (heq ▸ hjset)
        exact ih (by omega) ⟨j, by omega, hjset⟩ _ _

/-- The product modulo the polynomial; for `a = 0` it would not end. -/
theorem multmodp_eq {a : Crc} (ha : a ≠ 0#32) (b : Crc) : multmodp a b = some (mul poly a b) := by
  have hset : ∃ j < 32, a.getLsbD j = true := by
    by_contra hnone
    push Not at hnone
    exact ha (BitVec.eq_of_getLsbD_eq fun j hj => by simpa using hnone j hj)
  rw [multmodp, multmodpLoop_eq a (Nat.le_refl 32) hset, BitVec.zero_xor, mul]

theorem shift_poly_injective : Function.Injective (shift poly) := shift_injective (by decide)

theorem power_ne_zero (n : Nat) : (shift poly)^[n] (one 32) ≠ 0#32 := by
  intro hzero
  have heq := shift_poly_injective.iterate n (hzero.trans (iterate_shift_zero poly n).symm)
  exact absurd heq (by decide)

theorem multmodp_power (m : Nat) (b : Crc) :
    multmodp ((shift poly)^[m] (one 32)) b = some ((shift poly)^[m] b) := by
  rw [multmodp_eq (power_ne_zero m), mul_iterate_one]

/-- `x2n_table`: the variable to the powers of two. -/
def powers (count : Nat) : List Crc :=
  (List.range count).map fun j => (shift poly)^[2 ^ j] (one 32)

theorem squares_eq (n k : Nat) :
    squares n ((shift poly)^[2 ^ k] (one 32))
      = some ((List.range (n + 1)).map fun j => (shift poly)^[2 ^ (k + j)] (one 32)) := by
  induction n generalizing k with
  | zero => rfl
  | succ n ih =>
      have hsquare : multmodp ((shift poly)^[2 ^ k] (one 32)) ((shift poly)^[2 ^ k] (one 32))
          = some ((shift poly)^[2 ^ (k + 1)] (one 32)) := by
        rw [multmodp_power, ← Function.iterate_add_apply, pow_succ, Nat.mul_two]
      have htail : ((List.range (n + 1)).map fun j => (shift poly)^[2 ^ (k + 1 + j)] (one 32))
          = (List.range (n + 1)).map fun j => (shift poly)^[2 ^ (k + (j + 1))] (one 32) :=
        List.map_congr_left fun j _ => by rw [Nat.add_assoc, Nat.add_comm 1]
      rw [squares, hsquare]
      simp only [Option.bind_eq_bind, Option.bind_some, ih, htail]
      rw [List.range_succ_eq_map (n := n + 1)]
      simp [Function.comp_def]

theorem x2nmodpLoop_eq {n k : Nat} (hn : n * 2 ^ k < 2 ^ 32) (p : Crc) :
    x2nmodpLoop (powers 32) n k p = some ((shift poly)^[n * 2 ^ k] p) := by
  induction n using Nat.strong_induction_on generalizing k p with
  | _ n ih =>
      rw [x2nmodpLoop]
      split
      · next hzero => rw [hzero, Nat.zero_mul]; rfl
      · next hpos =>
          have hk : k < 32 := by
            by_contra hge
            have hpow := Nat.pow_le_pow_right (show 0 < 2 by decide) (Nat.not_lt.mp hge)
            have hle := Nat.mul_le_mul (Nat.one_le_iff_ne_zero.mpr hpos) hpow
            omega
          have hentry : (powers 32).getD (k % 32) 0#32 = (shift poly)^[2 ^ k] (one 32) := by
            rw [Nat.mod_eq_of_lt hk, powers]
            simp [hk]
          have hhalf : n * 2 ^ k = n / 2 * 2 ^ (k + 1) + n % 2 * 2 ^ k := by
            conv_lhs => rw [← Nat.div_add_mod n 2]
            ring
          have hrest := ih (n / 2) (Nat.div_lt_self (Nat.pos_of_ne_zero hpos) (by decide))
            (k := k + 1) (by omega)
          rw [hentry, multmodp_power]
          rcases Nat.mod_two_eq_zero_or_one n with hmod | hmod
          · rw [hmod, Nat.zero_mul, Nat.add_zero] at hhalf
            rw [if_neg (by omega), hhalf]
            exact hrest p
          · rw [hmod, Nat.one_mul] at hhalf
            rw [if_pos hmod, hhalf, Function.iterate_add_apply]
            exact hrest _

theorem x2nmodp_eq {n k : Nat} (hn : n * 2 ^ k < 2 ^ 32) :
    x2nmodp (powers 32) n k = some ((shift poly)^[n * 2 ^ k] (one 32)) := by
  rw [x2nmodp, x2nmodpLoop_eq hn]
  rfl

/-- What a byte leaves behind, with `zeros` bytes of zeros after it. -/
def byteTable (zeros : Nat) : List Crc :=
  (List.range 256).map fun i => (shift poly)^[8 * zeros] (BitVec.ofNat 32 i)

def tables (braids : Braids) : Tables :=
  { crcTable := byteTable 1
    x2nTable := powers 32
    crcBraidTable := (List.range braids.w).map fun k => byteTable (braids.n * braids.w - k) }

theorem mapM_eq_some {α β : Type} {f : α → Option β} {g : α → β} {xs : List α}
    (h : ∀ x ∈ xs, f x = some (g x)) : xs.mapM f = some (xs.map g) := by
  induction xs with
  | nil => rfl
  | cons x xs ih =>
      rw [List.mapM_cons, h x (List.mem_cons_self ..),
        ih fun y hy => h y (List.mem_cons_of_mem _ hy)]
      rfl

/-- A byte at the top of a register lies three bytes above where a message has its first one. -/
theorem multmodp_top (zeros : Nat) {i : Nat} (hpos : 0 < i) (hi : i < 256) :
    multmodp (BitVec.ofNat 32 i <<< 24) ((shift poly)^[8 * zeros + 24] (one 32))
      = some ((shift poly)^[8 * zeros] (BitVec.ofNat 32 i)) := by
  have hvalue : (BitVec.ofNat 32 i <<< 24).toNat = i * 2 ^ 24 := by
    rw [BitVec.toNat_shiftLeft, BitVec.toNat_ofNat, Nat.shiftLeft_eq]
    omega
  have hne : BitVec.ofNat 32 i <<< 24 ≠ 0#32 := by
    intro heq
    have hnat := congrArg BitVec.toNat heq
    rw [hvalue, BitVec.toNat_zero] at hnat
    omega
  have hback : (shift poly)^[24] (BitVec.ofNat 32 i <<< 24) = BitVec.ofNat 32 i := by
    rw [iterate_shift_of_low fun j hj => by simp [hj]]
    refine BitVec.eq_of_toNat_eq ?_
    rw [BitVec.toNat_ushiftRight, hvalue, BitVec.toNat_ofNat, Nat.shiftRight_eq_div_pow]
    omega
  rw [multmodp_eq hne, ShiftRegister.mul_comm, mul_iterate_one, Function.iterate_add_apply, hback]

theorem byteTable_eq (zeros : Nat) :
    ((List.range 256).mapM fun i =>
        if i = 0 then some 0#32
        else multmodp (BitVec.ofNat 32 i <<< 24) ((shift poly)^[8 * zeros + 24] (one 32)))
      = some (byteTable zeros) := by
  rw [byteTable]
  refine mapM_eq_some fun i hi => ?_
  split
  · next hzero => rw [hzero, iterate_shift_zero]
  · next hpos => exact multmodp_top zeros (Nat.pos_of_ne_zero hpos) (List.mem_range.mp hi)

theorem braid_eq (braids : Braids) :
    braid (powers 32) braids.n braids.w = some (tables braids).crcBraidTable := by
  have hw : 4 ≤ braids.w ∧ braids.w ≤ 8 := by
    have hmem := braids.w_mem
    omega
  have hnw : braids.w ≤ braids.n * braids.w := Nat.le_mul_of_pos_left _ braids.n_mem.1
  have hmax : braids.n * braids.w ≤ 6 * 8 := Nat.mul_le_mul braids.n_mem.2 hw.2
  have hentry : ∀ k ∈ List.range braids.w,
      (do
        let p ← x2nmodp (powers 32) ((braids.n * braids.w + 3 - k) * 8) 0
        (List.range 256).mapM fun i =>
          if i = 0 then some 0#32 else multmodp (BitVec.ofNat 32 i <<< 24) p)
        = some (byteTable (braids.n * braids.w - k)) := by
    intro k hk
    have hkw := List.mem_range.mp hk
    have hsteps : (braids.n * braids.w + 3 - k) * 8 = 8 * (braids.n * braids.w - k) + 24 := by omega
    rw [x2nmodp_eq (by omega), pow_zero, Nat.mul_one, hsteps, Option.bind_eq_bind, Option.bind_some,
      byteTable_eq]
  exact mapM_eq_some hentry

/-- Filling the tables ends. -/
theorem makeCrcTable_eq (braids : Braids) : makeCrcTable braids = some (tables braids) := by
  have hsquares : squares 31 (1#32 <<< 30) = some (powers 32) := by
    have hstart : 1#32 <<< 30 = (shift poly)^[2 ^ 0] (one 32) := by decide
    have hpowers : ((List.range 32).map fun j => (shift poly)^[2 ^ (0 + j)] (one 32)) = powers 32 :=
      List.map_congr_left fun j _ => by rw [Nat.zero_add]
    rw [hstart, squares_eq, hpowers]
  simp only [makeCrcTable, hsquares, braid_eq, next_eq, Option.bind_eq_bind, Option.bind_some]
  rfl

/-! ### A byte, a word, a round -/

theorem getD_byteTable {v : Nat} (zeros : Nat) (x : BitVec v) (hv : 8 ≤ v) :
    (byteTable zeros).getD (x &&& 0xff#v).toNat 0#32
      = (shift poly)^[8 * zeros] ((x.setWidth 8).setWidth 32) := by
  have hindex : (x &&& 0xff#v).toNat = x.toNat % 256 := by
    have hmask : (0xff#v).toNat = 2 ^ 8 - 1 := by
      rw [BitVec.toNat_ofNat]
      exact Nat.mod_eq_of_lt (Nat.lt_of_lt_of_le (by decide) (Nat.pow_le_pow_right (by decide) hv))
    rw [BitVec.toNat_and, hmask, Nat.and_two_pow_sub_one_eq_mod]
  have hlt : x.toNat % 256 < 256 := Nat.mod_lt _ (by decide)
  have hvalue : BitVec.ofNat 32 (x.toNat % 256) = (x.setWidth 8).setWidth 32 := by
    refine BitVec.eq_of_toNat_eq ?_
    rw [BitVec.toNat_ofNat, BitVec.toNat_setWidth, BitVec.toNat_setWidth]
  rw [hindex, byteTable, ← hvalue]
  simp [hlt]

theorem byteStep_eq (crc : Crc) (byte : UInt8) :
    byteStep (tables braids) crc byte = absorb poly crc (bitsOf byte.toBitVec) := by
  have hhigh : (crc ^^^ byte.toBitVec.setWidth 32) >>> 8 = crc >>> 8 := by
    refine BitVec.eq_of_getLsbD_eq fun i hi => ?_
    rw [BitVec.getLsbD_ushiftRight, BitVec.getLsbD_ushiftRight, BitVec.getLsbD_xor,
      BitVec.getLsbD_setWidth, BitVec.getLsbD_of_ge byte.toBitVec (8 + i) (by omega)]
    simp
  rw [absorb_bitsOf _ _ _ (by decide), iterate_shift_split, hhigh, byteStep, tables,
    getD_byteTable 1 _ (by decide)]

theorem foldl_byteStep (crc : Crc) (bytes : Bytes) :
    bytes.foldl (byteStep (tables braids)) crc = absorb poly crc (bitsOfBytes bytes) := by
  induction bytes generalizing crc with
  | nil => rfl
  | cons byte bytes ih =>
      rw [List.foldl_cons, ih, byteStep_eq, ← absorb_append]
      rfl

theorem width_le (braids : Braids) : 32 ≤ 8 * braids.w := by
  have hw := braids.w_mem
  omega

theorem setWidth_byte (byte : BitVec 8) (v : Nat) :
    (byte.setWidth 32).setWidth v = byte.setWidth v := by
  refine BitVec.eq_of_toNat_eq ?_
  rw [BitVec.toNat_setWidth, BitVec.toNat_setWidth, BitVec.toNat_setWidth,
    Nat.mod_eq_of_lt (show byte.toNat < 2 ^ 32 by omega)]

theorem crcWord_eq (data : Word braids) :
    crcWord (tables braids) data = absorb poly 0#32 (bitsOf data) := by
  have hwidth := width_le braids
  have hstep : (fun data : Word braids =>
      (data >>> 8) ^^^ ((tables braids).crcTable.getD (data &&& 0xff#_).toNat 0#32).setWidth _)
      = (shift (poly.setWidth (8 * braids.w)))^[8] := by
    funext data
    rw [iterate_shift_split, tables, getD_byteTable 1 data (by omega),
      ← iterate_shift_setWidth poly _ hwidth, setWidth_byte]
  have hword := absorb_word poly 0#32 data (by decide) hwidth
  rw [BitVec.setWidth_zero, BitVec.zero_xor] at hword
  rw [crcWord, hstep, ← Function.iterate_mul, ← hword, BitVec.setWidth_setWidth_of_le _ hwidth,
    BitVec.setWidth_eq]

theorem getD_crcBraidTable (word : Word braids) {k : Nat} (hk : k < braids.w) :
    ((tables braids).crcBraidTable.getD k []).getD ((word >>> (8 * k)) &&& 0xff#_).toNat 0#32
      = (shift poly)^[8 * (braids.n * braids.w - k)] ((digit 8 word k).setWidth 32) := by
  have htable : (tables braids).crcBraidTable.getD k [] = byteTable (braids.n * braids.w - k) := by
    simp [tables, hk]
  have hwidth := width_le braids
  rw [htable, getD_byteTable _ _ (by omega)]
  rfl

/-- The tables take the bytes of a word, and the zeros of the other braids, at once. -/
theorem braidWord_eq (word : Word braids) :
    braidWord (tables braids) word = advance poly (braids.n - 1) word := by
  have hrange : List.range braids.w = 0 :: List.range' 1 (braids.w - 1) := by
    rcases braids.w_mem with hw | hw <;> rw [hw] <;> rfl
  have hfold : braidWord (tables braids) word
      = (List.range braids.w).foldl
          (fun crc k => crc ^^^ ((tables braids).crcBraidTable.getD k []).getD
            ((word >>> (8 * k)) &&& 0xff#_).toNat 0#32) 0#32 := by
    rw [hrange, List.foldl_cons, BitVec.zero_xor, Nat.mul_zero, BitVec.ushiftRight_zero]
    rfl
  have hsteps : 8 * (braids.n * braids.w - braids.w) = 8 * braids.w * (braids.n - 1) := by
    rw [Nat.mul_assoc, Nat.mul_sub_one, Nat.mul_comm braids.n]
  rw [hfold, advance, ← hsteps]
  refine Eq.trans ?_ (foldl_digits poly (by decide) word
    (Nat.le_mul_of_pos_left braids.w braids.n_mem.1))
  refine List.foldl_ext _ _ _ fun crc k hk => ?_
  rw [getD_crcBraidTable word (List.mem_range.mp hk)]

theorem round_eq (crcs : List Crc) (words : List (Word braids)) :
    round (tables braids) crcs words
      = List.zipWith (fun crc word => advance poly (braids.n - 1) (word ^^^ crc.setWidth _))
          crcs words := by
  simp only [round, braidWord_eq, BitVec.xor_comm]

theorem combine_eq {crcs : List Crc} {words : List (Word braids)} (h : crcs.length = words.length) :
    combine (tables braids) crcs words = pending poly crcs words := by
  rw [pending_last poly (by decide) (width_le braids) h, combine]
  simp only [crcWord_eq]

/-- As many rounds as there are blocks but one. -/
theorem braidLoop_eq {rounds : Nat} {crcs : List Crc} {words : List (Word braids)}
    (hcrcs : crcs.length = braids.n) (hwords : words.length = (rounds + 1) * braids.n) :
    braidLoop (tables braids) rounds crcs words = pending poly crcs words := by
  induction rounds generalizing crcs words with
  | zero =>
      rw [Nat.zero_add, Nat.one_mul] at hwords
      rw [braidLoop, ← hwords, List.take_length, combine_eq (hcrcs.trans hwords.symm)]
  | succ rounds ih =>
      rw [Nat.succ_mul] at hwords
      have hblock : crcs.length = (words.take braids.n).length := by
        rw [List.length_take, hcrcs]
        omega
      have hrest : (words.drop braids.n).length = (rounds + 1) * braids.n := by
        rw [List.length_drop]
        omega
      have hround : (round (tables braids) crcs (words.take braids.n)).length = braids.n := by
        rw [round_eq, List.length_zipWith, ← hblock, Nat.min_self, hcrcs]
      have hmore : braids.n ≤ (rounds + 1) * braids.n := Nat.le_mul_of_pos_left _ (Nat.succ_pos rounds)
      have hn := braids.n_mem.1
      have hrounds : crcs.length + ([] : List Crc).length ≤ (words.drop braids.n).length := by
        rw [hrest, List.length_nil, hcrcs]
        omega
      have hothers : crcs.length + ([] : List Crc).length = braids.n - 1 + 1 := by
        rw [List.length_nil, hcrcs]
        omega
      have hturn := pending_round poly (by decide) (width_le braids) hblock hrounds hothers
      rw [List.append_nil, List.nil_append, List.take_append_drop, ← round_eq] at hturn
      rw [braidLoop, ih hround hrest, hturn]

/-! ### The whole buffer -/

theorem map_testBit_leValue (bytes : Bytes) :
    (List.range (8 * bytes.length)).map (leValue bytes).testBit = bitsOfBytes bytes := by
  induction bytes with
  | nil => rfl
  | cons byte bytes ih =>
      have hvalue (i : Nat) : (leValue (byte :: bytes)).testBit i
          = if i < 8 then byte.toNat.testBit i else (leValue bytes).testBit (i - 8) := by
        rw [leValue, Nat.add_comm]
        exact Nat.testBit_two_pow_mul_add (i := 8) _ byte.toNat_lt i
      have hbyte : (List.range 8).map (leValue (byte :: bytes)).testBit = bitsOf byte.toBitVec := by
        refine List.map_congr_left fun i hi => ?_
        rw [hvalue, if_pos (List.mem_range.mp hi)]
        rfl
      have hrest : (List.range (8 * bytes.length)).map
          ((leValue (byte :: bytes)).testBit ∘ (8 + ·)) = bitsOfBytes bytes := by
        rw [← ih]
        refine List.map_congr_left fun i _ => ?_
        rw [Function.comp_apply, hvalue, if_neg (by omega), Nat.add_sub_cancel_left]
      rw [List.length_cons, Nat.mul_succ, Nat.add_comm, List.range_add, List.map_append,
        List.map_map, hbyte, hrest]
      rfl

theorem bitsOf_loadWord {bytes : Bytes} (h : bytes.length = braids.w) :
    bitsOf (loadWord braids bytes) = bitsOfBytes bytes := by
  rw [← map_testBit_leValue, h, bitsOf]
  refine List.map_congr_left fun i hi => ?_
  rw [loadWord, BitVec.getLsbD_ofNat, decide_eq_true (List.mem_range.mp hi), Bool.true_and]

theorem bitsOf_loadWords {count : Nat} {bytes : Bytes} (h : count * braids.w ≤ bytes.length) :
    (loadWords braids count bytes).flatMap bitsOf = bitsOfBytes (bytes.take (count * braids.w)) := by
  induction count generalizing bytes with
  | zero => simp [loadWords, bitsOfBytes]
  | succ count ih =>
      rw [Nat.succ_mul] at h
      have hfirst : (bytes.take braids.w).length = braids.w := by
        rw [List.length_take]
        omega
      rw [loadWords, List.flatMap_cons, bitsOf_loadWord hfirst,
        ih (by rw [List.length_drop]; omega), ← bitsOfBytes_append, Nat.succ_mul, Nat.add_comm,
        List.take_add]

theorem length_loadWords (braids : Braids) (count : Nat) (bytes : Bytes) :
    (loadWords braids count bytes).length = count := by
  induction count generalizing bytes with
  | zero => rfl
  | succ count ih => rw [loadWords, List.length_cons, ih]

theorem and_sub_one (address : Nat) (braids : Braids) :
    address &&& (braids.w - 1) = address % braids.w := by
  rcases braids.w_mem with hw | hw
  · rw [hw]
    exact Nat.and_two_pow_sub_one_eq_mod address 2
  · rw [hw]
    exact Nat.and_two_pow_sub_one_eq_mod address 3

/-- The bytes before the word boundary are fewer than a word. -/
theorem align_eq (braids : Braids) (crc : Crc) (address : Nat) (buf : Bytes) :
    ∃ front back, buf = front ++ back ∧ front.length ≤ (braids.w - address % braids.w) % braids.w
      ∧ align (tables braids) braids crc address buf
        = (absorb poly crc (bitsOfBytes front), back) := by
  induction buf generalizing crc address with
  | nil => exact ⟨[], [], rfl, Nat.zero_le _, rfl⟩
  | cons byte buf ih =>
      rw [align, and_sub_one]
      split
      · next hoff =>
          obtain ⟨front, back, hbuf, hlength, halign⟩ :=
            ih (byteStep (tables braids) crc byte) (address + 1)
          refine ⟨byte :: front, back, by rw [hbuf]; rfl, ?_, ?_⟩
          · rw [List.length_cons]
            rcases braids.w_mem with hw | hw <;> rw [hw] at hlength hoff ⊢ <;> omega
          · rw [halign, byteStep_eq, ← absorb_append]
            rfl
      · exact ⟨[], byte :: buf, rfl, Nat.zero_le _, rfl⟩

/-- The path over the words, for the bytes it takes. -/
theorem braided_eq (crc : Crc) {buf : Bytes} (h : braids.n * braids.w ≤ buf.length) :
    let blks := buf.length / (braids.n * braids.w)
    braidLoop (tables braids) (blks - 1) (crc :: List.replicate (braids.n - 1) 0#32)
        (loadWords braids (blks * braids.n) buf)
      = absorb poly crc (bitsOfBytes (buf.take (blks * braids.n * braids.w))) := by
  intro blks
  have hn := braids.n_mem.1
  have hw : 0 < braids.w := by
    have hmem := braids.w_mem
    omega
  have hblks : 0 < blks := Nat.div_pos h (Nat.mul_pos hn hw)
  have hcount : (loadWords braids (blks * braids.n) buf).length = (blks - 1 + 1) * braids.n := by
    rw [length_loadWords, Nat.sub_add_cancel hblks]
  have hcrcs : (crc :: List.replicate (braids.n - 1) 0#32).length = braids.n := by
    rw [List.length_cons, List.length_replicate, Nat.sub_add_cancel hn]
  have hfits : blks * braids.n * braids.w ≤ buf.length := by
    rw [Nat.mul_assoc]
    exact Nat.div_mul_le_self ..
  rw [braidLoop_eq hcrcs hcount, ← bitsOf_loadWords hfits]
  obtain ⟨word, words, hwords⟩ : ∃ word words, loadWords braids (blks * braids.n) buf = word :: words :=
    List.exists_cons_of_length_pos (by rw [length_loadWords]; exact Nat.mul_pos hblks hn)
  rw [hwords, pending_register poly crc _ word words (by decide) (width_le braids)]

/-- The register from bit to bit, whatever the address, the braids and the length. -/
theorem crc32z_eq (braids : Braids) (crc : Crc) {address : Nat} (haddress : address ≠ 0)
    (buf : Bytes) :
    crc32z (tables braids) braids crc address buf = ~~~ absorb poly (~~~crc) (bitsOfBytes buf) := by
  have hflip (x : Crc) : x ^^^ 0xffffffff#32 = ~~~x := BitVec.xor_allOnes
  rw [crc32z, if_neg haddress]
  simp only [hflip, foldl_byteStep]
  split
  · next henough =>
      obtain ⟨front, back, rfl, hlength, halign⟩ := align_eq braids (~~~crc) address buf
      have hblock : braids.n * braids.w ≤ back.length := by
        have hmod := Nat.mod_lt (braids.w - address % braids.w) (show 0 < braids.w by
          have hmem := braids.w_mem
          omega)
        rw [List.length_append] at henough
        omega
      simp only [halign]
      rw [braided_eq _ hblock, ← absorb_append, ← absorb_append, ← bitsOfBytes_append,
        List.take_append_drop, ← bitsOfBytes_append]
  · rfl

/-- Filling the tables ends, and with them the bytes leave the register that their bits leave one by one,
in whatever pieces they come, wherever the pieces lie and however many braids there are. -/
theorem crc32_pieces (braids : Braids) (crc : Crc) {pieces : List (Nat × Bytes)}
    (haddress : ∀ piece ∈ pieces, piece.1 ≠ 0) :
    ∃ tables, makeCrcTable braids = some tables
      ∧ pieces.foldl (fun crc piece => crc32z tables braids crc piece.1 piece.2) crc
        = ~~~ absorb poly (~~~crc) (bitsOfBytes (pieces.flatMap (·.2))) := by
  refine ⟨tables braids, makeCrcTable_eq braids, ?_⟩
  induction pieces generalizing crc with
  | nil => exact (BitVec.not_not (b := crc)).symm
  | cons piece pieces ih =>
      have hfirst := haddress piece (List.mem_cons_self ..)
      rw [List.foldl_cons, crc32z_eq braids crc hfirst,
        ih _ fun other hother => haddress other (List.mem_cons_of_mem _ hother), BitVec.not_not,
        ← absorb_append, ← bitsOfBytes_append, List.flatMap_cons]

theorem crc32_pieces_unaligned :
    ∃ tables, makeCrcTable ⟨5, 8, by decide, by decide⟩ = some tables
      ∧ [(1003, List.replicate 100 7), (4096, [1, 2, 3])].foldl
          (fun crc piece => crc32z tables ⟨5, 8, by decide, by decide⟩ crc piece.1 piece.2) 0#32
        = ~~~ absorb poly (~~~0#32)
          (bitsOfBytes ([(1003, List.replicate 100 7), (4096, [1, 2, 3])].flatMap (·.2))) :=
  crc32_pieces _ 0#32 (by decide)

/-! ### The checksum of a build -/

/-- What every path computes of a buffer. -/
def checksum (data : Bytes) : UInt32 :=
  UInt32.ofBitVec (~~~ absorb poly (BitVec.allOnes 32) (bitsOfBytes data))

theorem crc32_of_links {platform : Platform} (h : platform.LinksCrc32) (data : Bytes) :
    platform.crc32 data = checksum data := by
  obtain ⟨braids, made, address, hmade, hnull, hcrc⟩ := h data
  obtain rfl : tables braids = made := Option.some.inj ((makeCrcTable_eq braids).symm.trans hmade)
  rw [hcrc, checksum]
  by_cases haddress : address = 0
  · rw [hnull haddress, haddress]
    rfl
  · rw [crc32z_eq braids 0#32 haddress, BitVec.not_zero]

theorem toBitVec_crc32Byte (crc : UInt32) (byte : UInt8) :
    (Platform.crc32Byte crc byte).toBitVec = absorb poly crc.toBitVec (bitsOf byte.toBitVec) := by
  have hstep (x : UInt32) :
      (if x &&& 1 = 1 then (x >>> 1) ^^^ 0xEDB88320 else x >>> 1).toBitVec = shift poly x.toBitVec := by
    have hlow : x &&& 1 = 1 ↔ x.toBitVec.getLsbD 0 = true := by
      rw [← UInt32.toBitVec_inj, UInt32.toBitVec_and, show (1 : UInt32).toBitVec = 1#32 from rfl,
        BitVec.and_one_eq_setWidth_ofBool_getLsbD]
      cases x.toBitVec.getLsbD 0 <;> decide
    rw [shift]
    simp only [hlow]
    split
    · rw [UInt32.toBitVec_xor, UInt32.toBitVec_shiftRight]
      rfl
    · rw [UInt32.toBitVec_shiftRight]
      rfl
  have hrun (n : Nat) (x : UInt32) :
      ((List.range n).foldl
          (fun (x : UInt32) _ => if x &&& 1 = 1 then (x >>> 1) ^^^ 0xEDB88320 else x >>> 1)
          x).toBitVec = (shift poly)^[n] x.toBitVec := by
    induction n with
    | zero => rfl
    | succ n ih =>
        rw [List.range_succ, List.foldl_append, List.foldl_cons, List.foldl_nil, hstep, ih,
          Function.iterate_succ_apply']
  rw [Platform.crc32Byte, hrun, absorb_bitsOf _ _ _ (by decide), UInt32.toBitVec_xor,
    UInt8.toBitVec_toUInt32]

theorem links_reference : Platform.reference.LinksCrc32 := by
  have hfold (crc : UInt32) (data : Bytes) :
      (data.foldl Platform.crc32Byte crc).toBitVec
        = absorb poly crc.toBitVec (bitsOfBytes data) := by
    induction data generalizing crc with
    | nil => rfl
    | cons byte data ih =>
        rw [List.foldl_cons, ih, toBitVec_crc32Byte, ← absorb_append]
        rfl
  intro data
  refine ⟨⟨5, 8, by decide, by decide⟩, _, 1, makeCrcTable_eq _, by simp, ?_⟩
  rw [crc32z_eq _ _ (by decide), BitVec.not_zero, ← UInt32.toBitVec_inj]
  change ((data.foldl Platform.crc32Byte 0xFFFFFFFF) ^^^ 0xFFFFFFFF).toBitVec = _
  rw [UInt32.toBitVec_xor, hfold]
  exact BitVec.xor_allOnes

/-- Damage of up to four bytes in a row, or of 32 bits, changes the checksum. -/
theorem checksum_ne_of_burst {data damaged : Bytes}
    (h : Burst 32 (bitsOfBytes data) (bitsOfBytes damaged)) : checksum data ≠ checksum damaged := by
  intro heq
  have hbits := congrArg UInt32.toBitVec heq
  simp only [checksum, BitVec.not_inj] at hbits
  exact absorb_ne_of_burst (by decide) _ h hbits

end Crc32

end NebulaFS
