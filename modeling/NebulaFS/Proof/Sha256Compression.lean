import NebulaFS.Lib.SecureHash
import NebulaFS.Sha256

/-!
# The compression function of the built-in SHA-256

`sha256_transform` is the compression function of the hash, and its tables are the constants the hash
is defined with. Its words are read as bit vectors (`State.words`); the shifts of `ROTRIGHT` are then
rotations, and the array `m` holds the message schedule.
-/

namespace NebulaFS

namespace Sha256

/-- The eight words, as the definition of the hash has them. -/
def State.words (s : State) : SecureHash.Words :=
  { a := s.a.toBitVec, b := s.b.toBitVec, c := s.c.toBitVec, d := s.d.toBitVec
    e := s.e.toBitVec, f := s.f.toBitVec, g := s.g.toBitVec, h := s.h.toBitVec }

/-! ### Functions on words -/

theorem toBitVec_rotRight (x n : UInt32) (hpos : 0 < n.toNat) (hlt : n.toNat < 32) :
    (rotRight x n).toBitVec = x.toBitVec.rotateRight n.toNat := by
  have hle : n ≤ 32 := UInt32.le_iff_toNat_le.mpr hlt.le
  have hleft : (32 - n).toNat = 32 - n.toNat := UInt32.toNat_sub_of_le _ _ hle
  apply BitVec.eq_of_toNat_eq
  rw [BitVec.rotateRight_def, BitVec.toNat_or, BitVec.toNat_ushiftRight, BitVec.toNat_shiftLeft,
    Nat.mod_eq_of_lt hlt]
  rw [rotRight, UInt32.toNat_toBitVec, UInt32.toNat_or, UInt32.toNat_shiftRight,
    UInt32.toNat_shiftLeft, hleft, Nat.mod_eq_of_lt hlt,
    Nat.mod_eq_of_lt (Nat.sub_lt (by decide) hpos), UInt32.toNat_toBitVec]

theorem toBitVec_ch (x y z : UInt32) :
    (ch x y z).toBitVec = SecureHash.choose x.toBitVec y.toBitVec z.toBitVec := rfl

theorem toBitVec_maj (x y z : UInt32) :
    (maj x y z).toBitVec = SecureHash.majority x.toBitVec y.toBitVec z.toBitVec := rfl

theorem toBitVec_ep0 (x : UInt32) : (ep0 x).toBitVec = SecureHash.bigSigma0 x.toBitVec := by
  rw [ep0, UInt32.toBitVec_xor, UInt32.toBitVec_xor, toBitVec_rotRight x 2 (by decide) (by decide),
    toBitVec_rotRight x 13 (by decide) (by decide), toBitVec_rotRight x 22 (by decide) (by decide)]
  rfl

theorem toBitVec_ep1 (x : UInt32) : (ep1 x).toBitVec = SecureHash.bigSigma1 x.toBitVec := by
  rw [ep1, UInt32.toBitVec_xor, UInt32.toBitVec_xor, toBitVec_rotRight x 6 (by decide) (by decide),
    toBitVec_rotRight x 11 (by decide) (by decide), toBitVec_rotRight x 25 (by decide) (by decide)]
  rfl

theorem toBitVec_sig0 (x : UInt32) : (sig0 x).toBitVec = SecureHash.smallSigma0 x.toBitVec := by
  rw [sig0, UInt32.toBitVec_xor, UInt32.toBitVec_xor, toBitVec_rotRight x 7 (by decide) (by decide),
    toBitVec_rotRight x 18 (by decide) (by decide)]
  rfl

theorem toBitVec_sig1 (x : UInt32) : (sig1 x).toBitVec = SecureHash.smallSigma1 x.toBitVec := by
  rw [sig1, UInt32.toBitVec_xor, UInt32.toBitVec_xor, toBitVec_rotRight x 17 (by decide) (by decide),
    toBitVec_rotRight x 19 (by decide) (by decide)]
  rfl

/-! ### The tables -/

theorem k_eq : k = (List.range 64).map fun t => UInt32.ofBitVec (SecureHash.constant t) := by
  have hroots : ∀ t ∈ List.range 64, ∃ whole ∈ List.range 7,
      (whole * 2 ^ 32 + (k.getD t 0).toNat) ^ 3 ≤ SecureHash.primes.getD t 0 * 2 ^ (32 * 3)
        ∧ SecureHash.primes.getD t 0 * 2 ^ (32 * 3) < (whole * 2 ^ 32 + (k.getD t 0).toNat + 1) ^ 3 := by
    rw [SecureHash.primes_eq]
    decide +kernel
  have hk : k = (List.range 64).map fun t => k.getD t 0 := rfl
  rw [hk]
  refine List.map_congr_left fun t ht => ?_
  obtain ⟨whole, -, hle, hlt⟩ := hroots t ht
  have hroot : SecureHash.constant t = (k.getD t 0).toBitVec := SecureHash.rootBits_eq hle hlt
  rw [hroot]

theorem words_init : init.state.words = SecureHash.initial := by
  rw [State.words, SecureHash.initial, SecureHash.Words.mk.injEq]
  decide +kernel

/-! ### The schedule -/

/-- Bytes that are shifted to their places and joined are the bytes behind one another. -/
theorem shifted_or_eq_append (high second third low : BitVec 8) :
    high.setWidth 32 <<< 24 ||| second.setWidth 32 <<< 16 ||| third.setWidth 32 <<< 8
        ||| low.setWidth 32
      = high ++ second ++ third ++ low := by
  apply BitVec.eq_of_getLsbD_eq
  intro i hi
  have hout : ∀ (byte : BitVec 8) {j : Nat}, 8 ≤ j → byte.getLsbD j = false := fun byte _ hj =>
    BitVec.getLsbD_of_ge byte _ hj
  simp only [BitVec.getLsbD_append, BitVec.getLsbD_or, BitVec.getLsbD_shiftLeft,
    BitVec.getLsbD_setWidth, Nat.sub_sub]
  by_cases hlow : i < 8
  · simp [hlow, hi, show i < 16 by omega, show i < 24 by omega]
  by_cases hthird : i < 16
  · simp [hlow, hi, hthird, hout low (Nat.not_lt.mp hlow), show i < 24 by omega,
      show i - 8 < 32 by omega, show i - 8 < 8 by omega]
  by_cases hsecond : i < 24
  · simp [hlow, hi, hthird, hsecond, hout low (Nat.not_lt.mp hlow),
      hout third (show 8 ≤ i - 8 by omega), show i - 16 < 32 by omega, show ¬ i - 8 < 8 by omega,
      show i - 16 < 8 by omega]
  · simp [hlow, hi, hthird, hsecond, hout low (Nat.not_lt.mp hlow),
      hout third (show 8 ≤ i - 8 by omega), hout second (show 8 ≤ i - 16 by omega),
      show i - 24 < 32 by omega, show ¬ i - 8 < 8 by omega, show ¬ i - 16 < 8 by omega]

theorem toBitVec_word (data : Bytes) (t : Nat) :
    (word data (4 * t)).toBitVec = SecureHash.word data t :=
  shifted_or_eq_append _ _ _ _

/-- The words that the loop has filled in are those of the schedule. -/
theorem schedule_prefix (data : Bytes) (n : Nat) :
    (List.range' 16 n).foldl
        (fun m i =>
          m ++ [sig1 (m.getD (i - 2) 0) + m.getD (i - 7) 0 + sig0 (m.getD (i - 15) 0)
            + m.getD (i - 16) 0])
        ((List.range 16).map fun i => word data (4 * i))
      = (List.range (16 + n)).map fun t => UInt32.ofBitVec (SecureHash.schedule data t) := by
  induction n with
  | zero =>
      refine List.map_congr_left fun t ht => UInt32.toBitVec_inj.mp ?_
      rw [toBitVec_word, SecureHash.schedule_of_lt data (List.mem_range.mp ht)]
  | succ n ih =>
      have hbefore : ∀ t < 16 + n, ((List.range (16 + n)).map fun t =>
          UInt32.ofBitVec (SecureHash.schedule data t)).getD t 0
            = UInt32.ofBitVec (SecureHash.schedule data t) := by
        intro t ht
        simp [List.getD_eq_getElem?_getD, ht]
      rw [List.range'_1_concat, List.foldl_append, ih, List.foldl_cons, List.foldl_nil,
        hbefore _ (by omega), hbefore _ (by omega), hbefore _ (by omega), hbefore _ (by omega),
        ← Nat.add_assoc, List.range_succ, List.map_append, List.map_singleton,
        SecureHash.schedule_of_le data (Nat.le_add_right 16 n)]
      refine congrArg (_ ++ [·]) (UInt32.toBitVec_inj.mp ?_)
      rw [UInt32.toBitVec_add, UInt32.toBitVec_add, UInt32.toBitVec_add, toBitVec_sig0, toBitVec_sig1]

theorem schedule_eq (data : Bytes) :
    schedule data = (List.range 64).map fun t => UInt32.ofBitVec (SecureHash.schedule data t) :=
  schedule_prefix data 48

/-! ### Rounds and blocks -/

theorem words_round (s : State) (data : Bytes) (t : Nat) :
    (round s (UInt32.ofBitVec (SecureHash.constant t),
        UInt32.ofBitVec (SecureHash.schedule data t))).words
      = SecureHash.round data s.words t := by
  simp only [State.words, round, SecureHash.round, UInt32.toBitVec_add, toBitVec_ep0, toBitVec_ep1,
    toBitVec_ch, toBitVec_maj]

theorem words_transform (state : State) (data : Bytes) :
    (transform state data).words = SecureHash.compress state.words data := by
  have hrounds : ((k.zip (schedule data)).foldl round state).words
      = (List.range 64).foldl (SecureHash.round data) state.words := by
    rw [k_eq, schedule_eq, List.zip_map', List.foldl_map]
    exact (List.foldl_hom State.words fun s t => (words_round s data t).symm).symm
  rw [SecureHash.compress, ← hrounds]
  simp only [transform, State.words, UInt32.toBitVec_add]

theorem words_chain (state : State) (blocks : List Bytes) :
    (MerkleDamgard.chain transform state blocks).words
      = MerkleDamgard.chain SecureHash.compress state.words blocks :=
  (List.foldl_hom State.words fun state data => (words_transform state data).symm).symm

theorem stateBytes_eq (state : State) : stateBytes state = state.words.bytes := rfl

end Sha256
end NebulaFS
