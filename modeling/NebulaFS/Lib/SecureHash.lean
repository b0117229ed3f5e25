import Mathlib.Analysis.SpecialFunctions.Pow.NthRootLemmas
import Mathlib.Data.Nat.Prime.Defs
import NebulaFS.Lib.LittleEndian
import NebulaFS.Lib.MerkleDamgard

/-!
# SHA-256 from its definition

The hash as its definition has it, with no program in view: functions on words of 32 bits, constants
from the roots of the first primes, a schedule that is a recurrence, sixty-four rounds, and the blocks
of the padded message compressed in order. The length is counted in bits and modulo `2 ^ 64`, so that a
message of fewer than `2 ^ 61` bytes keeps its own.
-/

namespace SecureHash

open LittleEndian

abbrev Word := BitVec 32

/-! ### Functions on words -/

/-- Each bit of `x` chooses between those of `y` and `z`. -/
def choose (x y z : Word) : Word := (x &&& y) ^^^ (~~~x &&& z)

def majority (x y z : Word) : Word := (x &&& y) ^^^ (x &&& z) ^^^ (y &&& z)

def bigSigma0 (x : Word) : Word := x.rotateRight 2 ^^^ x.rotateRight 13 ^^^ x.rotateRight 22

def bigSigma1 (x : Word) : Word := x.rotateRight 6 ^^^ x.rotateRight 11 ^^^ x.rotateRight 25

def smallSigma0 (x : Word) : Word := x.rotateRight 7 ^^^ x.rotateRight 18 ^^^ x >>> 3

def smallSigma1 (x : Word) : Word := x.rotateRight 17 ^^^ x.rotateRight 19 ^^^ x >>> 10

/-! ### The constants -/

/-- The first 32 bits of the fractional part of the `n`-th root of `p`. -/
def rootBits (n p : Nat) : Word := BitVec.ofNat 32 (Nat.nthRoot n (p * 2 ^ (32 * n)))

/-- The first sixty-four primes. -/
def primes : List Nat := (List.range 312).filter fun n => n.Prime

/-- The constant of a round. -/
def constant (t : Nat) : Word := rootBits 3 (primes.getD t 0)

/-- The eight words of a hash value, which are also the working variables. -/
structure Words where
  a : Word
  b : Word
  c : Word
  d : Word
  e : Word
  f : Word
  g : Word
  h : Word

def initial : Words :=
  { a := rootBits 2 2, b := rootBits 2 3, c := rootBits 2 5, d := rootBits 2 7
    e := rootBits 2 11, f := rootBits 2 13, g := rootBits 2 17, h := rootBits 2 19 }

/-! ### Compression -/

/-- The word at a place of a block, high byte first. -/
def word (block : List UInt8) (t : Nat) : Word :=
  (block.getD (4 * t) 0).toBitVec ++ (block.getD (4 * t + 1) 0).toBitVec
    ++ (block.getD (4 * t + 2) 0).toBitVec ++ (block.getD (4 * t + 3) 0).toBitVec

/-- The message schedule. -/
def schedule (block : List UInt8) (t : Nat) : Word :=
  if t < 16 then word block t
  else smallSigma1 (schedule block (t - 2)) + schedule block (t - 7)
    + smallSigma0 (schedule block (t - 15)) + schedule block (t - 16)
termination_by t
decreasing_by all_goals omega

def round (block : List UInt8) (v : Words) (t : Nat) : Words :=
  let t1 := v.h + bigSigma1 v.e + choose v.e v.f v.g + constant t + schedule block t
  let t2 := bigSigma0 v.a + majority v.a v.b v.c
  { a := t1 + t2, b := v.a, c := v.b, d := v.c, e := v.d + t1, f := v.e, g := v.f, h := v.g }

def compress (v : Words) (block : List UInt8) : Words :=
  let w := (List.range 64).foldl (round block) v
  { a := v.a + w.a, b := v.b + w.b, c := v.c + w.c, d := v.d + w.d
    e := v.e + w.e, f := v.f + w.f, g := v.g + w.g, h := v.h + w.h }

/-! ### The hash of a message -/

/-- The `n` bytes of a number, high byte first. -/
def bigEndian (n v : Nat) : List UInt8 := (leBytes n v).reverse

/-- A one bit, the zeros up to eight bytes before the end of a block, and the length in bits. -/
def padding (length : Nat) : List UInt8 :=
  0x80 :: List.replicate ((119 - length % 64) % 64) 0 ++ bigEndian 8 (8 * length % 2 ^ 64)

def Words.bytes (v : Words) : List UInt8 :=
  [v.a, v.b, v.c, v.d, v.e, v.f, v.g, v.h].flatMap fun word => bigEndian 4 word.toNat

def messageBlocks (message : List UInt8) : List (List UInt8) :=
  Cutting.blocks 64 (message ++ padding message.length)

def hash (message : List UInt8) : List UInt8 :=
  (MerkleDamgard.chain compress initial (messageBlocks message)).bytes

/-! ### What an implementation rests on -/

theorem primes_eq : primes =
    [2, 3, 5, 7, 11, 13, 17, 19, 23, 29, 31, 37, 41, 43, 47, 53, 59, 61, 67, 71, 73, 79, 83, 89, 97,
      101, 103, 107, 109, 113, 127, 131, 137, 139, 149, 151, 157, 163, 167, 173, 179, 181, 191, 193,
      197, 199, 211, 223, 227, 229, 233, 239, 241, 251, 257, 263, 269, 271, 277, 281, 283, 293, 307,
      311] := by
  -- trial division up to the root of 312, which is cheaper to evaluate than `Nat.Prime`
  have htrial : ∀ n ∈ List.range 312, decide n.Prime
      = (2 ≤ n && (List.range' 2 16).all fun m => n ≤ m || n % m != 0) := by
    intro n hn
    rw [Bool.eq_iff_iff]
    simp only [decide_eq_true_eq, Bool.and_eq_true, List.all_eq_true, List.mem_range'_1,
      Bool.or_eq_true, bne_iff_ne, ne_eq]
    constructor
    · intro hprime
      refine ⟨hprime.two_le, fun m hm => or_iff_not_imp_left.mpr fun hlt hmod => ?_⟩
      have hdvd := (Nat.dvd_prime hprime).mp (Nat.dvd_of_mod_eq_zero hmod)
      omega
    · rintro ⟨htwo, htrial⟩
      by_contra hprime
      have hsq := Nat.minFac_sq_le_self (by omega) hprime
      have hlt : n.minFac < n := (Nat.not_prime_iff_minFac_lt htwo).mp hprime
      have hsmall : n.minFac < 18 := by
        rw [List.mem_range] at hn
        nlinarith
      rcases htrial n.minFac ⟨(Nat.minFac_prime (by omega)).two_le, hsmall⟩ with hle | hmod
      · omega
      · exact hmod (Nat.mod_eq_zero_of_dvd n.minFac_dvd)
  rw [primes, List.filter_congr htrial]
  decide +kernel

/-- The root lies between two whole numbers of `2 ^ -32`. -/
theorem rootBits_eq {n p whole : Nat} {bits : Word}
    (hle : (whole * 2 ^ 32 + bits.toNat) ^ n ≤ p * 2 ^ (32 * n))
    (hlt : p * 2 ^ (32 * n) < (whole * 2 ^ 32 + bits.toNat + 1) ^ n) : rootBits n p = bits := by
  rw [rootBits, Nat.nthRoot_eq_of_le_of_lt hle hlt]
  apply BitVec.eq_of_toNat_eq
  rw [BitVec.toNat_ofNat, Nat.mul_comm, Nat.mul_add_mod, Nat.mod_eq_of_lt bits.isLt]

theorem schedule_of_lt (block : List UInt8) {t : Nat} (ht : t < 16) :
    schedule block t = word block t := by
  rw [schedule, if_pos ht]

theorem schedule_of_le (block : List UInt8) {t : Nat} (ht : 16 ≤ t) :
    schedule block t = smallSigma1 (schedule block (t - 2)) + schedule block (t - 7)
      + smallSigma0 (schedule block (t - 15)) + schedule block (t - 16) := by
  rw [schedule, if_neg (Nat.not_lt.mpr ht)]

@[simp]
theorem length_bigEndian (n v : Nat) : (bigEndian n v).length = n := by
  rw [bigEndian, List.length_reverse, length_leBytes]

theorem Words.length_bytes (v : Words) : v.bytes.length = 32 := by
  simp [Words.bytes]

theorem flatten_messageBlocks (message : List UInt8) :
    (messageBlocks message).flatten = message ++ padding message.length :=
  Cutting.flatten_blocks (by decide) _

theorem length_hash (message : List UInt8) : (hash message).length = 32 :=
  Words.length_bytes _

end SecureHash
