import Mathlib.Algebra.Order.Ring.Nat
import Mathlib.Tactic.Ring

/-!
# Fixed-width little-endian integers

`leBytes n v` is the `n` bytes of `v`, low byte first, which is what copying an integer out of memory
gives on a little-endian machine. Reading them back gives `v` modulo `256 ^ n`, so an integer of the
width that was copied comes back unchanged.
-/

namespace LittleEndian

def leBytes : Nat → Nat → List UInt8
  | 0, _ => []
  | n + 1, v => UInt8.ofNat v :: leBytes n (v / 256)

def leValue : List UInt8 → Nat
  | [] => 0
  | b :: rest => b.toNat + 256 * leValue rest

@[simp]
theorem length_leBytes (n v : Nat) : (leBytes n v).length = n := by
  induction n generalizing v with
  | zero => rfl
  | succ n ih => simp [leBytes, ih]

theorem leValue_leBytes (n v : Nat) : leValue (leBytes n v) = v % 256 ^ n := by
  induction n generalizing v with
  | zero => simp [leBytes, leValue, Nat.mod_one]
  | succ n ih =>
      rw [leBytes, leValue, ih, pow_succ, Nat.mul_comm (256 ^ n), Nat.mod_mul]
      simp

theorem leBytes_leValue (bytes : List UInt8) : leBytes bytes.length (leValue bytes) = bytes := by
  induction bytes with
  | nil => rfl
  | cons byte bytes ih =>
      have hbyte := byte.toNat_lt
      have hhead : UInt8.ofNat (leValue (byte :: bytes)) = byte := by
        rw [← UInt8.toNat_inj, UInt8.toNat_ofNat', leValue]
        omega
      have htail : leValue (byte :: bytes) / 256 = leValue bytes := by
        rw [leValue]
        omega
      rw [List.length_cons, leBytes, hhead, htail, ih]

theorem leValue_lt (bytes : List UInt8) : leValue bytes < 256 ^ bytes.length := by
  have hvalue := leValue_leBytes bytes.length (leValue bytes)
  rw [leBytes_leValue] at hvalue
  rw [hvalue]
  exact Nat.mod_lt _ (Nat.pow_pos (by decide))

theorem leValue_inj {bytes others : List UInt8} (hlength : bytes.length = others.length)
    (h : leValue bytes = leValue others) : bytes = others := by
  rw [← leBytes_leValue bytes, ← leBytes_leValue others, hlength, h]

@[simp]
theorem ofNat_leValue_leBytes_eight (v : UInt64) :
    UInt64.ofNat (leValue (leBytes 8 v.toNat)) = v := by
  rw [leValue_leBytes, Nat.mod_eq_of_lt (by simpa using v.toNat_lt), UInt64.ofNat_toNat]

@[simp]
theorem ofNat_leValue_leBytes_four (v : UInt32) :
    UInt32.ofNat (leValue (leBytes 4 v.toNat)) = v := by
  rw [leValue_leBytes, Nat.mod_eq_of_lt (by simpa using v.toNat_lt), UInt32.ofNat_toNat]

@[simp]
theorem ofNat_leValue_leBytes_two (v : UInt16) :
    UInt16.ofNat (leValue (leBytes 2 v.toNat)) = v := by
  rw [leValue_leBytes, Nat.mod_eq_of_lt (by simpa using v.toNat_lt), UInt16.ofNat_toNat]

end LittleEndian
