import Mathlib

/-!
# Numbers in memory

A number of `n` bytes stands in memory from its lowest byte on.
-/

/-- The bytes of a text, or of a piece of memory. -/
abbrev Clover.Bytes := List UInt8

namespace Clover.Lib

/-- The `n` lowest bytes of a number, as they stand in memory. -/
def leBytes : Nat → Nat → Bytes
  | 0, _ => []
  | n + 1, v => UInt8.ofNat v :: leBytes n (v / 256)

/-- The number whose bytes these are. -/
def leValue : Bytes → Nat
  | [] => 0
  | b :: bs => b.toNat + 256 * leValue bs

@[simp]
theorem length_leBytes (n v : Nat) : (leBytes n v).length = n := by
  induction n generalizing v with
  | zero => rfl
  | succ n ih => rw [leBytes, List.length_cons, ih]

theorem leValue_leBytes (n v : Nat) : leValue (leBytes n v) = v % 2 ^ (8 * n) := by
  induction n generalizing v with
  | zero => rw [leBytes, leValue, Nat.mul_zero, Nat.pow_zero, Nat.mod_one]
  | succ n ih =>
    have hbyte : (UInt8.ofNat v).toNat = v % 2 ^ 8 := UInt8.toNat_ofNat'
    rw [leBytes, leValue, ih, hbyte, Nat.mul_succ, Nat.add_comm (8 * n), Nat.pow_add, Nat.mod_mul]

theorem leBytes_mod (n v : Nat) : leBytes n (v % 2 ^ (8 * n)) = leBytes n v := by
  induction n generalizing v with
  | zero => rfl
  | succ n ih =>
    have hpow : 2 ^ (8 * (n + 1)) = 2 ^ 8 * 2 ^ (8 * n) := by
      rw [Nat.mul_succ, Nat.add_comm, Nat.pow_add]
    have hbyte : UInt8.ofNat (v % 2 ^ (8 * (n + 1))) = UInt8.ofNat v := by
      apply UInt8.toNat.inj
      rw [UInt8.toNat_ofNat', UInt8.toNat_ofNat', hpow]
      exact Nat.mod_mul_right_mod v (2 ^ 8) (2 ^ (8 * n))
    have hrest : v % 2 ^ (8 * (n + 1)) / 256 = v / 256 % 2 ^ (8 * n) := by
      rw [hpow]
      exact Nat.mod_mul_right_div_self v (2 ^ 8) (2 ^ (8 * n))
    rw [leBytes, leBytes, hbyte, hrest, ih]

end Clover.Lib
