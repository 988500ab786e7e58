import Mathlib

/-!
# Bit fields

Facts about numbers that are assembled from bit fields, or taken apart into them.
-/

namespace Clover.Lib

/-- Two bit fields that do not overlap: `or` is addition. -/
theorem mul_two_pow_or {a b k : Nat} (h : b < 2 ^ k) : a * 2 ^ k ||| b = a * 2 ^ k + b := by
  rw [Nat.mul_comm]
  exact (Nat.two_pow_add_eq_or_of_lt h a).symm

theorem or_mul_two_pow {a b k : Nat} (h : b < 2 ^ k) : b ||| a * 2 ^ k = b + a * 2 ^ k := by
  rw [Nat.or_comm, mul_two_pow_or h, Nat.add_comm]

theorem forall_byte {P : UInt8 → Prop} (h : ∀ b : Fin 256, P (UInt8.ofFin b)) (x : UInt8) :
    P x := by
  simpa using h x.toFin

end Clover.Lib
