import Clover.Lib.Run

/-!
# Loops over finitely many keys

A loop whose state has a key that alone decides whether there is another pass, and what the key is
then. If there are finitely many keys the loop is left exactly if no key comes back.
-/

namespace Clover.Lib.Run

variable {σ ρ κ : Type}

/-- The key after `n` passes, if there are as many. -/
def keyAfter (next : κ → Option κ) (n : Nat) (k : Option κ) : Option κ := (· >>= next)^[n] k

theorem keyAfter_none (next : κ → Option κ) (n : Nat) : keyAfter next n none = none :=
  Function.iterate_fixed rfl n

theorem keyAfter_add (next : κ → Option κ) (m n : Nat) (k : Option κ) :
    keyAfter next (m + n) k = keyAfter next m (keyAfter next n k) :=
  Function.iterate_add_apply _ m n k

theorem keyAfter_ne_none {next : κ → Option κ} {k : Option κ} {i j : Nat} (hij : i < j)
    (hback : keyAfter next i k = keyAfter next j k) (hsome : keyAfter next i k ≠ none) (n : Nat) :
    keyAfter next n k ≠ none := by
  intro hnone
  have hperiod : Function.IsPeriodicPt (· >>= next) (j - i) (keyAfter next i k) := by
    have hadd := keyAfter_add next (j - i) i k
    rw [Nat.sub_add_cancel (Nat.le_of_lt hij)] at hadd
    exact hadd.symm.trans hback.symm
  have hlater : keyAfter next (n * (j - i)) (keyAfter next i k) = keyAfter next i k :=
    hperiod.const_mul n
  have hle : n ≤ n * (j - i) + i := by
    have hmul := Nat.mul_le_mul_left n (show 1 ≤ j - i by omega)
    omega
  apply hsome
  rw [← hlater, ← keyAfter_add, ← Nat.sub_add_cancel hle, keyAfter_add, hnone, keyAfter_none]

/-- The key of a state decides what the pass does. -/
def Keyed (body : σ → Run (Pass σ ρ)) (key : σ → κ) (next : κ → Option κ) : Prop :=
  ∀ s, (∃ t, body s = .ok (.again t) ∧ next (key s) = some (key t)) ∨
    (∃ r, body s = .ok (.leave r)) ∧ next (key s) = none

variable {body : σ → Run (Pass σ ρ)} {key : σ → κ} {next : κ → Option κ}

/-- The loop is left once there is no key any more. -/
theorem exists_leaves_iff (h : Keyed body key next) (s : σ) :
    (∃ r, Leaves body s r) ↔ ∃ n, keyAfter next n (some (key s)) = none := by
  constructor
  · rintro ⟨r, fuel, hr⟩
    refine ⟨fuel, ?_⟩
    induction fuel generalizing s with
    | zero => cases hr
    | succ fuel ih =>
      rcases h s with ⟨t, ht, hnext⟩ | ⟨-, hnext⟩
      · rw [loop_again ht] at hr
        rw [keyAfter_add, ← ih t hr, ← hnext]
        rfl
      · rw [keyAfter_add, ← keyAfter_none next fuel, ← hnext]
        rfl
  · rintro ⟨n, hn⟩
    induction n generalizing s with
    | zero => cases hn
    | succ n ih =>
      rcases h s with ⟨t, ht, hnext⟩ | ⟨⟨r, hr⟩, -⟩
      · rw [keyAfter_add] at hn
        obtain ⟨r, hr⟩ := ih t (by rw [← hn, ← hnext]; rfl)
        exact ⟨r, (leaves_again ht r).mpr hr⟩
      · exact ⟨r, (leaves_leave hr r).mpr rfl⟩

/-- With finitely many keys the loop is left if and only if no key comes back. -/
theorem exists_leaves_iff_injective [Finite κ] (h : Keyed body key next) (s : σ) :
    (∃ r, Leaves body s r) ↔ ∀ i j, i < j → keyAfter next i (some (key s)) ≠ none →
      keyAfter next i (some (key s)) ≠ keyAfter next j (some (key s)) := by
  rw [exists_leaves_iff h]
  constructor
  · rintro ⟨n, hn⟩ i j hij hsome hback
    exact keyAfter_ne_none hij hback hsome n hn
  · intro hall
    by_contra hcon
    have hsome : ∀ n, keyAfter next n (some (key s)) ≠ none := not_exists.mp hcon
    apply not_injective_infinite_finite fun n => keyAfter next n (some (key s))
    intro i j hij
    by_contra hne
    rcases lt_or_gt_of_ne hne with hlt | hlt
    · exact hall i j hlt (hsome i) hij
    · exact hall j i hlt (hsome j) hij.symm

end Clover.Lib.Run
