import Mathlib

/-!
# Runs of a state machine

A run applies a step function to a list of inputs, one after the other. The rules here take a fact
about one step to all runs.
-/

namespace Clover.Lib

variable {σ α : Type} {step : σ → α → σ} {I : σ → Prop}

theorem foldl_invariant (hstep : ∀ s a, I s → I (step s a)) (as : List α) {s : σ} (hs : I s) :
    I (as.foldl step s) := by
  induction as generalizing s with
  | nil => exact hs
  | cons a as ih => exact ih (hstep s a hs)

/-- If `ok` tells the steps that keep the invariant from those that do not, then a run stays within
the invariant exactly if all its steps are ones that do. -/
theorem forall_take_iff {ok : σ → α → Prop} (hstep : ∀ s a, I s → (I (step s a) ↔ ok s a))
    (as : List α) {s : σ} (hs : I s) :
    (∀ n, I ((as.take n).foldl step s)) ↔
      ∀ n (h : n < as.length), ok ((as.take n).foldl step s) as[n] := by
  have hsucc : ∀ n (h : n < as.length),
      (as.take (n + 1)).foldl step s = step ((as.take n).foldl step s) as[n] := by
    intro n h
    rw [List.take_succ_eq_append_getElem h, List.foldl_append]
    rfl
  constructor
  · intro hall n h
    have hnext := hall (n + 1)
    rw [hsucc n h] at hnext
    exact (hstep _ _ (hall n)).mp hnext
  · intro hok n
    induction n with
    | zero => exact hs
    | succ n ih =>
      by_cases h : n < as.length
      · rw [hsucc n h]
        exact (hstep _ _ ih).mpr (hok n h)
      · rw [List.take_of_length_le (by omega)]
        rwa [List.take_of_length_le (Nat.le_of_not_lt h)] at ih

end Clover.Lib
