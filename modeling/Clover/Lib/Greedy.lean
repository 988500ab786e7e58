import Mathlib

/-!
# Occurrences taken greedily

Places are tried from the left. Where there is a hit it is taken, and the search goes on behind the
`len` places it covers. `greedy` is the list of the places that are taken, and `firstHit` is the
search for the first of them.
-/

namespace Clover.Lib

section Greedy

variable (hit : Nat → Bool) (len : Nat)

/-- The hits taken in the `n` places from `a` on, of which the first `k` are covered. -/
def greedyFrom : Nat → Nat → Nat → List Nat
  | 0, _, _ => []
  | n + 1, a, k + 1 => greedyFrom n (a + 1) k
  | n + 1, a, 0 =>
    if hit a then a :: greedyFrom n (a + 1) (len - 1) else greedyFrom n (a + 1) 0

/-- The hits taken in `[a, endp)`. -/
def greedy (endp a : Nat) : List Nat := greedyFrom hit len (endp - a) a 0

end Greedy

variable {hit : Nat → Bool} {len endp a : Nat}

theorem greedyFrom_covered (n a k : Nat) :
    greedyFrom hit len n a k = greedyFrom hit len (n - k) (a + k) 0 := by
  induction k generalizing n a with
  | zero => rfl
  | succ k ih =>
    cases n with
    | zero => rw [Nat.zero_sub, greedyFrom, greedyFrom]
    | succ n => rw [greedyFrom, ih, Nat.add_sub_add_right, Nat.add_right_comm, Nat.add_assoc]

theorem greedy_end (h : endp ≤ a) : greedy hit len endp a = [] := by
  rw [greedy, Nat.sub_eq_zero_of_le h, greedyFrom]

theorem greedy_miss (h : a < endp) (hmiss : hit a = false) :
    greedy hit len endp a = greedy hit len endp (a + 1) := by
  obtain ⟨n, hn⟩ : ∃ n, endp - a = n + 1 := ⟨endp - a - 1, by omega⟩
  have hn' : endp - (a + 1) = n := by omega
  rw [greedy, greedy, hn, hn', greedyFrom, hmiss]
  rfl

theorem greedy_hit (h : a < endp) (hlen : 0 < len) (hhit : hit a = true) :
    greedy hit len endp a = a :: greedy hit len endp (a + len) := by
  obtain ⟨n, hn⟩ : ∃ n, endp - a = n + 1 := ⟨endp - a - 1, by omega⟩
  have hn' : endp - (a + len) = n - (len - 1) := by omega
  have ha : a + 1 + (len - 1) = a + len := by omega
  rw [greedy, greedy, hn, hn', greedyFrom, hhit, if_pos rfl, greedyFrom_covered, ha]

theorem greedy_induction {P : Nat → Prop} (hit : Nat → Bool) (hlen : 0 < len) (endp : Nat)
    (done : ∀ a, endp ≤ a → P a)
    (miss : ∀ a, a < endp → hit a = false → P (a + 1) → P a)
    (taken : ∀ a, a < endp → hit a = true → P (a + len) → P a) : ∀ a, P a := by
  intro a
  induction hn : endp - a using Nat.strongRecOn generalizing a with
  | ind n ih =>
  subst hn
  rcases Nat.lt_or_ge a endp with hlt | hge
  · cases hhit : hit a with
    | false => exact miss a hlt hhit (ih _ (by omega) (a + 1) rfl)
    | true => exact taken a hlt hhit (ih _ (by omega) (a + len) rfl)
  · exact done a hge

theorem greedy_congr {hit' : Nat → Bool} (hlen : 0 < len) :
    ∀ a, (∀ x, a ≤ x → hit x = hit' x) → greedy hit len endp a = greedy hit' len endp a := by
  refine greedy_induction hit hlen endp ?_ ?_ ?_
  · intro a ha _
    rw [greedy_end ha, greedy_end ha]
  · intro a ha hmiss ih h
    rw [greedy_miss ha hmiss, greedy_miss ha ((h a (Nat.le_refl a)).symm.trans hmiss)]
    exact ih fun x hx => h x (by omega)
  · intro a ha hhit ih h
    rw [greedy_hit ha hlen hhit, greedy_hit ha hlen ((h a (Nat.le_refl a)).symm.trans hhit)]
    exact congrArg (a :: ·) (ih fun x hx => h x (by omega))

theorem mem_greedy (hlen : 0 < len) : ∀ a, ∀ x ∈ greedy hit len endp a,
    a ≤ x ∧ x < endp ∧ hit x = true := by
  refine greedy_induction hit hlen endp ?_ ?_ ?_
  · intro a ha x hx
    rw [greedy_end ha] at hx
    exact absurd hx List.not_mem_nil
  · intro a ha hmiss ih x hx
    rw [greedy_miss ha hmiss] at hx
    obtain ⟨hle, hrest⟩ := ih x hx
    exact ⟨Nat.le_of_succ_le hle, hrest⟩
  · intro a ha hhit ih x hx
    rw [greedy_hit ha hlen hhit, List.mem_cons] at hx
    rcases hx with rfl | hx
    · exact ⟨Nat.le_refl _, ha, hhit⟩
    · obtain ⟨hle, hrest⟩ := ih x hx
      exact ⟨by omega, hrest⟩

theorem pairwise_greedy (hlen : 0 < len) : ∀ a,
    (greedy hit len endp a).Pairwise fun x y => x + len ≤ y := by
  refine greedy_induction hit hlen endp ?_ ?_ ?_
  · intro a ha
    rw [greedy_end ha]
    exact List.Pairwise.nil
  · intro a ha hmiss ih
    rwa [greedy_miss ha hmiss]
  · intro a ha hhit ih
    rw [greedy_hit ha hlen hhit]
    exact List.Pairwise.cons (fun x hx => (mem_greedy hlen _ x hx).1) ih

theorem greedy_skip {b : Nat} (hab : a ≤ b) (h : ∀ x, a ≤ x → x < b → hit x = false) :
    greedy hit len endp a = greedy hit len endp b := by
  induction hab with
  | refl => rfl
  | @step b hab ih =>
    rw [ih fun x hle hlt => h x hle (Nat.lt_succ_of_lt hlt)]
    rcases Nat.lt_or_ge b endp with hlt | hge
    · exact greedy_miss hlt (h b hab (Nat.lt_succ_self b))
    · rw [greedy_end hge, greedy_end (Nat.le_succ_of_le hge)]

theorem greedy_none (h : ∀ x, a ≤ x → x < endp → hit x = false) : greedy hit len endp a = [] := by
  rcases Nat.le_total a endp with hle | hge
  · rw [greedy_skip hle h, greedy_end (Nat.le_refl endp)]
  · exact greedy_end hge

theorem greedy_succ (hlen : 0 < len) : ∀ a, ∃ last, (last = [] ∨ last = [endp] ∧ hit endp = true) ∧
    greedy hit len (endp + 1) a = greedy hit len endp a ++ last := by
  refine greedy_induction hit hlen endp ?_ ?_ ?_
  · intro a ha
    rw [greedy_end ha]
    by_cases hlast : a = endp ∧ hit a = true
    · obtain ⟨rfl, hhit⟩ := hlast
      refine ⟨[a], Or.inr ⟨rfl, hhit⟩, ?_⟩
      rw [greedy_hit (Nat.lt_succ_self a) hlen hhit, greedy_end (by omega)]
      rfl
    · refine ⟨[], Or.inl rfl, ?_⟩
      rcases Nat.lt_or_ge endp a with hgt | hle
      · rw [greedy_end (Nat.succ_le_of_lt hgt)]
        rfl
      · obtain rfl : a = endp := Nat.le_antisymm hle ha
        have hmiss : hit a = false := Bool.eq_false_iff.mpr fun hhit => hlast ⟨rfl, hhit⟩
        rw [greedy_miss (Nat.lt_succ_self a) hmiss, greedy_end (Nat.le_refl _)]
        rfl
  · intro a ha hmiss ih
    rw [greedy_miss ha hmiss, greedy_miss (Nat.lt_succ_of_lt ha) hmiss]
    exact ih
  · rintro a ha hhit ⟨last, hlast, heq⟩
    refine ⟨last, hlast, ?_⟩
    rw [greedy_hit ha hlen hhit, greedy_hit (Nat.lt_succ_of_lt ha) hlen hhit, heq]
    rfl

/-! ## The first hit -/

/-- The first of the `n` places from `a` on where there is a hit. -/
def firstHit (hit : Nat → Bool) : Nat → Nat → Option Nat
  | 0, _ => none
  | n + 1, a => if hit a then some a else firstHit hit n (a + 1)

theorem firstHit_eq_none {n : Nat} (h : firstHit hit n a = none) :
    ∀ i, a ≤ i → i < a + n → hit i = false := by
  induction n generalizing a with
  | zero =>
    intro i hle hlt
    omega
  | succ n ih =>
    rw [firstHit] at h
    split at h
    · exact absurd h (by simp)
    · next hmiss =>
      intro i hle hlt
      rcases Nat.eq_or_lt_of_le hle with rfl | hgt
      · exact Bool.eq_false_iff.mpr hmiss
      · exact ih h i hgt (by omega)

theorem firstHit_eq_some {n i : Nat} (h : firstHit hit n a = some i) :
    a ≤ i ∧ i < a + n ∧ hit i = true ∧ ∀ j, a ≤ j → j < i → hit j = false := by
  induction n generalizing a with
  | zero => exact absurd h (by simp [firstHit])
  | succ n ih =>
    rw [firstHit] at h
    split at h
    · next hhit =>
      obtain rfl := Option.some.inj h
      exact ⟨Nat.le_refl _, by omega, hhit, fun j hle hlt => by omega⟩
    · next hmiss =>
      obtain ⟨hle, hlt, hhit, hleast⟩ := ih h
      refine ⟨Nat.le_of_succ_le hle, by omega, hhit, fun j hj hji => ?_⟩
      rcases Nat.eq_or_lt_of_le hj with rfl | hgt
      · exact Bool.eq_false_iff.mpr hmiss
      · exact hleast j hgt hji

end Clover.Lib
