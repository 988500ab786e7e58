import Mathlib

/-!
# The first occurrence of a pattern

A pattern occurs in a text at `i` if it is a prefix of what stands there from `i` on. `findPat` is
the search from the left. What a search does on a text whose parts are known is said by
`findPat_append`: it passes over a part in which the pattern does not begin.
-/

namespace Clover.Lib

open List

variable {α : Type}

/-- The pattern does not begin in `xs`, whatever follows. -/
def Clear (pat xs : List α) : Prop := ∀ rest, ∀ j < xs.length, ¬ pat <+: (xs ++ rest).drop j

section Clear

variable {pat xs ys : List α} {a b c : α}

theorem Clear.append (hxs : Clear pat xs) (hys : Clear pat ys) : Clear pat (xs ++ ys) := by
  intro rest j hj
  rw [append_assoc]
  rw [length_append] at hj
  rcases lt_or_ge j xs.length with hlt | hge
  · exact hxs (ys ++ rest) j hlt
  · rw [drop_append, drop_eq_nil_of_le hge, nil_append]
    exact hys rest (j - xs.length) (by omega)

theorem clear_of_not_mem (ha : a ∉ xs) : Clear (a :: pat) xs := by
  intro rest j hj hpat
  obtain ⟨tail, htail⟩ := hpat
  have hget : (xs ++ rest)[j]? = some a := by
    rw [← head?_drop, ← htail]
    rfl
  rw [getElem?_append_left hj] at hget
  exact ha (mem_of_getElem? hget)

end Clear

variable [DecidableEq α]

/-- The offset of the first occurrence of `pat`. -/
def findPat (pat : List α) : List α → Option Nat
  | [] => if pat = [] then some 0 else none
  | c :: text => if pat <+: c :: text then some 0 else (findPat pat text).map (· + 1)

variable {pat pre text : List α}

theorem findPat_eq_zero (h : pat <+: text) : findPat pat text = some 0 := by
  cases text with
  | nil => rw [findPat, if_pos (prefix_nil.mp h)]
  | cons c text => rw [findPat, if_pos h]

theorem findPat_cons {c : α} (h : ¬ pat <+: c :: text) :
    findPat pat (c :: text) = (findPat pat text).map (· + 1) := by
  rw [findPat, if_neg h]

theorem findPat_eq_some_iff {i : Nat} : findPat pat text = some i ↔
    pat <+: text.drop i ∧ ∀ j < i, ¬ pat <+: text.drop j := by
  induction text generalizing i with
  | nil =>
    rw [findPat, drop_nil, prefix_nil]
    split
    · next h =>
      constructor
      · intro hi
        obtain rfl := Option.some.inj hi
        exact ⟨h, fun j hj => absurd hj (Nat.not_lt_zero j)⟩
      · rintro ⟨-, hfirst⟩
        cases i with
        | zero => rfl
        | succ i => exact absurd (h ▸ nil_prefix) (hfirst 0 (Nat.succ_pos i))
    · next h => simp [h]
  | cons c text ih =>
    by_cases h : pat <+: c :: text
    · rw [findPat_eq_zero h]
      constructor
      · intro hi
        obtain rfl := Option.some.inj hi
        exact ⟨h, fun j hj => absurd hj (Nat.not_lt_zero j)⟩
      · rintro ⟨-, hfirst⟩
        cases i with
        | zero => rfl
        | succ i => exact absurd h (hfirst 0 (Nat.succ_pos i))
    · rw [findPat_cons h]
      cases i with
      | zero => simp [h]
      | succ i =>
        simp only [Option.map_eq_some_iff, Nat.add_right_cancel_iff, exists_eq_right, ih,
          drop_succ_cons]
        constructor
        · rintro ⟨hat, hfirst⟩
          refine ⟨hat, fun j hj => ?_⟩
          cases j with
          | zero => exact h
          | succ j => exact hfirst j (by omega)
        · rintro ⟨hat, hfirst⟩
          exact ⟨hat, fun j hj => hfirst (j + 1) (by omega)⟩

theorem findPat_eq_none_iff : findPat pat text = none ↔ ∀ i, ¬ pat <+: text.drop i := by
  constructor
  · intro hnone i hi
    -- the least occurrence would have been found
    have hex : ∃ i, pat <+: text.drop i := ⟨i, hi⟩
    have hfound : findPat pat text = some (Nat.find hex) :=
      findPat_eq_some_iff.mpr ⟨Nat.find_spec hex, fun j hj => Nat.find_min hex hj⟩
    rw [hnone] at hfound
    exact absurd hfound (by simp)
  · intro hno
    cases h : findPat pat text with
    | none => rfl
    | some i => exact absurd (findPat_eq_some_iff.mp h).1 (hno i)

/-- A part in which the pattern does not begin is passed over. -/
theorem findPat_append (h : Clear pat pre) :
    findPat pat (pre ++ text) = (findPat pat text).map (· + pre.length) := by
  induction pre with
  | nil =>
    rw [nil_append]
    exact (Option.map_id' (x := findPat pat text)).symm
  | cons c pre ih =>
    have hhead : ¬ pat <+: c :: (pre ++ text) := h text 0 (Nat.succ_pos _)
    have hrest : Clear pat pre := fun rest j hj => h rest (j + 1) (Nat.succ_lt_succ hj)
    rw [cons_append, findPat_cons hhead, ih hrest, Option.map_map]
    congr 1

/-- The first occurrence is where the first letter of the pattern first stands. -/
theorem findPat_first {a : α} (hpat : pat.head? = some a) (ha : a ∉ pre) (rest : List α) :
    findPat pat (pre ++ (pat ++ rest)) = some pre.length := by
  obtain ⟨tail, rfl⟩ : ∃ tail, pat = a :: tail := head?_eq_some_iff.mp hpat
  rw [findPat_append (clear_of_not_mem ha), findPat_eq_zero (prefix_append _ _),
    Option.map_some, Nat.zero_add]

end Clover.Lib
