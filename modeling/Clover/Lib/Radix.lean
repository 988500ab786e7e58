import Mathlib

/-!
# Radix tables

A radix table translates a key by walking down a tree of tables. Each table is indexed by one
digit of the key, and an entry is absent, or it is a leaf with a result, or it leads to another
table. Which of the three an entry is may depend on the depth at which its table is read, so a
memory full of tables is a function `Nat → A → I → Kind A R` of depth, table and index.

The tables are named by the path of indices that leads to them, the last index first. The memory
is a *tree* when different paths lead to different tables. Two ways to change a tree are treated:

* one entry that is not a branch is overwritten by another that is not (`tableAt_of_sets`);
* one entry that is not a branch is made to lead to a table that was not in the tree
  (`Grows.tableAt_eq`).

In both cases the lookups that do not read the entry keep their result (`lookup_of_off`).
-/

namespace Clover.Lib.Radix

open Option

/-- What an entry of a table says. -/
inductive Kind (A R : Type) where
  | absent
  | leaf (r : R)
  | branch (a : A)
  deriving DecidableEq, Repr

variable {A I R : Type} {k : Nat → I} {a : A} {d : Nat}

/-- The table an entry leads to. -/
def Kind.child : Kind A R → Option A
  | .branch a => some a
  | _ => none

@[simp] theorem Kind.child_eq_some {e : Kind A R} {a : A} : e.child = some a ↔ e = .branch a := by
  cases e <;> simp [Kind.child]

section Walk

variable (T : Nat → A → I → Kind A R) (root : A) {p : List I}

/-- The table that a path of indices leads to, the last index first. -/
def tableAt : List I → Option A
  | [] => some root
  | i :: p => (tableAt p).bind fun a => (T p.length a i).child

theorem tableAt_cons (h : tableAt T root p = some a) (i : I) :
    tableAt T root (i :: p) = (T p.length a i).child := by
  simp only [tableAt, h, bind_some]

theorem tableAt_cons_eq_some {i : I} {b : A} :
    tableAt T root (i :: p) = some b ↔
      ∃ a, tableAt T root p = some a ∧ T p.length a i = .branch b := by
  simp only [tableAt, bind_eq_some_iff, Kind.child_eq_some]

/-- Different paths lead to different tables. -/
def IsTree : Prop :=
  ∀ p q a, tableAt T root p = some a → tableAt T root q = some a → p = q

/-- The path to the table at depth `d` on the way of a key. -/
def steps (k : Nat → I) : Nat → List I
  | 0 => []
  | d + 1 => k d :: steps k d

@[simp] theorem length_steps (k : Nat → I) (d : Nat) : (steps k d).length = d := by
  induction d with
  | zero => rfl
  | succ d ih => simp [steps, ih]

/-- Look a key up from a table at depth `d` with at most `n` tables below it: the depth of the
leaf that is found, and its result. -/
def lookup (k : Nat → I) : Nat → Nat → A → Option (Nat × R)
  | 0, d, a =>
    match T d a (k d) with
    | .leaf r => some (d, r)
    | _ => none
  | n + 1, d, a =>
    match T d a (k d) with
    | .absent => none
    | .leaf r => some (d, r)
    | .branch b => lookup k n (d + 1) b

theorem lookup_absent (h : T d a (k d) = .absent) (n : Nat) : lookup T k n d a = none := by
  cases n <;> simp only [lookup, h]

theorem lookup_leaf {r : R} (h : T d a (k d) = .leaf r) (n : Nat) :
    lookup T k n d a = some (d, r) := by
  cases n <;> simp only [lookup, h]

theorem lookup_steps (h : tableAt T root (steps k d) = some a)
    (n : Nat) : lookup T k (d + n) 0 root = lookup T k n d a := by
  induction d generalizing a n with
  | zero =>
    cases h
    rw [Nat.zero_add]
  | succ d ih =>
    obtain ⟨b, hb, hbranch⟩ := (tableAt_cons_eq_some T root).mp h
    rw [length_steps] at hbranch
    rw [show d + 1 + n = d + (n + 1) by omega, ih hb (n + 1)]
    simp only [lookup, hbranch]

end Walk

/-! ## Changes of one entry -/

section Change

variable {T T' : Nat → A → I → Kind A R} {root : A}

theorem lookup_congr
    (h : ∀ d a, tableAt T root (steps k d) = some a → T' d a (k d) = T d a (k d))
    {n : Nat} (ha : tableAt T root (steps k d) = some a) :
    lookup T' k n d a = lookup T k n d a := by
  induction n generalizing d a with
  | zero => simp only [lookup, h d a ha]
  | succ n ih =>
    simp only [lookup, h d a ha]
    split
    · rfl
    · rfl
    · next b hb =>
      refine ih ((tableAt_cons_eq_some T root).mpr ⟨a, ha, ?_⟩)
      rw [length_steps, hb]

/-- The tables of the tree are as they were, apart from one entry of one of them. -/
def Off (T T' : Nat → A → I → Kind A R) (root t : A) (i : I) : Prop :=
  ∀ q a j, tableAt T root q = some a → (a ≠ t ∨ j ≠ i) → T' q.length a j = T q.length a j

variable {p : List I} {t : A} {i : I}

/-- A lookup that does not read the entry keeps its result. -/
theorem lookup_of_off (htree : IsTree T root) (hp : tableAt T root p = some t)
    (hoff : Off T T' root t i) (hk : steps k (p.length + 1) ≠ i :: p) (n : Nat) :
    lookup T' k n 0 root = lookup T k n 0 root := by
  refine lookup_congr (d := 0) (fun d a ha => ?_) rfl
  have h := hoff _ a (k d) ha
  rw [length_steps] at h
  apply h
  by_contra! hboth
  obtain ⟨rfl, rfl⟩ := hboth
  have hd := htree _ _ _ ha hp
  subst hd
  rw [length_steps] at hk
  exact hk rfl

/-- Overwriting an entry that is no branch keeps the tables. -/
theorem tableAt_of_sets (htree : IsTree T root) (hp : tableAt T root p = some t)
    (hoff : Off T T' root t i) (hold : (T p.length t i).child = none)
    (hnew : (T' p.length t i).child = none) (q : List I) :
    tableAt T' root q = tableAt T root q := by
  induction q with
  | nil => rfl
  | cons j q ih =>
    simp only [tableAt, ih]
    cases ha : tableAt T root q with
    | none => rfl
    | some a =>
      simp only [bind_some]
      by_cases hai : a = t ∧ j = i
      · obtain ⟨rfl, rfl⟩ := hai
        rw [htree _ _ _ ha hp, hold, hnew]
      · rw [hoff q a j ha (by tauto)]

/-- An entry `i` of the table `t` at the end of the path `p` that was no branch now leads to `c`,
which was not in the tree and has no branches itself. -/
structure Grows (T T' : Nat → A → I → Kind A R) (root : A) (p : List I) (t : A) (i : I)
    (c : A) : Prop where
  parent : tableAt T root p = some t
  off : Off T T' root t i
  closed : (T p.length t i).child = none
  link : T' p.length t i = .branch c
  fresh : ∀ q, tableAt T root q ≠ some c
  childless : ∀ j, (T' (p.length + 1) c j).child = none

variable {c : A}

/-- The new table is at the end of the longer path, and every other path leads where it did. -/
theorem Grows.tableAt_eq (h : Grows T T' root p t i c) (htree : IsTree T root) [DecidableEq I]
    (q : List I) :
    tableAt T' root q = if q = i :: p then some c else tableAt T root q := by
  induction q with
  | nil => rfl
  | cons j q ih =>
    simp only [tableAt, ih]
    by_cases hq : q = i :: p
    · -- below the new table there is nothing, and there was nothing below the old entry
      subst hq
      have hnone : tableAt T root (i :: p) = none := by
        rw [tableAt_cons T root h.parent, h.closed]
      simp only [if_true, bind_some, List.length_cons, h.childless, hnone,
        bind_none, List.cons.injEq]
      rw [if_neg fun hc => List.cons_ne_self i p hc.2]
    · rw [if_neg hq]
      cases ha : tableAt T root q with
      | none =>
        rw [if_neg]
        · rfl
        · intro hc
          simp only [List.cons.injEq] at hc
          rw [hc.2, h.parent] at ha
          cases ha
      | some a =>
        simp only [bind_some]
        by_cases hai : a = t ∧ j = i
        · obtain ⟨rfl, rfl⟩ := hai
          have hqp := htree _ _ _ ha h.parent
          rw [if_pos (by rw [hqp]), hqp, h.link]
          rfl
        · rw [h.off q a j ha (by tauto), if_neg]
          intro hc
          simp only [List.cons.injEq] at hc
          rw [hc.2, h.parent] at ha
          exact hai ⟨(Option.some.inj ha).symm, hc.1⟩

variable (h : Grows T T' root p t i c) (htree : IsTree T root)
include h htree

theorem Grows.tableAt_new : tableAt T' root (i :: p) = some c := by
  classical
  rw [h.tableAt_eq htree, if_pos rfl]

theorem Grows.tableAt_cases {q : List I} (hq : tableAt T' root q = some a) :
    (q = i :: p ∧ a = c) ∨ tableAt T root q = some a := by
  classical
  rw [h.tableAt_eq htree] at hq
  split at hq
  · next heq => exact Or.inl ⟨heq, (Option.some.inj hq).symm⟩
  · exact Or.inr hq

theorem Grows.isTree : IsTree T' root := by
  intro q q' a hq hq'
  rcases h.tableAt_cases htree hq with ⟨rfl, rfl⟩ | hq
  · rcases h.tableAt_cases htree hq' with ⟨rfl, -⟩ | hq'
    · rfl
    · exact absurd hq' (h.fresh q')
  · rcases h.tableAt_cases htree hq' with ⟨-, rfl⟩ | hq'
    · exact absurd hq (h.fresh q)
    · exact htree _ _ _ hq hq'

end Change

end Clover.Lib.Radix
