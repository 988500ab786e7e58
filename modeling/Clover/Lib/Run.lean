import Mathlib

/-!
# Runs of imperative code

A piece of imperative code either returns, or stops on a fatal error that never returns
to its caller (`Halt.panic`), or has not returned within the number of loop passes it was
given (`Halt.fuel`). `Run` is the exception monad over these two failures.

A `while` loop is `Run.loop`: a body that either goes round again with a new state or
leaves with a result, and a bound on the number of passes. The rules below are the ones
the proofs about loops use:

* `returns_loop`: an invariant and a measure that every further pass lowers give a loop
  that returns, with a postcondition, once the bound exceeds the measure;
* `loop_list`, `loop_list_then`: a loop that takes the elements of a list one by one;
* `safe_loop`: an invariant alone, for the runs that return;
* `Leads`: what passes of a loop lead from one state to another;
* `Leaves`: the loop is left, however many passes it takes; `not_leaves` is for those that
  never are;
* `returns_iff_reached`: a loop returns if the body does in every state it comes to;
* `ends_loop`: as `returns_loop`, for runs that may also stop on a fatal error;
* `sim_bind`, `sim_loop`: two runs that move in step return in step.
-/

namespace Clover.Lib

/-- What holds of the members of a list is decided along the list, also for a finite type. -/
instance (priority := 2000) decidableForallMem {α : Type} (l : List α) (p : α → Prop)
    [DecidablePred p] : Decidable (∀ a ∈ l, p a) :=
  List.decidableBAll p l

theorem bind_eq_ok {ε α β : Type} {x : Except ε α} {f : α → Except ε β} {r : β} :
    x >>= f = .ok r ↔ ∃ a, x = .ok a ∧ f a = .ok r := by
  cases x with
  | error e => exact iff_of_false nofun fun ⟨_, h, _⟩ => nomatch h
  | ok a => exact ⟨fun h => ⟨a, rfl, h⟩, fun ⟨_, h, hf⟩ => Except.ok.inj h ▸ hf⟩

/-- Why a run did not return. -/
inductive Halt where
  /-- A fatal error, with its message. -/
  | panic (msg : String)
  /-- More loop passes were needed than the bound allows. -/
  | fuel
  deriving DecidableEq, Repr

/-- The outcome of running a piece of code. -/
abbrev Run (α : Type) := Except Halt α

/-- One pass of a loop: go round again with a new state, or leave with a result. -/
inductive Pass (σ ρ : Type) where
  | again (s : σ)
  | leave (r : ρ)
  deriving DecidableEq, Repr

namespace Run

/-! ## Postconditions -/

/-- If the run returns, its result satisfies `P`. -/
def Safe {α : Type} (x : Run α) (P : α → Prop) : Prop :=
  match x with
  | .ok a => P a
  | .error _ => True

/-- The run returns, and its result satisfies `P`. -/
def Returns {α : Type} (x : Run α) (P : α → Prop) : Prop := ∃ a, x = .ok a ∧ P a

variable {α β σ τ ρ κ γ : Type}
  {body : σ → Run (Pass σ ρ)} {P : α → Prop} {x : Run α} {Q : α → Prop} {f : α → Run β}
  {r : ρ} (I : σ → Prop) (μ : σ → Nat) {a : α} {fuel : Nat} {s : σ}

theorem Returns.safe (h : Returns x P) : Safe x P := by
  obtain ⟨a, rfl, ha⟩ := h
  exact ha

theorem Returns.mono (h : Returns x P) (hPQ : ∀ a, P a → Q a) : Returns x Q := by
  obtain ⟨a, ha, hp⟩ := h
  exact ⟨a, ha, hPQ a hp⟩

theorem Safe.mono (h : Safe x P) (hPQ : ∀ a, P a → Q a) : Safe x Q := by
  cases x with
  | error e => trivial
  | ok a => exact hPQ a h

theorem Safe.and (h : Safe x P) (h' : Safe x Q) : Safe x fun a => P a ∧ Q a := by
  cases x with
  | error e => trivial
  | ok a => exact ⟨h, h'⟩

@[simp] theorem ok_bind (a : α) (f : α → Run β) : ((.ok a : Run α) >>= f) = f a := rfl

theorem returns_ok (h : P a) : Returns (.ok a : Run α) P :=
  ⟨a, rfl, h⟩

theorem returns_bind {P : β → Prop} (hx : Returns x Q) (hf : ∀ a, Q a → Returns (f a) P) :
    Returns (x >>= f) P := by
  obtain ⟨a, rfl, ha⟩ := hx
  exact hf a ha

theorem safe_bind {P : β → Prop} (hx : Safe x Q) (hf : ∀ a, Q a → Safe (f a) P) :
    Safe (x >>= f) P := by
  cases x with
  | error e => trivial
  | ok a => exact hf a hx

/-! ## Loops -/

/-- Run `body` until it leaves, for at most `fuel` passes. -/
def loop (body : σ → Run (Pass σ ρ)) : Nat → σ → Run ρ
  | 0, _ => .error .fuel
  | fuel + 1, s =>
    match body s with
    | .error e => .error e
    | .ok (.again s') => loop body fuel s'
    | .ok (.leave r) => .ok r

theorem loop_again {s' : σ} (h : body s = .ok (.again s')) (fuel : Nat) :
    loop body (fuel + 1) s = loop body fuel s' := by
  simp only [loop, h]

theorem loop_leave (h : body s = .ok (.leave r)) (hf : 0 < fuel) : loop body fuel s = .ok r := by
  obtain ⟨n, rfl⟩ : ∃ n, fuel = n + 1 := ⟨fuel - 1, by omega⟩
  simp only [loop, h]

/-- Total correctness of a loop: the invariant `I` is kept by every further pass, which
also lowers the measure `μ`, and gives `Q` when the loop is left. -/
theorem returns_loop {Q : ρ → Prop}
    (hbody : ∀ s, I s → Returns (body s) fun p => match p with
      | .again s' => I s' ∧ μ s' < μ s
      | .leave r => Q r) :
    ∀ (fuel : Nat) (s : σ), I s → μ s < fuel → Returns (loop body fuel s) Q := by
  intro fuel
  induction fuel with
  | zero => intro s _ hμ; omega
  | succ fuel ih =>
    intro s hI hμ
    obtain ⟨p, hp, hP⟩ := hbody s hI
    cases p with
    | again s' =>
      rw [loop_again hp]
      exact ih s' hP.1 (by omega)
    | leave r =>
      rw [loop_leave hp (by omega)]
      exact returns_ok hP

/-- A loop that takes one element of a list with every further pass, and then needs `k` more
to return `r`. `At xs s` says that the elements `xs` are still to come in the state `s`. -/
theorem loop_list_then (At : List γ → σ → Prop) (k : Nat)
    (hcons : ∀ x xs s, At (x :: xs) s →
      (∃ s', body s = .ok (.again s') ∧ At xs s') ∨ body s = .ok (.leave r))
    (hnil : ∀ s fuel, At [] s → k < fuel → loop body fuel s = .ok r) :
    ∀ (xs : List γ) (s : σ) (fuel : Nat), At xs s → xs.length + k < fuel →
      loop body fuel s = .ok r := by
  intro xs
  induction xs with
  | nil =>
    intro s fuel hs hfuel
    exact hnil s fuel hs (by simpa only [List.length_nil, Nat.zero_add] using hfuel)
  | cons x xs ih =>
    intro s fuel hs hfuel
    rw [List.length_cons] at hfuel
    obtain ⟨n, rfl⟩ : ∃ n, fuel = n + 1 := ⟨fuel - 1, by omega⟩
    rcases hcons x xs s hs with ⟨s', hb, hs'⟩ | hb
    · rw [loop_again hb]
      exact ih s' n hs' (by omega)
    · exact loop_leave hb (by omega)

theorem loop_list (At : List γ → σ → Prop)
    (hcons : ∀ x xs s, At (x :: xs) s →
      (∃ s', body s = .ok (.again s') ∧ At xs s') ∨ body s = .ok (.leave r))
    (hnil : ∀ s, At [] s → body s = .ok (.leave r)) (xs : List γ) (s : σ) (fuel : Nat)
    (hs : At xs s) (hfuel : xs.length < fuel) : loop body fuel s = .ok r :=
  loop_list_then At 0 hcons (fun s _ hs h0 => loop_leave (hnil s hs) h0) xs s fuel hs hfuel

/-- An invariant alone, for the runs that return. -/
theorem safe_loop {Q : ρ → Prop}
    (hbody : ∀ s, I s → Safe (body s) fun p => match p with | .again s' => I s' | .leave r => Q r) :
    ∀ (fuel : Nat) (s : σ), I s → Safe (loop body fuel s) Q := by
  intro fuel
  induction fuel with
  | zero => intro s _; trivial
  | succ fuel ih =>
    intro s hI
    have hs := hbody s hI
    simp only [loop]
    split
    · trivial
    · next s' he => rw [he] at hs; exact ih s' hs
    · next r he => rw [he] at hs; exact hs

/-- From `x` the loop comes to `y`, if it may make more than `n` passes, and may then still make
more than `m`. -/
def Leads (body : σ → Run (Pass σ ρ)) (n : Nat) (x : σ) (m : Nat) (y : σ) : Prop :=
  ∀ fuel, n < fuel → ∃ fuel', m < fuel' ∧ loop body fuel x = loop body fuel' y

theorem Leads.refl (body : σ → Run (Pass σ ρ)) (n : Nat) (x : σ) : Leads body n x n x :=
  fun fuel h => ⟨fuel, h, rfl⟩

theorem Leads.trans {n m l : Nat} {x y z : σ} (h : Leads body n x m y) (h' : Leads body m y l z) :
    Leads body n x l z := by
  intro fuel hfuel
  obtain ⟨fuel1, hfuel1, heq1⟩ := h fuel hfuel
  obtain ⟨fuel2, hfuel2, heq2⟩ := h' fuel1 hfuel1
  exact ⟨fuel2, hfuel2, heq1.trans heq2⟩

theorem leads_again {n m : Nat} {x y : σ} (h : body x = .ok (.again y)) (hm : m < n) :
    Leads body n x m y := by
  intro fuel hfuel
  obtain ⟨k, rfl⟩ : ∃ k, fuel = k + 1 := ⟨fuel - 1, by omega⟩
  exact ⟨k, by omega, loop_again h k⟩

/-- From `x` the loop is left with `r`, after some number of passes. -/
def Leaves (body : σ → Run (Pass σ ρ)) (x : σ) (r : ρ) : Prop := ∃ fuel, loop body fuel x = .ok r

theorem leaves_again {x y : σ} (h : body x = .ok (.again y)) (r : ρ) :
    Leaves body x r ↔ Leaves body y r := by
  constructor
  · rintro ⟨fuel, hfuel⟩
    cases fuel with
    | zero => cases hfuel
    | succ fuel => exact ⟨fuel, (loop_again h fuel).symm.trans hfuel⟩
  · rintro ⟨fuel, hfuel⟩
    exact ⟨fuel + 1, (loop_again h fuel).trans hfuel⟩

theorem leaves_leave {x : σ} (h : body x = .ok (.leave r)) (r' : ρ) :
    Leaves body x r' ↔ r' = r := by
  constructor
  · rintro ⟨fuel, hfuel⟩
    cases fuel with
    | zero => cases hfuel
    | succ fuel =>
      rw [loop_leave h (Nat.succ_pos fuel)] at hfuel
      exact (Except.ok.inj hfuel).symm
  · rintro rfl
    exact ⟨1, loop_leave h Nat.one_pos⟩

theorem not_leaves (hbody : ∀ x, I x → ∃ y, body x = .ok (.again y) ∧ I y) {x : σ} (hx : I x)
    (r : ρ) : ¬ Leaves body x r := by
  rintro ⟨fuel, hfuel⟩
  induction fuel generalizing x with
  | zero => cases hfuel
  | succ fuel ih =>
    obtain ⟨y, hy, hI⟩ := hbody x hx
    exact ih hI ((loop_again hy fuel).symm.trans hfuel)

/-- One pass of the loop leads from `s` to `t`. -/
def Again (body : σ → Run (Pass σ ρ)) (s t : σ) : Prop := body s = .ok (.again t)

/-- A loop whose further passes lower a measure returns exactly if the body returns in every state
that the loop comes to. -/
theorem returns_iff_reached (hμ : ∀ s t, Again body s t → μ t < μ s)
    (hfuel : μ s < fuel) :
    Returns (loop body fuel s) (fun _ => True) ↔
      ∀ t, Relation.ReflTransGen (Again body) s t → ∃ p, body t = .ok p := by
  induction fuel generalizing s with
  | zero => omega
  | succ fuel ih =>
    constructor
    · rintro ⟨r, hr, -⟩ t ht
      have hbody : ∃ p, body s = .ok p := by
        cases hs : body s with
        | error e =>
          simp only [loop, hs] at hr
          cases hr
        | ok p => exact ⟨p, rfl⟩
      cases ht using Relation.ReflTransGen.head_induction_on with
      | refl => exact hbody
      | head hstep hrest =>
        have hlower := hμ _ _ hstep
        rw [loop_again hstep] at hr
        exact (ih (by omega)).mp ⟨r, hr, trivial⟩ t hrest
    · intro hall
      obtain ⟨p, hp⟩ := hall s .refl
      cases p with
      | again t =>
        have hlower := hμ s t hp
        rw [loop_again hp]
        exact (ih (by omega)).mpr fun u hu => hall u (hu.head hp)
      | leave r =>
        rw [loop_leave hp (Nat.succ_pos fuel)]
        exact returns_ok trivial

/-! ## Runs that may stop on a fatal error -/

/-- The run returns a result that satisfies `P`, or it stops on a fatal error, which it may do
only where `calm` fails. -/
def Ends (calm : Prop) (x : Run α) (P : α → Prop) : Prop :=
  match x with
  | .ok a => P a
  | .error (.panic _) => ¬ calm
  | .error .fuel => False

variable {calm : Prop}

theorem ends_ok (h : P a) : Ends calm (.ok a : Run α) P := h

theorem ends_panic {msg : String} (h : ¬ calm) : Ends calm (.error (.panic msg) : Run α) P := h

theorem Returns.ends (h : Returns x P) : Ends calm x P := by
  obtain ⟨a, rfl, ha⟩ := h
  exact ha

theorem Ends.returns (h : Ends calm x P) (hcalm : calm) : Returns x P := by
  match x, h with
  | .ok a, h => exact ⟨a, rfl, h⟩
  | .error (.panic _), h => exact (h hcalm).elim

theorem Ends.safe (h : Ends calm x P) : Safe x P := by
  match x, h with
  | .ok a, h => exact h
  | .error (.panic _), _ => trivial

theorem Ends.mono (h : Ends calm x P) (hPQ : ∀ a, P a → Q a) : Ends calm x Q := by
  match x, h with
  | .ok a, h => exact hPQ a h
  | .error (.panic _), h => exact h

theorem ends_bind {P : β → Prop} (hx : Ends calm x Q) (hf : ∀ a, Q a → Ends calm (f a) P) :
    Ends calm (x >>= f) P := by
  match x, hx with
  | .ok a, hx => exact hf a hx
  | .error (.panic _), hx => exact hx

/-- The rule `returns_loop` for runs that may stop on a fatal error. -/
theorem ends_loop {Q : ρ → Prop}
    (hbody : ∀ s, I s → Ends calm (body s) fun p => match p with
      | .again s' => I s' ∧ μ s' < μ s
      | .leave r => Q r) :
    ∀ (fuel : Nat) (s : σ), I s → μ s < fuel → Ends calm (loop body fuel s) Q := by
  intro fuel
  induction fuel with
  | zero =>
    intro s _ hμ
    omega
  | succ fuel ih =>
    intro s hI hμ
    have hs := hbody s hI
    unfold loop
    match body s, hs with
    | .ok (.again s'), hs => exact ih s' hs.1 (Nat.lt_of_lt_of_le hs.2 (Nat.le_of_lt_succ hμ))
    | .ok (.leave r), hs => exact hs
    | .error (.panic _), hs => exact hs

/-! ## Two runs side by side -/

/-- When the first run returns so does the second, and their results are related. -/
def Sim (x : Run α) (y : Run β) (Q : α → β → Prop) : Prop :=
  ∀ a, x = .ok a → ∃ b, y = .ok b ∧ Q a b

theorem sim_ok {b : β} {Q : α → β → Prop} (h : Q a b) : Sim (.ok a) (.ok b) Q := by
  rintro _ ⟨⟩
  exact ⟨b, rfl, h⟩

/-- Two passes that go round again with related states, or leave with related results. -/
def PassRel (R : σ → τ → Prop) (Q : ρ → κ → Prop) : Pass σ ρ → Pass τ κ → Prop
  | .again s, .again t => R s t
  | .leave r, .leave k => Q r k
  | _, _ => False

/-- Two loops whose bodies move in step, from related states, return in step. -/
theorem sim_loop {body1 : σ → Run (Pass σ ρ)} {body2 : τ → Run (Pass τ κ)} {R : σ → τ → Prop}
    {Q : ρ → κ → Prop} (hbody : ∀ s t, R s t → Sim (body1 s) (body2 t) (PassRel R Q)) :
    ∀ (fuel : Nat) (s : σ) (t : τ), R s t → Sim (loop body1 fuel s) (loop body2 fuel t) Q := by
  intro fuel
  induction fuel with
  | zero =>
    intro s t _ r h
    cases h
  | succ fuel ih =>
    intro s t hR r h
    simp only [loop] at h
    split at h
    · cases h
    · next s' he =>
      obtain ⟨q, hq, hm⟩ := hbody s t hR _ he
      cases q with
      | again t' =>
        rw [loop_again hq]
        exact ih s' t' hm r h
      | leave k => exact hm.elim
    · next r' he =>
      cases h
      obtain ⟨q, hq, hm⟩ := hbody s t hR _ he
      cases q with
      | again t' => exact hm.elim
      | leave k => exact ⟨k, loop_leave hq (by omega), hm⟩

end Run

end Clover.Lib
