import Clover.Unicode.RoundTrip

/-!
# Termination on malformed text

A loop over a string ends if every pass takes a unit of the source. This holds for the loops that
stop at a zero character, as a reader that returns another character has moved (`Advances`), and
for those that stop at a zero unit if the reader moves over every other unit (`whileUnits_returns`).

It fails for the functions from UTF-16 to UTF-8: they stop at a zero unit, and
`get_char32_from_utf16_string` does not move over a low surrogate that is not the second half of a
pair. The main result is `conversions_terminate_iff`.
-/

namespace Clover.Unicode

open Clover.Lib Clover.Lib.Run List

variable {fuel k : Nat} {s : List UInt16} {p : Nat → Prop}

/-- The run ends, whatever it returns. -/
abbrev Finishes {ρ : Type} (x : Run ρ) : Prop := Returns x fun _ => True

theorem finishes_guard {ρ : Type} {c : Prop} [Decidable c] {r : ρ} {x : Run ρ} (hx : Finishes x) :
    Finishes (if c then .ok r else x) := by
  split
  · exact returns_ok trivial
  · exact hx

section Rest

variable {α : Type} [OfNat α 0] {get : List α → List α × UInt32}

/-- What a reader makes of the string `s`: it stays where it is and returns zero, or it moves over
units that are not the terminator. -/
def Moved (s : List α) (p : List α × UInt32) : Prop :=
  p = (s, 0) ∨ ∃ k, 0 < k ∧ (∀ i, i < k → s.getD i 0 ≠ 0) ∧ p.1 = s.drop k

def Advances (get : List α → List α × UInt32) : Prop := ∀ s, Moved s (get s)

theorem moved_stay (s : List α) : Moved s (s, 0) := .inl rfl

theorem moved_drop {s : List α} (hk : 0 < k) (h : ∀ i, i < k → s.getD i 0 ≠ 0) (c : UInt32) :
    Moved s (s.drop k, c) :=
  .inr ⟨k, hk, h, rfl⟩

variable [DecidableEq α]

/-- The number of units before the terminator. -/
def rest (s : List α) : Nat := (s.takeWhile fun u => u ≠ 0).length

theorem rest_cons {u : α} (h : u ≠ 0) (s : List α) : rest (u :: s) = rest s + 1 := by
  unfold rest
  rw [takeWhile_cons, if_pos (decide_eq_true h), length_cons]

theorem rest_units {us : List α} (h : 0 ∉ us) (junk : List α) :
    rest (us ++ 0 :: junk) = us.length := by
  induction us with
  | nil =>
    unfold rest
    rw [nil_append, takeWhile_cons, if_neg (by simp), length_nil]
  | cons u us ih =>
    rw [mem_cons, not_or] at h
    rw [cons_append, rest_cons (Ne.symm h.1), ih h.2, length_cons]

theorem rest_drop : ∀ {s : List α}, (∀ i, i < k → s.getD i 0 ≠ 0) →
    rest s = rest (s.drop k) + k := by
  induction k with
  | zero => exact fun _ => rfl
  | succ k ih =>
    intro s h
    cases s with
    | nil => exact absurd rfl (h 0 (Nat.zero_lt_succ k))
    | cons u s =>
      have hu : u ≠ 0 := h 0 (Nat.zero_lt_succ k)
      have htail : ∀ i, i < k → s.getD i 0 ≠ 0 := fun i hi => h (i + 1) (Nat.succ_lt_succ hi)
      rw [rest_cons hu, drop_succ_cons, ih htail, add_assoc]

theorem Advances.rest_lt (h : Advances get) {s : List α} (hc : (get s).2 ≠ 0) :
    rest (get s).1 < rest s := by
  rcases h s with hs | ⟨k, hk, hne, hs⟩
  · rw [hs] at hc
    exact absurd rfl hc
  · rw [hs, rest_drop hne]
    exact Nat.lt_add_of_pos_right hk

/-- How often a loop goes round that stops at a zero character, which it has read ahead. -/
def ahead (p : List α × UInt32) : Nat := if p.2 = 0 then 0 else rest p.1 + 1

theorem Advances.ahead_le (h : Advances get) (s : List α) : ahead (get s) ≤ rest s := by
  unfold ahead
  split
  · exact Nat.zero_le _
  · next hc => exact h.rest_lt hc

theorem Advances.ahead_lt (h : Advances get) {s : List α} (hfuel : rest s < fuel) :
    ahead (get s) < fuel :=
  (h.ahead_le s).trans_lt hfuel

theorem ahead_of_ne {s : List α} {c : UInt32} (hc : c ≠ 0) : ahead (s, c) = rest s + 1 :=
  if_neg hc

end Rest

/-! ## Readers -/

theorem ne_zero_of_and {b m v : UInt8} (h : b &&& m = v) (hv : v ≠ 0) : b ≠ 0 := by
  rintro rfl
  rw [UInt8.zero_and] at h
  exact hv h.symm

theorem forall_lt_one (h0 : p 0) : ∀ i, i < 1 → p i := by
  intro i hi
  rwa [Nat.lt_one_iff.mp hi]

theorem forall_lt_succ (h : ∀ i, i < k → p i) (hk : p k) : ∀ i, i < k + 1 → p i := by
  intro i hi
  rcases Nat.lt_succ_iff_lt_or_eq.mp hi with hlt | rfl
  · exact h i hlt
  · exact hk

/-- Reading goes on unless the string ends. -/
theorem advances_utf8 : Advances getChar32FromUtf8String := by
  intro s
  unfold getChar32FromUtf8String
  dsimp only
  split
  · exact moved_stay s
  next h0 =>
  have hne0 := forall_lt_one (p := fun i => s.getD i 0 ≠ 0) h0
  split
  · split
    · exact moved_stay s
    next h1 =>
    have hne1 := forall_lt_succ hne0 (ne_zero_of_and (not_not.mp h1) (by decide))
    split
    · split
      · exact moved_stay s
      next h2 =>
      have hne2 := forall_lt_succ hne1 (ne_zero_of_and (not_not.mp h2) (by decide))
      split
      · split
        · exact moved_stay s
        next h3 =>
        have htrail := not_not.mp (not_or.mp h3).2
        exact moved_drop (by decide) (forall_lt_succ hne2 (ne_zero_of_and htrail (by decide))) _
      · exact moved_drop (by decide) hne2 _
    · exact moved_drop (by decide) hne1 _
  · exact moved_drop (by decide) hne0 _

theorem ne_zero_of_isLowSurrogate {u : UInt16} (h : isLowSurrogate u = true) : u ≠ 0 := by
  rintro rfl
  exact absurd h (by decide)

theorem advances_utf16 : Advances getChar32FromUtf16String := by
  intro s
  unfold getChar32FromUtf16String
  dsimp only
  split
  · exact moved_stay s
  next h0 =>
  have hne0 := forall_lt_one (p := fun i => s.getD i 0 ≠ 0) h0
  split
  · exact moved_drop (by decide) hne0 _
  · split
    · next hpair =>
      have hlow := (Bool.and_eq_true_iff.mp hpair).2
      exact moved_drop (by decide) (forall_lt_succ hne0 (ne_zero_of_isLowSurrogate hlow)) _
    · split
      · exact moved_stay s
      · exact moved_drop (by decide) hne0 _

/-! ## Loops that stop at a zero character -/

section Ahead

variable {α β : Type} [OfNat α 0] [DecidableEq α] [OfNat β 0] {get : List α → List α × UInt32}
  {put : Dst β → UInt32 → Dst β} {s : List α} {fuel : Nat}

/-- A loop whose passes read one character ahead, and which leaves at a zero character. -/
theorem returns_ahead {ρ σ : Type} {body : σ → Run (Pass σ ρ)} (next : σ → List α × UInt32)
    (h : Advances get)
    (hbody : ∀ v, Returns (body v) fun p =>
      match p with
      | .again v' => (next v).2 ≠ 0 ∧ next v' = get (next v).1
      | .leave _ => True)
    {v : σ} (hfuel : ahead (next v) < fuel) :
    Finishes (Run.loop body fuel v) := by
  refine returns_loop (fun _ => True) (fun v => ahead (next v)) (fun v _ => ?_) fuel v trivial hfuel
  refine (hbody v).mono fun p hp => ?_
  match p, hp with
  | .leave _, _ => trivial
  | .again v', hp =>
    refine ⟨trivial, ?_⟩
    have hle := h.ahead_le (next v).1
    have hne : ahead (next v) = rest (next v).1 + 1 := ahead_of_ne hp.1
    rw [hp.2, hne]
    exact Nat.lt_succ_of_le hle

omit [OfNat β 0] in
theorem readAhead_returns (h : Advances get) (dstMaxSize : Nat) (hfuel : rest s < fuel) :
    Finishes (readAhead get put fuel dstMaxSize s) := by
  refine finishes_guard ?_
  refine returns_ahead (fun v => (v.s, v.char32)) h (fun v => ?_) (h.ahead_lt hfuel)
  split
  · exact returns_ok trivial
  next hc =>
  dsimp only
  split
  · exact returns_ok trivial
  · exact returns_ok ⟨hc, rfl⟩

theorem readAheadCounted_returns (h : Advances get) (small dstMaxSize count : Nat)
    (hfuel : rest s < fuel) :
    Finishes (readAheadLen get put small fuel dstMaxSize s count) ∧
      Finishes (readAheadSize get put small fuel dstMaxSize s count) := by
  rw [readAheadLen, readAheadSize]
  constructor
  all_goals
    refine finishes_guard (finishes_guard ?_)
    refine returns_ahead (fun v => (v.s, v.char32)) h (fun v => ?_) (h.ahead_lt hfuel)
    split
    · next hc => exact returns_ok ⟨hc.1, rfl⟩
    · exact returns_ok trivial

omit [OfNat β 0] in
theorem sizeReadAhead_returns (h : Advances get) (width : UInt32 → Nat) (hfuel : rest s < fuel) :
    Finishes (sizeReadAhead get width fuel s) := by
  refine returns_ahead (fun v : Sizing α => (v.s, v.char32)) h (fun v => ?_) (h.ahead_lt hfuel)
  split
  · exact returns_ok trivial
  · next hc => exact returns_ok ⟨hc, rfl⟩

omit [OfNat β 0] in
theorem sizeReadAheadLen_returns (h : Advances get) (width : UInt32 → Nat) (len : Nat)
    (hfuel : rest s < fuel) :
    Finishes (sizeReadAheadLen get width fuel s len) := by
  refine returns_ahead (fun v : Sizing α => (v.s, v.char32)) h (fun v => ?_) (h.ahead_lt hfuel)
  split
  · next hc => exact returns_ok ⟨hc.1, rfl⟩
  · exact returns_ok trivial

end Ahead

theorem utf8SizeOfUtf8StringLen_returns {s : Bytes} (len : Nat) (hfuel : rest s + 1 < fuel) :
    Finishes (utf8SizeOfUtf8StringLen fuel s len) := by
  refine finishes_guard ?_
  refine returns_ahead (fun v : Sizing UInt8 => (v.s, v.char32)) advances_utf8 (fun v => ?_) hfuel
  split
  · next hc => exact returns_ok ⟨hc.1, rfl⟩
  · exact returns_ok trivial

theorem utf16SizeOfUtf16String_returns (hfuel : rest s + 1 < fuel) :
    Finishes (utf16SizeOfUtf16String fuel s) := by
  refine returns_ahead (fun v : Sizing UInt16 => (v.s, v.char32)) advances_utf16 (fun v => ?_) hfuel
  split
  · next hc => exact returns_ok ⟨hc, rfl⟩
  · exact returns_ok trivial

/-! ## Loops that stop at a zero unit -/

section Units

variable {α β : Type} [OfNat α 0] [DecidableEq α] [OfNat β 0] {get : List α → List α × UInt32}
  {put : Dst β → UInt32 → Dst β} {step : List α → Nat → List α × Nat} {I : List α → Prop}
  {s : List α} {fuel : Nat} {next : List α → List α}

/-- On the strings of `I` the pointer move `next` takes every unit but the terminator. -/
def Consumes (next : List α → List α) (I : List α → Prop) : Prop :=
  ∀ s, I s → unit s ≠ 0 → I (next s) ∧ rest (next s) < rest s

/-- A loop whose passes move over one character, and which leaves at a zero unit. -/
theorem returns_units {ρ σ : Type} {body : σ → Run (Pass σ ρ)} (src : σ → List α)
    (h : Consumes next I)
    (hbody : ∀ v, Returns (body v) fun p => match p with
      | .again v' => unit (src v) ≠ 0 ∧ src v' = next (src v)
      | .leave _ => True)
    {v : σ} (hI : I (src v)) (hfuel : rest (src v) < fuel) :
    Finishes (Run.loop body fuel v) := by
  refine returns_loop (fun v => I (src v)) (fun v => rest (src v)) (fun v hv => ?_) fuel v hI hfuel
  refine (hbody v).mono fun p hp => ?_
  match p, hp with
  | .leave _, _ => trivial
  | .again v', hp =>
    have hnext := h (src v) hv hp.1
    rw [← hp.2] at hnext
    exact hnext

omit [OfNat β 0] in
theorem whileUnits_returns (h : Consumes (fun s => (get s).1) I) (hs : I s) (dstMaxSize : Nat)
    (hfuel : rest s < fuel) : Finishes (whileUnits get put fuel dstMaxSize s) := by
  refine finishes_guard (returns_units (fun v => v.s) h (fun v => ?_) hs hfuel)
  split
  · next hu => exact returns_ok ⟨hu.1, rfl⟩
  · exact returns_ok trivial

theorem whileUnitsCounted_returns (h : Consumes (fun s => (get s).1) I) (hs : I s)
    (small dstMaxSize count : Nat) (hfuel : rest s < fuel) :
    Finishes (whileUnitsLen get put small fuel dstMaxSize s count) ∧
      Finishes (whileUnitsSize get put small fuel dstMaxSize s count) := by
  rw [whileUnitsLen, whileUnitsSize]
  constructor
  all_goals
    refine finishes_guard (finishes_guard (returns_units (fun v => v.s) h (fun v => ?_) hs hfuel))
    split
    · next hu => exact returns_ok ⟨hu.1, rfl⟩
    · exact returns_ok trivial

omit [OfNat β 0] in
theorem sizeWhileUnits_returns (h : Consumes next I)
    (hstep : ∀ s n, unit s ≠ 0 → (step s n).1 = next s) (hs : I s) (hfuel : rest s < fuel) :
    Finishes (sizeWhileUnits step fuel s) := by
  refine returns_units (fun v : Sizing α => v.s) h (fun v => ?_) hs hfuel
  split
  · exact returns_ok trivial
  · next hu => exact returns_ok ⟨hu, hstep v.s v.size hu⟩

omit [OfNat β 0] in
theorem sizeWhileUnitsLen_returns (h : Consumes next I)
    (hstep : ∀ s n, unit s ≠ 0 → (step s n).1 = next s) (hs : I s) (len : Nat)
    (hfuel : rest s < fuel) : Finishes (sizeWhileUnitsLen step fuel s len) := by
  refine returns_units (fun v : Sizing α => v.s) h (fun v => ?_) hs hfuel
  split
  · next hu => exact returns_ok ⟨hu.1, hstep v.s v.size hu.1⟩
  · exact returns_ok trivial

omit [OfNat β 0] in
theorem whileUnitsStop_returns (h : Advances get) (dstMaxSize : Nat) (hfuel : rest s < fuel) :
    Finishes (whileUnitsStop get put fuel dstMaxSize s) := by
  refine finishes_guard ?_
  refine returns_loop (fun _ => True) (fun v => rest v.s) (fun v _ => ?_) fuel _ trivial hfuel
  split
  · split
    · exact returns_ok trivial
    · next hc => exact returns_ok ⟨trivial, h.rest_lt hc⟩
  · exact returns_ok trivial

theorem whileUnitsStopLen_returns (h : Advances get) (small dstMaxSize len : Nat)
    (hfuel : rest s < fuel) :
    Finishes (whileUnitsStopLen get put small fuel dstMaxSize s len) := by
  refine finishes_guard (finishes_guard ?_)
  refine returns_loop (fun _ => True) (fun v => rest v.s) (fun v _ => ?_) fuel _ trivial hfuel
  split
  · split
    · exact returns_ok trivial
    · next hc => exact returns_ok ⟨trivial, h.rest_lt hc⟩
  · exact returns_ok trivial

omit [OfNat β 0] in
theorem consumes_drop_one (h : ∀ s, unit s ≠ 0 → next s = s.drop 1) :
    Consumes next fun _ => True := by
  intro s _ hu
  refine ⟨trivial, ?_⟩
  rw [h s hu, rest_drop (forall_lt_one (p := fun i => s.getD i 0 ≠ 0) hu)]
  exact Nat.lt_succ_self _

end Units

theorem utf32SizeOfUtf32String_returns {s : List UInt32} (hfuel : rest s < fuel) :
    Finishes (utf32SizeOfUtf32String fuel s) := by
  refine returns_units (fun v : Sizing UInt32 => v.s) (consumes_drop_one fun _ _ => rfl)
    (fun v => ?_) trivial hfuel
  split
  · next hu => exact returns_ok ⟨hu, rfl⟩
  · exact returns_ok trivial

theorem utf32SizeOfUtf32StringLen_returns {s : List UInt32} (len : Nat) (hfuel : rest s < fuel) :
    Finishes (utf32SizeOfUtf32StringLen fuel s len) := by
  refine returns_units (fun v : Sizing UInt32 => v.s) (consumes_drop_one fun _ _ => rfl)
    (fun v => ?_) trivial hfuel
  split
  · next hu => exact returns_ok ⟨hu.1, rfl⟩
  · exact returns_ok trivial

theorem utf8SizeOfUtf32CharPtr_fst (s : List UInt32) (n : Nat) (h : unit s ≠ 0) :
    (utf8SizeOfUtf32CharPtr s n).1 = s.drop 1 := by
  rw [utf8SizeOfUtf32CharPtr, if_neg h]

/-! ## Surrogates without a partner -/

/-- A low surrogate stands somewhere that is not the second half of a pair. -/
def hasStrayLow : List UInt16 → Bool
  | [] => false
  | [u] => isLowSurrogate u
  | u :: v :: us =>
    isLowSurrogate u ||
      (if isHighSurrogate u && isLowSurrogate v then hasStrayLow us else hasStrayLow (v :: us))

theorem isLowSurrogate_eq (u : UInt16) :
    isLowSurrogate u = (isSurrogate u && !isHighSurrogate u) := by
  rw [Bool.eq_iff_iff, Bool.and_eq_true, Bool.not_eq_true', Bool.eq_false_iff, ne_eq,
    isLowSurrogate_iff, isSurrogate_iff, isHighSurrogate_iff]
  omega

/-- The reader on a string that has not ended: it stays at a low surrogate, and otherwise it moves
on, with the same low surrogates without a partner ahead of it. -/
theorem getChar32FromUtf16String_cons (u : UInt16) (us junk : List UInt16) (hu : u ≠ 0) :
    (isLowSurrogate u = true ∧
      getChar32FromUtf16String (u :: us ++ 0 :: junk) = (u :: us ++ 0 :: junk, 0)) ∨
    ∃ us', us' <:+ us ∧ (getChar32FromUtf16String (u :: us ++ 0 :: junk)).1 = us' ++ 0 :: junk ∧
      hasStrayLow us' = hasStrayLow (u :: us) := by
  unfold getChar32FromUtf16String
  simp only [cons_append, getD_cons_zero, drop_succ_cons, drop_zero, if_neg hu]
  by_cases hlow : isLowSurrogate u = true
  · have hs : isSurrogate u = true ∧ isHighSurrogate u = false := by
      simpa only [isLowSurrogate_eq, Bool.and_eq_true, Bool.not_eq_true'] using hlow
    refine .inl ⟨hlow, ?_⟩
    simp [hs.1, hs.2]
  · rw [Bool.not_eq_true] at hlow
    right
    have hcases : isSurrogate u = false ∨ isHighSurrogate u = true := by
      rw [isLowSurrogate_eq] at hlow
      cases hs : isSurrogate u
      · exact .inl rfl
      · rw [hs, Bool.true_and, Bool.not_eq_false'] at hlow
        exact .inr hlow
    cases us with
    | nil =>
      -- the terminator is no low surrogate
      have hzero : isLowSurrogate ((0 : UInt16)) = false := by decide
      refine ⟨[], suffix_rfl, ?_, hlow.symm⟩
      rcases hcases with hs | hs
      · simp [hs]
      · simp [isSurrogate_of_isHighSurrogate hs, hs, hzero]
    | cons v us =>
      by_cases hpair : (isHighSurrogate u && isLowSurrogate v) = true
      · have hhigh := (Bool.and_eq_true_iff.mp hpair).1
        refine ⟨us, suffix_cons v us, ?_, ?_⟩
        · simp [isSurrogate_of_isHighSurrogate hhigh, hpair]
        · rw [hasStrayLow, hlow, Bool.false_or, if_pos hpair]
      · refine ⟨v :: us, suffix_rfl, ?_, ?_⟩
        · rcases hcases with hs | hs
          · simp [hs]
          · rw [hs, Bool.true_and, Bool.not_eq_true] at hpair
            simp [isSurrogate_of_isHighSurrogate hs, hpair, hs]
        · rw [hasStrayLow, hlow, Bool.false_or, if_neg hpair]

/-- A string of units before its terminator, with `stray` saying whether a low surrogate without a
partner is among them. -/
def Strays (stray : Bool) (s : List UInt16) : Prop :=
  ∃ us junk, s = us ++ 0 :: junk ∧ 0 ∉ us ∧ hasStrayLow us = stray

theorem Strays.cons {stray : Bool} (h : Strays stray s) (hu : unit s ≠ 0) :
    ∃ u us junk, s = u :: us ++ 0 :: junk ∧ 0 ∉ u :: us ∧ hasStrayLow (u :: us) = stray := by
  obtain ⟨us, junk, rfl, hne, hstray⟩ := h
  cases us with
  | nil => exact absurd rfl hu
  | cons u us => exact ⟨u, us, junk, rfl, hne, hstray⟩

theorem consumes_utf16 : Consumes (fun s => (getChar32FromUtf16String s).1) (Strays false) := by
  intro s hs hu
  obtain ⟨u, us, junk, rfl, hne, hstray⟩ := hs.cons hu
  rcases getChar32FromUtf16String_cons u us junk hu with ⟨hlow, -⟩ | ⟨us', hsuffix, hget, hstray'⟩
  · have hcontra : hasStrayLow (u :: us) = true := by
      cases us with
      | nil => exact hlow
      | cons v us => rw [hasStrayLow, hlow, Bool.true_or]
    rw [hcontra] at hstray
    cases hstray
  · have hne' : 0 ∉ us' := fun h => hne (mem_cons_of_mem u (hsuffix.mem h))
    dsimp only
    rw [hget, rest_units hne', rest_units hne]
    exact ⟨⟨us', junk, rfl, hne', hstray'.trans hstray⟩, Nat.lt_succ_of_le hsuffix.length_le⟩

theorem Strays.unit_ne_zero (h : Strays true s) : unit s ≠ 0 := by
  obtain ⟨us, junk, rfl, hne, hstray⟩ := h
  cases us with
  | nil => cases hstray
  | cons u us =>
    exact fun hu => hne (hu ▸ mem_cons_self)

theorem Strays.get (h : Strays true s) : Strays true (getChar32FromUtf16String s).1 := by
  obtain ⟨u, us, junk, rfl, hne, hstray⟩ := h.cons h.unit_ne_zero
  have hu : u ≠ 0 := fun h => hne (h ▸ mem_cons_self)
  rcases getChar32FromUtf16String_cons u us junk hu with ⟨-, hget⟩ | ⟨us', hsuffix, hget, hstray'⟩
  · rw [hget]
    exact ⟨u :: us, junk, rfl, hne, hstray⟩
  · rw [hget]
    exact ⟨us', junk, rfl, fun h => hne (mem_cons_of_mem u (hsuffix.mem h)),
      hstray'.trans hstray⟩

theorem utf8SizeOfUtf16CharPtr_fst (s : List UInt16) (n : Nat) :
    (utf8SizeOfUtf16CharPtr s n).1 = (getChar32FromUtf16String s).1 := by
  unfold utf8SizeOfUtf16CharPtr
  dsimp only
  split <;> rfl

theorem utf8SizeOfUtf16String_safe_false (h : Strays true s) (fuel : Nat) :
    Safe (utf8SizeOfUtf16String fuel s) fun _ => False := by
  refine safe_loop (fun v : Sizing UInt16 => Strays true v.s) (fun v hv => ?_) fuel _ h
  rw [if_neg hv.unit_ne_zero]
  rw [utf8SizeOfUtf16CharPtr_fst]
  exact hv.get

/-! ## All conversions -/

/-- The function `length_of_utfA_string`. -/
def lengthOfString (a : Form) (fuel : Nat) (s : List a.Unit) : Run Nat :=
  sizeOfString .utf32 a fuel s

/-- Every function from the encoding `a` to the encoding `b` returns on the string `s`, whatever its
other arguments, and none makes more than `fuel` passes through its loop. -/
structure Halts (b a : Form) (fuel : Nat) (s : List a.Unit) : Prop where
  size : Returns (sizeOfString b a fuel s) fun _ => True
  sizeLen : ∀ len, Returns (sizeOfStringLen b a fuel s len) fun _ => True
  length : Returns (lengthOfString a fuel s) fun _ => True
  stringnn : ∀ dstMaxSize, Returns (stringnnFrom b a fuel dstMaxSize s) fun _ => True
  string : ∀ dstMaxSize, Returns (stringFrom b a fuel dstMaxSize s) fun _ => True
  stringLen : ∀ dstMaxSize len, Returns (stringFromLen b a fuel dstMaxSize s len) fun _ => True
  stringSize : ∀ dstMaxSize size, Returns (stringFromSize b a fuel dstMaxSize s size) fun _ => True

/-- The sources on which the functions from `a` to `b` get stuck. -/
def Stuck : (b a : Form) → List a.Unit → Bool
  | .utf8, .utf16, us => hasStrayLow us
  | _, _, _ => false

section All

variable (b a : Form) {us : List a.Unit} (h : 0 ∉ us) (junk : List a.Unit)
  (hstuck : Stuck b a us = false) {fuel : Nat} (hfuel : us.length + 1 < fuel) (dstMaxSize : Nat)

include h hstuck hfuel

theorem sizeOfString_returns : Finishes (sizeOfString b a fuel (us ++ 0 :: junk)) := by
  have hrest := rest_units h junk
  have hfuel' : rest (us ++ 0 :: junk) < fuel := by omega
  cases b <;> cases a
  · exact returns_ok trivial
  · exact sizeWhileUnits_returns consumes_utf16
      (fun s n _ => utf8SizeOfUtf16CharPtr_fst s n) ⟨us, junk, rfl, h, hstuck⟩ hfuel'
  · exact sizeWhileUnits_returns (consumes_drop_one fun _ _ => rfl) utf8SizeOfUtf32CharPtr_fst
      trivial hfuel'
  · exact sizeReadAhead_returns advances_utf8 utf16SizeOfUtf32Char hfuel'
  · exact utf16SizeOfUtf16String_returns (by omega)
  · exact sizeWhileUnits_returns (consumes_drop_one fun _ _ => rfl) (fun _ _ _ => rfl)
      trivial hfuel'
  · exact sizeReadAhead_returns advances_utf8 (fun _ => 1) hfuel'
  · exact sizeReadAhead_returns advances_utf16 (fun _ => 1) hfuel'
  · exact utf32SizeOfUtf32String_returns hfuel'

theorem sizeOfStringLen_returns (len : Nat) :
    Finishes (sizeOfStringLen b a fuel (us ++ 0 :: junk) len) := by
  have hrest := rest_units h junk
  have hfuel' : rest (us ++ 0 :: junk) < fuel := by omega
  cases b <;> cases a
  · exact utf8SizeOfUtf8StringLen_returns len (by omega)
  · exact finishes_guard (sizeWhileUnitsLen_returns consumes_utf16
      (fun s n _ => utf8SizeOfUtf16CharPtr_fst s n) ⟨us, junk, rfl, h, hstuck⟩ len hfuel')
  · exact finishes_guard (sizeWhileUnitsLen_returns (consumes_drop_one fun _ _ => rfl)
      utf8SizeOfUtf32CharPtr_fst trivial len hfuel')
  · exact finishes_guard (sizeReadAheadLen_returns advances_utf8 utf16SizeOfUtf32Char len hfuel')
  · exact sizeReadAheadLen_returns advances_utf16 utf16SizeOfUtf32Char len hfuel'
  · exact sizeWhileUnitsLen_returns (consumes_drop_one fun _ _ => rfl)
      (fun _ _ _ => rfl) trivial len
      hfuel'
  · exact finishes_guard (sizeReadAheadLen_returns advances_utf8 (fun _ => 1) len hfuel')
  · exact finishes_guard (sizeReadAheadLen_returns advances_utf16 (fun _ => 1) len hfuel')
  · exact utf32SizeOfUtf32StringLen_returns len hfuel'

theorem stringnnFrom_returns : Finishes (stringnnFrom b a fuel dstMaxSize (us ++ 0 :: junk)) := by
  have hrest := rest_units h junk
  have hfuel' : rest (us ++ 0 :: junk) < fuel := by omega
  cases b <;> cases a
  · exact readAhead_returns advances_utf8 dstMaxSize hfuel'
  · exact whileUnits_returns consumes_utf16 ⟨us, junk, rfl, h, hstuck⟩ dstMaxSize hfuel'
  · exact whileUnits_returns (consumes_drop_one fun _ _ => rfl) trivial dstMaxSize hfuel'
  · exact readAhead_returns advances_utf8 dstMaxSize hfuel'
  · exact readAhead_returns advances_utf16 dstMaxSize hfuel'
  · exact whileUnits_returns (consumes_drop_one fun _ _ => rfl) trivial dstMaxSize hfuel'
  · exact readAhead_returns advances_utf8 dstMaxSize hfuel'
  · exact whileUnitsStop_returns advances_utf16 dstMaxSize hfuel'
  · refine finishes_guard ?_
    exact returns_bind (utf32SizeOfUtf32String_returns hfuel') fun _ _ => returns_ok trivial

theorem stringFrom_returns : Finishes (stringFrom b a fuel dstMaxSize (us ++ 0 :: junk)) := by
  rw [stringFrom_eq_terminate]
  refine finishes_guard ?_
  refine returns_bind (stringnnFrom_returns b a h junk hstuck hfuel dstMaxSize) fun w _ => ?_
  exact finishes_guard (returns_ok trivial)

theorem stringFromLen_returns (len : Nat) :
    Finishes (stringFromLen b a fuel dstMaxSize (us ++ 0 :: junk) len) := by
  have hrest := rest_units h junk
  have hfuel' : rest (us ++ 0 :: junk) < fuel := by omega
  cases b <;> cases a
  · exact (readAheadCounted_returns advances_utf8 1 dstMaxSize len hfuel').1
  · exact (whileUnitsCounted_returns consumes_utf16 ⟨us, junk, rfl, h, hstuck⟩ 1 dstMaxSize
      len hfuel').1
  · exact (whileUnitsCounted_returns (consumes_drop_one fun _ _ => rfl) trivial 0 dstMaxSize
      len hfuel').1
  · exact (readAheadCounted_returns advances_utf8 0 dstMaxSize len hfuel').1
  · exact (readAheadCounted_returns advances_utf16 1 dstMaxSize len hfuel').1
  · exact (whileUnitsCounted_returns (consumes_drop_one fun _ _ => rfl) trivial 0 dstMaxSize
      len hfuel').1
  · exact (readAheadCounted_returns advances_utf8 0 dstMaxSize len hfuel').1
  · exact whileUnitsStopLen_returns advances_utf16 0 dstMaxSize len hfuel'
  · refine finishes_guard ?_
    exact returns_bind (utf32SizeOfUtf32StringLen_returns len hfuel') fun _ _ => returns_ok trivial

omit hstuck in
theorem stringFromSize_returns (size : Nat) :
    Finishes (stringFromSize b a fuel dstMaxSize (us ++ 0 :: junk) size) := by
  have hrest := rest_units h junk
  have hfuel' : rest (us ++ 0 :: junk) < fuel := by omega
  cases b <;> cases a
  · exact returns_ok trivial
  · exact (readAheadCounted_returns advances_utf16 1 dstMaxSize size hfuel').2
  · exact (whileUnitsCounted_returns (consumes_drop_one fun _ _ => rfl) trivial 0 dstMaxSize
      size hfuel').2
  · exact (readAheadCounted_returns advances_utf8 1 dstMaxSize size hfuel').2
  · refine finishes_guard (finishes_guard ?_)
    refine returns_bind (utf16SizeOfUtf16String_returns (by omega)) fun n _ => ?_
    exact finishes_guard (returns_ok trivial)
  · exact (whileUnitsCounted_returns (consumes_drop_one fun _ _ => rfl) trivial 0 dstMaxSize
      size hfuel').2
  · exact (readAheadCounted_returns advances_utf8 0 dstMaxSize size hfuel').2
  · exact (readAheadCounted_returns advances_utf16 0 dstMaxSize size hfuel').2
  · refine finishes_guard ?_
    refine returns_bind (utf32SizeOfUtf32String_returns hfuel') fun n _ => ?_
    exact finishes_guard (returns_ok trivial)

end All

theorem not_halts_of_stuck {b a : Form} {us : List a.Unit} (h : 0 ∉ us) (junk : List a.Unit)
    (hstuck : Stuck b a us = true) (fuel : Nat) : ¬ Halts b a fuel (us ++ 0 :: junk) := by
  intro hhalts
  obtain ⟨n, hn, -⟩ := hhalts.size
  cases b <;> cases a
  case utf8.utf16 =>
    have hsafe := utf8SizeOfUtf16String_safe_false ⟨us, junk, rfl, h, hstuck⟩ fuel
    rw [show utf8SizeOfUtf16String fuel (us ++ 0 :: junk) = .ok n from hn] at hsafe
    exact hsafe
  all_goals cases hstuck

/-- On the units `us` before a terminator, whatever follows it, the functions from `a` to `b` all
return if and only if they do not get stuck, which happens only from UTF-16 to UTF-8 and only where
a low surrogate has no partner. Where they return, a loop takes a unit of the source with every
pass: no function needs more than `us.length + 2` passes. -/
theorem conversions_terminate_iff (b a : Form) (us junk : List a.Unit) (h : 0 ∉ us) :
    ((∃ fuel, Halts b a fuel (us ++ 0 :: junk)) ↔ Stuck b a us = false) ∧
    (Stuck b a us = false → ∀ fuel, us.length + 1 < fuel → Halts b a fuel (us ++ 0 :: junk)) := by
  have hhalts : Stuck b a us = false → ∀ fuel, us.length + 1 < fuel →
      Halts b a fuel (us ++ 0 :: junk) := by
    intro hstuck fuel hfuel
    exact {
      size := sizeOfString_returns b a h junk hstuck hfuel
      sizeLen := sizeOfStringLen_returns b a h junk hstuck hfuel
      length := sizeOfString_returns .utf32 a h junk rfl hfuel
      stringnn := stringnnFrom_returns b a h junk hstuck hfuel
      string := stringFrom_returns b a h junk hstuck hfuel
      stringLen := stringFromLen_returns b a h junk hstuck hfuel
      stringSize := stringFromSize_returns b a h junk hfuel }
  refine ⟨⟨?_, fun hstuck => ⟨_, hhalts hstuck _ (Nat.lt_succ_self _)⟩⟩, hhalts⟩
  rintro ⟨fuel, hfuel⟩
  rw [← Bool.not_eq_true]
  exact fun hstuck => not_halts_of_stuck h junk hstuck fuel hfuel

/-- The theorem at a string with an unpaired high surrogate, where the functions return. -/
theorem conversions_terminate_iff_high :
    (0 : UInt16) ∉ [0x61, 0xD800, 0x62] ∧ hasStrayLow [0x61, 0xD800, 0x62] = false ∧
      Halts .utf8 .utf16 5 ([0x61, 0xD800, 0x62] ++ [0]) := by
  have hne : (0 : UInt16) ∉ [0x61, 0xD800, 0x62] := by decide
  have hstray : hasStrayLow [0x61, 0xD800, 0x62] = false := by decide
  exact ⟨hne, hstray,
    (conversions_terminate_iff .utf8 .utf16 [0x61, 0xD800, 0x62] [] hne).2 hstray 5 (by decide)⟩

/-- The string of one low surrogate: `utf8_size_of_utf16_string` does not return. -/
theorem utf8SizeOfUtf16String_lowSurrogate :
    ¬ ∃ fuel size, utf8SizeOfUtf16String fuel [0xDC00, 0] = .ok size := by
  rintro ⟨fuel, size, h⟩
  induction fuel with
  | zero => cases h
  | succ fuel ih => exact ih h

end Clover.Unicode
