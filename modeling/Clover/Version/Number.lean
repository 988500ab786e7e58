import Mathlib

/-!
# Version numbers

The function `AsciiStrVersionToUint64` of `Platform/VersionString.cpp`. A part is kept in 16 bits
and saturated after each digit, but the product that precedes the comparison can wrap around: a part
is saturated only if one of its prefixes, taken modulo `2 ^ 16`, reaches the largest value.
-/

namespace Clover.Version

/-! ## The source -/

def partMult : Nat → Nat
  | 0 => 1
  | n + 1 => partMult n * 10 % 2 ^ 16

/-- What a digit does to `part_value`. -/
def addDigit (maxPartValue partValue digit : Nat) : Nat :=
  let partValue := (partValue * 10 + digit) % 2 ^ 16
  if partValue > maxPartValue then maxPartValue else partValue

/-- The step of `result`. -/
def addPart (mult result partValue : Nat) : Nat := (result * mult + partValue) % 2 ^ 64

/-- The last loop; `part_value` is only used in its first pass. -/
def padParts (mult : Nat) : Nat → Nat → Nat → Nat
  | 0, result, _ => result
  | maxParts + 1, result, partValue => padParts mult maxParts (addPart mult result partValue) 0

/-- The loop over the characters. -/
def versionFrom (mult maxPartValue : Nat) : List UInt32 → Nat → Nat → Nat → Nat
  | [], maxParts, result, partValue => padParts mult maxParts result partValue
  | c :: version, maxParts, result, partValue =>
    if maxParts = 0 then result
    else if 48 ≤ c ∧ c ≤ 57 then
      versionFrom mult maxPartValue version maxParts result
        (addDigit maxPartValue partValue (c.toNat - 48))
    else if c = 46 then
      versionFrom mult maxPartValue version (maxParts - 1) (addPart mult result partValue) 0
    else versionFrom mult maxPartValue version maxParts result partValue

/-- The string `NonDetected`. -/
def nonDetected : List UInt32 := [49, 48, 46, 49, 48, 46, 49, 48]

def asciiStrVersionToUint64 (version : List UInt32) (maxDigitByPart maxParts : Nat) : Nat :=
  let mult := partMult maxDigitByPart
  versionFrom mult ((mult + 2 ^ 16 - 1) % 2 ^ 16) (if version = [] then nonDetected else version)
    maxParts 0 0

/-! ## Texts -/

/-- The digits of one number of a version. -/
abbrev Part := List (Fin 10)

/-- The numbers separated by dots. -/
def versionText : List Part → List UInt32
  | [] => []
  | [part] => part.map fun c => 48 + c.val.toUInt32
  | part :: parts => (part.map fun c => 48 + c.val.toUInt32) ++ 46 :: versionText parts

def Part.value (part : Part) : Nat := part.foldl (fun v c => v * 10 + c.val) 0

/-- The values of the first parts, zero for those that are missing. -/
def firstParts (f : Part → Nat) : Nat → List Part → List Nat
  | 0, _ => []
  | n + 1, [] => 0 :: firstParts f n []
  | n + 1, part :: parts => f part :: firstParts f n parts

/-- The first parts of a version, saturated. -/
def saturated (d : Nat) : Nat → List Part → List Nat :=
  firstParts fun part => min part.value (10 ^ d - 1)

/-- The number with the given digits, the first one being the highest. -/
def ofDigits (base : Nat) (digits : List Nat) : Nat := digits.foldl (fun r x => r * base + x) 0

/-- The part is below the largest value, or a prefix of it reaches that value modulo `2 ^ 16`. -/
def Saturates (d : Nat) (part : Part) : Prop :=
  part.value < 10 ^ d - 1 ∨ ∃ q, q <+: part ∧ 10 ^ d - 1 ≤ Part.value q % 2 ^ 16

variable {b d n r r' : Nat} {part : Part} {parts : List Part} {f g : Part → Nat} {l l' : List Nat}

theorem base_spec (hd : 1 ≤ d ∧ d ≤ 4) :
    partMult d = 10 ^ d ∧ (10 ^ d + 2 ^ 16 - 1) % 2 ^ 16 = 10 ^ d - 1 ∧ 0 < 10 ^ d - 1 ∧
      10 ^ d - 1 < 2 ^ 16 ∧ ∀ c < 10, 10 ^ d - 1 ≤ ((10 ^ d - 1) * 10 + c) % 2 ^ 16 := by
  obtain ⟨h1, h4⟩ := hd
  interval_cases d <;> decide

/-! ## One part -/

theorem value_append (part : Part) (c : Fin 10) :
    Part.value (part ++ [c]) = part.value * 10 + c := by
  simp [Part.value]

theorem value_le_of_prefix {q : Part} (h : q <+: part) : q.value ≤ part.value := by
  obtain ⟨rest, rfl⟩ := h
  induction rest using List.reverseRecOn with
  | nil => simp
  | append_singleton rest c ih =>
    rw [← List.append_assoc, value_append]
    omega

def readPart (d : Nat) (part : Part) : Nat :=
  part.foldl (fun v c => addDigit (10 ^ d - 1) v c.val) 0

/-- The largest value is kept, and a value below it is that of the part modulo `2 ^ 16`. -/
theorem readPart_cases (hd : 1 ≤ d ∧ d ≤ 4) (part : Part) :
    (readPart d part = 10 ^ d - 1 ∧ ∃ q, q <+: part ∧ 10 ^ d - 1 ≤ Part.value q % 2 ^ 16) ∨
      (readPart d part = part.value % 2 ^ 16 ∧
        ∀ q, q <+: part → Part.value q % 2 ^ 16 < 10 ^ d - 1) := by
  obtain ⟨-, -, hpos, -, hkeep⟩ := base_spec hd
  induction part using List.reverseRecOn with
  | nil =>
    refine .inr ⟨rfl, fun q hq => ?_⟩
    rw [List.prefix_nil.mp hq]
    exact hpos
  | append_singleton part c ih =>
    have hstep : readPart d (part ++ [c]) = addDigit (10 ^ d - 1) (readPart d part) c := by
      simp [readPart]
    rcases ih with ⟨hmax, q, hq, hreach⟩ | ⟨hval, hbelow⟩
    · have := hkeep c c.isLt
      refine .inl ⟨?_, q, hq.trans (List.prefix_append _ _), hreach⟩
      rw [hstep, hmax, addDigit]
      split <;> omega
    · have hnext : (readPart d part * 10 + c) % 2 ^ 16 = Part.value (part ++ [c]) % 2 ^ 16 := by
        rw [hval, value_append]
        omega
      rw [hstep, addDigit, hnext]
      by_cases hreach : 10 ^ d - 1 ≤ Part.value (part ++ [c]) % 2 ^ 16
      · refine .inl ⟨?_, _, List.prefix_rfl, hreach⟩
        split <;> omega
      · refine .inr ⟨if_neg (by omega), fun q hq => ?_⟩
        rcases List.prefix_concat_iff.mp hq with rfl | hq
        · omega
        · exact hbelow q hq

theorem readPart_eq_iff (hd : 1 ≤ d ∧ d ≤ 4) (part : Part) :
    readPart d part = min part.value (10 ^ d - 1) ↔ Saturates d part := by
  obtain ⟨-, -, -, hfit, -⟩ := base_spec hd
  rcases readPart_cases hd part with ⟨hmax, q, hq, hreach⟩ | ⟨hval, hbelow⟩
  · have hle := value_le_of_prefix hq
    have hmod := Nat.mod_le (Part.value q) (2 ^ 16)
    rw [hmax, min_eq_right (by omega)]
    exact ⟨fun _ => .inr ⟨q, hq, hreach⟩, fun _ => rfl⟩
  · have hself := hbelow part List.prefix_rfl
    rw [hval]
    refine ⟨fun h => .inl (by omega), fun h => ?_⟩
    rcases h with hlt | ⟨q, hq, hreach⟩
    · omega
    · exact absurd hreach (Nat.not_le.mpr (hbelow q hq))

/-! ## All parts -/

theorem versionFrom_part (mult v : Nat) (part : Part) (rest : List UInt32) :
    versionFrom mult (10 ^ d - 1) ((part.map fun c => 48 + c.val.toUInt32) ++ rest) (n + 1) r v =
      versionFrom mult (10 ^ d - 1) rest (n + 1) r
        (part.foldl (fun v c => addDigit (10 ^ d - 1) v c.val) v) := by
  have hdigit : ∀ c : Fin 10, (48 ≤ 48 + c.val.toUInt32 ∧ 48 + c.val.toUInt32 ≤ 57) ∧
      (48 + c.val.toUInt32).toNat - 48 = c := by decide
  induction part generalizing v with
  | nil => rfl
  | cons c part ih =>
    rw [List.map_cons, List.cons_append, versionFrom, if_neg (Nat.succ_ne_zero n),
      if_pos (hdigit c).1, (hdigit c).2, ih]
    rfl

/-- The loop takes a version part by part. -/
theorem versionFrom_text (mult : Nat) (hne : parts ≠ []) :
    versionFrom mult (10 ^ d - 1) (versionText parts) n r 0 =
      (firstParts (readPart d) n parts).foldl (addPart mult) r := by
  have hpad : ∀ n r, padParts mult n r 0 =
      (firstParts (readPart d) n []).foldl (addPart mult) r := by
    intro n
    induction n with
    | zero => exact fun _ => rfl
    | succ n ih => exact fun _ => ih _
  induction parts using versionText.induct generalizing n r with
  | case1 => exact absurd rfl hne
  | case2 part =>
    cases n with
    | zero => cases part <;> rfl
    | succ n =>
      rw [versionText, ← List.append_nil (part.map _), versionFrom_part]
      exact hpad n _
  | case3 part parts hparts ih =>
    cases n with
    | zero => cases versionText (part :: parts) <;> rfl
    | succ n =>
      rw [versionText, versionFrom_part]
      · exact ih hparts
      · exact hparts

theorem foldl_addPart (hl : ∀ x ∈ l, x < b) (hfit : (r + 1) * b ^ l.length ≤ 2 ^ 64) :
    l.foldl (addPart b) r = l.foldl (fun r x => r * b + x) r := by
  induction l generalizing r with
  | nil => rfl
  | cons x l ih =>
    have hx := hl x List.mem_cons_self
    have hnext : (r * b + x + 1) * b ^ l.length ≤ 2 ^ 64 := by
      refine le_trans ?_ hfit
      rw [List.length_cons, Nat.pow_succ', ← Nat.mul_assoc, Nat.add_one_mul r b]
      exact Nat.mul_le_mul_right _ (by omega)
    have hpow := Nat.le_mul_of_pos_right (r * b + x + 1)
        (Nat.pow_pos (n := l.length) (by omega : 0 < b))
    rw [List.foldl_cons, List.foldl_cons, addPart, Nat.mod_eq_of_lt (by omega)]
    exact ih (fun y hy => hl y (List.mem_cons_of_mem x hy)) hnext

theorem foldl_lt_of_lt (hlen : l.length = l'.length) (hl : ∀ x ∈ l, x < b) (hr : r < r') :
    l.foldl (fun r x => r * b + x) r < l'.foldl (fun r x => r * b + x) r' := by
  induction l generalizing r r' l' with
  | nil =>
    rw [List.length_eq_zero_iff.mp hlen.symm]
    exact hr
  | cons x l ih =>
    obtain ⟨y, l', rfl⟩ := List.exists_cons_of_length_eq_add_one hlen.symm
    have hx := hl x List.mem_cons_self
    have hb := Nat.mul_le_mul_right b hr
    rw [Nat.succ_mul] at hb
    rw [List.foldl_cons, List.foldl_cons]
    exact ih (Nat.succ.inj hlen) (fun z hz => hl z (List.mem_cons_of_mem x hz)) (by omega)

/-- Numbers of the same length are ordered as their digits are. -/
theorem foldl_lt_of_lex (hlex : List.Lex (· < ·) l l') (hlen : l.length = l'.length)
    (hl : ∀ x ∈ l, x < b) :
    l.foldl (fun r x => r * b + x) r < l'.foldl (fun r x => r * b + x) r := by
  induction hlex generalizing r with
  | nil => exact absurd hlen (by simp)
  | rel hlt =>
    rw [List.foldl_cons, List.foldl_cons]
    exact foldl_lt_of_lt (Nat.succ.inj hlen) (fun z hz => hl z (List.mem_cons_of_mem _ hz))
      (by omega)
  | cons _ ih => exact ih (Nat.succ.inj hlen) (fun z hz => hl z (List.mem_cons_of_mem _ hz))

theorem firstParts_spec (hf : ∀ part, f part ≤ 10 ^ d - 1) (n : Nat) (parts : List Part) :
    (firstParts f n parts).length = n ∧ ∀ x ∈ firstParts f n parts, x < 10 ^ d := by
  have hpos : 0 < 10 ^ d := Nat.pow_pos (by decide)
  have hlt : ∀ part, f part < 10 ^ d := fun part => by
    have := hf part
    omega
  induction n generalizing parts with
  | zero => simp [firstParts]
  | succ n ih => cases parts <;> simp [firstParts, ih, hlt, hpos] <;> exact (ih _).2

theorem firstParts_eq_iff (n : Nat) (parts : List Part) :
    firstParts f n parts = firstParts g n parts ↔ ∀ part ∈ parts.take n, f part = g part := by
  induction n generalizing parts with
  | zero => simp [firstParts]
  | succ n ih => cases parts <;> simp [firstParts, ih]

theorem readPart_le (hd : 1 ≤ d ∧ d ≤ 4) (part : Part) : readPart d part ≤ 10 ^ d - 1 := by
  rcases readPart_cases hd part with ⟨hmax, -⟩ | ⟨hval, hbelow⟩
  · exact hmax.le
  · exact hval ▸ (hbelow part List.prefix_rfl).le

theorem asciiStrVersionToUint64_eq (hd : 1 ≤ d ∧ d ≤ 4) (hn : n ≤ 4)
    (hne : versionText parts ≠ []) :
    asciiStrVersionToUint64 (versionText parts) d n =
      ofDigits (10 ^ d) (firstParts (readPart d) n parts) := by
  obtain ⟨hmult, hmax, -⟩ := base_spec hd
  obtain ⟨hlen, hlt⟩ := firstParts_spec (readPart_le hd) n parts
  have hparts : parts ≠ [] := by
    rintro rfl
    exact hne rfl
  rw [asciiStrVersionToUint64, hmult, hmax, if_neg hne, versionFrom_text _ hparts]
  refine foldl_addPart hlt ?_
  rw [hlen, Nat.one_mul, ← Nat.pow_mul]
  exact le_trans (Nat.pow_le_pow_right (by decide) (Nat.mul_le_mul hd.2 hn)) (by decide)

/-- The version is converted exactly if each of its first parts is saturated, and such versions are
ordered as their parts are. -/
theorem asciiStrVersionToUint64_exact_iff (hd : 1 ≤ d ∧ d ≤ 4) (hn : n ≤ 4)
    (hne : versionText parts ≠ []) :
    (asciiStrVersionToUint64 (versionText parts) d n = ofDigits (10 ^ d) (saturated d n parts) ↔
      ∀ part ∈ parts.take n, Saturates d part) ∧
    ∀ parts', versionText parts' ≠ [] → (∀ part ∈ parts.take n, Saturates d part) →
      (∀ part ∈ parts'.take n, Saturates d part) →
      List.Lex (· < ·) (saturated d n parts) (saturated d n parts') ∨
        saturated d n parts = saturated d n parts' →
      asciiStrVersionToUint64 (versionText parts) d n ≤
        asciiStrVersionToUint64 (versionText parts') d n := by
  have hall : ∀ parts, firstParts (readPart d) n parts = saturated d n parts ↔
      ∀ part ∈ parts.take n, Saturates d part := by
    intro parts
    simp only [saturated, firstParts_eq_iff, readPart_eq_iff hd]
  have hread := firstParts_spec (readPart_le hd) n
  have hsat : ∀ parts, (saturated d n parts).length = n ∧ ∀ x ∈ saturated d n parts, x < 10 ^ d :=
    firstParts_spec (fun part => min_le_right _ _) n
  rw [asciiStrVersionToUint64_eq hd hn hne]
  refine ⟨⟨fun h => (hall parts).mp ?_, fun h => ?_⟩, fun parts' hne' h h' hle => ?_⟩
  · rcases lt_trichotomy (firstParts (readPart d) n parts) (saturated d n parts) with
      hlt | heq | hlt
    · exact absurd h (foldl_lt_of_lex hlt ((hread parts).1.trans (hsat parts).1.symm)
        (hread parts).2).ne
    · exact heq
    · exact absurd h (foldl_lt_of_lex hlt ((hsat parts).1.trans (hread parts).1.symm)
        (hsat parts).2).ne'
  · rw [(hall parts).mpr h]
  · rw [asciiStrVersionToUint64_eq hd hn hne', (hall parts).mpr h, (hall parts').mpr h']
    rcases hle with hlex | heq
    · exact (foldl_lt_of_lex hlex ((hsat parts).1.trans (hsat parts').1.symm) (hsat parts).2).le
    · rw [heq]

theorem asciiStrVersionToUint64_exact_iff_macOs :
    asciiStrVersionToUint64 (versionText [[1, 0], [9]]) 2 3 = ofDigits 100 [10, 9, 0] := by
  refine (asciiStrVersionToUint64_exact_iff (by decide) (by decide) (by decide)).1.mpr ?_
  exact fun part hpart => .inl (by revert part; decide)

/-- The part 65540 wraps around to 4. -/
theorem part_wraps :
    asciiStrVersionToUint64 (versionText [[6, 5, 5, 4, 0]]) 4 1 = 4 ∧
      ofDigits (10 ^ 4) (saturated 4 1 [[6, 5, 5, 4, 0]]) = 9999 := by
  decide

end Clover.Version
