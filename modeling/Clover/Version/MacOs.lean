import Mathlib

/-!
# Versions of macOS and patterns for them

The classes `MacOsVersion` and `MacOsVersionPattern` of `Platform/MacOsVersion.h`. Both keep five
numbers, of which `-1` is an absent one and, in a pattern, `-2` a wildcard. The texts `lastError` of
the errors are left out.
-/

namespace Clover.Version

open List

/-! ## The source -/

def isDigit (c : UInt32) : Bool := 48 ≤ c ∧ c ≤ 57

def isX (c : UInt32) : Bool := c = 120 ∨ c = 88

def digitOf (c : UInt32) : Nat := c.toNat - 48

def nbMaxElement : Nat := 5

/-- What a character other than a dot makes of the current number; `wildcards` is set for a
pattern. -/
def elementStep (wildcards : Bool) (current : Int) (c : UInt32) : Option Int :=
  if wildcards ∧ current = -2 then if isX c then some current else none
  else if current = -1 then
    if wildcards ∧ isX c then some (-2) else if isDigit c then some (digitOf c) else none
  else if isDigit c then some ((current * 10 + digitOf c).bmod (2 ^ 32)) else none

/-- The loop of `takeValueFrom`, with the numbers before the current one. A dot ends a number that
is there. -/
def takeValueFrom (wildcards : Bool) : List Int → Int → List UInt32 → Option (List Int)
  | numbers, current, [] => some (numbers ++ [current])
  | numbers, current, c :: text =>
    if c = 46 ∧ current ≠ -1 then
      if nbMaxElement ≤ numbers.length + 1 then none
      else takeValueFrom wildcards (numbers ++ [current]) (-1) text
    else
      match elementStep wildcards current c with
      | none => none
      | some current => takeValueFrom wildcards numbers current text

/-- The array `versionsNumber`, which `setEmpty` has filled where nothing was read. -/
def versionsNumber (numbers : Option (List Int)) : List Int :=
  numbers.getD [] ++ replicate (nbMaxElement - (numbers.getD []).length) (-1)

def macOsVersion (text : List UInt32) : List Int :=
  versionsNumber (takeValueFrom false [] (-1) text)

def macOsVersionPattern (text : List UInt32) : List Int :=
  versionsNumber (takeValueFrom true [] (-1) text)

def nbElement (numbers : List Int) : Nat := (numbers.takeWhile (· ≠ -1)).length

def lastElement (numbers : List Int) : Int :=
  (numbers.take 1 ++ (numbers.drop 1).takeWhile (· ≠ -1)).getLastD (-1)

/-- The method `match` from place `idx` on, where `numbers` and `elements` are left of the version
and of the pattern. -/
def matchFrom (pattern : List Int) (idx : Nat) : List Int → List Int → Bool
  | number :: numbers, element :: elements =>
    if number ≠ -1 ∧ element ≠ -1 then
      (element = -2 || number = element) && matchFrom pattern (idx + 1) numbers elements
    else if number = -1 then
      element = -1 || (nbElement pattern = idx + 1 && lastElement pattern = -2)
    else lastElement pattern = -2
  | _, _ => true

/-- The method `match`. -/
def matchVersion (version pattern : List Int) : Bool := matchFrom pattern 0 version pattern

/-! ## Texts -/

/-- Texts separated by dots. -/
def dotted : List (List UInt32) → List UInt32
  | [] => []
  | [field] => field
  | field :: fields => field ++ 46 :: dotted fields

/-- The number that digits stand for. -/
def fieldValue (field : List UInt32) : Nat := field.foldl (fun v c => v * 10 + digitOf c) 0

def IsNumber (field : List UInt32) : Prop := field ≠ [] ∧ field.all isDigit

def IsWildcard (field : List UInt32) : Prop := field ≠ [] ∧ field.all isX

/-- Digits that stand together are worth less than `2 ^ 31`. -/
def Small (text : List UInt32) : Prop :=
  ∀ run, run <:+: text → run.all isDigit → fieldValue run < 2 ^ 31

/-- One to five numbers, or wildcards where these are allowed. -/
structure HasShape (wildcards : Bool) (fields : List (List UInt32)) : Prop where
  ne_nil : fields ≠ []
  few : fields.length ≤ 5
  element : ∀ field ∈ fields, IsNumber field ∨ wildcards ∧ IsWildcard field
  small : Small (dotted fields)

/-- A number, or nothing for a wildcard. -/
def component (field : List UInt32) : Option Nat :=
  if field.all isDigit then some (fieldValue field) else none

/-- The components are equally many, and equal where the pattern has no wildcard. -/
def Agree : List Nat → List (Option Nat) → Prop :=
  Forall₂ fun number element => element = none ∨ element = some number

/-- The pattern agrees with the version, or with a prefix of it but for a last wildcard. -/
def Matches (numbers : List Nat) (pattern : List (Option Nat)) : Prop :=
  Agree numbers pattern ∨
    ∃ elements, pattern = elements ++ [none] ∧ Agree (numbers.take elements.length) elements

variable {wildcards : Bool} {text field : List UInt32} {fields : List (List UInt32)}

/-! ## Reading -/

/-- What a field is read as. -/
def readField (wildcards : Bool) (field : List UInt32) : Option Int :=
  if field = [] then some (-1)
  else if field.all isDigit then some (fieldValue field)
  else if wildcards ∧ field.all isX then some (-2)
  else none

/-- The number kept for a field that can be read. -/
def elementValue (field : List UInt32) : Int :=
  if field = [] then -1 else if field.all isDigit then fieldValue field else -2

theorem not_isX_of_isDigit {c : UInt32} (h : isDigit c) : isX c = false := by
  simp only [isDigit, isX, UInt32.le_iff_toNat_le, ← UInt32.toNat_inj, decide_eq_true_eq,
    decide_eq_false_iff_not] at h ⊢
  rintro (hc | hc) <;> simp [hc] at h

theorem takeValueFrom_append (hdot : 46 ∉ field) (numbers : List Int) (current : Int) :
    takeValueFrom wildcards numbers current (field ++ text) =
      (field.foldlM (elementStep wildcards) current).bind fun current =>
        takeValueFrom wildcards numbers current text := by
  induction field generalizing current with
  | nil => rfl
  | cons c field ih =>
    have hc : ¬ (c = 46 ∧ current ≠ -1) := fun h => hdot (h.1 ▸ mem_cons_self)
    rw [cons_append, takeValueFrom, if_neg hc, foldlM_cons]
    cases elementStep wildcards current c with
    | none => rfl
    | some current => exact ih (fun h => hdot (mem_cons_of_mem c h)) current

theorem foldlM_elementStep (hsmall : Small field) :
    field.foldlM (elementStep wildcards) (-1) = readField wildcards field := by
  induction field using reverseRecOn with
  | nil => rfl
  | append_singleton field c ih =>
    have hx := @not_isX_of_isDigit c
    have hvalue : fieldValue (field ++ [c]) = fieldValue field * 10 + digitOf c := by
      simp [fieldValue]
    rw [foldlM_append, ih fun run hrun => hsmall run (hrun.trans (prefix_append _ _).isInfix)]
    by_cases hnil : field = []
    · subst hnil
      cases hc : isDigit c <;> cases hx : isX c <;> simp_all [readField, elementStep, fieldValue]
    have hfirst : field.all isDigit → field.all isX = false := by
      obtain ⟨a, rest, rfl⟩ := exists_cons_of_ne_nil hnil
      intro h
      rw [all_cons, not_isX_of_isDigit (all_eq_true.mp h a mem_cons_self),
        Bool.false_and]
    have h1 : (fieldValue field : Int) ≠ -1 := by omega
    have h2 : (fieldValue field : Int) ≠ -2 := by omega
    by_cases hdigits : field.all isDigit
    · cases hc : isDigit c with
      | true =>
        have hlt := hsmall (field ++ [c]) (infix_refl _) (by simp [hc, hdigits])
        have hbmod : ((fieldValue field : Int) * 10 + digitOf c).bmod 4294967296 =
            fieldValue (field ++ [c]) := by
          rw [hvalue, Int.bmod_eq_of_le (by omega) (by omega)]
          rfl
        simp [readField, elementStep, hnil, hdigits, hc, hbmod, h1, h2]
      | false => simp [readField, elementStep, hnil, hdigits, hfirst hdigits, hc, h1, h2]
    · cases hxs : field.all isX <;> cases hx : isX c <;> cases wildcards <;>
        simp [readField, elementStep, hnil, hdigits, hxs, hx]

theorem small_dotted {rest : List (List UInt32)} (h : Small (dotted (field :: rest))) :
    Small field ∧ Small (dotted rest) := by
  have hinfix : field <:+: dotted (field :: rest) ∧ dotted rest <:+: dotted (field :: rest) := by
    cases rest with
    | nil => exact ⟨infix_refl _, nil_infix⟩
    | cons next rest =>
      exact ⟨(prefix_append _ _).isInfix,
        ((suffix_cons 46 _).trans (suffix_append field _)).isInfix⟩
  exact ⟨fun run hrun => h run (hrun.trans hinfix.1), fun run hrun => h run (hrun.trans hinfix.2)⟩

/-- A field and what follows it. -/
theorem takeValueFrom_field (hdot : 46 ∉ field) (hsmall : Small field) (numbers : List Int) :
    takeValueFrom wildcards numbers (-1) (field ++ text) =
      (readField wildcards field).bind fun current =>
        takeValueFrom wildcards numbers current text := by
  rw [takeValueFrom_append hdot, foldlM_elementStep hsmall]

theorem readField_eq_some {x : Int} :
    readField wildcards field = some x ↔
      (field = [] ∨ IsNumber field ∨ wildcards ∧ IsWildcard field) ∧ elementValue field = x := by
  unfold readField IsNumber IsWildcard elementValue
  by_cases hnil : field = []
  · simp [hnil]
  · cases field.all isDigit <;> cases field.all isX <;> cases wildcards <;> simp [hnil]

theorem takeValueFrom_dot (numbers : List Int) (field text : List UInt32) :
    takeValueFrom wildcards numbers (elementValue field) (46 :: text) =
      if field = [] ∨ 5 ≤ numbers.length + 1 then none
      else takeValueFrom wildcards (numbers ++ [elementValue field]) (-1) text := by
  by_cases hnil : field = []
  · cases wildcards <;> simp [hnil, takeValueFrom, elementValue, elementStep, isDigit, isX]
  · have hne : elementValue field ≠ -1 := by
      rw [elementValue, if_neg hnil]
      split <;> omega
    rw [takeValueFrom, if_pos ⟨rfl, hne⟩, nbMaxElement]
    simp [hnil]

/-- Which texts are read, and as what. -/
theorem takeValueFrom_dotted (hsmall : Small (dotted fields)) (hne : fields ≠ [])
    (hdot : ∀ field ∈ fields, 46 ∉ field) {numbers read : List Int} (hroom : numbers.length < 5) :
    takeValueFrom wildcards numbers (-1) (dotted fields) = some read ↔
      numbers.length + fields.length ≤ 5 ∧ (∀ field ∈ fields.dropLast, field ≠ []) ∧
      (∀ field ∈ fields, field = [] ∨ IsNumber field ∨ wildcards ∧ IsWildcard field) ∧
      numbers ++ fields.map elementValue = read := by
  induction fields using dotted.induct generalizing numbers with
  | case1 => exact absurd rfl hne
  | case2 field =>
    have hfield := @takeValueFrom_field wildcards [] field (hdot field (by simp)) hsmall numbers
    rw [append_nil] at hfield
    rw [dotted, hfield]
    simp [takeValueFrom, Option.bind_eq_some_iff, readField_eq_some, and_assoc]
    omega
  | case3 field fields hnil ih =>
    obtain ⟨hfield, hrest⟩ := small_dotted hsmall
    have hlen := length_pos_of_ne_nil hnil
    have hih := @ih hrest hnil (fun f hf => hdot f (mem_cons_of_mem _ hf))
      (numbers ++ [elementValue field])
    rw [dotted, takeValueFrom_field (hdot field (by simp)) hfield]
    · simp only [Option.bind_eq_some_iff, readField_eq_some, and_assoc, exists_and_left,
        exists_eq_left', takeValueFrom_dot, dropLast_cons_of_ne_nil hnil, forall_mem_cons,
        length_cons, map_cons]
      by_cases hstop : field = [] ∨ 5 ≤ numbers.length + 1
      · rw [if_pos hstop]
        refine ⟨fun h => (nomatch h.2), fun h => ?_⟩
        exact hstop.elim (fun hnil => (h.2.1 hnil).elim) fun hfull => by omega
      · rw [if_neg hstop, hih (by simp; omega)]
        simp [Nat.add_assoc, Nat.add_comm 1]
        tauto
    · exact hnil

/-! ## Matching -/

def toElement : Option Nat → Int
  | none => -2
  | some n => n

section Matches

variable {n : Nat} {ns : List Nat} {c : Option Nat} {cs : List (Option Nat)}

theorem matches_singleton : Matches ns [c] ↔ c = none ∨ ∃ n, ns = [n] ∧ c = some n := by
  match ns with
  | [] => simp [Matches, Agree, cons_eq_append_iff, @eq_comm _ none]
  | [n] =>
    simp [Matches, Agree, cons_eq_append_iff, @eq_comm _ none]
    tauto
  | n :: n' :: ns => simp [Matches, Agree, cons_eq_append_iff, @eq_comm _ none]

theorem matches_cons (hne : cs ≠ []) :
    Matches ns (c :: cs) ↔
      ∃ n rest, ns = n :: rest ∧ (c = none ∨ c = some n) ∧ Matches rest cs := by
  cases ns with
  | nil => simp [Matches, Agree, cons_eq_append_iff, hne]
  | cons n ns =>
    simp only [Matches, Agree, cons_eq_append_iff, forall₂_cons, cons.injEq]
    constructor
    · rintro (⟨hc, h⟩ | ⟨elements, ⟨-, -, hnil⟩ | ⟨rest, rfl, hcs⟩, h⟩)
      · exact ⟨n, ns, ⟨rfl, rfl⟩, hc, .inl h⟩
      · exact absurd hnil.symm hne
      · obtain ⟨hc, h⟩ := forall₂_cons.mp h
        exact ⟨n, ns, ⟨rfl, rfl⟩, hc, .inr ⟨rest, hcs, h⟩⟩
    · rintro ⟨_, _, ⟨rfl, rfl⟩, hc, h | ⟨rest, hcs, h⟩⟩
      · exact .inl ⟨hc, h⟩
      · exact .inr ⟨c :: rest, .inr ⟨rest, rfl, hcs⟩, .cons hc h⟩

variable {pattern : List Int} {idx a b : Nat}

/-- The loop on what is left of a version and of a pattern. -/
theorem matchFrom_iff (hne : cs ≠ []) (hlen : ns.length + a = cs.length + b)
    (hnb : nbElement pattern = idx + cs.length)
    (hlast : lastElement pattern = toElement (cs.getLast hne)) :
    matchFrom pattern idx ((ns.map fun n : Nat => (n : Int)) ++ replicate a (-1))
        (cs.map toElement ++ replicate b (-1)) ↔ Matches ns cs := by
  have hnumber : ∀ n : Nat, (n : Int) ≠ -1 := by omega
  have helement : ∀ c, toElement c ≠ -1 ∧ (toElement c = -2 ↔ c = none) ∧
      ∀ n : Nat, (n : Int) = toElement c ↔ c = some n := by
    intro c
    cases c <;> simp [toElement, eq_comm]
  induction cs generalizing ns idx with
  | nil => exact absurd rfl hne
  | cons c cs ih =>
    obtain ⟨h1, h2, h3⟩ := helement c
    cases cs with
    | nil =>
      rw [matches_singleton]
      match ns with
      | [] =>
        obtain ⟨a, rfl⟩ : ∃ k, a = k + 1 := ⟨b, by simpa [Nat.add_comm] using hlen⟩
        simp [matchFrom, replicate_succ, h1, hnb, hlast, h2]
      | [n] =>
        obtain rfl : a = b := by simpa using hlen
        cases a <;> simp [matchFrom, replicate_succ, h1, h2, h3, hnumber]
      | n :: n' :: ns =>
        obtain ⟨b, rfl⟩ : ∃ k, b = k + 1 := ⟨ns.length + a, by simp at hlen; omega⟩
        simp [matchFrom, replicate_succ, h1, hlast, h2, h3, hnumber]
        tauto
    | cons c' cs =>
      rw [matches_cons (cons_ne_nil _ _)]
      cases ns with
      | nil =>
        obtain ⟨a, rfl⟩ : ∃ k, a = k + 1 := ⟨cs.length + 1 + b, by simp at hlen; omega⟩
        simp [matchFrom, replicate_succ, h1, hnb]
      | cons n ns =>
        have hrest := @ih ns (idx + 1) (cons_ne_nil _ _) (by simp at hlen ⊢; omega)
          (by simp [hnb]; omega) hlast
        rw [map_cons, map_cons, cons_append, cons_append, matchFrom,
          if_pos ⟨hnumber n, h1⟩]
        simp only [Bool.and_eq_true, Bool.or_eq_true, decide_eq_true_eq, h2, h3, hrest]
        simp

end Matches

theorem takeWhile_elements (cs : List (Option Nat)) (k : Nat) :
    (cs.map toElement ++ replicate k (-1)).takeWhile (· ≠ -1) = cs.map toElement := by
  have helement : ∀ x ∈ cs.map toElement, decide (x ≠ -1) = true := by
    simp only [mem_map]
    rintro x ⟨c, -, rfl⟩
    cases c <;> simp [toElement]
  rw [takeWhile_append_of_pos helement]
  cases k <;> simp [replicate_succ]

theorem HasShape.dot (h : HasShape wildcards fields) : ∀ field ∈ fields, 46 ∉ field := by
  intro field hfield hdot
  rcases h.element field hfield with hn | ⟨-, hw⟩
  · exact absurd (all_eq_true.mp hn.2 46 hdot) (by decide)
  · exact absurd (all_eq_true.mp hw.2 46 hdot) (by decide)

theorem HasShape.take (h : HasShape wildcards fields) :
    takeValueFrom wildcards [] (-1) (dotted fields) =
      some ((fields.map component).map toElement) := by
  refine (takeValueFrom_dotted h.small h.ne_nil h.dot (by decide)).mpr
    ⟨by simpa using h.few, fun f hf => ?_, fun f hf => .inr (h.element f hf), ?_⟩
  · have := h.element f (dropLast_subset _ hf)
    exact this.elim (·.1) (·.2.1)
  · rw [nil_append, map_map]
    refine map_congr_left fun f hf => ?_
    have hne : f ≠ [] := (h.element f hf).elim (·.1) (·.2.1)
    simp only [elementValue, if_neg hne, Function.comp_apply, component]
    split <;> rfl

theorem exists_dotted (text : List UInt32) :
    ∃ fields, fields ≠ [] ∧ dotted fields = text ∧ ∀ field ∈ fields, 46 ∉ field := by
  induction text with
  | nil => exact ⟨[[]], by simp [dotted]⟩
  | cons c text ih =>
    obtain ⟨fields, hne, rfl, hdot⟩ := ih
    obtain ⟨field, rest, rfl⟩ := exists_cons_of_ne_nil hne
    by_cases hc : c = 46
    · exact ⟨[] :: field :: rest, by simp, by simp [dotted, hc], by simpa using hdot⟩
    · refine ⟨(c :: field) :: rest, by simp, ?_, ?_⟩
      · cases rest <;> rfl
      · simpa [Ne.symm hc] using hdot

/-- A text that ends in an empty field ends in a dot. -/
theorem getLast?_dotted (hne : fields ≠ []) : (dotted (fields ++ [[]])).getLast? = some 46 := by
  induction fields with
  | nil => exact absurd rfl hne
  | cons field rest ih =>
    cases rest with
    | nil => simp [dotted]
    | cons next rest =>
      have hrest := ih (by simp)
      show (field ++ 46 :: dotted (next :: (rest ++ [[]]))).getLast? = some 46
      rw [cons_append] at hrest
      simp [getLast?_append, getLast?_cons, hrest]

/-- Texts of the shape match as they say, and a text that is none of a pattern and does not end in
a dot matches no version. -/
theorem matchVersion_iff :
    (∀ versions patterns, HasShape false versions → HasShape true patterns →
      (matchVersion (macOsVersion (dotted versions)) (macOsVersionPattern (dotted patterns)) ↔
        Matches (versions.map fieldValue) (patterns.map component))) ∧
    ∀ versions text, HasShape false versions → Small text → text.getLast? ≠ some 46 →
      (∀ patterns, HasShape true patterns → dotted patterns ≠ text) →
      matchVersion (macOsVersion (dotted versions)) (macOsVersionPattern text) = false := by
  have hnumbers : ∀ versions, HasShape false versions →
      macOsVersion (dotted versions) = ((versions.map fieldValue).map fun n : Nat => (n : Int)) ++
        replicate (5 - versions.length) (-1) := by
    intro versions h
    rw [macOsVersion, h.take, versionsNumber, Option.getD_some, map_map, map_map, length_map]
    congr 1
    refine map_congr_left fun f hf => ?_
    have hn := (h.element f hf).resolve_right (by simp)
    simp [component, hn.2, toElement]
  refine ⟨fun versions patterns hv hp => ?_, fun versions text hv hsmall hdot hshape => ?_⟩
  · have hpattern : macOsVersionPattern (dotted patterns) =
        (patterns.map component).map toElement ++ replicate
          (5 - (patterns.map component).length) (-1) := by
      rw [macOsVersionPattern, hp.take, versionsNumber, Option.getD_some, length_map]
      rfl
    rw [matchVersion, hnumbers _ hv, hpattern]
    have hv' := hv.few
    have hp' := hp.few
    have hne : patterns.map component ≠ [] := by simp [hp.ne_nil]
    refine matchFrom_iff hne (by simp; omega) ?_ ?_
    · rw [nbElement, takeWhile_elements]
      simp
    · obtain ⟨c, cs, hcs⟩ := exists_cons_of_ne_nil hne
      simp only [hcs, lastElement, map_cons, cons_append, take_succ_cons,
        take_zero, drop_succ_cons, drop_zero, nil_append, takeWhile_elements]
      rw [← map_cons, getLastD_eq_getLast?, getLast?_eq_some_getLast (by simp), getLast_map]
      rfl
  · obtain ⟨fields, hne, rfl, hdots⟩ := exists_dotted text
    have hempty : macOsVersionPattern (dotted fields) = replicate 5 (-1) := by
      rw [macOsVersionPattern]
      cases hread : takeValueFrom true [] (-1) (dotted fields) with
      | none => rfl
      | some read =>
        obtain ⟨hfew, hinner, helement, rfl⟩ :=
          (takeValueFrom_dotted hsmall hne hdots (by decide)).mp hread
        have hsplit := dropLast_append_getLast hne
        by_cases hlast : fields.getLast hne = []
        · rw [hlast] at hsplit
          by_cases hnil : fields.dropLast = []
          · rw [← hsplit, hnil]
            rfl
          · exact absurd (hsplit ▸ getLast?_dotted hnil) hdot
        · refine absurd rfl (hshape fields ⟨hne, by simpa using hfew, fun f hf => ?_, hsmall⟩)
          refine (helement f hf).resolve_left fun hf' => ?_
          rw [← hsplit, mem_append, mem_singleton] at hf
          exact hf.elim (fun h => hinner f h hf') fun h => hlast (h ▸ hf')
    obtain ⟨version, versions, rfl⟩ := exists_cons_of_ne_nil hv.ne_nil
    rw [matchVersion, hempty, hnumbers _ hv]
    have hnumber : (fieldValue version : Int) ≠ -1 := by omega
    simp [replicate_succ, matchFrom, hnumber, lastElement]

theorem fieldValue_lt (h : field.all isDigit) : fieldValue field < 10 ^ field.length := by
  induction field using reverseRecOn with
  | nil => decide
  | append_singleton field c ih =>
    rw [all_append, Bool.and_eq_true, all_cons, all_nil, Bool.and_true] at h
    have hc : digitOf c < 10 := by
      simp only [isDigit, UInt32.le_iff_toNat_le, decide_eq_true_eq] at h
      have hnine : c.toNat ≤ 57 := h.2.2
      unfold digitOf
      omega
    have hlt := ih h.1
    rw [length_append, length_singleton, pow_succ, fieldValue, foldl_append, foldl_cons, foldl_nil,
      ← fieldValue]
    omega

theorem small_of_short (h : text.length ≤ 9) : Small text := by
  intro run hrun hdigits
  calc fieldValue run < 10 ^ run.length := fieldValue_lt hdigits
    _ ≤ 10 ^ 9 := Nat.pow_le_pow_right (by decide) (hrun.length_le.trans h)
    _ < 2 ^ 31 := by decide

/-- `13.6` matches `13.x`, and does not match `1a`, which is no pattern. -/
theorem matchVersion_iff_sample :
    matchVersion (macOsVersion (dotted [[49, 51], [54]]))
      (macOsVersionPattern (dotted [[49, 51], [120]])) = true ∧
    matchVersion (macOsVersion (dotted [[49, 51], [54]])) (macOsVersionPattern [49, 97]) =
      false := by
  have hversion : HasShape false [[49, 51], [54]] :=
    ⟨by decide, by decide, by simp [IsNumber, isDigit], small_of_short (by decide)⟩
  have hpattern : HasShape true [[49, 51], [120]] :=
    ⟨by decide, by decide, by simp [IsNumber, IsWildcard, isDigit, isX],
      small_of_short (by decide)⟩
  constructor
  · apply (matchVersion_iff.1 _ _ hversion hpattern).mpr
    refine Or.inl (.cons (Or.inr ?_) (.cons (Or.inl ?_) .nil)) <;> rfl
  · refine matchVersion_iff.2 _ _ hversion (small_of_short (by decide)) (by decide) ?_
    intro patterns h heq
    have hread := h.take
    rw [heq] at hread
    cases hread

end Clover.Version
