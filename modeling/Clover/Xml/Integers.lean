import Clover.Lib.Bytes
import Clover.Xml.Outcomes

/-!
# Reading integers

What the eight integer types make of an `<integer>`, a `<string>` or a `<data>`, compared with the
number the element denotes.

The texts that denote a number are `0x` or `0X` with hex digits, and decimal digits with an
optional minus sign (`textInteger`). The code takes any text for a hexadecimal one whose second
character is an `x` (`codeInteger`); within this it refuses just what is out of the range of the
type. A `<data>` is never refused: the value is cut to eight bytes and then to the type. And the
result for `XmlInt64` goes through a cast to `int8_t`. `readsExactly_iff` says which elements
remain.
-/

namespace Clover.Xml

open Clover.Lib Clover.Lib.Run XmlLiteParser List Option

variable {digit : UInt8 → Option Nat} {text x : Bytes} {result width base : Nat} {e : Element}
  (i : IntegerType) {v : Scalar Int} {c : UInt8}

/-! ## Numerals -/

/-- The number that digits denote behind `n`. -/
def numeral (base : Nat) (digit : UInt8 → Option Nat) : Bytes → Nat → Option Nat
  | [], n => some n
  | c :: text, n => (digit c).bind fun d => numeral base digit text (n * base + d)

theorem le_numeral (hbase : 0 < base) {n m : Nat}
    (h : numeral base digit text n = some m) : n ≤ m := by
  induction text generalizing n with
  | nil => exact le_of_eq (Option.some.inj h)
  | cons c text ih =>
    obtain ⟨d, -, hd⟩ := Option.bind_eq_some_iff.mp h
    have := ih hd
    have := Nat.le_mul_of_pos_right n hbase
    omega

/-- Digits are read up to 64 bits. -/
theorem readDigits_toOption (hbase : 0 < base)
    (hdigit : ∀ c d, digit c = some d → d < 16) (text : Bytes) {n : Nat} (hn : n < 2 ^ 64) :
    (readDigits base digit text n).toOption =
      (numeral base digit text n).filter fun m => decide (m < 2 ^ 64) := by
  induction text generalizing n with
  | nil =>
    rw [readDigits, numeral, filter_some, if_pos (decide_eq_true hn)]
    rfl
  | cons c text ih =>
    rw [readDigits, numeral]
    cases hc : digit c with
    | none => rfl
    | some d =>
      have hd := hdigit c d hc
      simp only [bind_some, Nat.div_lt_iff_lt_mul hbase]
      by_cases hlt : n * base + d < 2 ^ 64
      · rw [if_neg (by omega), if_neg (by omega)]
        exact ih hlt
      · -- what has overflowed once is never small again
        have hnone : (numeral base digit text (n * base + d)).filter
            (fun m => decide (m < 2 ^ 64)) = none := by
          rw [filter_eq_none_iff]
          intro m hm
          have := le_numeral hbase hm
          simp only [decide_eq_true_eq]
          omega
        rw [hnone]
        split
        · rfl
        · rw [if_pos (by omega)]
          rfl

theorem decimalDigit_lt {d : Nat} (h : decimalDigit c = some d) : d < 16 := by
  unfold decimalDigit at h
  split at h
  · next hc =>
    have h1 := UInt8.le_iff_toNat_le.mp hc.2
    cases h
    simp only [UInt8.toNat_ofNat] at h1
    omega
  · cases h

theorem hexadecimalDigit_lt {d : Nat} (h : hexadecimalDigit c = some d) : d < 16 := by
  unfold hexadecimalDigit at h
  split at h
  · next hc =>
    have h1 := UInt8.le_iff_toNat_le.mp hc.2
    cases h
    simp only [UInt8.toNat_ofNat] at h1
    omega
  split at h
  · next hc =>
    have h1 := UInt8.le_iff_toNat_le.mp hc.2
    cases h
    simp only [UInt8.toNat_ofNat] at h1
    omega
  split at h
  · next hc =>
    have h1 := UInt8.le_iff_toNat_le.mp hc.2
    cases h
    simp only [UInt8.toNat_ofNat] at h1
    omega
  · cases h

/-- The number that decimal digits denote, of which there must be one. -/
def decimalNumeral (text : Bytes) : Option Nat :=
  if text = [] then none else numeral 10 decimalDigit text 0

/-- The text starts like a hexadecimal number, whatever its first character is. -/
def LooksHex (text : Bytes) : Prop :=
  1 < text.length ∧ (text.getD 1 0 = 120 ∨ text.getD 1 0 = 88)

instance (text : Bytes) : Decidable (LooksHex text) := inferInstanceAs (Decidable (_ ∧ _))

/-- The number a text denotes: `0x` or `0X` with hex digits, of which there need not be any, or
decimal digits with an optional minus sign. -/
def textInteger (text : Bytes) : Option Int :=
  if [48, 120] <+: text ∨ [48, 88] <+: text then
    (numeral 16 hexadecimalDigit (text.drop 2) 0).map Int.ofNat
  else if [45] <+: text then (decimalNumeral (text.drop 1)).map fun n : Nat => -(n : Int)
  else (decimalNumeral text).map Int.ofNat

/-- The number the code reads in a text. -/
def codeInteger (text : Bytes) : Option Int :=
  if LooksHex text then (numeral 16 hexadecimalDigit (text.drop 2) 0).map Int.ofNat
  else if [45] <+: text then (decimalNumeral (text.drop 1)).map fun n : Nat => -(n : Int)
  else (decimalNumeral text).map Int.ofNat

namespace IntegerType

variable (i : IntegerType)

/-- The values of the type. -/
def InRange (n : Int) : Prop := i.minimum ≤ n ∧ n ≤ i.maximum

instance (n : Int) : Decidable (i.InRange n) := inferInstanceAs (Decidable (_ ∧ _))

theorem minimum_nonpos : i.minimum ≤ 0 := by
  cases i <;> decide

theorem minimum_ge : -2 ^ 63 ≤ i.minimum := by
  cases i <;> decide

theorem maximum_lt : i.maximum < 2 ^ 64 := by
  cases i <;> decide

end IntegerType

/-- The number of the variables `result` and `negative`. -/
def signedOf (r : Nat × Bool) : Int := if r.2 then -(r.1 : Int) else r.1

theorem checkRange_toOption (result : Nat) (negative : Bool) :
    (checkRange i.minimum i.maximum result negative).toOption.map signedOf =
      (some (signedOf (result, negative))).filter fun n => decide (i.InRange n) := by
  have hmin := i.minimum_nonpos
  have hge := i.minimum_ge
  rw [checkRange, filter_some]
  cases negative with
  | false =>
    simp only [Bool.not_false, if_true, signedOf, Bool.false_eq_true, if_false,
      decide_eq_true_eq, IntegerType.InRange]
    by_cases h : result ≤ i.maximum
    · rw [if_neg (by omega), if_pos (by omega)]
      rfl
    · rw [if_pos (by omega), if_neg (by omega)]
      rfl
  | true =>
    simp only [Bool.not_true, Bool.false_eq_true, if_false, signedOf, if_true,
      decide_eq_true_eq, IntegerType.InRange]
    by_cases h : i.minimum ≤ -(result : Int)
    · rw [if_neg (by omega), if_pos (by omega)]
      rfl
    · rw [if_pos (by omega), if_neg (by omega)]
      rfl

theorem filter_filter (sign : Nat → Int) (hsign : ∀ n, (sign n).natAbs = n) (o : Option Nat) :
    ((o.filter fun m => decide (m < 2 ^ 64)).map sign).filter (fun n => decide (i.InRange n)) =
      (o.map sign).filter fun n => decide (i.InRange n) := by
  cases o with
  | none => rfl
  | some m =>
    rw [filter_some]
    split
    · rfl
    · next hm =>
      have hmax := i.maximum_lt
      have hmin := i.minimum_ge
      have habs := hsign m
      simp only [decide_eq_true_eq] at hm
      have hout : ¬ i.InRange (sign m) := by
        rw [IntegerType.InRange]
        omega
      rw [map_some, filter_some, decide_eq_false hout]
      rfl

theorem digits_bind (r : Except DigitError Nat) (e e' : IntegerError)
    (k : Nat → Except IntegerError (Nat × Bool)) :
    (match r with
      | .error .digit => .error e
      | .error .overflow => .error e'
      | .ok result => k result : Except IntegerError (Nat × Bool)).toOption =
      r.toOption.bind fun result => (k result).toOption := by
  match r with
  | .error .digit => rfl
  | .error .overflow => rfl
  | .ok result => rfl

theorem read_checkRange (base : Nat) (hbase : 0 < base)
    (hdigit : ∀ c d, digit c = some d → d < 16) (text : Bytes) (negative : Bool) :
    ((readDigits base digit text 0).toOption.bind fun result =>
        (checkRange i.minimum i.maximum result negative).toOption).map signedOf =
      ((numeral base digit text 0).map fun n => signedOf (n, negative)).filter
        fun n => decide (i.InRange n) := by
  have habs : ∀ n, (signedOf (n, negative)).natAbs = n := by
    intro n
    cases negative <;> simp [signedOf]
  rw [readDigits_toOption hbase hdigit text (Nat.two_pow_pos 64),
    ← filter_filter i _ habs (numeral base digit text 0)]
  cases (numeral base digit text 0).filter fun m => decide (m < 2 ^ 64) with
  | none => rfl
  | some m => exact checkRange_toOption i m negative

/-- The texts that are read are those the code takes for a number in range. -/
theorem integerText_toOption (text : Bytes) :
    (integerText i.minimum i.maximum text).toOption.map signedOf =
      (codeInteger text).filter fun n => decide (i.InRange n) := by
  unfold integerText codeInteger
  by_cases hhex : LooksHex text
  · rw [if_pos hhex, if_pos (show 1 < text.length ∧ _ from hhex)]
    refine (congrArg (Option.map signedOf) (digits_bind _ _ _ _)).trans ?_
    by_cases hnil : text.drop 2 = []
    · simp only [hnil, if_true]
      have h0 : i.InRange 0 := ⟨i.minimum_nonpos, Int.natCast_nonneg _⟩
      rw [numeral, map_some, filter_some, decide_eq_true (show i.InRange (Int.ofNat 0)
        from h0)]
      rfl
    · simp only [hnil, if_false]
      exact read_checkRange i 16 (by decide) (fun c d => hexadecimalDigit_lt) _ false
  · rw [if_neg hhex, if_neg (show ¬ (1 < text.length ∧ _) from hhex)]
    cases text with
    | nil => rfl
    | cons c text =>
      simp only [length_cons, getD_cons_zero, drop_succ_cons, drop_zero,
        cons_prefix_cons, nil_prefix, and_true]
      by_cases hminus : c = 45
      · subst hminus
        simp only [decide_true, if_true]
        refine (congrArg (Option.map signedOf) (digits_bind _ _ _ _)).trans ?_
        by_cases hnil : text = []
        · simp only [hnil, if_true, Except.toOption]
          rfl
        · rw [decimalNumeral, if_neg hnil]
          simp only [hnil, if_false]
          exact read_checkRange i 10 (by decide) (fun c d => decimalDigit_lt) _ true
      · have hne : ¬ (45 : UInt8) = c := fun h => hminus h.symm
        rw [if_neg hne, decimalNumeral, if_neg (cons_ne_nil c text)]
        by_cases hdigit : 48 ≤ c ∧ c ≤ 57
        · rw [if_pos ⟨Nat.le_add_left _ _, Or.inl hdigit⟩]
          simp only [hminus, decide_false, Bool.false_eq_true, if_false]
          refine (congrArg (Option.map signedOf) (digits_bind _ _ _ _)).trans ?_
          exact read_checkRange i 10 (by decide) (fun c d => decimalDigit_lt) _ false
        · rw [if_neg fun h => h.2.elim hdigit hminus, numeral, decimalDigit, if_neg hdigit]
          rfl

/-! ## What the code takes for a number -/

/-- The code takes the text for a hexadecimal number, and it is none. -/
def FalseHex (text : Bytes) : Prop := LooksHex text ∧ text.getD 0 0 ≠ 48

instance (text : Bytes) : Decidable (FalseHex text) := inferInstanceAs (Decidable (_ ∧ _))

theorem looksHex_iff (h : ¬ FalseHex text) :
    LooksHex text ↔ [48, 120] <+: text ∨ [48, 88] <+: text := by
  match text with
  | [] => simp [LooksHex]
  | [c] => simp [LooksHex]
  | c :: d :: text =>
    simp only [FalseHex, LooksHex, length_cons, getD_cons_succ, getD_cons_zero,
      cons_prefix_cons, nil_prefix, and_true, not_and, not_not] at h ⊢
    have hlength : 1 < text.length + 1 + 1 := by omega
    constructor
    · rintro ⟨-, hd⟩
      rcases hd with rfl | rfl
      · exact Or.inl ⟨(h ⟨hlength, Or.inl rfl⟩).symm, rfl⟩
      · exact Or.inr ⟨(h ⟨hlength, Or.inr rfl⟩).symm, rfl⟩
    · rintro (⟨-, rfl⟩ | ⟨-, rfl⟩)
      · exact ⟨hlength, Or.inl rfl⟩
      · exact ⟨hlength, Or.inr rfl⟩

theorem codeInteger_eq (h : ¬ FalseHex text) : codeInteger text = textInteger text := by
  simp only [codeInteger, textInteger, looksHex_iff h]

/-- A number with an `x` in second place that does not start with a zero is none. -/
theorem textInteger_falseHex (h : FalseHex text) : textInteger text = none := by
  obtain ⟨⟨hlength, hd⟩, hc⟩ := h
  match text, hlength with
  | c :: d :: text, _ =>
    have hnodigit : decimalDigit d = none := by
      rcases hd with rfl | rfl <;> rfl
    unfold textInteger
    simp only [cons_prefix_cons, nil_prefix, and_true]
    rw [if_neg (by rintro (h | h) <;> exact hc h.1.symm)]
    split
    · rw [drop_succ_cons, drop_zero, decimalNumeral, if_neg (cons_ne_nil _ _),
        numeral, hnodigit]
      rfl
    · rw [decimalNumeral, if_neg (cons_ne_nil _ _), numeral]
      cases decimalDigit c with
      | none => rfl
      | some n =>
        rw [bind_some, numeral, hnodigit]
        rfl

theorem falseHex_code (h : FalseHex text) :
    (∃ n, codeInteger text = some n ∧ i.InRange n) ↔
      ∃ n, numeral 16 hexadecimalDigit (text.drop 2) 0 = some n ∧ n ≤ i.maximum := by
  have hmin := i.minimum_nonpos
  rw [codeInteger, if_pos h.1]
  constructor
  · rintro ⟨_, hn, -, hmax⟩
    obtain ⟨m, hm, rfl⟩ := Option.map_eq_some_iff.mp hn
    exact ⟨m, hm, Int.ofNat_le.mp hmax⟩
  · rintro ⟨m, hm, hmax⟩
    refine ⟨Int.ofNat m, by rw [hm, map_some], ?_, Int.ofNat_le.mpr hmax⟩
    exact Int.le_trans hmin (Int.natCast_nonneg m)

/-! ## Storing -/

theorem setUnsigned_eq (h : result < 2 ^ width) :
    IntegerType.setUnsigned width result false = .accept (result : Int) := by
  rw [IntegerType.setUnsigned, if_neg Bool.false_ne_true, Nat.mod_eq_of_lt h]

theorem setSigned_eq {negative : Bool}
    (hmin : -2 ^ width ≤ signedOf (result, negative) * 2)
    (hmax : signedOf (result, negative) * 2 < 2 ^ width) :
    IntegerType.setSigned width width result negative =
      .accept (signedOf (result, negative)) := by
  cases negative with
  | false =>
    have h : (result : Int).bmod (2 ^ width) = result := Int.bmod_eq_of_le_mul_two hmin hmax
    rw [IntegerType.setSigned, h]
    rfl
  | true =>
    have h : (-(result : Int)).bmod (2 ^ width) = -result := Int.bmod_eq_of_le_mul_two hmin hmax
    rw [IntegerType.setSigned, if_pos rfl, Int.bmod_neg_bmod, h]
    rfl

theorem setSigned_int64 (result : Nat) (negative : Bool) :
    ∃ x, IntegerType.setSigned 64 8 result negative = .accept x ∧
      (x = signedOf (result, negative) ↔ result ≤ 127) := by
  have hlt : (result : Int).bmod (2 ^ 8) < 128 := Int.bmod_lt (by decide)
  have hle : -128 ≤ (result : Int).bmod (2 ^ 8) := Int.le_bmod (by decide)
  have hself : (result : Int).bmod (2 ^ 8) = result ↔ result ≤ 127 := by
    constructor
    · intro h
      omega
    · intro h
      exact Int.bmod_eq_of_le_mul_two (by omega) (by omega)
  cases negative with
  | false =>
    refine ⟨(result : Int).bmod (2 ^ 8), ?_, hself⟩
    rw [IntegerType.setSigned, if_neg Bool.false_ne_true]
  | true =>
    have hwide : ∀ m : Nat, 256 < m →
        (-(result : Int).bmod (2 ^ 8)).bmod m = -(result : Int).bmod (2 ^ 8) :=
      fun m hm => Int.bmod_eq_of_le_mul_two (by omega) (by omega)
    have houter := hwide (2 ^ 64) (by decide)
    refine ⟨-(result : Int).bmod (2 ^ 8), ?_, ?_⟩
    · rw [IntegerType.setSigned, if_pos rfl, houter]
    · rw [← hself, signedOf, if_pos rfl]
      omega

/-- The value that is stored for a number in range is that number, unless the cast of `XmlInt64`
changes it. -/
theorem store_value (i : IntegerType) {result : Nat} {negative : Bool}
    (hzero : negative = true → result ≠ 0) (hrange : i.InRange (signedOf (result, negative))) :
    ∃ x, i.store result negative = .accept x ∧
      (x = signedOf (result, negative) ↔ (i = .int64 → result ≤ 127)) := by
  obtain ⟨hmin, hmax⟩ := hrange
  by_cases hi : i = .int64
  · subst hi
    obtain ⟨x, hstore, hx⟩ := setSigned_int64 result negative
    exact ⟨x, hstore, hx.trans ⟨fun h _ => h, fun h => h rfl⟩⟩
  · refine ⟨signedOf (result, negative), ?_, iff_of_true rfl fun h => absurd h hi⟩
    have hcast : i.castWidth = i.width := by
      cases i <;> first | rfl | exact absurd rfl hi
    rw [IntegerType.store, hcast]
    cases hsigned : i.signed with
    | true =>
      have hwidth : (2 : Int) ^ i.width = 2 ^ (i.width - 1) * 2 := by
        cases i <;> rfl
      rw [IntegerType.minimum, hsigned, if_pos rfl] at hmin
      have hmax' : signedOf (result, negative) < 2 ^ (i.width - 1) := by
        cases i <;> first | exact Int.lt_add_one_of_le hmax | cases hsigned
      exact setSigned_eq (by omega) (by omega)
    | false =>
      rw [IntegerType.minimum, hsigned, if_neg Bool.false_ne_true] at hmin
      cases negative with
      | true =>
        rw [signedOf, if_pos rfl] at hmin
        exact absurd (hzero rfl) (by simp only [not_not]; omega)
      | false =>
        refine setUnsigned_eq (lt_of_le_of_lt (Int.ofNat_le.mp hmax) ?_)
        cases i <;> decide

/-! ## Data -/

theorem littleEndian_eq (bytes : Bytes) : littleEndian bytes = leValue (bytes.take 8) := by
  unfold littleEndian
  generalize bytes.take 8 = bs
  induction bs with
  | nil => rfl
  | cons b bs ih => rw [foldr_cons, ih, leValue]

theorem leValue_take (n : Nat) (bytes : Bytes) :
    leValue (bytes.take n) = leValue bytes % 256 ^ n := by
  induction n generalizing bytes with
  | zero => rw [take_zero, leValue, Nat.pow_zero, Nat.mod_one]
  | succ n ih =>
    cases bytes with
    | nil => rw [take_nil, leValue, Nat.zero_mod]
    | cons b bytes =>
      have hb : b.toNat < 256 := b.toNat_lt
      rw [take_succ_cons, leValue, leValue, ih, Nat.pow_succ, Nat.mul_comm _ 256,
        Nat.mod_mul, Nat.add_mul_mod_self_left, Nat.mod_eq_of_lt hb,
        Nat.add_mul_div_left _ _ (by decide), Nat.div_eq_of_lt hb, Nat.zero_add]

/-- The number a `<data>` denotes. -/
def dataInteger (text : Bytes) : Nat := leValue (base64DecodeBlock .a 0 text)

/-! ## Elements -/

/-- The number an element denotes, by its tag. -/
def Element.integer? (e : Element) : Option Int :=
  match e.simple with
  | none => none
  | some x =>
    if e.tag.val = lit "integer" ∨ e.tag.val = lit "string" then textInteger x
    else if e.tag.val = lit "data" then some (dataInteger x : Int)
    else none

/-- The type reads the element exactly: with success just when it denotes a number in the range of
the type, and then this is the value. -/
def ReadsExactly (i : IntegerType) (e : Element) : Prop :=
  ∀ (fuel : Nat) (a : XmlLiteParser) (w : Blank) (u xmlPath : Bytes) (g : Bool)
    (v : Scalar Int), w.val ++ e.write u <:+ a.buf → a.size < fuel →
    ∃ b v' a', (xmlInteger i).parseFromXmlLite fuel v (a.before (w.val ++ e.write u)) xmlPath g =
        .ok (b, v', a') ∧
      (b = true ↔ ∃ n, e.integer? = some n ∧ i.InRange n) ∧
      (b = true → v'.isDefined = true ∧ e.integer? = some v'.value)

/-- What has to be excluded: a text with an `x` in second place behind another character than a
zero that goes on like a hexadecimal number in range, a `<data>` out of range, and for `XmlInt64`
what has more than seven bits. -/
def Sound (i : IntegerType) (e : Element) : Prop :=
  match e.simple with
  | none => True
  | some x =>
    if e.tag.val = lit "data" then
      dataInteger x ≤ i.maximum ∧ (i = .int64 → dataInteger x ≤ 127)
    else
      ¬ (FalseHex x ∧ ∃ n, numeral 16 hexadecimalDigit (x.drop 2) 0 = some n ∧ n ≤ i.maximum) ∧
      (i = .int64 → ∀ n, textInteger x = some n → i.InRange n → n.natAbs ≤ 127)

/-- What is returned and stored is right. -/
def Right (i : IntegerType) (denoted : Option Int) : Option (Stored Int) → Prop
  | none => ¬ ∃ n, denoted = some n ∧ i.InRange n
  | some stored => (stored.returned = true ↔ ∃ n, denoted = some n ∧ i.InRange n) ∧
      (stored.returned = true → stored.defines = true ∧ denoted = some stored.value)

theorem outcome_right {i : IntegerType} {denoted : Option Int}
    (hv : v.isDefined = false) (o : Option (Stored Int)) :
    (((v.outcome o).1 = true ↔ ∃ n, denoted = some n ∧ i.InRange n) ∧
      ((v.outcome o).1 = true →
        (v.outcome o).2.isDefined = true ∧ denoted = some (v.outcome o).2.value)) ↔
      Right i denoted o := by
  match o with
  | none => simp only [Scalar.outcome, Right, Bool.false_eq_true, false_iff,
    false_implies, and_true]
  | some ⟨value, true, returned⟩ => exact Iff.rfl
  | some ⟨value, false, returned⟩ =>
    simp [Scalar.outcome, Right, hv]

/-- The integer that is read, before it is stored. -/
def Element.readInteger (i : IntegerType) (e : Element) (x : Bytes) : Option (Nat × Bool) :=
  (integerValue i.minimum i.maximum e.tag.val x).1

theorem readsExactly_iff_right (hx : e.simple = some x) :
    ReadsExactly i e ↔
      Right i e.integer? ((e.readInteger i x).map fun r => i.store r.1 r.2) := by
  have hrun : ∀ {fuel : Nat} {a : XmlLiteParser} {w : Blank} {u : Bytes} (xmlPath : Bytes)
      (g : Bool) (v : Scalar Int), w.val ++ e.write u <:+ a.buf → a.size < fuel → ∃ a',
      (xmlInteger i).parseFromXmlLite fuel v (a.before (w.val ++ e.write u)) xmlPath g =
        .ok ((((xmlInteger i).undefined v).outcome
            ((e.readInteger i x).map fun r => i.store r.1 r.2)).1,
          (((xmlInteger i).undefined v).outcome
            ((e.readInteger i x).map fun r => i.store r.1 r.2)).2, a') := by
    intro fuel a w u xmlPath g v h hfuel
    obtain ⟨a', hrun, -⟩ := parse_simple (t := xmlInteger i) (v := v) xmlPath (g := g) rfl hx
      (madeOf_xmlInteger i e.tag.val x) h hfuel
    exact ⟨_, hrun⟩
  constructor
  · intro h
    -- what is returned does not depend on the text around the element, so any parser will do
    have hscene := Scene.alone true (noGap.val ++ e.write [])
    obtain ⟨b, v', a', hok, hright⟩ :=
      h _ _ noGap [] [] true ⟨false, 0⟩ hscene.suffix hscene.fuel
    obtain ⟨a'', hok'⟩ := hrun [] true ⟨false, 0⟩ hscene.suffix hscene.fuel
    rw [hok'] at hok
    cases hok
    exact (outcome_right (ScalarType.undefined_isDefined _) _).mp hright
  · intro h fuel a w u xmlPath g v hsuffix hfuel
    obtain ⟨a', hok⟩ := hrun xmlPath g v hsuffix hfuel
    exact ⟨_, _, a', hok,
      (outcome_right (ScalarType.undefined_isDefined (t := xmlInteger i) v) _).mpr h⟩

theorem readInteger_text (x : Bytes)
    (htag : e.tag.val = lit "integer" ∨ e.tag.val = lit "string") :
    (e.readInteger i x).map signedOf = (codeInteger x).filter (fun n => decide (i.InRange n)) ∧
      ∀ r ∈ e.readInteger i x, r.2 = true → r.1 ≠ 0 := by
  rw [← integerText_toOption]
  unfold Element.readInteger integerValue
  rw [if_pos htag]
  cases integerText i.minimum i.maximum x with
  | error e => exact ⟨rfl, nofun⟩
  | ok r =>
    dsimp only
    split
    · next h =>
      refine ⟨?_, ?_⟩
      · simp [Except.toOption, signedOf, h.2]
      · rintro _ ⟨⟩ ⟨⟩
    · next h =>
      refine ⟨rfl, ?_⟩
      rintro _ ⟨⟩ hneg hzero
      exact h ⟨hneg, hzero⟩

/-- A text is read right, but for letters taken for hexadecimal. -/
theorem right_text (htag : e.tag.val = lit "integer" ∨ e.tag.val = lit "string") :
    Right i (textInteger x) ((e.readInteger i x).map fun r => i.store r.1 r.2) ↔
      ¬ (FalseHex x ∧ ∃ n, codeInteger x = some n ∧ i.InRange n) ∧
      (i = .int64 → ∀ n, textInteger x = some n → i.InRange n → n.natAbs ≤ 127) := by
  obtain ⟨hread, hsign⟩ := readInteger_text i x htag
  cases hr : e.readInteger i x with
  | none =>
    -- nothing is read, and no number in range is denoted
    rw [hr, map_none] at hread
    have hnone := Option.filter_eq_none_iff.mp hread.symm
    simp only [decide_eq_true_eq] at hnone
    have htext : ¬ ∃ n, textInteger x = some n ∧ i.InRange n := by
      rintro ⟨n, hn, hrange⟩
      by_cases hfalse : FalseHex x
      · rw [textInteger_falseHex hfalse] at hn
        cases hn
      · rw [← codeInteger_eq hfalse] at hn
        exact hnone n hn hrange
    refine iff_of_true htext ⟨?_, ?_⟩
    · rintro ⟨-, n, hn, hrange⟩
      exact hnone n hn hrange
    · intro _ n hn hrange
      exact absurd ⟨n, hn, hrange⟩ htext
  | some r =>
    obtain ⟨result, negative⟩ := r
    rw [hr, map_some] at hread
    obtain ⟨hcode, hrange⟩ := Option.filter_eq_some_iff.mp hread.symm
    rw [decide_eq_true_eq] at hrange
    obtain ⟨y, hstore, hy⟩ := store_value i (hsign (result, negative) hr) hrange
    rw [map_some, hstore]
    have habs : (signedOf (result, negative)).natAbs = result := by
      cases negative <;> simp [signedOf]
    by_cases hfalse : FalseHex x
    · rw [textInteger_falseHex hfalse]
      refine iff_of_false ?_ fun h => h.1 ⟨hfalse, _, hcode, hrange⟩
      rintro ⟨hiff, -⟩
      obtain ⟨n, hn, -⟩ := hiff.mp rfl
      cases hn
    · rw [← codeInteger_eq hfalse, hcode]
      have hRight : Right i (some (signedOf (result, negative))) (some (.accept y)) ↔
          y = signedOf (result, negative) := by
        constructor
        · rintro ⟨-, hvalue⟩
          exact (Option.some.inj (hvalue rfl).2).symm
        · rintro rfl
          exact ⟨iff_of_true rfl ⟨_, rfl, hrange⟩, fun _ => ⟨rfl, rfl⟩⟩
      rw [hRight, hy]
      constructor
      · intro h
        refine ⟨fun hboth => hfalse hboth.1, ?_⟩
        rintro hi _ ⟨⟩ -
        rw [habs]
        exact h hi
      · rintro ⟨-, h⟩ hi
        rw [← habs]
        exact h hi _ rfl hrange

theorem right_data {e : Element} {x : Bytes} (htag : e.tag.val = lit "data") :
    Right i (some (dataInteger x : Int)) ((e.readInteger i x).map fun r => i.store r.1 r.2) ↔
      dataInteger x ≤ i.maximum ∧ (i = .int64 → dataInteger x ≤ 127) := by
  have hread : e.readInteger i x = some (dataInteger x % 2 ^ 64, false) := by
    have hvalue : ∀ bytes, littleEndian bytes = leValue bytes % 2 ^ 64 :=
      fun bytes => (littleEndian_eq bytes).trans (leValue_take 8 bytes)
    have hother : ¬ (e.tag.val = lit "integer" ∨ e.tag.val = lit "string") := by
      rw [htag]
      decide
    unfold Element.readInteger integerValue base64DecodeClover dataInteger
    rw [if_neg hother, if_pos htag]
    cases base64DecodeBlock .a 0 x with
    | nil => rfl
    | cons b bytes => simp only [hvalue]
  obtain ⟨y, hstore⟩ : ∃ y, i.store (dataInteger x % 2 ^ 64) false = .accept y := by
    unfold IntegerType.store
    split
    · exact ⟨_, rfl⟩
    · exact ⟨_, rfl⟩
  rw [hread, map_some, hstore]
  have hnonneg := i.minimum_nonpos
  have hmax := i.maximum_lt
  by_cases hrange : dataInteger x ≤ i.maximum
  · have hin : i.InRange (signedOf (dataInteger x, false)) :=
      ⟨by simp only [signedOf, Bool.false_eq_true, if_false]; omega, Int.ofNat_le.mpr hrange⟩
    obtain ⟨y', hstore', hy⟩ := @store_value i (dataInteger x) false
      (fun h => absurd h Bool.false_ne_true) hin
    rw [Nat.mod_eq_of_lt (by omega), hstore'] at hstore
    obtain rfl : y' = y := congrArg Stored.value hstore
    constructor
    · rintro ⟨-, hvalue⟩
      exact ⟨hrange, hy.mp (Option.some.inj (hvalue rfl).2).symm⟩
    · rintro ⟨-, h⟩
      exact ⟨iff_of_true rfl ⟨_, rfl, hin⟩, fun _ => ⟨rfl, congrArg some (hy.mpr h).symm⟩⟩
  · refine iff_of_false ?_ fun h => hrange h.1
    rintro ⟨hiff, -⟩
    obtain ⟨n, hn, hin⟩ := hiff.mp rfl
    cases hn
    exact hrange (Int.ofNat_le.mp hin.2)

/-! ## The elements that are read exactly -/

/-- An integer type reads an element with one of its tags exactly just when it is `Sound`. -/
theorem readsExactly_iff (i : IntegerType) {e : Element}
    (htag : e.tag.val = lit "integer" ∨ e.tag.val = lit "string" ∨ e.tag.val = lit "data") :
    ReadsExactly i e ↔ Sound i e := by
  unfold Sound
  cases hx : e.simple with
  | none =>
    -- an element with children denotes no number, and it is refused
    refine iff_of_true ?_ trivial
    intro fuel a w u xmlPath g v h hfuel
    obtain ⟨a', u', hrun, -⟩ := parse_children (t := xmlInteger i) (v := v) xmlPath (g := g) rfl hx
      h hfuel
    refine ⟨_, _, _, hrun, ?_, Bool.noConfusion⟩
    simp [Element.integer?, hx]
  | some x =>
    rw [readsExactly_iff_right i hx]
    simp only [Element.integer?, hx]
    by_cases hdata : e.tag.val = lit "data"
    · have hother : ¬ (e.tag.val = lit "integer" ∨ e.tag.val = lit "string") := by
        rw [hdata]
        decide
      rw [if_neg hother, if_pos hdata, if_pos hdata]
      exact right_data i hdata
    · have htext : e.tag.val = lit "integer" ∨ e.tag.val = lit "string" := by
        tauto
      rw [if_pos htext, if_neg hdata, right_text i htext, and_congr_right (falseHex_code i)]

def dataTag : TagName := ⟨lit "data", by decide⟩

/-- The number 200 is read exactly as a `uint8`. -/
theorem readsExactly_iff_uint8 : ReadsExactly .uint8 (.text integerTag ⟨lit "200", by decide⟩) :=
  (readsExactly_iff .uint8 (Or.inl rfl)).mpr
    ⟨fun h => absurd h.1 (by decide), nofun⟩

/-- An object that has not been read. -/
def unread : Scalar Int := ⟨false, 0⟩

/-- What is returned and stored for an element by itself. -/
def readAlone (i : IntegerType) (e : Element) : Run (Bool × Scalar Int) :=
  ((xmlInteger i).parseFromXmlLite ((e.write []).length + 1) unread
    (XmlLiteParser.before ⟨e.write [], ⟨0, 1, 1⟩, [], false⟩ (e.write [])) [] true).map
      fun r => (r.1, r.2.1)

theorem not_readsExactly {i : IntegerType} (hrun : readAlone i e = .ok (true, v))
    (hne : e.integer? ≠ some v.value) :
    ¬ ReadsExactly i e := by
  intro h
  have hscene := Scene.alone true (noGap.val ++ e.write [])
  obtain ⟨b, v', a', hok, -, hvalue⟩ :=
    h _ _ noGap [] [] true unread hscene.suffix hscene.fuel
  have hmap := congrArg (Except.map fun r => (r.1, r.2.1)) hok
  have heq := Except.ok.inj (hrun.symm.trans hmap)
  cases heq
  exact hne (hvalue rfl).2

/-- `XmlInt64` reads 200 as -56, the text `1x5` is read as 5, and a `<data>` of the bytes 0 and 1 is
read as 0 into a `uint8`. -/
theorem integers_not_exact :
    ¬ ReadsExactly .int64 (.text integerTag ⟨lit "200", by decide⟩) ∧
    ¬ ReadsExactly .uint8 (.text integerTag ⟨lit "1x5", by decide⟩) ∧
    ¬ ReadsExactly .uint8 (.text dataTag ⟨lit "AAE=", by decide⟩) := by
  refine ⟨?_, ?_, ?_⟩
  · exact not_readsExactly (v := ⟨true, -56⟩) (by decide +kernel) (by decide +kernel)
  · exact not_readsExactly (v := ⟨true, 5⟩) (by decide +kernel) (by decide +kernel)
  · exact not_readsExactly (v := ⟨true, 0⟩) (by decide +kernel) (by decide +kernel)

end Clover.Xml
