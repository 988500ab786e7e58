import Clover.Plist.Scan

/-!
# Values that are printed and read again

Integers and data come back as they were printed. A string comes back only if it has no entity to
decode: `XMLDecode` on a text is described by `Decodes`, which lowers the number of characters at
every `&`.
-/

namespace Clover.Plist

open Clover.Unicode Clover.Xml Clover.Lib List

variable {i n outlen srclen : Nat} {s : Bytes} {cs : List UInt32}
  (value : BitVec 64) (data : Bytes)

/-! ## Integers -/

theorem readDigits_append (value : UInt8 → Option Nat) (base integer : BitVec 64)
    (s s' : Bytes) : readDigits value base integer (s ++ s') =
      readDigits value base integer s >>= fun integer => readDigits value base integer s' := by
  induction s generalizing integer with
  | nil => rfl
  | cons c s ih =>
    rw [cons_append, readDigits, readDigits]
    cases value c with
    | none => rfl
    | some digit => exact ih _

theorem decimal_of_lt (h : n < 10) : decimal n = [n.toUInt8 + 48] := by
  have hall : ∀ n < 10, decimal n = [n.toUInt8 + 48] := by decide
  exact hall n h

theorem decimal_of_le (h : 10 ≤ n) : decimal n = decimal (n / 10) ++ [(n % 10).toUInt8 + 48] := by
  rw [decimal, if_neg (by omega), decimal, if_neg (by omega),
    Nat.digits_def' (by decide) (by omega), reverse_cons, map_append]
  rfl

theorem decimalValue_digit {d : Nat} (h : d < 10) : decimalValue (d.toUInt8 + 48) = some d := by
  have hall : ∀ d < 10, decimalValue (d.toUInt8 + 48) = some d := by decide
  exact hall d h

theorem readDigits_decimal (n : Nat) :
    readDigits decimalValue 10 0 (decimal n) = .ok (BitVec.ofNat 64 n) := by
  induction n using Nat.strongRecOn with
  | ind n ih =>
    by_cases h : n < 10
    · rw [decimal_of_lt h, readDigits, decimalValue_digit h]
      simp [readDigits]
    · rw [decimal_of_le (by omega), readDigits_append, ih (n / 10) (by omega)]
      change readDigits decimalValue 10 (BitVec.ofNat 64 (n / 10)) _ = _
      rw [readDigits, decimalValue_digit (Nat.mod_lt n (by decide))]
      change Except.ok (BitVec.ofNat 64 (n / 10) * BitVec.ofNat 64 10 + BitVec.ofNat 64 (n % 10)) =
        _
      rw [← BitVec.ofNat_mul, ← BitVec.ofNat_add, Nat.div_add_mod']

theorem decimal_digits (n : Nat) : ∀ c ∈ decimal n, 48 ≤ c ∧ c ≤ 57 := by
  induction n using Nat.strongRecOn with
  | ind n ih =>
    have hdigit : ∀ d < 10, 48 ≤ d.toUInt8 + 48 ∧ d.toUInt8 + 48 ≤ 57 := by decide
    by_cases h : n < 10
    · intro c hc
      rw [decimal_of_lt h, mem_singleton] at hc
      exact hc ▸ hdigit n h
    · intro c hc
      rw [decimal_of_le (by omega), mem_append, mem_singleton] at hc
      obtain hc | rfl := hc
      · exact ih (n / 10) (by omega) c hc
      · exact hdigit _ (Nat.mod_lt n (by decide))

theorem printInt64_bytes : ∀ c ∈ printInt64 value, c = 45 ∨ 48 ≤ c ∧ c ≤ 57 := by
  intro c hc
  rw [printInt64] at hc
  split at hc
  · exact (mem_cons.mp hc).imp_right (decimal_digits _ c)
  · exact .inr (decimal_digits _ c hc)

theorem decimal_ne_nil (n : Nat) : decimal n ≠ [] := by
  by_cases h : n < 10
  · simp [decimal_of_lt h]
  · simp [decimal_of_le (Nat.le_of_not_lt h)]

theorem clean_printInt64 : Clean (printInt64 value) := by
  have hbyte : ∀ c : UInt8, (c = 45 ∨ 48 ≤ c ∧ c ≤ 57) → c ≠ 0 ∧ c < 0x80 ∧ c ≠ 60 := by
    apply forall_byte
    decide +kernel
  exact fun c hc => hbyte c (printInt64_bytes value c hc)

theorem cString_append (hs : 0 ∉ s) (rest : Bytes) : cString (s ++ 0 :: rest) = s := by
  rw [cString, takeWhile_append_of_pos]
  · rw [takeWhile_cons_of_neg (by decide), append_nil]
  · intro c hc
    exact decide_eq_true fun h => hs (h ▸ hc)

theorem printInt64_getD_one (rest : Bytes) :
    (printInt64 value ++ 0 :: rest).getD 1 0 ≠ 120 ∧
      (printInt64 value ++ 0 :: rest).getD 1 0 ≠ 88 := by
  have hbyte : ∀ c : UInt8, (c = 45 ∨ 48 ≤ c ∧ c ≤ 57) → c ≠ 120 ∧ c ≠ 88 := by
    apply forall_byte
    decide +kernel
  have hbytes := printInt64_bytes value
  have hne : printInt64 value ≠ [] := by
    rw [printInt64]
    split
    · exact cons_ne_nil _ _
    · exact decimal_ne_nil _
  generalize printInt64 value = s at hbytes hne
  match s, hne with
  | [a], _ => exact (by decide : (0 : UInt8) ≠ 120 ∧ (0 : UInt8) ≠ 88)
  | a :: b :: s, _ => exact hbyte b (hbytes b (mem_cons_of_mem _ mem_cons_self))

/-- A number is read back as it was printed. -/
theorem readInteger_printInt64 {size : Nat} (hsize : (printInt64 value).length < size)
    (rest : Bytes) : readInteger (printInt64 value ++ 0 :: rest) size = .ok value := by
  obtain ⟨hx, hX⟩ := printInt64_getD_one value rest
  have hzero := (clean_printInt64 value).passed.1
  rw [readInteger, if_neg fun h => h.2.elim hx hX, if_pos (by omega)]
  rw [printInt64] at hsize hzero ⊢
  by_cases hneg : value.toInt < 0
  · rw [if_pos hneg] at hsize hzero ⊢
    rw [length_cons] at hsize
    have hdecimal : 0 ∉ decimal value.toInt.natAbs := fun h => hzero (mem_cons_of_mem _ h)
    rw [cons_append]
    refine (if_pos rfl).trans ?_
    rw [drop_succ_cons, drop_zero, cString_append hdecimal,
      take_of_length_le (by omega), readDigits_decimal]
    change Except.ok (-BitVec.ofNat 64 value.toInt.natAbs) = _
    rw [← BitVec.ofInt_natCast, ← BitVec.ofInt_neg, Int.ofNat_natAbs_of_nonpos (Int.le_of_lt hneg),
      Int.neg_neg, BitVec.ofInt_toInt]
  · rw [if_neg hneg] at hsize hzero ⊢
    have hfirst : (decimal value.toInt.natAbs ++ 0 :: rest).getD 0 0 ≠ 45 := by
      obtain ⟨c, s, hs⟩ := exists_cons_of_ne_nil (decimal_ne_nil value.toInt.natAbs)
      have hc := decimal_digits value.toInt.natAbs c (hs ▸ mem_cons_self)
      rw [hs]
      rintro rfl
      exact absurd hc.1 (by decide)
    rw [if_neg hfirst, cString_append hzero, take_of_length_le (by omega), readDigits_decimal,
      ← BitVec.ofInt_natCast, Int.natAbs_of_nonneg (Int.not_lt.mp hneg), BitVec.ofInt_toInt]

/-! ## Data -/

theorem triple_places {a b c : Nat} (ha : a < 256) (hb : b < 256) (hc : c < 256) :
    (((a <<< 0x10) + (b <<< 0x08) + c) >>> 18) &&& 0x3F = a / 4 ∧
    (((a <<< 0x10) + (b <<< 0x08) + c) >>> 12) &&& 0x3F = a % 4 * 16 + b / 16 ∧
    (((a <<< 0x10) + (b <<< 0x08) + c) >>> 6) &&& 0x3F = b % 16 * 4 + c / 64 ∧
    ((a <<< 0x10) + (b <<< 0x08) + c) &&& 0x3F = c % 64 := by
  simp only [Nat.shiftLeft_eq, Nat.shiftRight_eq_div_pow, Nat.and_two_pow_sub_one_eq_mod _ 6]
  omega

theorem base64DecodeValue_table (h : i < 64) : base64DecodeValue (encodingTable.getD i 0) = i := by
  have hall : ∀ i < 64, base64DecodeValue (encodingTable.getD i 0) = i := by decide +kernel
  exact hall i h

/-- How the bytes are put together from the places of two characters. -/
theorem assemble_octets : ∀ x : Nat, x < 64 → ∀ y : Nat, y < 64 →
    (x.toUInt8 &&& 0x3f) <<< 2 ||| (y.toUInt8 &&& 0x30) >>> 4 = (x * 4 + y / 16).toUInt8 ∧
    (x.toUInt8 &&& 0x0f) <<< 4 ||| (y.toUInt8 &&& 0x3c) >>> 2 = (x % 16 * 16 + y / 4).toUInt8 ∧
    (x.toUInt8 &&& 0x03) <<< 6 ||| (y.toUInt8 &&& 0x3f) = (x % 4 * 64 + y).toUInt8 := by
  decide +kernel

theorem base64DecodeBlock_table (h : i < 64) (step : Base64DecodeStep) (plain : UInt8)
    (code : Bytes) :
    base64DecodeBlock step plain (encodingTable.getD i 0 :: code) =
      match step with
      | .a => base64DecodeBlock .b ((i.toUInt8 &&& 0x3f) <<< 2) code
      | .b => (plain ||| ((i.toUInt8 &&& 0x30) >>> 4)) ::
          base64DecodeBlock .c ((i.toUInt8 &&& 0x0f) <<< 4) code
      | .c => (plain ||| ((i.toUInt8 &&& 0x3c) >>> 2)) ::
          base64DecodeBlock .d ((i.toUInt8 &&& 0x03) <<< 6) code
      | .d => (plain ||| (i.toUInt8 &&& 0x3f)) :: base64DecodeBlock .a 0 code := by
  rw [base64DecodeBlock.eq_def]
  dsimp only
  rw [base64DecodeValue_table h, if_neg (by omega)]
  rfl

/-- Bytes that are not part of the code. -/
def Skipped (s : Bytes) : Prop := ∀ c ∈ s, base64DecodeValue c < 0

theorem base64DecodeBlock_skipped (hs : Skipped s) (step : Base64DecodeStep) (plain : UInt8)
    (code : Bytes) :
    base64DecodeBlock step plain (s ++ code) = base64DecodeBlock step plain code := by
  induction s with
  | nil => rfl
  | cons c s ih =>
    exact (if_pos (hs c mem_cons_self)).trans (ih fun c hc => hs c (mem_cons_of_mem _ hc))

theorem base64DecodeBlock_skipped_end (hs : Skipped s) (step : Base64DecodeStep) (plain : UInt8) :
    base64DecodeBlock step plain s = [] := by
  rw [← append_nil s, base64DecodeBlock_skipped hs]
  cases step <;> rfl

section Triple

variable (a b c : UInt8)

theorem base64Triple_eq : base64Triple a b c =
    [encodingTable.getD (a.toNat / 4) 0, encodingTable.getD (a.toNat % 4 * 16 + b.toNat / 16) 0,
      encodingTable.getD (b.toNat % 16 * 4 + c.toNat / 64) 0,
      encodingTable.getD (c.toNat % 64) 0] := by
  obtain ⟨h0, h1, h2, h3⟩ := triple_places a.toNat_lt b.toNat_lt c.toNat_lt
  rw [base64Triple, h0, h1, h2, h3]

theorem decode_first (code : Bytes) :
    base64DecodeBlock .a 0 (encodingTable.getD (a.toNat / 4) 0 ::
      encodingTable.getD (a.toNat % 4 * 16 + b.toNat / 16) 0 :: code) =
      a :: base64DecodeBlock .c
        (((a.toNat % 4 * 16 + b.toNat / 16).toUInt8 &&& 0x0f) <<< 4) code := by
  have ha := a.toNat_lt
  have hb := b.toNat_lt
  rw [base64DecodeBlock_table (by omega), base64DecodeBlock_table (by omega)]
  dsimp only
  rw [(assemble_octets _ (by omega) _ (by omega)).1]
  congr 1
  rw [show a.toNat / 4 * 4 + (a.toNat % 4 * 16 + b.toNat / 16) / 16 = a.toNat by omega]
  exact UInt8.ofNat_toNat

theorem decode_second (i : Nat) (hi : i < 64) (hb : i % 16 = b.toNat / 16) (code : Bytes) :
    base64DecodeBlock .c ((i.toUInt8 &&& 0x0f) <<< 4)
      (encodingTable.getD (b.toNat % 16 * 4 + c.toNat / 64) 0 :: code) =
      b :: base64DecodeBlock .d
        (((b.toNat % 16 * 4 + c.toNat / 64).toUInt8 &&& 0x03) <<< 6) code := by
  have := c.toNat_lt
  rw [base64DecodeBlock_table (by omega)]
  dsimp only
  rw [(assemble_octets i hi _ (by omega)).2.1]
  congr 1
  rw [show i % 16 * 16 + (b.toNat % 16 * 4 + c.toNat / 64) / 4 = b.toNat by omega]
  exact UInt8.ofNat_toNat

theorem decode_third (i : Nat) (hi : i < 64) (hc : i % 4 = c.toNat / 64) (code : Bytes) :
    base64DecodeBlock .d ((i.toUInt8 &&& 0x03) <<< 6)
      (encodingTable.getD (c.toNat % 64) 0 :: code) = c :: base64DecodeBlock .a 0 code := by
  rw [base64DecodeBlock_table (by omega)]
  dsimp only
  rw [(assemble_octets i hi _ (by omega)).2.2]
  congr 1
  rw [show i % 4 * 64 + c.toNat % 64 = c.toNat by omega]
  exact UInt8.ofNat_toNat

end Triple

/-- Data are decoded to what they were. -/
theorem base64DecodeBlock_encode (hs : Skipped s) :
    base64DecodeBlock .a 0 (base64Encode data ++ s) = data := by
  have hpad : ∀ c ∈ lit "==", base64DecodeValue c < 0 := by decide
  induction data using base64Encode.induct with
  | case1 => exact base64DecodeBlock_skipped_end hs .a 0
  | case2 a =>
    have hend : Skipped (lit "==" ++ s) := fun c hc => (mem_append.mp hc).elim (hpad c) (hs c)
    rw [base64Encode, base64Triple_eq, append_assoc]
    simp only [take_succ_cons, take_zero, cons_append, nil_append]
    rw [decode_first, base64DecodeBlock_skipped_end hend]
  | case3 a b =>
    have hend : Skipped (lit "=" ++ s) := fun c hc =>
      (mem_append.mp hc).elim (fun h => hpad c (by
        exact mem_append_left _ h)) (hs c)
    have hb := b.toNat_lt
    rw [base64Encode, base64Triple_eq, append_assoc]
    simp only [take_succ_cons, take_zero, cons_append, nil_append]
    rw [decode_first, decode_second b 0 _ (by omega) (by omega),
      base64DecodeBlock_skipped_end hend]
  | case4 a b c data ih =>
    have hb := b.toNat_lt
    have hc := c.toNat_lt
    rw [base64Encode, base64Triple_eq]
    simp only [cons_append, nil_append]
    rw [decode_first, decode_second b c _ (by omega) (by omega), decode_third c _ (by omega)
      (by omega), ih]

theorem base64DecodeClover_encode {s' : Bytes} (hs : Skipped s) (hs' : Skipped s') :
    (base64DecodeClover (s ++ base64Encode data ++ s')).getD [] = data := by
  rw [base64DecodeClover, append_assoc, base64DecodeBlock_skipped hs,
    base64DecodeBlock_encode data hs']
  cases data <;> rfl

/-- The test `isspace`. -/
def isWhitespace (c : UInt8) : Bool := c = 32 ∨ 9 ≤ c ∧ c ≤ 13

theorem base64DecodeBlock_filter (text : Bytes) (step : Base64DecodeStep) (plain : UInt8) :
    base64DecodeBlock step plain (text.filter fun c => !isWhitespace c) =
      base64DecodeBlock step plain text := by
  have hskip : ∀ c, isWhitespace c = true → base64DecodeValue c < 0 := by
    intro c hc
    have hlow : c.toNat < 43 := by
      simp only [isWhitespace, UInt8.le_iff_toNat_le, ← UInt8.toNat_inj, decide_eq_true_eq] at hc
      rcases hc with h | h
      · exact h ▸ by decide
      · exact Nat.lt_of_le_of_lt h.2 (by decide)
    rw [base64DecodeValue, if_pos hlow]
    decide
  induction text generalizing step plain with
  | nil => rfl
  | cons c text ih =>
    cases hc : isWhitespace c with
    | true => simp [hc, ih, base64DecodeBlock, hskip c hc]
    | false => cases step <;> simp [hc, ih, base64DecodeBlock]

/-- Data are read from their code with whitespace at any places. -/
theorem base64DecodeClover_whitespace {data text : Bytes} (hne : data ≠ [])
    (htext : (text.filter fun c => !isWhitespace c) = base64Encode data) :
    base64DecodeClover text = some data := by
  have hdecode := base64DecodeBlock_encode (s := []) data nofun
  rw [append_nil, ← htext, base64DecodeBlock_filter] at hdecode
  rw [base64DecodeClover, hdecode]
  cases data with
  | nil => exact absurd rfl hne
  | cons => rfl

theorem base64DecodeClover_whitespace_line : base64DecodeClover (lit " Q\nQ= =") = some (lit "A") :=
  base64DecodeClover_whitespace (by decide) (by decide)

theorem clean_table (h : i < 64) :
    encodingTable.getD i 0 ≠ 0 ∧ encodingTable.getD i 0 < 0x80 ∧ encodingTable.getD i 0 ≠ 60 := by
  revert i
  decide +kernel

theorem clean_base64Triple (a b c : UInt8) : Clean (base64Triple a b c) := by
  have ha := a.toNat_lt
  have hb := b.toNat_lt
  have hc := c.toNat_lt
  rw [base64Triple_eq]
  intro d hd
  simp only [mem_cons, not_mem_nil, or_false] at hd
  obtain rfl | rfl | rfl | rfl := hd
  · exact clean_table (by omega)
  · exact clean_table (by omega)
  · exact clean_table (by omega)
  · exact clean_table (by omega)

theorem clean_base64Encode : Clean (base64Encode data) := by
  have hpad : ∀ s, s = lit "==" ∨ s = lit "=" → Clean s := by
    rintro s (rfl | rfl)
    · simp only [Clean]
      decide
    · simp only [Clean]
      decide
  induction data using base64Encode.induct with
  | case1 => exact nofun
  | case2 a =>
    exact Clean.append (fun c hc => clean_base64Triple a 0 0 c (mem_of_mem_take hc))
      (hpad _ (.inl rfl))
  | case3 a b =>
    exact Clean.append (fun c hc => clean_base64Triple a b 0 c (mem_of_mem_take hc))
      (hpad _ (.inr rfl))
  | case4 a b c data ih => exact (clean_base64Triple a b c).append ih

/-! ## Entities -/

theorem getD_at (hi : s.length = i) (b : UInt8) (rest : Bytes) : (s ++ b :: rest).getD i 0 = b :=
  hi ▸ getD_length_append s b rest

theorem xmlDecodeFrom_run {run : Bytes} (hrun : 38 ∉ run) {a b : Bytes}
    (out : Bytes) (hi : a.length = i) (hsrc : i + run.length ≤ srclen)
    (hout : out.length + run.length ≤ outlen) :
    xmlDecodeFrom (a ++ (run ++ b)) srclen outlen (n + run.length) i out =
      xmlDecodeFrom (a ++ (run ++ b)) srclen outlen n (i + run.length) (out ++ run) := by
  induction run generalizing a i out with
  | nil => rw [append_nil]; rfl
  | cons c run ih =>
    rw [length_cons] at hsrc hout
    have hc : c ≠ 38 := fun h => hrun (h ▸ mem_cons_self)
    have hbyte : (a ++ (c :: run ++ b)).getD i 0 = c := getD_at hi c (run ++ b)
    rw [length_cons, ← add_assoc, xmlDecodeFrom, if_pos (by omega), hbyte, if_neg hc,
      if_neg (by omega)]
    have h := ih (fun h => hrun (mem_cons_of_mem _ h)) (a := a ++ [c]) (i := i + 1)
      (out ++ [c]) (by simp [hi]) (by omega) (by
        rw [length_append, length_singleton]
        omega)
    rw [append_assoc] at h
    refine h.trans ?_
    rw [append_assoc, add_assoc i 1, add_comm 1]
    rfl

theorem xmlDecode_plain (hs : 38 ∉ s) (rest : Bytes) :
    xmlDecode (s ++ rest) s.length s.length = s := by
  have h := xmlDecodeFrom_run hs (a := []) (b := rest) (n := 0) (i := 0) [] rfl
    (le_of_eq (zero_add _)) (le_of_eq (zero_add _))
  rw [zero_add] at h
  exact h

/-- What `XMLDecode` makes of the characters of a text, up to the first zero. -/
inductive Decodes : List UInt32 → List UInt32 → Prop where
  | nil : Decodes [] []
  | entity {e : Bytes × UInt8} {cs ds : List UInt32} (he : e ∈ ents) (h : Decodes cs ds) :
      Decodes (38 :: (e.1.map UInt8.toUInt32 ++ cs)) (e.2.toUInt32 :: ds)
  | unseen (c : UInt32) {cs ds : List UInt32} (h : Decodes cs ds) :
      Decodes (38 :: c :: cs) (c :: ds)
  /-- The byte behind the last `&` is the terminator. -/
  | last : Decodes [38] []
  | plain {c : UInt32} {cs ds : List UInt32} (hc : c ≠ 38) (h : Decodes cs ds) :
      Decodes (c :: cs) (c :: ds)

theorem ents_ascii : ∀ e ∈ ents, (∀ c ∈ e.1, c ≠ 0 ∧ c < 0x80) ∧ e.2 ≠ 0 ∧ e.2 < 0x80 := by
  decide

namespace Decodes

variable {cs ds : List UInt32}

theorem isText (h : Decodes cs ds) (hcs : IsText cs) : IsText ds := by
  induction h with
  | nil => exact hcs
  | entity he h ih =>
    intro c hc
    obtain rfl | hc := mem_cons.mp hc
    · exact isChar_toUInt32 (ents_ascii _ he).2.1
    · exact ih (fun c hc => hcs c (mem_cons_of_mem _ (mem_append_right _ hc))) c hc
  | unseen c h ih =>
    intro d hd
    obtain rfl | hd := mem_cons.mp hd
    · exact hcs.tail d mem_cons_self
    · exact ih hcs.tail.tail d hd
  | last => exact nofun
  | plain hc h ih =>
    intro d hd
    obtain rfl | hd := mem_cons.mp hd
    · exact hcs d mem_cons_self
    · exact ih hcs.tail d hd

theorem length_le (h : Decodes cs ds) : ds.length ≤ cs.length := by
  induction h with
  | nil => exact le_refl _
  | entity he h ih =>
    simp only [length_cons, length_append]
    omega
  | unseen c h ih => exact Nat.succ_le_succ (Nat.le_succ_of_le ih)
  | last => exact Nat.zero_le _
  | plain hc h ih => exact Nat.succ_le_succ ih

theorem length_lt (h : Decodes cs ds) (hmem : 38 ∈ cs) : ds.length < cs.length := by
  induction h with
  | nil => cases hmem
  | entity he h ih =>
    have hne : ∀ e ∈ ents, 0 < e.1.length := by decide
    have := hne _ he
    have := h.length_le
    simp only [length_cons, length_append, length_map]
    omega
  | unseen c h ih => exact Nat.succ_lt_succ (Nat.lt_succ_of_le h.length_le)
  | last => exact zero_lt_one
  | plain hc h ih =>
    exact Nat.succ_lt_succ (ih ((mem_cons.mp hmem).resolve_left (Ne.symm hc)))

theorem count_le (h : Decodes cs ds) : cs.count 60 ≤ ds.count 60 := by
  induction h with
  | nil => exact le_refl _
  | entity he h ih =>
    have hname : ∀ e ∈ ents, 60 ∉ e.1.map UInt8.toUInt32 := by decide
    rw [count_cons_of_ne (by decide), count_append, count_eq_zero.mpr (hname _ he),
      zero_add, count_cons]
    exact Nat.le_add_right_of_le ih
  | unseen c h ih =>
    rw [count_cons_of_ne (by decide), count_cons, count_cons]
    exact Nat.add_le_add_right ih _
  | last => exact Nat.le_refl _
  | plain hc h ih =>
    rw [count_cons, count_cons]
    exact Nat.add_le_add_right ih _

end Decodes

/-- Only the characters of a text itself can be the name of an entity. -/
theorem startsWithName_text {name : Bytes} (hname : ∀ c ∈ name, c ≠ 0) (hcs : IsText cs)
    {y : Bytes} (h : startsWithName name (utf8 cs ++ 0 :: y) = true) :
    ∃ cs', cs = name.map UInt8.toUInt32 ++ cs' := by
  induction name generalizing cs with
  | nil => exact ⟨cs, rfl⟩
  | cons c name ih =>
    rw [startsWithName] at h
    cases cs with
    | nil =>
      have hc := of_decide_eq_true (Bool.and_eq_true _ _ ▸ h).1
      exact absurd hc.symm (isChar_toUInt32 (hname c mem_cons_self)).1
    | cons d cs =>
      rw [utf8_cons, append_assoc,
        getChar32FromUtf8String_utf8Bytes (hcs d mem_cons_self)] at h
      obtain ⟨hd, h⟩ := (Bool.and_eq_true _ _).mp h
      obtain ⟨cs', rfl⟩ := ih (fun c hc => hname c (mem_cons_of_mem _ hc)) hcs.tail h
      exact ⟨cs', by rw [of_decide_eq_true hd]; rfl⟩

theorem utf8Bytes_tail (c : UInt32) : ∃ b run, utf8Bytes c = b :: run ∧ 38 ∉ run := by
  by_cases hc : c ≤ 0x7f
  · exact ⟨c.toUInt8, [], utf8Bytes_ascii hc, not_mem_nil⟩
  · cases h : utf8Bytes c with
    | nil => exact absurd h (utf8Bytes_ne_nil c)
    | cons b run =>
      refine ⟨b, run, rfl, fun hmem => ?_⟩
      have hhigh := utf8Bytes_high (UInt32.not_le.mp hc) 38 (h ▸ mem_cons_of_mem b hmem)
      exact absurd hhigh (by decide)

theorem xmlDecodeFrom_end {src out : Bytes} (h : srclen ≤ i) :
    xmlDecodeFrom src srclen outlen n i out = out := by
  cases n with
  | zero => rfl
  | succ n => rw [xmlDecodeFrom, if_neg (Nat.not_lt.mpr h)]

/-- The loop of `XMLDecode` on the rest of a text. The terminator is written behind the last
character if the text ends with `&`. -/
theorem xmlDecodeFrom_text {src y : Bytes} (hcs : IsText cs) {a : Bytes}
    (out : Bytes) (hsrc : src = a ++ (utf8 cs ++ 0 :: y)) (hi : a.length = i)
    (hlen : i + (utf8 cs).length = srclen) (hout : out.length + (utf8 cs).length ≤ outlen)
    (hn : (utf8 cs).length ≤ n) :
    ∃ ds z, Decodes cs ds ∧ (z = [] ∨ z = [0]) ∧
      xmlDecodeFrom src srclen outlen n i out = out ++ (utf8 ds ++ z) := by
  induction hk : cs.length using Nat.strong_induction_on generalizing cs a out n i with
  | _ k ih =>
  subst hk
  cases cs with
  | nil =>
    refine ⟨[], [], .nil, .inl rfl, ?_⟩
    have hle : srclen ≤ i := le_of_eq hlen.symm
    rw [xmlDecodeFrom_end hle]
    exact (append_nil out).symm
  | cons c cs =>
    have hstep : ∀ (cs' : List UInt32) (read put : Bytes) (m : Nat), IsText cs' →
        cs'.length ≤ cs.length → utf8 (c :: cs) = read ++ utf8 cs' → put.length ≤ read.length →
        (utf8 cs').length ≤ m → ∃ ds z, Decodes cs' ds ∧ (z = [] ∨ z = [0]) ∧
          xmlDecodeFrom src srclen outlen m (i + read.length) (out ++ put) =
            out ++ (put ++ utf8 ds ++ z) := by
      intro cs' read put m hcs' hle hread hput hm
      rw [hread, length_append] at hlen hout
      obtain ⟨ds, z, hds, hz, h⟩ := ih cs'.length (Nat.lt_succ_of_le hle) hcs' (a := a ++ read)
        (out ++ put) (by rw [hsrc, hread]; simp) (by rw [length_append, hi])
        (by omega) (by rw [length_append]; omega) hm rfl
      exact ⟨ds, z, hds, hz, by rw [h]; simp⟩
    by_cases hc : c = 38
    · have hcons : utf8 (c :: cs) = 38 :: utf8 cs := by
        rw [hc]
        exact utf8_cons_ascii (by decide : (38 : UInt8) < 0x80) cs
      rw [hcons, length_cons] at hn hlen hout
      obtain ⟨n, rfl⟩ : ∃ m, n = m + 1 := ⟨n - 1, by omega⟩
      have hbyte : src.getD i 0 = 38 := by
        rw [hsrc, hcons]
        exact getD_at hi 38 _
      have hdrop : src.drop (i + 1) = utf8 cs ++ 0 :: y := by
        rw [hsrc, hcons, ← hi, ← drop_drop, drop_left]
        rfl
      rw [xmlDecodeFrom, if_pos (by omega), if_pos hbyte, hdrop]
      split
      · next e he =>
        have hmem := mem_of_find?_eq_some he
        obtain ⟨hname, hzero, hascii⟩ := ents_ascii e hmem
        have hstarts : startsWithName e.1 (utf8 cs ++ 0 :: y) = true := by
          simpa using find?_some he
        obtain ⟨cs', rfl⟩ := startsWithName_text (fun c hc => (hname c hc).1) hcs.tail hstarts
        rw [utf8_append, utf8_ascii fun c hc => (hname c hc).2, length_append] at hn
        obtain ⟨ds, z, hds, hz, h⟩ := hstep cs' (38 :: e.1) [e.2] n
          (fun c hc => hcs.tail c (mem_append_right _ hc)) (by rw [length_append]; omega)
          (by rw [hcons, utf8_append, utf8_ascii fun c hc => (hname c hc).2]; rfl)
          (by simp) (by omega)
        refine ⟨e.2.toUInt32 :: ds, z, hc ▸ .entity hmem hds, hz, ?_⟩
        rw [if_neg (by omega), utf8_cons_ascii hascii, add_assoc, add_comm 1]
        exact h
      · next hnone =>
        rw [if_neg (by omega)]
        cases cs with
        | nil =>
          refine ⟨[], [0], hc ▸ .last, .inr rfl, ?_⟩
          have hzero : src.getD (i + 1) 0 = 0 := by
            rw [hsrc, hcons, cons_append, append_cons]
            exact getD_at (by rw [length_append, hi]; rfl) 0 y
          rw [xmlDecodeFrom_end (by rw [← hlen]; exact Nat.le_succ _), hzero]
          rfl
        | cons d cs =>
          obtain ⟨b, run, hd, hrun⟩ := utf8Bytes_tail d
          have hcons' : utf8 (d :: cs) = b :: (run ++ utf8 cs) := by
            rw [utf8_cons, hd]
            rfl
          rw [hcons', length_cons, length_append] at hn hlen hout
          have hsrc' : src = (a ++ [38, b]) ++ (run ++ (utf8 cs ++ 0 :: y)) := by
            rw [hsrc, hcons, hcons']
            simp
          have hbyte' : src.getD (i + 1) 0 = b := by
            rw [hsrc', show a ++ [38, b] = a ++ [38] ++ [b] by simp, append_assoc]
            exact getD_at (by rw [length_append, hi]; rfl) b _
          obtain ⟨m, rfl⟩ : ∃ m, n = m + run.length := ⟨n - run.length, by omega⟩
          obtain ⟨ds, z, hds, hz, h⟩ := hstep cs (38 :: b :: run) (b :: run) m
            hcs.tail.tail (Nat.le_succ _) (by rw [hcons, hcons']; rfl) (Nat.le_succ _) (by omega)
          refine ⟨d :: ds, z, hc ▸ .unseen d hds, hz, ?_⟩
          rw [hbyte', hsrc', xmlDecodeFrom_run hrun _
            (by rw [length_append, hi]; rfl) (by omega)
            (by rw [length_append, length_singleton]; omega), ← hsrc', append_assoc,
            utf8_cons, hd]
          exact add_right_comm i 2 run.length ▸ h
    · have hrun : 38 ∉ utf8Bytes c := by
        rw [mem_utf8Bytes_ascii (by decide)]
        exact fun h => hc h.symm
      rw [utf8_cons, length_append] at hn hlen hout
      obtain ⟨m, rfl⟩ : ∃ m, n = m + (utf8Bytes c).length := ⟨n - (utf8Bytes c).length, by omega⟩
      obtain ⟨ds, z, hds, hz, h⟩ := hstep cs (utf8Bytes c) (utf8Bytes c) m hcs.tail
        (le_refl _) (utf8_cons c cs) (le_refl _) (by omega)
      refine ⟨c :: ds, z, .plain hc hds, hz, ?_⟩
      rw [utf8_cons, append_assoc] at hsrc
      rw [hsrc, xmlDecodeFrom_run hrun out hi (by omega) (by omega), ← hsrc, h, utf8_cons]

theorem xmlDecode_text (hcs : IsText cs) (y : Bytes) :
    ∃ ds z, Decodes cs ds ∧ (z = [] ∨ z = [0]) ∧
      xmlDecode (utf8 cs ++ 0 :: y) (utf8 cs).length (utf8 cs).length = utf8 ds ++ z :=
  xmlDecodeFrom_text hcs (a := []) [] rfl rfl (zero_add _)
    (le_of_eq (zero_add _)) (le_refl _)

end Clover.Plist
