import Clover.Plist.Parser

/-!
# Texts of whole characters

What the parser makes of a text that consists of whole characters in their shortest form. The
strings of tags are such texts, whatever they were read from, because `strncpy` writes every
character anew, and so is everything that is printed. A text is given by its characters; the bytes
that the parser looks for are characters of their own, so that it cuts a text between characters.
-/

namespace Clover.Plist

open Clover.Unicode Clover.Xml Clover.Lib List Nat

variable {c : UInt32} {b : UInt8} {n : Nat} {cs : List UInt32}

/-! ## Characters -/

/-- A character that can be read from UTF-8, other than the terminator. -/
def IsChar (c : UInt32) : Prop := c ≠ 0 ∧ c ≤ 0x1fffff

instance : DecidablePred IsChar := fun c => inferInstanceAs (Decidable (c ≠ 0 ∧ c ≤ 0x1fffff))

theorem utf8Bytes_cases (c : UInt32) : IsUtf8 c (utf8Bytes c) := by
  obtain ⟨bytes, h⟩ := exists_isUtf8 c
  have hlength : ¬ 4 < bytes.length := by
    rcases h with ⟨_, rfl⟩ | ⟨_, _, rfl⟩ | ⟨_, _, rfl⟩ | ⟨_, rfl⟩ <;> simp
  rw [utf8Bytes, h.write (by decide), if_neg hlength]
  exact h

theorem getChar32FromUtf8String_utf8Bytes (hc : IsChar c) (rest : Bytes) :
    getChar32FromUtf8String (utf8Bytes c ++ rest) = (rest, c) :=
  (utf8Bytes_cases c).read hc.1 hc.2 rest

theorem shifted_lt {m : UInt8} {k : UInt32} (h : (m.toNat * 2 ^ (k.toNat % 32)) < 2 ^ n) :
    ((b &&& m).toUInt32 <<< k).toNat < 2 ^ n := by
  rw [UInt32.toNat_shiftLeft, UInt8.toNat_toUInt32, UInt8.toNat_and, shiftLeft_eq]
  have hle : (b.toNat &&& m.toNat) * 2 ^ (k.toNat % 32) ≤ m.toNat * 2 ^ (k.toNat % 32) :=
    mul_le_mul_right _ and_le_right
  exact lt_of_le_of_lt (mod_le _ _) (lt_of_le_of_lt hle h)

theorem masked_lt {m : UInt8} (h : m.toNat < 2 ^ n) : (b &&& m).toUInt32.toNat < 2 ^ n := by
  rw [UInt8.toNat_toUInt32, UInt8.toNat_and]
  exact lt_of_le_of_lt and_le_right h

theorem isChar_getChar32FromUtf8String {s : Bytes}
    (h : (getChar32FromUtf8String s).2 ≠ 0) : IsChar (getChar32FromUtf8String s).2 := by
  refine ⟨h, ?_⟩
  rw [UInt32.le_iff_toNat_le]
  apply le_of_lt_succ
  change _ < 2 ^ 21
  have hzero : (0 : UInt32).toNat < 2 ^ 21 := by decide
  rw [getChar32FromUtf8String]
  split
  · exact hzero
  split
  · split
    · exact hzero
    split
    · split
      · exact hzero
      split
      · split
        · exact hzero
        · simp only [UInt32.toNat_or]
          exact or_lt_two_pow (or_lt_two_pow (or_lt_two_pow (shifted_lt (by decide))
            (shifted_lt (by decide))) (shifted_lt (by decide))) (masked_lt (by decide))
      · simp only [UInt32.toNat_or]
        exact or_lt_two_pow (or_lt_two_pow (shifted_lt (by decide))
          (shifted_lt (by decide))) (masked_lt (by decide))
    · simp only [UInt32.toNat_or]
      exact or_lt_two_pow (shifted_lt (by decide)) (masked_lt (by decide))
  · rw [UInt8.toNat_toUInt32]
    exact lt_trans (UInt8.toNat_lt _) (by decide)

/-! ## Texts -/

/-- The bytes of a text. -/
def utf8 (cs : List UInt32) : Bytes := cs.flatMap utf8Bytes

/-- All characters of a text can be read back. -/
def IsText (cs : List UInt32) : Prop := ∀ c ∈ cs, IsChar c

/-- A string that is a text. -/
def Canonical (s : Bytes) : Prop := ∃ cs, IsText cs ∧ s = utf8 cs

theorem utf8_cons (c : UInt32) (cs : List UInt32) : utf8 (c :: cs) = utf8Bytes c ++ utf8 cs :=
  flatMap_cons

@[simp]
theorem utf8_append (cs cs' : List UInt32) : utf8 (cs ++ cs') = utf8 cs ++ utf8 cs' :=
  flatMap_append

theorem IsText.tail (h : IsText (c :: cs)) : IsText cs :=
  fun c' hc' => h c' (mem_cons_of_mem c hc')

theorem IsText.cons (hc : IsChar c) (h : IsText cs) : IsText (c :: cs) :=
  fun c' hc' => (mem_cons.mp hc').elim (fun heq => heq ▸ hc) (h c')

theorem IsText.append {cs' : List UInt32} (h : IsText cs) (h' : IsText cs') : IsText (cs ++ cs') :=
  fun c hc => (mem_append.mp hc).elim (h c) (h' c)

theorem isText_charsUpTo (n : Nat) (s : Bytes) : IsText (charsUpTo n s) := by
  induction n generalizing s with
  | zero => exact nofun
  | succ n ih =>
    rw [charsUpTo]
    dsimp only
    split
    · exact nofun
    · next hzero =>
      intro c hc
      obtain rfl | hc := mem_cons.mp hc
      · exact isChar_getChar32FromUtf8String hzero
      · exact ih _ c hc

theorem canonical_strncpy (s : Bytes) (len : Nat) : Canonical (strncpy s len) :=
  ⟨_, isText_charsUpTo len s, rfl⟩

theorem charsUpTo_utf8 (h : IsText cs) (hn : cs.length ≤ n) (rest : Bytes) :
    charsUpTo n (utf8 cs ++ 0 :: rest) = cs := by
  induction cs generalizing n with
  | nil =>
    cases n with
    | zero => rfl
    | succ n => rfl
  | cons c cs ih =>
    obtain ⟨n, rfl⟩ : ∃ m, n = m + 1 := ⟨n - 1, by
      rw [length_cons] at hn
      omega⟩
    have hc := h c mem_cons_self
    rw [utf8_cons, append_assoc, charsUpTo, getChar32FromUtf8String_utf8Bytes hc]
    dsimp only
    rw [if_neg hc.1, ih h.tail (le_of_succ_le_succ hn)]

theorem strncpy_utf8 (h : IsText cs) {len : Nat} (hlen : cs.length ≤ len) (rest : Bytes) :
    strncpy (utf8 cs ++ 0 :: rest) len = utf8 cs := by
  rw [strncpy, charsUpTo_utf8 h hlen]
  rfl

theorem utf8_inj {cs' : List UInt32} (h : IsText cs) (h' : IsText cs') (heq : utf8 cs = utf8 cs') :
    cs = cs' := by
  rw [← charsUpTo_utf8 h (le_max_left cs.length cs'.length) [], heq,
    charsUpTo_utf8 h' (le_max_right cs.length cs'.length)]

/-! ## Cutting a text -/

theorem utf8Bytes_ascii (h : c ≤ 0x7f) : utf8Bytes c = [c.toUInt8] := by
  obtain ⟨-, he⟩ | ⟨hlt, -⟩ | ⟨hlt, -⟩ | ⟨hlt, -⟩ := utf8Bytes_cases c
  · exact he
  all_goals
    rw [UInt32.le_iff_toNat_le] at h
    rw [UInt32.lt_iff_toNat_lt] at hlt
    exact absurd hlt (Nat.not_lt.mpr (le_trans h (by decide)))

theorem high_byte (x : UInt8) :
    0x80 ≤ x &&& 0x3f ||| 0x80 ∧ 0x80 ≤ x &&& 0x1f ||| 0xc0 ∧ 0x80 ≤ x &&& 0x0f ||| 0xe0 ∧
      0x80 ≤ x &&& 0x07 ||| 0xf0 := by
  revert x
  apply forall_byte
  decide +kernel

theorem utf8Bytes_high (h : 0x7f < c) : ∀ b ∈ utf8Bytes c, 0x80 ≤ b := by
  obtain ⟨hle, -⟩ | ⟨-, -, he⟩ | ⟨-, -, he⟩ | ⟨-, he⟩ := utf8Bytes_cases c
  · exact absurd h (UInt32.not_lt.mpr hle)
  · simp [he, high_byte]
  · simp [he, high_byte]
  · simp [he, high_byte]

theorem utf8Bytes_ne_nil (c : UInt32) : utf8Bytes c ≠ [] := by
  obtain ⟨-, he⟩ | ⟨-, -, he⟩ | ⟨-, -, he⟩ | ⟨-, he⟩ := utf8Bytes_cases c
  · simp [he]
  · simp [he]
  · simp [he]
  · simp [he]

theorem toUInt8_eq_iff (h : c ≤ 0x7f) : b = c.toUInt8 ↔ b.toUInt32 = c := by
  constructor
  · rintro rfl
    exact (ascii_byte h).1
  · rintro rfl
    exact (UInt8.toUInt8_toUInt32 b).symm

theorem toUInt32_le (hb : b < 0x80) : b.toUInt32 ≤ 0x7f := by
  rw [UInt32.le_iff_toNat_le, UInt8.toNat_toUInt32]
  exact le_of_lt_succ (UInt8.lt_iff_toNat_lt.mp hb)

theorem mem_utf8Bytes_ascii (hb : b < 0x80) : b ∈ utf8Bytes c ↔ b.toUInt32 = c := by
  by_cases hc : c ≤ 0x7f
  · rw [utf8Bytes_ascii hc, mem_singleton, toUInt8_eq_iff hc]
  · constructor
    · intro hmem
      exact absurd (utf8Bytes_high (UInt32.not_le.mp hc) b hmem) (UInt8.not_le.mpr hb)
    · rintro rfl
      exact absurd (toUInt32_le hb) hc

theorem mem_utf8_ascii (hb : b < 0x80) : b ∈ utf8 cs ↔ b.toUInt32 ∈ cs := by
  rw [utf8, mem_flatMap]
  constructor
  · rintro ⟨c, hc, hmem⟩
    rwa [(mem_utf8Bytes_ascii hb).mp hmem]
  · exact fun h => ⟨_, h, (mem_utf8Bytes_ascii hb).mpr rfl⟩

theorem zero_notMem_utf8 (h : IsText cs) : 0 ∉ utf8 cs := by
  rw [mem_utf8_ascii (by decide)]
  exact fun hmem => (h _ hmem).1 rfl

end Clover.Plist
