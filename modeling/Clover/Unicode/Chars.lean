import Clover.Lib.Bits
import Clover.Lib.Bytes

/-!
# One character in UTF-8, UTF-16 and UTF-32

The character level of `cpp_foundation/unicode_conversions.cpp`: reading one character
from a string of code units and writing one character into a bounded destination.

A pointer into a NUL-terminated string is the list of the units from it on; past the end
of the list every unit reads as the terminator. A reader returns the pointer after the
character together with the character, and a zero character at the end of the string or
where the units do not form one. A writer works on a `Dst`, the units written so far with
the number `dst_max_size` of units that may still be written.

`Reads` and `Writes` relate a reader and a writer to a coding form, a map from Unicode
scalar values (`Char`) to units. The six lemmas at the end place the source's functions:
UTF-8 is the core library's `String.utf8EncodeChar`.
-/

namespace Clover.Unicode

open Clover.Lib List

variable {c v : UInt32} {bytes : Bytes}

/-- The destination of a conversion: what has been written, and `*dst_max_size`. -/
structure Dst (α : Type) where
  written : List α
  room : Nat
  deriving DecidableEq, Repr

namespace Dst

variable {α : Type}

/-- Write one unit: `*dst++ = x; *dst_max_size -= 1`. -/
def push (d : Dst α) (x : α) : Dst α := ⟨d.written ++ [x], d.room - 1⟩

/-- Give up for lack of room: `*dst_max_size = 0`. -/
def full (d : Dst α) : Dst α := { d with room := 0 }

end Dst

/-! ## Widths -/

def utf8SizeOfUtf32Char (c : UInt32) : Nat :=
  if c = 0 then 0
  else if c ≤ 0x7f then 1
  else if c ≤ 0x7ff then 2
  else if c ≤ 0xFFFF then 3
  else 4

def utf16SizeOfUtf32Char (c : UInt32) : Nat :=
  if c ≤ 0xFFFF then 1 else 2

/-! ## Writers -/

/-- The loop `for ( ; bits >= 0 ; bits -= 6 )`, with `n = bits / 6 + 1` bytes to go. -/
def continuationBytes (c : UInt32) : Nat → Dst UInt8 → Dst UInt8
  | 0, d => d
  | n + 1, d =>
    continuationBytes c n (d.push ((c >>> (6 * n).toUInt32) &&& 0x3F ||| 0x80).toUInt8)

/-- A character that does not fit fills the destination. -/
def getUtf8FromChar32 (d : Dst UInt8) (c : UInt32) : Dst UInt8 :=
  if d.room = 0 then d
  else if c < 0x80 then d.push c.toUInt8
  else if c < 0x800 then
    if d.room < 2 then d.full
    else continuationBytes c 1 (d.push ((c >>> 6) &&& 0x1F ||| 0xC0).toUInt8)
  else if c < 0x10000 then
    if d.room < 3 then d.full
    else continuationBytes c 2 (d.push ((c >>> 12) &&& 0x0F ||| 0xE0).toUInt8)
  else
    if d.room < 4 then d.full
    else continuationBytes c 3 (d.push ((c >>> 18) &&& 0x07 ||| 0xF0).toUInt8)

/-- The two units `char16_1` and `char16_2`. -/
def getChar16FromChar32 (c : UInt32) : UInt16 × UInt16 :=
  if c ≤ 0xFFFF then (c.toUInt16, 0)
  else
    let c' := c - 0x10000
    (((c' >>> 10) + 0xD800).toUInt16, ((c' &&& 0x3FF) + 0xDC00).toUInt16)

def getUtf16FromChar32 (d : Dst UInt16) (c : UInt32) : Dst UInt16 :=
  if d.room = 0 then d
  else
    let (u₁, u₂) := getChar16FromChar32 c
    if u₂ ≠ 0 then
      if d.room < 2 then d.full else (d.push u₁).push u₂
    else
      if d.room < 1 then d.full else d.push u₁

def getUtf32FromChar32 (d : Dst UInt32) (c : UInt32) : Dst UInt32 :=
  if d.room = 0 then d else d.push c

/-! ## Readers -/

def getChar32FromUtf8String (s : Bytes) : Bytes × UInt32 :=
  let b₀ := s.getD 0 0
  let b₁ := s.getD 1 0
  let b₂ := s.getD 2 0
  let b₃ := s.getD 3 0
  if b₀ = 0 then (s, 0)
  else if b₀ &&& 0x80 ≠ 0 then
    if b₁ &&& 0xc0 ≠ 0x80 then (s, 0)
    else if b₀ &&& 0xe0 = 0xe0 then
      if b₂ &&& 0xc0 ≠ 0x80 then (s, 0)
      else if b₀ &&& 0xf0 = 0xf0 then
        if b₀ &&& 0xf8 ≠ 0xf0 ∨ b₃ &&& 0xc0 ≠ 0x80 then (s, 0)
        else
          (s.drop 4, (b₀ &&& 0x07).toUInt32 <<< 18 ||| (b₁ &&& 0x3f).toUInt32 <<< 12
            ||| (b₂ &&& 0x3f).toUInt32 <<< 6 ||| (b₃ &&& 0x3f).toUInt32)
      else
        (s.drop 3, (b₀ &&& 0x0f).toUInt32 <<< 12 ||| (b₁ &&& 0x3f).toUInt32 <<< 6
          ||| (b₂ &&& 0x3f).toUInt32)
    else (s.drop 2, (b₀ &&& 0x1f).toUInt32 <<< 6 ||| (b₁ &&& 0x3f).toUInt32)
  else (s.drop 1, b₀.toUInt32)

def isSurrogate (u : UInt16) : Bool := u.toUInt32 - 0xd800 < 2048

def isHighSurrogate (u : UInt16) : Bool := u.toUInt32 &&& 0xfffffc00 = 0xd800

def isLowSurrogate (u : UInt16) : Bool := u.toUInt32 &&& 0xfffffc00 = 0xdc00

def surrogateToUtf32 (high low : UInt16) : UInt32 :=
  high.toUInt32 <<< 10 + low.toUInt32 - 0x35fdc00

/-- A unit that starts no character is left unread when it is a low surrogate, and read
when it is a high one. -/
def getChar32FromUtf16String (s : List UInt16) : List UInt16 × UInt32 :=
  let u₁ := s.getD 0 0
  let u₂ := s.getD 1 0
  if u₁ = 0 then (s, 0)
  else if !isSurrogate u₁ then (s.drop 1, u₁.toUInt32)
  else if isHighSurrogate u₁ && isLowSurrogate u₂ then (s.drop 2, surrogateToUtf32 u₁ u₂)
  else if !isHighSurrogate u₁ then (s, 0)
  else (s.drop 1, 0)

/-- Where a UTF-32 string is read, the source writes `*s++`. -/
def getChar32FromUtf32String (s : List UInt32) : List UInt32 × UInt32 := (s.drop 1, s.getD 0 0)

/-! ## Coding forms -/

/-- The UTF-16 form of a scalar value. -/
def utf16EncodeChar (c : Char) : List UInt16 :=
  if c.toNat < 0x10000 then [c.toNat.toUInt16]
  else [(0xD800 + (c.toNat - 0x10000) / 0x400).toUInt16,
    (0xDC00 + (c.toNat - 0x10000) % 0x400).toUInt16]

/-- The UTF-32 form of a scalar value. -/
def utf32EncodeChar (c : Char) : List UInt32 := [c.val]

/-- A scalar value that may stand in a NUL-terminated string. -/
abbrev Scalar := { c : Char // c.val ≠ 0 }

/-- The reader `get` reads a character of the coding form `enc`, whatever follows it, and finds
the end of a string at its terminator. -/
structure Reads {α : Type} [OfNat α 0] (get : List α → List α × UInt32) (enc : Char → List α) :
    Prop where
  char : ∀ (c : Scalar) (rest : List α), get (enc c.1 ++ rest) = (rest, c.1.val)
  terminator : ∀ rest : List α, rest.getD 0 0 = 0 → (get rest).2 = 0
  head_ne_zero : ∀ (c : Scalar) (rest : List α), (enc c.1 ++ rest).getD 0 0 ≠ 0

/-- The writer `put` appends a character in the coding form `enc` when there is room for it. -/
structure Writes {α : Type} (put : Dst α → UInt32 → Dst α) (enc : Char → List α) : Prop where
  length_pos : ∀ c : Char, 0 < (enc c).length
  char : ∀ (c : Char) (d : Dst α), (enc c).length ≤ d.room →
    put d c.val = ⟨d.written ++ enc c, d.room - (enc c).length⟩

/-- The writer `put` gives up where there is room, but not enough for the character. -/
def Refuses {α : Type} (put : Dst α → UInt32 → Dst α) (enc : Char → List α) : Prop :=
  ∀ (c : Char) (d : Dst α), d.room ≠ 0 → d.room < (enc c).length → put d c.val = d.full

/-- Whatever the writer `put` is given, it takes some of the room, and at least as much as it
writes. -/
def Takes {α : Type} (put : Dst α → UInt32 → Dst α) : Prop :=
  ∀ (d : Dst α) (c : UInt32), d.room ≠ 0 → (put d c).room < d.room ∧
    (put d c).written.length + (put d c).room ≤ d.written.length + d.room

theorem Dst.push_takes {α : Type} {d : Dst α} (x : α) (h : d.room ≠ 0) :
    (d.push x).room < d.room ∧
      (d.push x).written.length + (d.push x).room = d.written.length + d.room := by
  simp only [Dst.push, length_append, length_cons, length_nil]
  omega

theorem Dst.full_takes {α : Type} {d : Dst α} (h : d.room ≠ 0) :
    d.full.room < d.room ∧
      d.full.written.length + d.full.room ≤ d.written.length + d.room := by
  simp only [Dst.full]
  omega

/-! ### UTF-8 -/

theorem lead_byte_two (x : UInt8) :
    x &&& 0x1f ||| 0xc0 ≠ 0 ∧ (x &&& 0x1f ||| 0xc0) &&& 0x80 ≠ 0 ∧
      (x &&& 0x1f ||| 0xc0) &&& 0xe0 ≠ 0xe0 ∧ (x &&& 0x1f ||| 0xc0) &&& 0x1f = x &&& 0x1f := by
  revert x
  apply forall_byte
  decide +kernel

theorem lead_byte_three (x : UInt8) :
    x &&& 0x0f ||| 0xe0 ≠ 0 ∧ (x &&& 0x0f ||| 0xe0) &&& 0x80 ≠ 0 ∧
      (x &&& 0x0f ||| 0xe0) &&& 0xe0 = 0xe0 ∧ (x &&& 0x0f ||| 0xe0) &&& 0xf0 ≠ 0xf0 ∧
      (x &&& 0x0f ||| 0xe0) &&& 0x0f = x &&& 0x0f := by
  revert x
  apply forall_byte
  decide +kernel

theorem lead_byte_four (x : UInt8) :
    x &&& 0x07 ||| 0xf0 ≠ 0 ∧ (x &&& 0x07 ||| 0xf0) &&& 0x80 ≠ 0 ∧
      (x &&& 0x07 ||| 0xf0) &&& 0xe0 = 0xe0 ∧ (x &&& 0x07 ||| 0xf0) &&& 0xf0 = 0xf0 ∧
      (x &&& 0x07 ||| 0xf0) &&& 0xf8 = 0xf0 ∧ (x &&& 0x07 ||| 0xf0) &&& 0x07 = x &&& 0x07 := by
  revert x
  apply forall_byte
  decide +kernel

theorem trail_byte (x : UInt8) :
    (x &&& 0x3f ||| 0x80) &&& 0xc0 = 0x80 ∧ (x &&& 0x3f ||| 0x80) &&& 0x3f = x &&& 0x3f := by
  revert x
  apply forall_byte
  decide +kernel

theorem assemble_two (h : v ≤ 0x7ff) :
    ((v >>> 6).toUInt8 &&& 0x1f).toUInt32 <<< 6 ||| (v.toUInt8 &&& 0x3f).toUInt32 = v := by
  have hv : v.toNat ≤ 0x7ff := h
  rw [← UInt32.toNat_inj]
  simp only [UInt32.toNat_or, UInt32.toNat_shiftLeft, UInt8.toNat_toUInt32, UInt8.toNat_and,
    UInt32.toNat_toUInt8, UInt32.toNat_shiftRight, UInt32.reduceToNat, UInt8.reduceToNat,
    Nat.reduceMod, Nat.and_two_pow_sub_one_eq_mod _ 5, Nat.and_two_pow_sub_one_eq_mod _ 6,
    Nat.shiftRight_eq_div_pow, Nat.shiftLeft_eq]
  rw [Nat.mod_eq_of_lt (by omega), mul_two_pow_or (by omega)]
  omega

theorem assemble_three (h : v ≤ 0xffff) :
    ((v >>> 12).toUInt8 &&& 0x0f).toUInt32 <<< 12 ||| ((v >>> 6).toUInt8 &&& 0x3f).toUInt32 <<< 6
      ||| (v.toUInt8 &&& 0x3f).toUInt32 = v := by
  have hv : v.toNat ≤ 0xffff := h
  rw [← UInt32.toNat_inj]
  simp only [UInt32.toNat_or, UInt32.toNat_shiftLeft, UInt8.toNat_toUInt32, UInt8.toNat_and,
    UInt32.toNat_toUInt8, UInt32.toNat_shiftRight, UInt32.reduceToNat, UInt8.reduceToNat,
    Nat.reduceMod, Nat.and_two_pow_sub_one_eq_mod _ 4, Nat.and_two_pow_sub_one_eq_mod _ 6,
    Nat.shiftRight_eq_div_pow, Nat.shiftLeft_eq]
  rw [Nat.mod_eq_of_lt (by omega), Nat.mod_eq_of_lt (b := 2 ^ 32) (by omega), Nat.or_assoc,
    mul_two_pow_or (k := 6) (by omega), mul_two_pow_or (by omega)]
  omega

theorem assemble_four (h : v ≤ 0x1fffff) :
    ((v >>> 18).toUInt8 &&& 0x07).toUInt32 <<< 18 ||| ((v >>> 12).toUInt8 &&& 0x3f).toUInt32 <<< 12
      ||| ((v >>> 6).toUInt8 &&& 0x3f).toUInt32 <<< 6 ||| (v.toUInt8 &&& 0x3f).toUInt32 = v := by
  have hv : v.toNat ≤ 0x1fffff := h
  rw [← UInt32.toNat_inj]
  simp only [UInt32.toNat_or, UInt32.toNat_shiftLeft, UInt8.toNat_toUInt32, UInt8.toNat_and,
    UInt32.toNat_toUInt8, UInt32.toNat_shiftRight, UInt32.reduceToNat, UInt8.reduceToNat,
    Nat.reduceMod, Nat.and_two_pow_sub_one_eq_mod _ 3, Nat.and_two_pow_sub_one_eq_mod _ 6,
    Nat.shiftRight_eq_div_pow, Nat.shiftLeft_eq]
  rw [Nat.mod_eq_of_lt (by omega), Nat.mod_eq_of_lt (b := 2 ^ 32) (by omega),
    Nat.mod_eq_of_lt (b := 2 ^ 32) (by omega), Nat.or_assoc, Nat.or_assoc,
    mul_two_pow_or (k := 6) (by omega), mul_two_pow_or (k := 12) (by omega),
    mul_two_pow_or (by omega)]
  omega

theorem ascii_byte (h : v ≤ 0x7f) : v.toUInt8.toUInt32 = v ∧ v.toUInt8 &&& 0x80 = 0 := by
  have hv : v.toNat ≤ 0x7f := h
  refine ⟨?_, ?_⟩
  · rw [← UInt32.toNat_inj]
    simp only [UInt8.toNat_toUInt32, UInt32.toNat_toUInt8]
    omega
  · have hall : ∀ x : UInt8, x ≤ 0x7f → x &&& 0x80 = 0 := by
      apply forall_byte
      decide +kernel
    apply hall
    exact Nat.le_trans (Nat.mod_le _ _) hv

theorem char_le (c : Char) : c.val ≤ 0x1fffff := by
  have h := c.valid
  rw [UInt32.le_iff_toNat_le]
  have h2 : (0x1fffff : UInt32).toNat = 0x1fffff := rfl
  omega

/-- The bytes are the UTF-8 form of the character, which has four shapes. -/
def IsUtf8 (c : UInt32) (bytes : Bytes) : Prop :=
  (c ≤ 0x7f ∧ bytes = [c.toUInt8]) ∨
  (0x7f < c ∧ c ≤ 0x7ff ∧
    bytes = [(c >>> 6).toUInt8 &&& 0x1f ||| 0xc0, c.toUInt8 &&& 0x3f ||| 0x80]) ∨
  (0x7ff < c ∧ c ≤ 0xffff ∧ bytes = [(c >>> 12).toUInt8 &&& 0x0f ||| 0xe0,
    (c >>> 6).toUInt8 &&& 0x3f ||| 0x80, c.toUInt8 &&& 0x3f ||| 0x80]) ∨
  (0xffff < c ∧ bytes = [(c >>> 18).toUInt8 &&& 0x07 ||| 0xf0,
    (c >>> 12).toUInt8 &&& 0x3f ||| 0x80, (c >>> 6).toUInt8 &&& 0x3f ||| 0x80,
    c.toUInt8 &&& 0x3f ||| 0x80])

theorem exists_isUtf8 (c : UInt32) : ∃ bytes, IsUtf8 c bytes := by
  by_cases h1 : c ≤ 0x7f
  · exact ⟨_, Or.inl ⟨h1, rfl⟩⟩
  · by_cases h2 : c ≤ 0x7ff
    · exact ⟨_, Or.inr (Or.inl ⟨UInt32.not_le.mp h1, h2, rfl⟩)⟩
    · by_cases h3 : c ≤ 0xffff
      · exact ⟨_, Or.inr (Or.inr (Or.inl ⟨UInt32.not_le.mp h2, h3, rfl⟩))⟩
      · exact ⟨_, Or.inr (Or.inr (Or.inr ⟨UInt32.not_le.mp h3, rfl⟩))⟩

theorem utf8EncodeChar_cases (c : Char) : IsUtf8 c.val (String.utf8EncodeChar c) := by
  rw [String.utf8EncodeChar_eq_utf8EncodeCharFast]
  obtain ⟨bytes, h⟩ := exists_isUtf8 c.val
  have hbytes : String.utf8EncodeCharFast c = bytes := by
    rcases h with ⟨h, rfl⟩ | ⟨h1, h, rfl⟩ | ⟨h1, h, rfl⟩ | ⟨h1, rfl⟩
    · simp [String.utf8EncodeCharFast, if_pos h]
    · simp [String.utf8EncodeCharFast, if_neg (UInt32.not_le.mpr h1), if_pos h]
    · have h0 := @UInt32.lt_trans 0x7f _ _ (by decide) h1
      simp [String.utf8EncodeCharFast, if_neg (UInt32.not_le.mpr h0),
        if_neg (UInt32.not_le.mpr h1), if_pos h]
    · have h0 := @UInt32.lt_trans 0x7ff _ _ (by decide) h1
      simp [String.utf8EncodeCharFast, if_neg (UInt32.not_le.mpr h0), if_neg (UInt32.not_le.mpr h1),
        if_neg (UInt32.not_le.mpr (@UInt32.lt_trans 0x7f _ _ (by decide) h0))]
  rw [hbytes]
  exact h

theorem toUInt8_ne_zero (h : v ≤ 0x7f) (hv : v ≠ 0) : v.toUInt8 ≠ 0 := by
  intro h0
  have := (ascii_byte h).1
  rw [h0] at this
  exact hv this.symm

theorem IsUtf8.read (h : IsUtf8 c bytes) (hc : c ≠ 0) (hle : c ≤ 0x1fffff) (rest : Bytes) :
    getChar32FromUtf8String (bytes ++ rest) = (rest, c) := by
  have ht0 := trail_byte c.toUInt8
  have ht1 := trail_byte (c >>> 6).toUInt8
  rcases h with ⟨h, rfl⟩ | ⟨_, h, rfl⟩ | ⟨_, h, rfl⟩ | ⟨_, rfl⟩
  · obtain ⟨hs, ha⟩ := ascii_byte h
    have hne := toUInt8_ne_zero h hc
    simp only [getChar32FromUtf8String, cons_append, getD_cons_zero, hne, ha,
      if_false, ne_eq, not_true_eq_false, drop_succ_cons, drop_zero, hs,
      nil_append]
  · obtain ⟨h0, h1, h2, h3⟩ := lead_byte_two (c >>> 6).toUInt8
    simp only [getChar32FromUtf8String, cons_append, getD_cons_zero,
      getD_cons_succ, h0, h1, h2, h3, ht0, if_false, if_true, ne_eq, not_true_eq_false,
      not_false_eq_true, drop_succ_cons, drop_zero, nil_append, assemble_two h]
  · obtain ⟨h0, h1, h2, h3, h4⟩ := lead_byte_three (c >>> 12).toUInt8
    simp only [getChar32FromUtf8String, cons_append, getD_cons_zero,
      getD_cons_succ, h0, h1, h2, h3, h4, ht0, ht1, if_false, if_true, ne_eq,
      not_true_eq_false, not_false_eq_true, drop_succ_cons, drop_zero,
      nil_append, assemble_three h]
  · obtain ⟨h0, h1, h2, h3, h4, h5⟩ := lead_byte_four (c >>> 18).toUInt8
    have ht2 := trail_byte (c >>> 12).toUInt8
    simp only [getChar32FromUtf8String, cons_append, getD_cons_zero,
      getD_cons_succ, h0, h1, h2, h3, h4, h5, ht0, ht1, ht2, if_false, if_true, ne_eq,
      not_true_eq_false, not_false_eq_true, or_self, drop_succ_cons, drop_zero,
      nil_append, assemble_four hle]

theorem reads_utf8 : Reads getChar32FromUtf8String String.utf8EncodeChar where
  char c rest := (utf8EncodeChar_cases c.1).read c.2 (char_le c.1) rest
  terminator := by
    intro rest h
    simp only [getChar32FromUtf8String, h, if_true]
  head_ne_zero := by
    rintro ⟨c, hc⟩ rest
    rcases utf8EncodeChar_cases c with ⟨h, he⟩ | ⟨_, _, he⟩ | ⟨_, _, he⟩ | ⟨_, he⟩
    · rw [he]
      exact toUInt8_ne_zero h hc
    · rw [he]
      exact (lead_byte_two _).1
    · rw [he]
      exact (lead_byte_three _).1
    · rw [he]
      exact (lead_byte_four _).1

theorem toUInt8_or_and (x m t : UInt32) :
    (x &&& m ||| t).toUInt8 = x.toUInt8 &&& m.toUInt8 ||| t.toUInt8 := by
  simp

theorem IsUtf8.length_pos (h : IsUtf8 c bytes) : 0 < bytes.length := by
  rcases h with ⟨_, rfl⟩ | ⟨_, _, rfl⟩ | ⟨_, _, rfl⟩ | ⟨_, rfl⟩ <;> exact Nat.succ_pos _

theorem utf8EncodeChar_length_pos (c : Char) : 0 < (String.utf8EncodeChar c).length :=
  (utf8EncodeChar_cases c).length_pos

theorem IsUtf8.write (h : IsUtf8 c bytes) {d : Dst UInt8} (hroom : d.room ≠ 0) :
    getUtf8FromChar32 d c = if d.room < bytes.length then d.full
      else ⟨d.written ++ bytes, d.room - bytes.length⟩ := by
  have h80 : c < 0x80 ↔ c.toNat < 0x80 := UInt32.lt_iff_toNat_lt
  have h800 : c < 0x800 ↔ c.toNat < 0x800 := UInt32.lt_iff_toNat_lt
  have h10000 : c < 0x10000 ↔ c.toNat < 0x10000 := UInt32.lt_iff_toNat_lt
  have hshift : c >>> (6 * 0).toUInt32 = c := UInt32.shiftRight_zero
  rw [getUtf8FromChar32, if_neg hroom]
  rcases h with ⟨h, rfl⟩ | ⟨h1, h, rfl⟩ | ⟨h1, h, rfl⟩ | ⟨h1, rfl⟩
  · have h : c.toNat ≤ 0x7f := h
    rw [if_pos (h80.2 (by omega))]
    exact (if_neg (Nat.not_lt.mpr (Nat.pos_of_ne_zero hroom))).symm
  · have h : c.toNat ≤ 0x7ff := h
    have h1 : 0x7f < c.toNat := h1
    rw [if_neg (h80.not.2 (by omega)), if_pos (h800.2 (by omega))]
    simp only [continuationBytes, Dst.push, toUInt8_or_and, hshift, append_assoc,
      cons_append, nil_append, Nat.sub_sub]
    rfl
  · have h : c.toNat ≤ 0xffff := h
    have h1 : 0x7ff < c.toNat := h1
    rw [if_neg (h80.not.2 (by omega)), if_neg (h800.not.2 (by omega)), if_pos (h10000.2 (by omega))]
    simp only [continuationBytes, Dst.push, toUInt8_or_and, hshift, append_assoc,
      cons_append, nil_append, Nat.sub_sub]
    rfl
  · have h1 : 0xffff < c.toNat := h1
    rw [if_neg (h80.not.2 (by omega)), if_neg (h800.not.2 (by omega)),
      if_neg (h10000.not.2 (by omega))]
    simp only [continuationBytes, Dst.push, toUInt8_or_and, hshift, append_assoc,
      cons_append, nil_append, Nat.sub_sub]
    rfl

theorem writes_utf8 : Writes getUtf8FromChar32 String.utf8EncodeChar where
  length_pos := utf8EncodeChar_length_pos
  char := by
    intro c d hlen
    have hpos := utf8EncodeChar_length_pos c
    rw [(utf8EncodeChar_cases c).write (by omega), if_neg (Nat.not_lt.mpr hlen)]

theorem refuses_utf8 : Refuses getUtf8FromChar32 String.utf8EncodeChar := by
  intro c d hroom hlen
  rw [(utf8EncodeChar_cases c).write hroom, if_pos hlen]

theorem takes_utf8 : Takes getUtf8FromChar32 := by
  intro d c hroom
  obtain ⟨bytes, h⟩ := exists_isUtf8 c
  have hpos := h.length_pos
  rw [h.write hroom]
  split
  · exact Dst.full_takes hroom
  · simp only [length_append]
    omega

theorem utf8SizeOfUtf32Char_eq (c : Scalar) :
    utf8SizeOfUtf32Char c.1.val = (String.utf8EncodeChar c.1).length := by
  obtain ⟨c, hc⟩ := c
  have h7f : c.val ≤ 0x7f ↔ c.val.toNat ≤ 0x7f := UInt32.le_iff_toNat_le
  have h7ff : c.val ≤ 0x7ff ↔ c.val.toNat ≤ 0x7ff := UInt32.le_iff_toNat_le
  have hffff : c.val ≤ 0xffff ↔ c.val.toNat ≤ 0xffff := UInt32.le_iff_toNat_le
  rw [utf8SizeOfUtf32Char, if_neg hc]
  rcases utf8EncodeChar_cases c with ⟨h, he⟩ | ⟨h1, h, he⟩ | ⟨h1, h, he⟩ | ⟨h1, he⟩
  · rw [if_pos h, he]
    rfl
  · have h1 : 0x7f < c.val.toNat := h1
    rw [if_neg (h7f.not.2 (by omega)), if_pos h, he]
    rfl
  · have h1 : 0x7ff < c.val.toNat := h1
    rw [if_neg (h7f.not.2 (by omega)), if_neg (h7ff.not.2 (by omega)), if_pos h, he]
    rfl
  · have h1 : 0xffff < c.val.toNat := h1
    rw [if_neg (h7f.not.2 (by omega)), if_neg (h7ff.not.2 (by omega)),
      if_neg (hffff.not.2 (by omega)), he]
    rfl

/-! ### UTF-16 -/

theorem char_toNat_cases (c : Char) :
    c.val.toNat < 0xD800 ∨ (0xDFFF < c.val.toNat ∧ c.val.toNat < 0x110000) := by
  simpa only [UInt32.isValidChar, Nat.isValidChar] using c.valid

theorem isSurrogate_iff (u : UInt16) :
    isSurrogate u = true ↔ 0xD800 ≤ u.toNat ∧ u.toNat < 0xE000 := by
  have hu := u.toNat_lt
  simp only [isSurrogate, decide_eq_true_eq, UInt32.lt_iff_toNat_lt, UInt32.toNat_sub,
    UInt16.toNat_toUInt32, UInt32.reduceToNat]
  omega

theorem and_high_bits {n : Nat} (h : n < 2 ^ 32) : n &&& 0xfffffc00 = n / 0x400 * 0x400 := by
  have hmask : (0xfffffc00 : Nat) = 0x3fffff <<< 10 := rfl
  have hn : n = (n / 0x400) <<< 10 ||| n % 0x400 := by
    have hlt : n % 0x400 < 2 ^ 10 := by omega
    rw [Nat.shiftLeft_eq, Nat.mul_comm, ← Nat.two_pow_add_eq_or_of_lt hlt]
    omega
  have hlow : n % 0x400 &&& 0x3fffff <<< 10 = 0 := by
    apply Nat.eq_of_testBit_eq
    intro i
    simp only [Nat.testBit_and, Nat.testBit_shiftLeft, Nat.zero_testBit]
    by_cases hi : 10 ≤ i
    · have hlt : n % 0x400 < 2 ^ i := by
        have hpow : 2 ^ 10 ≤ 2 ^ i := Nat.pow_le_pow_right (by omega) hi
        omega
      rw [Nat.testBit_lt_two_pow hlt]
      rfl
    · simp [hi]
  rw [hmask]
  conv_lhs => rw [hn]
  rw [Nat.and_or_distrib_right, hlow, Nat.or_zero, ← Nat.shiftLeft_and_distrib, Nat.shiftLeft_eq,
    Nat.and_two_pow_sub_one_eq_mod _ 22, Nat.mod_eq_of_lt (by omega)]

theorem isHighSurrogate_iff (u : UInt16) :
    isHighSurrogate u = true ↔ 0xD800 ≤ u.toNat ∧ u.toNat < 0xDC00 := by
  have hu := u.toNat_lt
  simp only [isHighSurrogate, decide_eq_true_eq, ← UInt32.toNat_inj, UInt32.toNat_and,
    UInt16.toNat_toUInt32, UInt32.reduceToNat]
  rw [and_high_bits (by omega)]
  omega

theorem isLowSurrogate_iff (u : UInt16) :
    isLowSurrogate u = true ↔ 0xDC00 ≤ u.toNat ∧ u.toNat < 0xE000 := by
  have hu := u.toNat_lt
  simp only [isLowSurrogate, decide_eq_true_eq, ← UInt32.toNat_inj, UInt32.toNat_and,
    UInt16.toNat_toUInt32, UInt32.reduceToNat]
  rw [and_high_bits (by omega)]
  omega

/-- The two shapes of a character in UTF-16: a unit that is no surrogate, or a pair. -/
theorem utf16EncodeChar_cases (c : Char) :
    (c.val.toNat < 0x10000 ∧ ∃ u : UInt16, utf16EncodeChar c = [u] ∧ u.toNat = c.val.toNat ∧
      isSurrogate u = false) ∨
    (0x10000 ≤ c.val.toNat ∧ ∃ u1 u2 : UInt16, utf16EncodeChar c = [u1, u2] ∧
      u1.toNat = 0xD800 + (c.val.toNat - 0x10000) / 0x400 ∧
      u2.toNat = 0xDC00 + (c.val.toNat - 0x10000) % 0x400 ∧
      isHighSurrogate u1 = true ∧ isLowSurrogate u2 = true) := by
  have hc := char_toNat_cases c
  have hval : c.toNat = c.val.toNat := rfl
  by_cases h : c.val.toNat < 0x10000
  · have hu : c.toNat.toUInt16.toNat = c.val.toNat := by
      rw [hval, Nat.toUInt16_eq, UInt16.toNat_ofNat']
      omega
    refine Or.inl ⟨h, c.toNat.toUInt16, ?_, hu, ?_⟩
    · rw [utf16EncodeChar, hval, if_pos h]
    · rw [Bool.eq_false_iff, ne_eq, isSurrogate_iff, hu]
      omega
  · have h1 : (0xD800 + (c.toNat - 0x10000) / 0x400).toUInt16.toNat =
        0xD800 + (c.val.toNat - 0x10000) / 0x400 := by
      rw [hval, Nat.toUInt16_eq, UInt16.toNat_ofNat']
      omega
    have h2 : (0xDC00 + (c.toNat - 0x10000) % 0x400).toUInt16.toNat =
        0xDC00 + (c.val.toNat - 0x10000) % 0x400 := by
      rw [hval, Nat.toUInt16_eq, UInt16.toNat_ofNat']
      omega
    refine Or.inr ⟨by omega, _, _, ?_, h1, h2, ?_, ?_⟩
    · rw [utf16EncodeChar, hval, if_neg h]
    · rw [isHighSurrogate_iff, h1]
      omega
    · rw [isLowSurrogate_iff, h2]
      omega

theorem isSurrogate_of_isHighSurrogate {u : UInt16} (h : isHighSurrogate u = true) :
    isSurrogate u = true := by
  rw [isHighSurrogate_iff] at h
  rw [isSurrogate_iff]
  omega

theorem surrogateToUtf32_eq {c : Char} (hc : 0x10000 ≤ c.val.toNat) {u1 u2 : UInt16}
    (h1 : u1.toNat = 0xD800 + (c.val.toNat - 0x10000) / 0x400)
    (h2 : u2.toNat = 0xDC00 + (c.val.toNat - 0x10000) % 0x400) :
    surrogateToUtf32 u1 u2 = c.val := by
  have hlt := char_toNat_cases c
  rw [← UInt32.toNat_inj]
  simp only [surrogateToUtf32, UInt32.toNat_sub, UInt32.toNat_add, UInt32.toNat_shiftLeft,
    UInt16.toNat_toUInt32, UInt32.reduceToNat, h1, h2, Nat.shiftLeft_eq, Nat.reduceMod,
    Nat.reducePow]
  omega

theorem reads_utf16 : Reads getChar32FromUtf16String utf16EncodeChar where
  char := by
    rintro ⟨c, hc⟩ rest
    have hc' : c.val.toNat ≠ 0 := fun h => hc (UInt32.toNat_inj.mp h)
    rcases utf16EncodeChar_cases c with ⟨_, u, he, hu, hs⟩ | ⟨h, u1, u2, he, h1, h2, hh, hl⟩
    · have hne : u ≠ 0 := by
        rintro rfl
        exact hc' hu.symm
      have hval : u.toUInt32 = c.val := by
        rw [← UInt32.toNat_inj, UInt16.toNat_toUInt32, hu]
      rw [he]
      simp [getChar32FromUtf16String, hne, hs, hval]
    · have hne : u1 ≠ 0 := by
        rintro rfl
        have : (0 : UInt16).toNat = 0 := rfl
        omega
      have hs := isSurrogate_of_isHighSurrogate hh
      rw [he]
      simp only [getChar32FromUtf16String, cons_append, nil_append,
        getD_cons_zero, getD_cons_succ, hne, if_false, hs, hh, hl, Bool.not_true,
        Bool.false_eq_true, Bool.and_self, if_true, drop_succ_cons, drop_zero,
        surrogateToUtf32_eq h h1 h2]
  terminator := by
    intro rest h
    simp only [getChar32FromUtf16String, h, if_true]
  head_ne_zero := by
    rintro ⟨c, hc⟩ rest
    have hc' : c.val.toNat ≠ 0 := fun h => hc (UInt32.toNat_inj.mp h)
    have h0 : (0 : UInt16).toNat = 0 := rfl
    rcases utf16EncodeChar_cases c with ⟨_, u, he, hu, _⟩ | ⟨_, u1, u2, he, h1, _⟩
    · rw [he]
      rintro (rfl : u = 0)
      exact hc' hu.symm
    · rw [he]
      rintro (rfl : u1 = 0)
      omega

theorem utf16EncodeChar_length_pos (c : Char) : 0 < (utf16EncodeChar c).length := by
  rcases utf16EncodeChar_cases c with ⟨_, _, he, _⟩ | ⟨_, _, _, he, _⟩ <;> simp [he]

theorem writes_utf16 : Writes getUtf16FromChar32 utf16EncodeChar where
  length_pos := utf16EncodeChar_length_pos
  char := by
    intro c d hlen
    have hroom' : d.room ≠ 0 := by
      have := utf16EncodeChar_length_pos c
      omega
    have hlt := char_toNat_cases c
    have hffff : c.val ≤ 0xFFFF ↔ c.val.toNat ≤ 0xFFFF := UInt32.le_iff_toNat_le
    rcases utf16EncodeChar_cases c with ⟨h, u, he, hu, _⟩ | ⟨h, u1, u2, he, h1, h2, _⟩
    · have hval : c.val.toUInt16 = u := by
        rw [← UInt16.toNat_inj, UInt32.toNat_toUInt16, hu]
        omega
      rw [he, getUtf16FromChar32, if_neg hroom', getChar16FromChar32,
        if_pos (hffff.2 (by omega))]
      simp only [ne_eq, not_true_eq_false, if_false, hval]
      rw [if_neg (by omega)]
      rfl
    · have hsub : (c.val - 0x10000).toNat = c.val.toNat - 0x10000 := by
        simp only [UInt32.toNat_sub, UInt32.reduceToNat]
        omega
      have hval1 : ((c.val - 0x10000) >>> 10 + 0xD800).toUInt16 = u1 := by
        rw [← UInt16.toNat_inj, UInt32.toNat_toUInt16, UInt32.toNat_add, UInt32.toNat_shiftRight,
          hsub, h1]
        simp only [UInt32.reduceToNat, Nat.shiftRight_eq_div_pow, Nat.reduceMod, Nat.reducePow]
        omega
      have hval2 : ((c.val - 0x10000 &&& 0x3FF) + 0xDC00).toUInt16 = u2 := by
        rw [← UInt16.toNat_inj, UInt32.toNat_toUInt16, UInt32.toNat_add, UInt32.toNat_and, hsub, h2]
        simp only [UInt32.reduceToNat, Nat.and_two_pow_sub_one_eq_mod _ 10]
        omega
      have hne : u2 ≠ 0 := by
        rintro rfl
        have : (0 : UInt16).toNat = 0 := rfl
        omega
      rw [he] at hlen ⊢
      simp only [length_cons, length_nil] at hlen ⊢
      rw [getUtf16FromChar32, if_neg hroom', getChar16FromChar32, if_neg (hffff.not.2 (by omega))]
      simp only [hval1, hval2, ne_eq, hne, not_false_eq_true, if_true]
      rw [if_neg (by omega)]
      simp only [Dst.push, append_assoc, cons_append, nil_append, Dst.mk.injEq,
        true_and]
      omega

theorem refuses_utf16 : Refuses getUtf16FromChar32 utf16EncodeChar := by
  intro c d hroom hlen
  have hffff : c.val ≤ 0xFFFF ↔ c.val.toNat ≤ 0xFFFF := UInt32.le_iff_toNat_le
  rcases utf16EncodeChar_cases c with ⟨_, u, he, _⟩ | ⟨h, u1, u2, he, _⟩
  · rw [he, length_singleton] at hlen
    omega
  · have hne : ((c.val - 0x10000 &&& 0x3FF) + 0xDC00).toUInt16 ≠ 0 := by
      intro h0
      have hval := congrArg UInt16.toNat h0
      rw [UInt32.toNat_toUInt16, UInt32.toNat_add, UInt32.toNat_and] at hval
      simp only [UInt32.reduceToNat, Nat.and_two_pow_sub_one_eq_mod _ 10, UInt16.reduceToNat]
        at hval
      omega
    rw [he] at hlen
    rw [getUtf16FromChar32, if_neg hroom, getChar16FromChar32, if_neg (hffff.not.2 (by omega))]
    simp only [ne_eq, hne, not_false_eq_true, if_true]
    exact if_pos hlen

theorem takes_utf16 : Takes getUtf16FromChar32 := by
  intro d c hroom
  rw [getUtf16FromChar32, if_neg hroom]
  dsimp only
  split
  · split
    · exact Dst.full_takes hroom
    · next h =>
      have h1 := d.push_takes (getChar16FromChar32 c).1 hroom
      have h2 := (d.push (getChar16FromChar32 c).1).push_takes (getChar16FromChar32 c).2
        (by simp only [Dst.push]; omega)
      exact ⟨Nat.lt_trans h2.1 h1.1, Nat.le_of_eq (h2.2.trans h1.2)⟩
  · split
    · exact Dst.full_takes hroom
    · exact ⟨(d.push_takes _ hroom).1, Nat.le_of_eq (d.push_takes _ hroom).2⟩

theorem utf16SizeOfUtf32Char_eq (c : Scalar) :
    utf16SizeOfUtf32Char c.1.val = (utf16EncodeChar c.1).length := by
  obtain ⟨c, hc⟩ := c
  have hffff : c.val ≤ 0xFFFF ↔ c.val.toNat ≤ 0xFFFF := UInt32.le_iff_toNat_le
  rcases utf16EncodeChar_cases c with ⟨h, u, he, _⟩ | ⟨h, u1, u2, he, _⟩
  · rw [utf16SizeOfUtf32Char, if_pos (hffff.2 (by omega)), he]
    rfl
  · rw [utf16SizeOfUtf32Char, if_neg (hffff.not.2 (by omega)), he]
    rfl

/-! ### UTF-32 -/

theorem reads_utf32 : Reads getChar32FromUtf32String utf32EncodeChar where
  char := fun _ _ => rfl
  terminator := fun _ h => h
  head_ne_zero := fun c _ => c.2

theorem writes_utf32 : Writes getUtf32FromChar32 utf32EncodeChar where
  length_pos := fun _ => Nat.one_pos
  char := by
    intro c d hlen
    have hroom : 1 ≤ d.room := hlen
    rw [getUtf32FromChar32, if_neg (by omega)]
    rfl

theorem refuses_utf32 : Refuses getUtf32FromChar32 utf32EncodeChar := by
  intro c d hroom hlen
  have hlen : d.room < 1 := hlen
  omega

theorem takes_utf32 : Takes getUtf32FromChar32 := by
  intro d c hroom
  rw [getUtf32FromChar32, if_neg hroom]
  exact ⟨(d.push_takes c hroom).1, Nat.le_of_eq (d.push_takes c hroom).2⟩

end Clover.Unicode
