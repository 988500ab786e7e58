import Clover.Lib.Bits
import Clover.Lib.Bytes

/-!
# Package lengths

An AML package starts with its length, in one to four bytes. The two high bits of the first
byte tell how many bytes follow; with none, the other six bits are the length, and otherwise
its low four bits are the first nibble and each byte that follows has eight bits more.

`amlWriteSize` (`Platform/AmlGenerator.cpp`) writes a length and `getSize`
(`Platform/FixBiosDsdt.cpp`) reads one; `getSize_sizeBytes` says that the second inverts the
first.
-/

namespace Clover.Aml

open Clover.Lib List Nat

variable {size : UInt32}

/-- The bytes that `aml_write_size` writes. -/
def sizeBytes (size : UInt32) : Bytes :=
  if size ≤ 0x3f then [size.toUInt8]
  else if size ≤ 0xfff then
    [(0x40 ||| (size &&& 0xf)).toUInt8, ((size >>> 4) &&& 0xff).toUInt8]
  else if size ≤ 0xfffff then
    [(0x80 ||| (size &&& 0xf)).toUInt8, ((size >>> 4) &&& 0xff).toUInt8,
      ((size >>> 12) &&& 0xff).toUInt8]
  else
    [(0xc0 ||| (size &&& 0xf)).toUInt8, ((size >>> 4) &&& 0xff).toUInt8,
      ((size >>> 12) &&& 0xff).toUInt8, ((size >>> 20) &&& 0xff).toUInt8]

/-- The length field at `adr`; zero when the first byte starts none. -/
def getSize (buffer : Bytes) (adr : Nat) : UInt32 :=
  let b₀ := buffer.getD adr 0
  let w₀ : UInt32 := b₀.toUInt32
  let w₁ : UInt32 := (buffer.getD (adr + 1) 0).toUInt32
  let w₂ : UInt32 := (buffer.getD (adr + 2) 0).toUInt32
  let w₃ : UInt32 := (buffer.getD (adr + 3) 0).toUInt32
  let temp := b₀ &&& 0xF0
  if temp ≤ 0x30 then w₀
  else if temp = 0x40 then (w₀ - (0x40 : UInt32)) ||| w₁ <<< (4 : UInt32)
  else if temp = 0x80 then
    (w₀ - (0x80 : UInt32)) ||| w₁ <<< (4 : UInt32) ||| w₂ <<< (12 : UInt32)
  else if temp = 0xC0 then
    (w₀ - (0xC0 : UInt32)) ||| w₁ <<< (4 : UInt32) ||| w₂ <<< (12 : UInt32)
      ||| w₃ <<< (20 : UInt32)
  else 0

/-! ## Widths -/

/-- The number of bytes of a length field. -/
def fieldWidth (size : Nat) : Nat :=
  if size ≤ 0x3f then 1
  else if size ≤ 0xfff then 2
  else if size ≤ 0xfffff then 3
  else 4

theorem sizeBytes_length (size : UInt32) : (sizeBytes size).length = fieldWidth size.toNat := by
  unfold sizeBytes fieldWidth
  simp only [UInt32.le_iff_toNat_le, UInt32.reduceToNat]
  split
  · rfl
  · split
    · rfl
    · split <;> rfl

/-! ## Reading back -/

theorem nibble (size : UInt32) : ∃ x : Fin 16, size &&& 0xf = UInt32.ofNat x.val := by
  have hlt : (size &&& 0xf).toNat < 16 := by
    simp only [UInt32.toNat_and, UInt32.reduceToNat, and_two_pow_sub_one_eq_mod _ 4]
    omega
  exact ⟨⟨_, hlt⟩, (UInt32.ofNat_toNat).symm⟩

theorem lead_byte {tag : UInt32} (htag : tag = 0x40 ∨ tag = 0x80 ∨ tag = 0xc0) (size : UInt32) :
    (tag ||| (size &&& 0xf)).toUInt8 &&& 0xF0 = tag.toUInt8 ∧
      (tag ||| (size &&& 0xf)).toUInt8.toUInt32 - tag = size &&& 0xf := by
  obtain ⟨x, hx⟩ := nibble size
  rw [hx]
  clear hx
  rcases htag with rfl | rfl | rfl <;> revert x <;> decide +kernel

theorem low_byte (hs : size.toNat ≤ 0x3f) :
    size.toUInt8 &&& 0xF0 ≤ 0x30 ∧ size.toUInt8.toUInt32 = size := by
  obtain ⟨x, rfl⟩ : ∃ x : Fin 64, size = UInt32.ofNat x.val :=
    ⟨⟨size.toNat, by omega⟩, (UInt32.ofNat_toNat).symm⟩
  clear hs
  revert x
  decide +kernel

theorem field_byte (x : UInt32) : (x &&& 0xff).toUInt8.toUInt32 = x &&& 0xff := by
  rw [← UInt32.toNat_inj]
  simp only [UInt8.toNat_toUInt32, UInt32.toNat_toUInt8, UInt32.toNat_and, UInt32.reduceToNat,
    and_two_pow_sub_one_eq_mod _ 8]
  omega

theorem assemble_four_bytes (h : size.toNat < 2 ^ 28) :
    (size &&& (0xf : UInt32)) ||| ((size >>> 4) &&& 0xff : UInt32) <<< (4 : UInt32) |||
      ((size >>> 12) &&& 0xff : UInt32) <<< (12 : UInt32) |||
        ((size >>> 20) &&& 0xff : UInt32) <<< (20 : UInt32) = size := by
  rw [← UInt32.toNat_inj]
  simp only [UInt32.toNat_or, UInt32.toNat_shiftLeft, UInt32.toNat_and, UInt32.toNat_shiftRight,
    UInt32.reduceToNat, Nat.reduceMod, and_two_pow_sub_one_eq_mod _ 4,
    and_two_pow_sub_one_eq_mod _ 8, shiftRight_eq_div_pow, shiftLeft_eq]
  rw [mod_eq_of_lt (b := 2 ^ 32) (by omega), mod_eq_of_lt (b := 2 ^ 32) (by omega),
    mod_eq_of_lt (b := 2 ^ 32) (by omega), or_mul_two_pow (k := 4) (by omega),
    or_mul_two_pow (k := 12) (by omega), or_mul_two_pow (by omega)]
  omega

theorem shiftRight_twenty (h : size.toNat ≤ 0xfffff) : size >>> 20 = 0 := by
  rw [← UInt32.toNat_inj]
  simp only [UInt32.toNat_shiftRight, UInt32.reduceToNat, Nat.reduceMod, shiftRight_eq_div_pow]
  omega

theorem assemble_three_bytes (h : size.toNat ≤ 0xfffff) :
    (size &&& (0xf : UInt32)) ||| ((size >>> 4) &&& 0xff : UInt32) <<< (4 : UInt32) |||
      ((size >>> 12) &&& 0xff : UInt32) <<< (12 : UInt32) = size := by
  simpa [shiftRight_twenty h] using @assemble_four_bytes size (by omega)

theorem assemble_two_bytes (h : size.toNat ≤ 0xfff) :
    (size &&& (0xf : UInt32)) ||| ((size >>> 4) &&& 0xff : UInt32) <<< (4 : UInt32) = size := by
  have hhigh : size >>> 12 = 0 := by
    rw [← UInt32.toNat_inj]
    simp only [UInt32.toNat_shiftRight, UInt32.reduceToNat, Nat.reduceMod, shiftRight_eq_div_pow]
    omega
  simpa [hhigh] using @assemble_three_bytes size (by omega)

theorem getD_append_add (pre l : Bytes) (k : Nat) :
    (pre ++ l).getD (pre.length + k) 0 = l.getD k 0 := by
  rw [getD_eq_getElem?_getD, getElem?_append_right (Nat.le_add_right _ _),
    Nat.add_sub_cancel_left, ← getD_eq_getElem?_getD]

/-- A length below `2 ^ 28` is read back as it was written. -/
theorem getSize_sizeBytes (h : size.toNat < 2 ^ 28) (pre rest : Bytes) :
    getSize (pre ++ (sizeBytes size ++ rest)) pre.length = size := by
  have h0 := getD_append_add pre (sizeBytes size ++ rest) 0
  rw [Nat.add_zero] at h0
  unfold getSize
  simp only [h0, getD_append_add]
  unfold sizeBytes
  simp only [UInt32.le_iff_toNat_le, UInt32.reduceToNat]
  split
  · next h1 =>
    obtain ⟨hle, heq⟩ := low_byte h1
    simp [if_pos hle, heq]
  split
  · next h1 =>
    obtain ⟨htag, hsub⟩ := lead_byte (Or.inl rfl) size
    simp only [cons_append, nil_append, getD_cons_zero, getD_cons_succ, htag,
      hsub, field_byte]
    exact assemble_two_bytes h1
  split
  · next h1 =>
    obtain ⟨htag, hsub⟩ := lead_byte (Or.inr (Or.inl rfl)) size
    simp only [cons_append, nil_append, getD_cons_zero, getD_cons_succ, htag,
      hsub, field_byte]
    exact assemble_three_bytes h1
  · obtain ⟨htag, hsub⟩ := lead_byte (Or.inr (Or.inr rfl)) size
    simp only [cons_append, nil_append, getD_cons_zero, getD_cons_succ, htag,
      hsub, field_byte]
    exact assemble_four_bytes h

end Clover.Aml
