import Mathlib

/-!
# File names of the injection driver

The string functions of `FSInject/FSInject.c`: the comparisons that ignore case
(`StrCmpiBasic`, `StriStartsWithBasic`), the composition of a name from the name of a handle
(`GetNormalizedFName`), and the name of a file in the injection directory (`GetInjectionFName`).

`ToUpperChar` keeps the low byte of a character up to `0x100`, as a signed number, so that character
is compared as a NUL, and the upper half of Latin-1 as the characters from `0xff80` on. Two of the
loops look for the end of their first string before the comparison only, and then step over the end
of the second one. Such a run has no result here.
-/

namespace Clover.FSInject

open List

/-- A string without its terminating NUL. -/
@[ext]
structure Text where
  chars : List UInt16
  noNul : 0 ∉ chars
  deriving DecidableEq

namespace Text

def append (s t : Text) : Text :=
  ⟨s.chars ++ t.chars, fun h => (mem_append.mp h).elim s.noNul t.noNul⟩

def take (s : Text) (n : Nat) : Text := ⟨s.chars.take n, fun h => s.noNul (mem_of_mem_take h)⟩

def drop (s : Text) (n : Nat) : Text := ⟨s.chars.drop n, fun h => s.noNul (mem_of_mem_drop h)⟩

def empty : Text := ⟨[], not_mem_nil⟩

end Text

def backslash : UInt16 := 0x5c

/-- A `CHAR8` is signed. -/
def toUpperChar (chr : UInt16) : UInt16 :=
  if chr > 0x100 then chr
  else
    let c := chr &&& 0xff
    if c ≥ 0x61 ∧ c ≤ 0x7a then c - 0x20 else if c ≥ 0x80 then c ||| 0xff00 else c

/-- The character a pointer into a string is at. -/
def current (s : List UInt16) : UInt16 := s.headD 0

/-- The upper case of an ASCII letter. -/
def asciiUpper (c : UInt16) : UInt16 := if 0x61 ≤ c ∧ c ≤ 0x7a then c - 0x20 else c

/-- Equal but for the case of ASCII letters. -/
def SameName (s t : List UInt16) : Prop := s.map asciiUpper = t.map asciiUpper

instance (s t : List UInt16) : Decidable (SameName s t) := inferInstanceAs (Decidable (_ = _))

/-- Equal as the code compares. -/
def Alike (s t : List UInt16) : Prop := s.map toUpperChar = t.map toUpperChar

theorem toUpperChar_of_lt {c : UInt16} (h : c < 0x80) :
    toUpperChar c = asciiUpper c ∧ toUpperChar c < 0x80 ∧
      toUpperChar (asciiUpper c) = toUpperChar c := by
  have hall : ∀ n : Nat, n < 0x80 → toUpperChar (UInt16.ofNat n) = asciiUpper (UInt16.ofNat n) ∧
      toUpperChar (UInt16.ofNat n) < 0x80 ∧
      toUpperChar (asciiUpper (UInt16.ofNat n)) = toUpperChar (UInt16.ofNat n) := by
    decide +kernel
  have hc := hall c.toNat (UInt16.lt_iff_toNat_lt.mp h)
  rwa [UInt16.ofNat_toNat] at hc

theorem SameName.alike {s t : List UInt16} (h : SameName s t) : Alike s t := by
  have hupper : toUpperChar ∘ asciiUpper = toUpperChar := by
    funext c
    by_cases hc : c < 0x80
    · exact (toUpperChar_of_lt hc).2.2
    · rw [Function.comp_apply, asciiUpper, if_neg]
      exact fun hletter => hc (UInt16.lt_of_le_of_lt hletter.2 (by decide))
  have hmap := congrArg (map toUpperChar) h
  rwa [map_map, map_map, hupper] at hmap

/-- The name `fName` is that of a file in `dir`, whose name is the `same` as the front of it, and
`rest` is what follows the directory in it, from the backslash on. -/
def Inside (same : List UInt16 → List UInt16 → Prop) (dir fName rest : Text) : Prop :=
  ∃ front, fName.chars = front ++ rest.chars ∧ same front dir.chars ∧
    current rest.chars = backslash

/-- A name from the root of a volume. -/
def IsAbsolute (s : Text) : Prop := current s.chars = backslash

theorem IsAbsolute.ne_nil {s : Text} (h : IsAbsolute s) : s.chars ≠ [] := by
  intro hs
  rw [IsAbsolute, hs] at h
  exact absurd h (by decide)

theorem IsAbsolute.append {s : Text} (h : IsAbsolute s) (t : Text) : IsAbsolute (s.append t) := by
  unfold IsAbsolute at h ⊢
  rw [← h]
  cases hs : s.chars with
  | nil => exact absurd hs (IsAbsolute.ne_nil h)
  | cons c cs => simp [Text.append, hs, current]

end Clover.FSInject
