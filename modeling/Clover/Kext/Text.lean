import Clover.Lib.Search
import Clover.Xml.Parser

/-!
# Texts of kext dictionaries

The kext patcher (`Platform/kext_patcher.cpp`) reads property lists without parsing them: it looks
for tags with `AsciiStrStr` (`MdePkg/Library/BaseLib/String.c`, and `strstr`, which is the same) and
`strncmp`. A text is the list of its bytes before the zero that ends it.

The nesting of dictionaries is counted by their tags: `depth text i` is the number of `<dict>` less
the number of `</dict>` that start before `i`.
-/

namespace Clover.Kext

open Clover.Lib Clover.Xml

/-- The text in a buffer. -/
def cString (buffer : Bytes) : Bytes := buffer.takeWhile (· ≠ 0)

/-! ## AsciiStrStr -/

/-- The outer loop of `AsciiStrStr`. Where the text ends within a match, the search ends as well. -/
def strStrFrom (searchString : Bytes) : Bytes → Option Nat
  | [] => none
  | c :: string =>
    if searchString <+: c :: string then some 0
    else if c :: string <+: searchString then none
    else (strStrFrom searchString string).map (· + 1)

/-- The function `AsciiStrStr`; the pointer that it returns is an offset in the string. -/
def asciiStrStr (string searchString : Bytes) : Option Nat :=
  if searchString = [] then some 0 else strStrFrom searchString string

theorem asciiStrStr_eq (string searchString : Bytes) :
    asciiStrStr string searchString = findPat searchString string := by
  rw [asciiStrStr]
  split
  · next h =>
    rw [h]
    exact (findPat_eq_zero List.nil_prefix).symm
  next hne =>
  induction string with
  | nil => rw [strStrFrom, findPat, if_neg hne]
  | cons c string ih =>
    rw [strStrFrom]
    split
    · next h => exact (findPat_eq_zero h).symm
    next h =>
    rw [findPat_cons h]
    split
    · next hend =>
      -- what is left of the text is shorter than the pattern
      have hnone : findPat searchString string = none := by
        apply findPat_eq_none_iff.mpr
        intro i hi
        have hlong := hi.length_le
        have hshort := hend.length_le
        rw [List.length_drop] at hlong
        rw [List.length_cons] at hshort
        omega
      rw [hnone]
      rfl
    · rw [ih]

/-! ## Nesting -/

def dictStart : Bytes := lit "<dict>"

def dictEnd : Bytes := lit "</dict>"

/-- What a tag at the start of a text adds to the nesting. -/
def nesting (text : Bytes) : Int :=
  if dictStart <+: text then 1 else if dictEnd <+: text then -1 else 0

/-- The number of dictionaries that are open at `i`. -/
def depth (text : Bytes) : Nat → Int
  | 0 => 0
  | i + 1 => depth text i + nesting (text.drop i)

/-- The tags of dictionaries are balanced. -/
structure Balanced (text : Bytes) : Prop where
  nonneg : ∀ i ≤ text.length, 0 ≤ depth text i
  closed : depth text text.length = 0

section Depth

variable {text : Bytes} {i n : Nat}

theorem nesting_dictStart (h : dictStart <+: text) : nesting text = 1 := by
  rw [nesting, if_pos h]

theorem nesting_dictEnd (h : dictEnd <+: text) : nesting text = -1 := by
  have hnot : ¬ dictStart <+: text := by
    intro h'
    rcases List.prefix_or_prefix_of_prefix h h' with hpre | hpre
    · exact absurd hpre (by decide)
    · exact absurd hpre (by decide)
  rw [nesting, if_neg hnot, if_pos h]

theorem nesting_other (hstart : ¬ dictStart <+: text) (hend : ¬ dictEnd <+: text) :
    nesting text = 0 := by
  rw [nesting, if_neg hstart, if_neg hend]

theorem getElem?_of_starts {a : UInt8} {pat : Bytes} (h : a :: pat <+: text.drop i) :
    text[i]? = some a := by
  obtain ⟨rest, hrest⟩ := h
  rw [← List.head?_drop, ← hrest]
  rfl

theorem lt_length_of_starts {a : UInt8} {pat : Bytes} (h : a :: pat <+: text.drop i) :
    i < text.length := (List.getElem?_eq_some_iff.mp (getElem?_of_starts h)).1

theorem nesting_letter (h : text[i]? ≠ some 60) : nesting (text.drop i) = 0 :=
  nesting_other (fun hstart => h (getElem?_of_starts hstart)) fun hend =>
    h (getElem?_of_starts hend)

theorem depth_of_nesting (h : ∀ j, i ≤ j → j < i + n → nesting (text.drop j) = 0) :
    depth text (i + n) = depth text i := by
  induction n with
  | zero => rfl
  | succ n ih =>
    rw [← Nat.add_assoc, depth, h _ (by omega) (by omega), Int.add_zero]
    exact ih fun j hle hlt => h j hle (by omega)

theorem depth_add (h : ∀ j, i ≤ j → j < i + n → text[j]? ≠ some 60) :
    depth text (i + n) = depth text i :=
  depth_of_nesting fun j hle hlt => nesting_letter (h j hle hlt)

end Depth

end Clover.Kext
