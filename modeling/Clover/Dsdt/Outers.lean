import Clover.Dsdt.Lengths

/-!
# Correcting the packages around an edit

`CorrectOuterMethod` and `CorrectOuters` (`Platform/FixBiosDsdt.cpp`) look for the packages that
enclose an edited place. They go backwards over the bytes of the table and take for the header of a
package what looks like one; where its length reaches over the edited place, the length is
corrected.
-/

namespace Clover.Dsdt

open Clover.Lib Clover.Aml Clover.Patch

/-! ## The functions -/

/-- The byte at `i` looks like part of a number. -/
def cmpNum (dsdt : Mem) (i : Nat) (sure : Bool) : Bool :=
  if sure then dsdt (i - 1) = 0x0A || dsdt (i - 2) = 0x0B || dsdt (i - 4) = 0x0C
  else (0x0A ≤ dsdt (i - 1) && dsdt (i - 1) ≤ 0x0C) || dsdt (i - 2) = 0x0B ||
    dsdt (i - 2) = 0x0C || dsdt (i - 4) = 0x0C

/-- The bytes that `GetName` takes for characters of a name. -/
def isNameByte (c : UInt8) : Bool :=
  !(c < 0x2F || (0x39 < c && c < 0x41) || (0x5A < c && c != 0x5F))

/-- The name at `adr`, and whether a backslash stands before it. -/
def getName (dsdt : Mem) (adr : Nat) : Option (Bytes × Nat) :=
  let j := if dsdt adr = 0x5C then 1 else 0
  let name := [dsdt (adr + j), dsdt (adr + j + 1), dsdt (adr + j + 2), dsdt (adr + j + 3)]
  if name.all isNameByte then some (name, j) else none

/-- The place where `CorrectOuterMethod` looks for the name of a method. -/
def methodName (dsdt : Mem) (k size : Nat) : Option (Bytes × Nat) :=
  if size ≤ 0x3F then getName dsdt (k + 1)
  else if size ≤ 0xFFF then getName dsdt (k + 2)
  else getName dsdt (k + 3)

/-- One pass of `CorrectOuterMethod`. -/
def methodPass (fuel : Nat) (dsdt : Mem) (len adr : Nat) (shift : Int) (i : Nat) :
    Run (Pass Nat (Mem × Nat)) :=
  if 0x20 < i then
    let i := i - 1
    let k := i + 1
    if dsdt i = 0x14 ∧ cmpNum dsdt i false = false then
      let size := (getSize dsdt k).toNat
      if size = 0 then .ok (.again i)
      else if (methodName dsdt k size).isNone then .ok (.again i)
      else if adr + 4 < k + size then do
        let (dsdt, offset) ← writeSize fuel k dsdt len shift
        .ok (.leave (dsdt, uint32 ((len : Int) + offset)))
      else .ok (.leave (dsdt, len))
    else .ok (.again i)
  else .ok (.leave (dsdt, len))

/-- The table after the correction, and its length. -/
def correctOuterMethod (fuel : Nat) (dsdt : Mem) (len adr : Nat) (shift : Int) : Run (Mem × Nat) :=
  if shift = 0 then .ok (dsdt, len)
  else Run.loop (methodPass fuel dsdt len adr shift) fuel adr

/-- The search for a field around `i`, from `j` downwards: the first `Field`, `Device` or
`IndexField` that is met decides. -/
def insideField (dsdt : Mem) (i : Nat) : Nat → Bool
  | 0 => false
  | j + 1 =>
    if 0x20 < j + 1 then
      if dsdt j = 0x5B ∧ (dsdt (j + 1) = 0x81 ∨ dsdt (j + 1) = 0x82 ∨ dsdt (j + 1) = 0x86) then
        decide (i ≤ j + 1 + (getSize dsdt (j + 2)).toNat)
      else insideField dsdt i j
    else false

/-- Where `CorrectOuters` takes `i` for the header of a package, the address of its length. -/
def packageAt (dsdt : Mem) (i : Nat) : Option Nat :=
  if dsdt i = 0x5B ∧ dsdt (i + 1) = 0x82 ∧ cmpNum dsdt i true = false then some (i + 2)
  else if dsdt i = 0x10 ∧ dsdt (i - 1) ≠ 0x14 ∧ dsdt (i - 1) ≠ 0xA0 ∧ dsdt (i - 1) ≠ 0xA1 ∧
      dsdt (i - 1) ≠ 0xA2 ∧ cmpNum dsdt i true = false then
    if insideField dsdt i (i - 1) then none else some (i + 1)
  else none

/-- The variables of `CorrectOuters`. -/
structure Correcting where
  i : Nat
  dsdt : Mem
  len : Nat
  shift : Int

/-- One pass of `CorrectOuters`. -/
def outerPass (fuel adr : Nat) (v : Correcting) : Run (Pass Correcting (Mem × Nat)) :=
  if 0x20 < v.i then
    match packageAt v.dsdt v.i with
    | none => .ok (.again { v with i := v.i - 1 })
    | some k =>
      let size := (getSize v.dsdt k).toNat
      if size ≠ 0 ∧ adr + 4 < k + size then do
        let (dsdt, offset) ← writeSize fuel k v.dsdt v.len v.shift
        .ok (.again ⟨k - 3, dsdt, uint32 ((v.len : Int) + offset), v.shift + offset⟩)
      else .ok (.again { v with i := k - 3 })
  else .ok (.leave (v.dsdt, v.len))

/-- The table after the correction, and its length. -/
def correctOuters (fuel : Nat) (dsdt : Mem) (len adr : Nat) (shift : Int) : Run (Mem × Nat) :=
  if shift = 0 then .ok (dsdt, len)
  else Run.loop (outerPass fuel adr) fuel ⟨adr, dsdt, len, shift⟩

end Clover.Dsdt
