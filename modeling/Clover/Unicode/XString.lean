import Clover.Lib.Cells
import Clover.Unicode.Truncation

/-!
# Editing strings

The editing functions of the string classes `XString8`, `XString16` and `XString32`
(`cpp_foundation/XStringAbstract.h`): `insertAtPos`, `deleteCharsAtPos`, `subString`,
`replaceAll` for characters, `trim` and `length`, with what they use, `CheckSize`, `strcat` and
`strncat`. Positions and counts are in characters, the storage is in code units.

A string either owns its memory, or points to a literal, which the program must not write to. A
write to a literal or outside the memory ends the run.
-/

namespace Clover.Unicode

open Clover.Lib Clover.Lib.Run

/-- A string of the encoding `a`: the memory `__m_data` points to, and whether it was allocated for
this string. -/
structure XString (a : Form) where
  data : List a.Unit
  owned : Bool

/-- The constant `XStringGrowByDefault`. -/
def xStringGrowByDefault : Nat := 10

/-- The overloads of `get_char32_from_string`. -/
def getChar32FromString : (a : Form) → List a.Unit → List a.Unit × UInt32
  | .utf8, s => getChar32FromUtf8String s
  | .utf16, s => getChar32FromUtf16String s
  | .utf32, s => if unit s = 0 then (s, 0) else (s.drop 1, unit s)

/-- The value of a unit as an unsigned number. -/
def unitValue : (a : Form) → a.Unit → Nat
  | .utf8, u => UInt8.toNat u
  | .utf16, u => UInt16.toNat u
  | .utf32, u => UInt32.toNat u

namespace XString

variable {a o : Form}

/-- The member `m_allocatedSize`. -/
def allocatedSize (x : XString a) : Nat := if x.owned then x.data.length else 0

/-- A default constructed string points to `nullChar`. -/
def null : XString a := ⟨[0], false⟩

def write (x : XString a) (pos : Nat) (us : List a.Unit) : Run (XString a) :=
  if x.owned ∧ pos + us.length ≤ x.data.length then .ok ⟨writeCells x.data pos us, true⟩
  else .error (.panic "write outside the allocated memory")

def memmove (x : XString a) (dst src n : Nat) : Run (XString a) :=
  if x.owned ∧ dst + n ≤ x.data.length ∧ src + n ≤ x.data.length then
    .ok ⟨copyCells x.data dst src n, true⟩
  else .error (.panic "write outside the allocated memory")

/-- The condition of the loops of `trim`. -/
def isBlank (u : a.Unit) : Bool := u ≠ 0 ∧ unitValue a u ≤ 32

section Functions

-- the contents of fresh memory, and a bound on the passes of each loop
variable (fresh : Nat → a.Unit) (fuel : Nat) (x : XString a)

/-- The second component says whether the memory has been allocated anew. -/
def checkSize (newAllocatedSize growBy : Nat) : Run (XString a × Bool) :=
  if x.allocatedSize < newAllocatedSize + 1 then
    let n := newAllocatedSize + growBy
    if x.allocatedSize = 0 then do
      let size ← sizeOfString a a fuel x.data
      let n := if n < size then size else n
      let copy ← stringFrom a a fuel (n + 1) x.data
      let new ← write ⟨(List.range (n + 1)).map fresh, true⟩ 0 copy.2
      .ok (new, true)
    else
      .ok (⟨x.data ++ (List.range (n + 1 - x.data.length)).map fresh, true⟩, true)
  else .ok (x, false)

def length : Run Nat := lengthOfString a fuel x.data

def strcat (other : List o.Unit) : Run (XString a) :=
  if unit other ≠ 0 then do
    let currentSize ← sizeOfString a a fuel x.data
    let newSize := currentSize + (← sizeOfString a o fuel other)
    let x := (← checkSize fresh fuel x newSize xStringGrowByDefault).1
    let copy ← stringFrom a o fuel (x.allocatedSize - currentSize) other
    let x ← x.write currentSize copy.2
    x.write newSize [0]
  else .ok x

def strncat (other : List o.Unit) (otherLen : Nat) : Run (XString a) :=
  if unit other ≠ 0 ∧ 0 < otherLen then do
    let currentSize ← sizeOfString a a fuel x.data
    let newSize := currentSize + (← sizeOfStringLen a o fuel other otherLen)
    let x := (← checkSize fresh fuel x newSize xStringGrowByDefault).1
    let copy ← stringFromLen a o fuel x.allocatedSize other otherLen
    let x ← x.write currentSize copy.2
    x.write newSize [0]
  else .ok x

/-- The part of both variants of `insertAtPos` that makes place for `otherSize` units. -/
def insertUnits (other : List o.Unit) (otherSize pos : Nat) : Run (XString a) := do
  let currentSize ← sizeOfString a a fuel x.data
  let x := (← checkSize fresh fuel x (currentSize + otherSize) xStringGrowByDefault).1
  let start ← sizeOfStringLen a a fuel x.data pos
  let x ← x.memmove (start + otherSize) start (currentSize - start + 1)
  let copy ← stringnnFrom a o fuel otherSize other
  x.write start copy

/-- The variant of `insertAtPos` with a number of characters. -/
def insertAtPosLen (other : List o.Unit) (otherLen pos : Nat) : Run (XString a) :=
  if unit other = 0 then .ok x
  else do
    let currentLength ← x.length fuel
    if pos ≥ currentLength then x.strncat fresh fuel other otherLen
    else
      let otherSize ← sizeOfStringLen a o fuel other otherLen
      x.insertUnits fresh fuel other otherSize pos

def insertAtPos (other : List o.Unit) (pos : Nat) : Run (XString a) :=
  if unit other = 0 then .ok x
  else do
    let currentLength ← x.length fuel
    if pos ≥ currentLength then x.strcat fresh fuel other
    else
      let otherSize ← sizeOfString a o fuel other
      x.insertUnits fresh fuel other otherSize pos

/-- The variant of `insertAtPos` for one unit; `behind` is what stands behind it in memory. -/
def insertCharAtPos (otherChar : o.Unit) (behind : List o.Unit) (pos : Nat) :
    Run (XString a) :=
  x.insertAtPosLen fresh fuel (otherChar :: behind) 1 pos

/-- Move what is behind the characters over them. -/
def deleteCharsAtPos (pos count : Nat) : Run (XString a) := do
  let currentLength ← x.length fuel
  if pos ≥ currentLength then .ok x
  else
    let currentSize ← sizeOfString a a fuel x.data
    let x := (← checkSize fresh fuel x currentSize 0).1
    let start ← sizeOfStringLen a a fuel x.data pos
    if pos + count ≥ currentLength then x.write start [0]
    else
      let stop := start + (← sizeOfStringLen a a fuel (x.data.drop start) count)
      x.memmove start stop (currentSize - stop + 1)

/-- The loop of `subString`. -/
def skipChars : Nat → List a.Unit → UInt32 → List a.Unit
  | 0, src, _ => src
  | pos + 1, src, char32 =>
    if char32 = 0 then src
    else
      let next := getChar32FromString a src
      skipChars pos next.1 next.2

def subString (pos count : Nat) : Run (XString a) :=
  (null : XString a).strncat fresh fuel (skipChars pos x.data 1) count

/-- The variables of the loop of `replaceAll`, with pointers as indices. -/
structure Replacing (a : Form) where
  x : XString a
  previousP : Nat
  p : Nat
  char32 : UInt32
  currentSize : Nat

/-- Read the next character, at `p`. -/
def Replacing.next (x : XString a) (p currentSize : Nat) : Replacing a :=
  let rest := getChar32FromString a (x.data.drop p)
  ⟨x, p, x.data.length - rest.1.length, rest.2, currentSize⟩

def replacePass (charToSearch : UInt32) (replaceBy : List UInt32)
    (charToSearchSize charToReplaceBySize : Nat) (v : Replacing a) :
    Run (Pass (Replacing a) (XString a)) :=
  if v.char32 = 0 then .ok (.leave v.x)
  else if v.char32 = charToSearch then do
    let currentSize := v.currentSize + charToReplaceBySize - charToSearchSize
    let x := (← checkSize fresh fuel v.x currentSize xStringGrowByDefault).1
    let x ← x.memmove (v.p + charToReplaceBySize - charToSearchSize) v.p (v.currentSize - v.p + 1)
    let copy ← stringnnFrom a .utf32 fuel charToReplaceBySize replaceBy
    let x ← x.write v.previousP copy
    .ok (.again (.next x (v.p + charToReplaceBySize - charToSearchSize) currentSize))
  else .ok (.again (.next v.x v.p v.currentSize))

/-- The characters stand in memory before `behindSearch` and `behind`. -/
def replaceAll (charToSearch charToReplaceBy : UInt32)
    (behindSearch behind : List UInt32) : Run (XString a) := do
  let currentSize ← sizeOfString a a fuel x.data
  let charToSearchSize ← sizeOfStringLen a .utf32 fuel (charToSearch :: behindSearch) 1
  let charToReplaceBySize ← sizeOfStringLen a .utf32 fuel (charToReplaceBy :: behind) 1
  loop (replacePass fresh fuel charToSearch (charToReplaceBy :: behind) charToSearchSize
    charToReplaceBySize) fuel (.next x 0 currentSize)

/-- The second loop of `trim`. It is only run where there is a unit to stop at. -/
def lastNonBlank (data : List a.Unit) : Nat → Nat
  | 0 => 0
  | i + 1 => if isBlank (data.getD (i + 1) 0) then lastNonBlank data i else i + 1

/-- Cut off blanks at both ends. -/
def trim : Run (XString a) := do
  let lengthInNativeBytes ← sizeOfString a a fuel x.data
  if lengthInNativeBytes = 0 then .ok x
  else
    let start := (x.data.takeWhile isBlank).length
    if x.data.getD start 0 = 0 then x.write 0 [0]
    else
      let newSize := lastNonBlank x.data (lengthInNativeBytes - 1) - start + 1
      let new := (← checkSize fresh fuel x newSize 0).1
      -- the pointer `start` is still one into the memory before `CheckSize`
      let new ← new.write 0 ((x.data.drop start).take newSize)
      new.write newSize [0]

end Functions

end XString

end Clover.Unicode
