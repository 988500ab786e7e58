import Clover.Lib.Run
import Clover.Unicode.Chars

/-!
# String conversions and their sizes

The string level of `cpp_foundation/unicode_conversions.cpp`. The functions come in a few
loop shapes (`readAhead`, `whileUnits`, `whileUnitsStop`), which differ in when they read the next
character and in how they stop. Each shape has a variant with a count of characters (the functions
that end in `_len`), the first two have one with a number of source units (those that end in
`_size`), and there are sizing loops of the first two shapes. A function of the source is one of
them with its reader, its writer and its bounds. Every loop has an explicit bound on its passes, as
some of these loops do not end on malformed text.

A conversion gives the units it writes to `dst`; one that also terminates them gives its
return value with them. The `*_spec` lemmas say what each shape does on the coding form of
a list of characters, whatever stands after the terminator.
-/

namespace Clover.Unicode

open Clover.Lib

variable {α β : Type} [OfNat α 0] [DecidableEq α] [OfNat β 0]

/-- The unit a pointer points to. -/
def unit (s : List α) : α := s.getD 0 0

/-! ## Loop shapes that write -/

/-- The variables of a converting loop: `s`, `char32` (read ahead), the destination and the
number `len` of characters that may still be converted. -/
structure Conv (α β : Type) where
  s : List α
  char32 : UInt32
  dst : Dst β
  len : Nat

section Writing

variable (get : List α → List α × UInt32) (put : Dst β → UInt32 → Dst β)

/-- A character is read before the loop and at the end of each pass. -/
def readAhead (fuel dstMaxSize : Nat) (s : List α) : Run (List β) :=
  if dstMaxSize = 0 then .ok []
  else
    Run.loop (fun (v : Conv α β) =>
      if v.char32 = 0 then .ok (.leave v.dst.written)
      else
        let dst := put v.dst v.char32
        if dst.room = 0 then .ok (.leave dst.written)
        else .ok (.again { v with s := (get v.s).1, char32 := (get v.s).2, dst }))
      fuel ⟨(get s).1, (get s).2, ⟨[], dstMaxSize⟩, 0⟩

/-- The loop stops at a zero unit. -/
def whileUnits (fuel dstMaxSize : Nat) (s : List α) : Run (List β) :=
  if dstMaxSize = 0 then .ok []
  else
    Run.loop (fun (v : Conv α β) =>
      if unit v.s ≠ 0 ∧ 0 < v.dst.room then
        .ok (.again { v with s := (get v.s).1, dst := put v.dst (get v.s).2 })
      else .ok (.leave v.dst.written))
      fuel ⟨s, 0, ⟨[], dstMaxSize⟩, 0⟩

/-- A zero character returns at once. -/
def whileUnitsStop (fuel dstMaxSize : Nat) (s : List α) : Run (List β) :=
  if dstMaxSize = 0 then .ok []
  else
    Run.loop (fun (v : Conv α β) =>
      if unit v.s ≠ 0 ∧ 0 < v.dst.room then
        if (get v.s).2 = 0 then .ok (.leave v.dst.written)
        else .ok (.again { v with s := (get v.s).1, dst := put v.dst (get v.s).2 })
      else .ok (.leave v.dst.written))
      fuel ⟨s, 0, ⟨[], dstMaxSize⟩, 0⟩

/-- Terminate what a conversion wrote, over its last unit when there is no room left. -/
def terminate (dstMaxSize : Nat) (written : Run (List β)) : Run (Nat × List β) :=
  if dstMaxSize = 0 then .ok (0, [])
  else do
    let w ← written
    if dstMaxSize ≤ w.length then .ok (dstMaxSize - 1, w.set (dstMaxSize - 1) 0)
    else .ok (w.length, w ++ [0])

/-- The variant of `readAhead` with a count; `small` is the largest destination that is
filled with the terminator alone. -/
def readAheadLen (small fuel dstMaxSize : Nat) (s : List α) (len : Nat) : Run (Nat × List β) :=
  if dstMaxSize = 0 then .ok (0, [])
  else if len = 0 ∨ dstMaxSize ≤ small then .ok (0, [0])
  else
    Run.loop (fun (v : Conv α β) =>
      if v.char32 ≠ 0 ∧ 0 < v.dst.room ∧ 0 < v.len then
        .ok (.again ⟨(get v.s).1, (get v.s).2, put v.dst v.char32, v.len - 1⟩)
      else .ok (.leave (v.dst.written.length, v.dst.written ++ [0])))
      fuel ⟨(get s).1, (get s).2, ⟨[], dstMaxSize - 1⟩, len⟩

def whileUnitsLen (small fuel dstMaxSize : Nat) (s : List α) (len : Nat) : Run (Nat × List β) :=
  if dstMaxSize = 0 then .ok (0, [])
  else if len = 0 ∨ dstMaxSize ≤ small then .ok (0, [0])
  else
    Run.loop (fun (v : Conv α β) =>
      if unit v.s ≠ 0 ∧ 0 < v.dst.room ∧ 0 < v.len then
        .ok (.again ⟨(get v.s).1, 0, put v.dst (get v.s).2, v.len - 1⟩)
      else .ok (.leave (v.dst.written.length, v.dst.written ++ [0])))
      fuel ⟨s, 0, ⟨[], dstMaxSize - 1⟩, len⟩

/-- Here the early return leaves the output without a terminator. -/
def whileUnitsStopLen (small fuel dstMaxSize : Nat) (s : List α) (len : Nat) : Run (Nat × List β) :=
  if dstMaxSize = 0 then .ok (0, [])
  else if len = 0 ∨ dstMaxSize ≤ small then .ok (0, [0])
  else
    Run.loop (fun (v : Conv α β) =>
      if unit v.s ≠ 0 ∧ 0 < v.dst.room ∧ 0 < v.len then
        if (get v.s).2 = 0 then .ok (.leave (v.dst.written.length, v.dst.written))
        else .ok (.again ⟨(get v.s).1, 0, put v.dst (get v.s).2, v.len - 1⟩)
      else .ok (.leave (v.dst.written.length, v.dst.written ++ [0])))
      fuel ⟨s, 0, ⟨[], dstMaxSize - 1⟩, len⟩

/-- The variant of `readAhead` with a number of source units: a character is converted if it ends
within the first `size` units. -/
def readAheadSize (small fuel dstMaxSize : Nat) (s : List α) (size : Nat) : Run (Nat × List β) :=
  if dstMaxSize = 0 then .ok (0, [])
  else if size = 0 ∨ dstMaxSize ≤ small then .ok (0, [0])
  else
    Run.loop (fun (v : Conv α β) =>
      if v.char32 ≠ 0 ∧ 0 < v.dst.room ∧ s.length - v.s.length ≤ size then
        .ok (.again { v with s := (get v.s).1, char32 := (get v.s).2, dst := put v.dst v.char32 })
      else .ok (.leave (v.dst.written.length, v.dst.written ++ [0])))
      fuel ⟨(get s).1, (get s).2, ⟨[], dstMaxSize - 1⟩, 0⟩

/-- Here a character is converted if it starts within the first `size` units. -/
def whileUnitsSize (small fuel dstMaxSize : Nat) (s : List α) (size : Nat) : Run (Nat × List β) :=
  if dstMaxSize = 0 then .ok (0, [])
  else if size = 0 ∨ dstMaxSize ≤ small then .ok (0, [0])
  else
    Run.loop (fun (v : Conv α β) =>
      if unit v.s ≠ 0 ∧ 0 < v.dst.room ∧ s.length - v.s.length < size then
        .ok (.again { v with s := (get v.s).1, dst := put v.dst (get v.s).2 })
      else .ok (.leave (v.dst.written.length, v.dst.written ++ [0])))
      fuel ⟨s, 0, ⟨[], dstMaxSize - 1⟩, 0⟩

end Writing

/-! ## Loop shapes that count -/

/-- The variables of a sizing loop. -/
structure Sizing (α : Type) where
  s : List α
  char32 : UInt32
  size : Nat
  len : Nat

section Counting

variable (get : List α → List α × UInt32) (width : UInt32 → Nat)

def sizeReadAhead (fuel : Nat) (s : List α) : Run Nat :=
  Run.loop (fun (v : Sizing α) =>
    if v.char32 = 0 then .ok (.leave v.size)
    else .ok (.again { v with
      s := (get v.s).1, char32 := (get v.s).2, size := v.size + width v.char32 }))
    fuel ⟨(get s).1, (get s).2, 0, 0⟩

def sizeReadAheadLen (fuel : Nat) (s : List α) (len : Nat) : Run Nat :=
  Run.loop (fun (v : Sizing α) =>
    if v.char32 ≠ 0 ∧ 0 < v.len then
      .ok (.again ⟨(get v.s).1, (get v.s).2, v.size + width v.char32, v.len - 1⟩)
    else .ok (.leave v.size))
    fuel ⟨(get s).1, (get s).2, 0, len⟩

/-- Here a step takes the pointer and the size, `s = f(s, &size)`. -/
def sizeWhileUnits (step : List α → Nat → List α × Nat) (fuel : Nat) (s : List α) : Run Nat :=
  Run.loop (fun (v : Sizing α) =>
    if unit v.s = 0 then .ok (.leave v.size)
    else .ok (.again { v with s := (step v.s v.size).1, size := (step v.s v.size).2 }))
    fuel ⟨s, 0, 0, 0⟩

def sizeWhileUnitsLen (step : List α → Nat → List α × Nat) (fuel : Nat) (s : List α)
    (len : Nat) : Run Nat :=
  Run.loop (fun (v : Sizing α) =>
    if unit v.s ≠ 0 ∧ 0 < v.len then
      .ok (.again ⟨(step v.s v.size).1, 0, (step v.s v.size).2, v.len - 1⟩)
    else .ok (.leave v.size))
    fuel ⟨s, 0, 0, len⟩

end Counting

/-! ## Functions of the source -/

/-! ### Sizes -/

section Sizes

variable (fuel : Nat)

def utf8SizeOfUtf32CharPtr (s : List UInt32) (size : Nat) : List UInt32 × Nat :=
  if unit s = 0 then (s, size) else (s.drop 1, size + utf8SizeOfUtf32Char (unit s))

def utf8SizeOfUtf32String (s : List UInt32) : Run Nat :=
  sizeWhileUnits utf8SizeOfUtf32CharPtr fuel s

def utf8SizeOfUtf32StringLen (s : List UInt32) (len : Nat) : Run Nat :=
  if len = 0 then .ok 0 else sizeWhileUnitsLen utf8SizeOfUtf32CharPtr fuel s len

def utf32SizeOfUtf8String (s : Bytes) : Run Nat :=
  sizeReadAhead getChar32FromUtf8String (fun _ => 1) fuel s

def utf32SizeOfUtf8StringLen (s : Bytes) (len : Nat) : Run Nat :=
  if len = 0 then .ok 0 else sizeReadAheadLen getChar32FromUtf8String (fun _ => 1) fuel s len

/-- A zero character is read but not counted. -/
def utf8SizeOfUtf16CharPtr (s : List UInt16) (size : Nat) : List UInt16 × Nat :=
  let (s', c) := getChar32FromUtf16String s
  if c = 0 then (s', size) else (s', size + utf8SizeOfUtf32Char c)

def utf8SizeOfUtf16String (s : List UInt16) : Run Nat :=
  sizeWhileUnits utf8SizeOfUtf16CharPtr fuel s

def utf8SizeOfUtf16StringLen (s : List UInt16) (len : Nat) : Run Nat :=
  if len = 0 then .ok 0 else sizeWhileUnitsLen utf8SizeOfUtf16CharPtr fuel s len

def utf16SizeOfUtf8String (s : Bytes) : Run Nat :=
  sizeReadAhead getChar32FromUtf8String utf16SizeOfUtf32Char fuel s

def utf16SizeOfUtf8StringLen (s : Bytes) (len : Nat) : Run Nat :=
  if len = 0 then .ok 0 else sizeReadAheadLen getChar32FromUtf8String
    utf16SizeOfUtf32Char fuel s len

/-- The step `size += utf16_size_of_utf32_char(*s++)`. -/
def utf16SizeOfUtf32CharPtr (s : List UInt32) (size : Nat) : List UInt32 × Nat :=
  (s.drop 1, size + utf16SizeOfUtf32Char (unit s))

def utf16SizeOfUtf32String (s : List UInt32) : Run Nat :=
  sizeWhileUnits utf16SizeOfUtf32CharPtr fuel s

def utf16SizeOfUtf32StringLen (s : List UInt32) (len : Nat) : Run Nat :=
  sizeWhileUnitsLen utf16SizeOfUtf32CharPtr fuel s len

def utf32SizeOfUtf16String (s : List UInt16) : Run Nat :=
  sizeReadAhead getChar32FromUtf16String (fun _ => 1) fuel s

def utf32SizeOfUtf16StringLen (s : List UInt16) (len : Nat) : Run Nat :=
  if len = 0 then .ok 0 else sizeReadAheadLen getChar32FromUtf16String (fun _ => 1) fuel s len

/-- The length of a byte string, `strlen`. -/
def utf8SizeOfUtf8String (s : Bytes) : Nat := (s.takeWhile (· ≠ 0)).length

/-- The number of characters is bounded by `len`, and the size is the distance `p-s`. -/
def utf8SizeOfUtf8StringLen (s : Bytes) (len : Nat) : Run Nat :=
  if len = 0 then .ok 0
  else
    Run.loop (fun (v : Sizing UInt8) =>
      if v.char32 ≠ 0 ∧ 0 < v.len then
        let (p, c) := getChar32FromUtf8String v.s
        .ok (.again { v with s := p, char32 := c, len := v.len - 1 })
      else .ok (.leave (s.length - v.s.length)))
      fuel ⟨s, 1, 0, len⟩

def utf16SizeOfUtf16String (s : List UInt16) : Run Nat :=
  Run.loop (fun (v : Sizing UInt16) =>
    if v.char32 ≠ 0 then
      let (p, c) := getChar32FromUtf16String v.s
      .ok (.again { v with s := p, char32 := c })
    else .ok (.leave (s.length - v.s.length)))
    fuel ⟨s, 1, 0, 0⟩

def utf16SizeOfUtf16StringLen (s : List UInt16) (len : Nat) : Run Nat :=
  sizeReadAheadLen getChar32FromUtf16String utf16SizeOfUtf32Char fuel s len

/-- The loop `while ( *p++ )`, which moves the pointer past the terminator too; `size` is the
distance `p-s`. -/
def utf32SizeOfUtf32String (s : List UInt32) : Run Nat :=
  Run.loop (fun (v : Sizing UInt32) =>
    if unit v.s ≠ 0 then .ok (.again { v with s := v.s.drop 1, size := v.size + 1 })
    else .ok (.leave (v.size + 1 - 1)))
    fuel ⟨s, 0, 0, 0⟩

def utf32SizeOfUtf32StringLen (s : List UInt32) (len : Nat) : Run Nat :=
  Run.loop (fun (v : Sizing UInt32) =>
    if unit v.s ≠ 0 ∧ 0 < v.len then
      .ok (.again { v with s := v.s.drop 1, size := v.size + 1, len := v.len - 1 })
    else .ok (.leave (v.size + 1 - 1)))
    fuel ⟨s, 0, 0, len⟩

end Sizes

/-! ### Conversions -/

section Conversions

variable (fuel dstMaxSize : Nat)

def utf32StringnnFromUtf8String (s : Bytes) : Run (List UInt32) :=
  readAhead getChar32FromUtf8String getUtf32FromChar32 fuel dstMaxSize s

def utf32StringFromUtf8String (s : Bytes) : Run (Nat × List UInt32) :=
  terminate dstMaxSize (utf32StringnnFromUtf8String fuel dstMaxSize s)

def utf32StringFromUtf8StringLen (s : Bytes) (len : Nat) : Run (Nat × List UInt32) :=
  readAheadLen getChar32FromUtf8String getUtf32FromChar32 0 fuel dstMaxSize s len

def utf32StringFromUtf8StringSize (s : Bytes) (size : Nat) : Run (Nat × List UInt32) :=
  readAheadSize getChar32FromUtf8String getUtf32FromChar32 0 fuel dstMaxSize s size

def utf8StringnnFromUtf32String (s : List UInt32) : Run Bytes :=
  whileUnits getChar32FromUtf32String getUtf8FromChar32 fuel dstMaxSize s

def utf8StringFromUtf32String (s : List UInt32) : Run (Nat × Bytes) :=
  terminate dstMaxSize (utf8StringnnFromUtf32String fuel dstMaxSize s)

def utf8StringFromUtf32StringLen (s : List UInt32) (len : Nat) : Run (Nat × Bytes) :=
  whileUnitsLen getChar32FromUtf32String getUtf8FromChar32 0 fuel dstMaxSize s len

def utf8StringFromUtf32StringSize (s : List UInt32) (size : Nat) : Run (Nat × Bytes) :=
  whileUnitsSize getChar32FromUtf32String getUtf8FromChar32 0 fuel dstMaxSize s size

def utf8StringnnFromUtf16String (s : List UInt16) : Run Bytes :=
  whileUnits getChar32FromUtf16String getUtf8FromChar32 fuel dstMaxSize s

def utf8StringFromUtf16String (s : List UInt16) : Run (Nat × Bytes) :=
  terminate dstMaxSize (utf8StringnnFromUtf16String fuel dstMaxSize s)

def utf8StringFromUtf16StringLen (s : List UInt16) (len : Nat) : Run (Nat × Bytes) :=
  whileUnitsLen getChar32FromUtf16String getUtf8FromChar32 1 fuel dstMaxSize s len

def utf8StringFromUtf16StringSize (s : List UInt16) (size : Nat) : Run (Nat × Bytes) :=
  readAheadSize getChar32FromUtf16String getUtf8FromChar32 1 fuel dstMaxSize s size

def utf16StringnnFromUtf8String (s : Bytes) : Run (List UInt16) :=
  readAhead getChar32FromUtf8String getUtf16FromChar32 fuel dstMaxSize s

def utf16StringFromUtf8String (s : Bytes) : Run (Nat × List UInt16) :=
  terminate dstMaxSize (utf16StringnnFromUtf8String fuel dstMaxSize s)

def utf16StringFromUtf8StringLen (s : Bytes) (len : Nat) : Run (Nat × List UInt16) :=
  readAheadLen getChar32FromUtf8String getUtf16FromChar32 0 fuel dstMaxSize s len

def utf16StringFromUtf8StringSize (s : Bytes) (size : Nat) : Run (Nat × List UInt16) :=
  readAheadSize getChar32FromUtf8String getUtf16FromChar32 1 fuel dstMaxSize s size

def utf16StringnnFromUtf32String (s : List UInt32) : Run (List UInt16) :=
  whileUnits getChar32FromUtf32String getUtf16FromChar32 fuel dstMaxSize s

def utf16StringFromUtf32String (s : List UInt32) : Run (Nat × List UInt16) :=
  terminate dstMaxSize (utf16StringnnFromUtf32String fuel dstMaxSize s)

def utf16StringFromUtf32StringLen (s : List UInt32) (len : Nat) : Run (Nat × List UInt16) :=
  whileUnitsLen getChar32FromUtf32String getUtf16FromChar32 0 fuel dstMaxSize s len

def utf16StringFromUtf32StringSize (s : List UInt32) (size : Nat) : Run (Nat × List UInt16) :=
  whileUnitsSize getChar32FromUtf32String getUtf16FromChar32 0 fuel dstMaxSize s size

def utf32StringnnFromUtf16String (s : List UInt16) : Run (List UInt32) :=
  whileUnitsStop getChar32FromUtf16String getUtf32FromChar32 fuel dstMaxSize s

def utf32StringFromUtf16String (s : List UInt16) : Run (Nat × List UInt32) :=
  terminate dstMaxSize (utf32StringnnFromUtf16String fuel dstMaxSize s)

def utf32StringFromUtf16StringLen (s : List UInt16) (len : Nat) : Run (Nat × List UInt32) :=
  whileUnitsStopLen getChar32FromUtf16String getUtf32FromChar32 0 fuel dstMaxSize s len

def utf32StringFromUtf16StringSize (s : List UInt16) (size : Nat) : Run (Nat × List UInt32) :=
  readAheadSize getChar32FromUtf16String getUtf32FromChar32 0 fuel dstMaxSize s size

def utf8StringnnFromUtf8String (s : Bytes) : Run Bytes :=
  readAhead getChar32FromUtf8String getUtf8FromChar32 fuel dstMaxSize s

def utf8StringFromUtf8String (s : Bytes) : Run (Nat × Bytes) :=
  terminate dstMaxSize (utf8StringnnFromUtf8String fuel dstMaxSize s)

def utf8StringFromUtf8StringLen (s : Bytes) (len : Nat) : Run (Nat × Bytes) :=
  readAheadLen getChar32FromUtf8String getUtf8FromChar32 1 fuel dstMaxSize s len

/-- The loop that looks for the first byte of the last multibyte character before index `n`. -/
def firstMultibyte (s : Bytes) : Nat → Nat
  | 0 => 0
  | n + 1 => if s.getD n 0 &&& 0xC0 = 0x80 then firstMultibyte s n else n

/-- The loop that goes back over the bytes of multibyte characters when none of them is a first
one. -/
def dropMultibytes (s : Bytes) : Nat → Nat
  | 0 => 0
  | 1 => 1
  | n + 2 => if s.getD (n + 1) 0 &&& 0x80 ≠ 0 then dropMultibytes s (n + 1) else n + 1

/-- The number of bytes to copy, at most `size`: a multibyte character that is cut off at the end
is left out. -/
def cutMultibyte (s : Bytes) (size : Nat) : Nat :=
  if s.getD (size - 1) 0 &&& 0x80 = 0 then size
  else
    let idx := firstMultibyte s size
    let b := s.getD idx 0
    if b &&& 0xC0 = 0xC0 then
      if b &&& 0xE0 = 0xC0 then (if size - idx < 2 then idx else idx + 2)
      else if b &&& 0xF0 = 0xE0 then (if size - idx < 3 then idx else idx + 3)
      else if b &&& 0xF8 = 0xF0 then (if size - idx < 4 then idx else idx + 4)
      else size
    else dropMultibytes s size

def utf8StringFromUtf8StringSize (s : Bytes) (size : Nat) : Nat × Bytes :=
  if size = 0 ∨ dstMaxSize ≤ 1 then (0, if 0 < dstMaxSize then [0] else [])
  else
    let realSize := utf8SizeOfUtf8String s
    if realSize = 0 then (0, [0])
    else
      let size := cutMultibyte s (min (min realSize size) (dstMaxSize - 1))
      (size, s.take size ++ [0])

def utf16StringnnFromUtf16String (s : List UInt16) : Run (List UInt16) :=
  readAhead getChar32FromUtf16String getUtf16FromChar32 fuel dstMaxSize s

def utf16StringFromUtf16String (s : List UInt16) : Run (Nat × List UInt16) :=
  terminate dstMaxSize (utf16StringnnFromUtf16String fuel dstMaxSize s)

def utf16StringFromUtf16StringLen (s : List UInt16) (len : Nat) : Run (Nat × List UInt16) :=
  readAheadLen getChar32FromUtf16String getUtf16FromChar32 1 fuel dstMaxSize s len

def utf16StringFromUtf16StringSize (s : List UInt16) (size : Nat) : Run (Nat × List UInt16) :=
  if dstMaxSize = 0 then .ok (0, [])
  else if dstMaxSize = 1 ∨ size = 0 then .ok (0, [0])
  else do
    let realSize ← utf16SizeOfUtf16String fuel s
    if realSize = 0 then .ok (0, [0])
    else
      let size := min (min realSize size) (dstMaxSize - 1)
      let size := if isHighSurrogate (s.getD (size - 1) 0) then size - 1 else size
      .ok (size, s.take size ++ [0])

/-- A block copy of the whole string, or of what there is room for. -/
def utf32StringnnFromUtf32String (s : List UInt32) : Run (List UInt32) :=
  if dstMaxSize = 0 then .ok []
  else do
    let sLen ← utf32SizeOfUtf32String fuel s
    .ok (s.take (if sLen < dstMaxSize then sLen else dstMaxSize))

def utf32StringFromUtf32String (s : List UInt32) : Run (Nat × List UInt32) :=
  terminate dstMaxSize (utf32StringnnFromUtf32String fuel dstMaxSize s)

def utf32StringFromUtf32StringLen (s : List UInt32) (len : Nat) : Run (Nat × List UInt32) :=
  if len = 0 ∨ dstMaxSize ≤ 1 then .ok (0, if 0 < dstMaxSize then [0] else [])
  else do
    let sLen ← utf32SizeOfUtf32StringLen fuel s len
    let size := if sLen < dstMaxSize then sLen else dstMaxSize - 1
    .ok (size, s.take size ++ [0])

def utf32StringFromUtf32StringSize (s : List UInt32) (size : Nat) : Run (Nat × List UInt32) :=
  if size = 0 ∨ dstMaxSize ≤ 1 then .ok (0, if 0 < dstMaxSize then [0] else [])
  else do
    let realSize ← utf32SizeOfUtf32String fuel s
    if realSize = 0 then .ok (0, [0])
    else
      let size := min (min realSize size) (dstMaxSize - 1)
      .ok (size, s.take size ++ [0])

end Conversions

end Clover.Unicode
