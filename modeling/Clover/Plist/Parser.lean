import Clover.Plist.Tags

/-!
# The parser of property lists

The functions `GetNextTag`, `FixDataMatchingTag`, `XMLParseNextTag`, `__ParseTagList`, the functions
`ParseTag…` and `ParseXML` of `Platform/plist/plist.cpp`. They work in a buffer that they change: a
zero ends the name of a tag and the content of an element. A buffer is the list of the bytes from a
pointer on, as far as there is memory; a function returns it as it leaves it.

A function that fails returns `EFI_UNSUPPORTED`. The loops and the recursion are bounded by a number
of steps, and have `Stop.fuel` as their result when it is too small.
-/

namespace Clover.Plist

open Clover.Xml

inductive Stop where
  /-- The status `EFI_UNSUPPORTED`. -/
  | unsupported
  | fuel
  deriving DecidableEq, Repr

/-! ## Finding tags -/

/-- What `GetNextTag` returns: the buffer, the name of the tag, where the tag starts, and where it
ends. -/
structure NextTag where
  buffer : Bytes
  tag : Bytes
  start : Nat
  length : Nat
  deriving DecidableEq, Repr

/-- The bytes before the first zero or `c`. -/
def upTo (c : UInt8) (buffer : Bytes) : Bytes := buffer.takeWhile fun b => b ≠ 0 ∧ b ≠ c

/-- The next tag, with a zero written over its end. -/
def getNextTag (buffer : Bytes) : Except Stop NextTag :=
  let cnt := (upTo 60 buffer).length
  if buffer.getD cnt 0 = 0 then .error .unsupported
  else
    let tag := upTo 62 (buffer.drop (cnt + 1))
    let cnt2 := cnt + 1 + tag.length
    if buffer.getD cnt2 0 = 0 then .error .unsupported
    else .ok { buffer := buffer.set cnt2 0, tag := tag, start := cnt, length := cnt2 + 1 }

/-- The loop of `FixDataMatchingTag`, from the end of the last tag on; the result has the length up
to the end of the end tag. -/
def fixDataMatchingTag (tag : Bytes) : Nat → Bytes → Except Stop (Bytes × Nat)
  | 0, _ => .error .fuel
  | fuel + 1, buffer => do
    let endTag ← getNextTag buffer
    if endTag.tag = 47 :: tag then return (endTag.buffer.set endTag.start 0, endTag.length)
    let (rest, length) ← fixDataMatchingTag tag fuel (endTag.buffer.drop endTag.length)
    return (endTag.buffer.take endTag.length ++ rest, endTag.length + length)

/-- The C string at the start of a buffer. -/
def cString (buffer : Bytes) : Bytes := buffer.takeWhile (· ≠ 0)

/-! ## Elements -/

/-- The cases of `XMLParseNextTag`. -/
inductive Element where
  | plist
  | dict (empty : Bool)
  | key
  | string
  | integer
  | float
  | data
  | date
  | bool (value : Bool)
  | array (empty : Bool)
  | unknown
  deriving DecidableEq, Repr

/-- The test `!strncmp(tagName, name, n)`. -/
def sameUpTo (n : Nat) (tagName name : Bytes) : Bool := tagName.take n = name.take n

/-- The case of a name, in the order of the source. The comparisons with `plist` and with the name
of a float that a space follows are longer than these names, so that they compare the whole. -/
def element (tagName : Bytes) : Element :=
  if sameUpTo 6 tagName (lit "plist") then .plist
  else if tagName = lit "dict" then .dict false
  else if tagName = lit "dict/" then .dict true
  else if sameUpTo 5 tagName (lit "dict ") then .dict false
  else if tagName = lit "key" then .key
  else if tagName = lit "string" then .string
  else if sameUpTo 7 tagName (lit "string ") then .string
  else if tagName = lit "integer" then .integer
  else if sameUpTo 8 tagName (lit "integer ") then .integer
  else if tagName = lit "real" then .float
  else if sameUpTo 8 tagName (lit "real ") then .float
  else if tagName = lit "data" then .data
  else if sameUpTo 5 tagName (lit "data ") then .data
  else if tagName = lit "date" then .date
  else if tagName = lit "false/" then .bool false
  else if tagName = lit "true/" then .bool true
  else if tagName = lit "array" then .array false
  else if sameUpTo 6 tagName (lit "array ") then .array false
  else if tagName = lit "array/" then .array true
  else .unknown

/-- What a function that parses a tag returns: the tag, the length, and the buffer. -/
structure Parsed (T : Type) where
  tag : T
  length : Nat
  buffer : Bytes

section Leaves

variable {F : Type}

def parseTagKey (fuel : Nat) (buffer : Bytes) : Except Stop (Parsed (Tag F)) := do
  let (buffer, length) ← fixDataMatchingTag (lit "key") fuel buffer
  return ⟨.key (strncpy buffer (cString buffer).length), length, buffer⟩

/-- The buffer after `XMLDecode` in place, where `out` is what it has written. -/
def decoded (buffer out : Bytes) : Bytes :=
  if out.length < (cString buffer).length then out ++ 0 :: buffer.drop (out.length + 1)
  else out ++ buffer.drop out.length

def parseTagString (fuel : Nat) (buffer : Bytes) : Except Stop (Parsed (Tag F)) := do
  let (buffer, length) ← fixDataMatchingTag (lit "string") fuel buffer
  let out := xmlDecode buffer (cString buffer).length (cString buffer).length
  let buffer := decoded buffer out
  return ⟨.string (strncpy buffer out.length), length, buffer⟩

/-- A hexadecimal digit. -/
def hexValue (c : UInt8) : Option Nat :=
  if 48 ≤ c ∧ c ≤ 57 then some (c.toNat - 48)
  else if 97 ≤ c ∧ c ≤ 102 then some (c.toNat - 97 + 10)
  else if 65 ≤ c ∧ c ≤ 70 then some (c.toNat - 65 + 10)
  else none

def decimalValue (c : UInt8) : Option Nat :=
  if c < 48 ∨ 57 < c then none else some (c.toNat - 48)

/-- The loops that read digits; the arithmetic is that of `INTN`. -/
def readDigits (value : UInt8 → Option Nat) (base : BitVec 64) :
    BitVec 64 → Bytes → Except Stop (BitVec 64)
  | integer, [] => .ok integer
  | integer, c :: val =>
    match value c with
    | some digit => readDigits value base (integer * base + BitVec.ofNat 64 digit) val
    | none => .error .unsupported

/-- The text of an integer, with the `size` that bounds the loop over decimal digits. -/
def readInteger (buffer : Bytes) (size : Nat) : Except Stop (BitVec 64) :=
  if 1 < size ∧ (buffer.getD 1 0 = 120 ∨ buffer.getD 1 0 = 88) then
    readDigits hexValue 16 0 (cString (buffer.drop 2))
  else if size ≠ 0 then
    if buffer.getD 0 0 = 45 then do
      let integer ← readDigits decimalValue 10 0 ((cString (buffer.drop 1)).take (size - 1))
      return -integer
    else readDigits decimalValue 10 0 ((cString buffer).take size)
  else .ok 0

/-- The length in `lenPtr` is what it was before if the content starts with a tag. -/
def parseTagInteger (fuel lenPtr : Nat) (buffer : Bytes) : Except Stop (Parsed (Tag F)) := do
  let (buffer, length) ← fixDataMatchingTag (lit "integer") fuel buffer
  if buffer.getD 0 0 = 60 then return ⟨.int64 0, lenPtr, buffer⟩
  let integer ← readInteger buffer length
  return ⟨.int64 integer, length, buffer⟩

def parseTagFloat (lib : FloatLib F) (fuel : Nat) (buffer : Bytes) :
    Except Stop (Parsed (Tag F)) := do
  let (buffer, length) ← fixDataMatchingTag (lit "real") fuel buffer
  return ⟨.float (lib.asciiStrToFloat (cString buffer)), length, buffer⟩

def parseTagData (fuel : Nat) (buffer : Bytes) : Except Stop (Parsed (Tag F)) := do
  let (buffer, length) ← fixDataMatchingTag (lit "data") fuel buffer
  return ⟨.data ((base64DecodeClover (cString buffer)).getD []), length, buffer⟩

def parseTagDate (fuel : Nat) (buffer : Bytes) : Except Stop (Parsed (Tag F)) := do
  let (buffer, length) ← fixDataMatchingTag (lit "date") fuel buffer
  return ⟨.date (strncpy buffer length), length, buffer⟩

/-- The result for the whole element, from that for what follows its first tag. -/
def NextTag.result (t : NextTag) (parsed : Parsed (Tag F)) : Parsed (Option (Tag F)) :=
  ⟨some parsed.tag, t.length + parsed.length, t.buffer.take t.length ++ parsed.buffer⟩

end Leaves

/-! ## The recursion -/

section Parse

variable {F : Type} (lib : FloatLib F)

mutual

/-- The next element, with its children. -/
def xmlParseNextTag : Nat → Bytes → Except Stop (Parsed (Option (Tag F)))
  | 0, _ => .error .fuel
  | fuel + 1, buffer => do
    let t ← getNextTag buffer
    let rest := t.buffer.drop t.length
    match element t.tag with
    | .plist => return ⟨none, t.length, t.buffer⟩
    | .dict true => return t.result ⟨.dict [], 0, rest⟩
    | .dict false => do
      let parsed ← parseTagList fuel rest
      return t.result { parsed with tag := .dict parsed.tag }
    | .key => t.result <$> parseTagKey fuel rest
    | .string => t.result <$> parseTagString fuel rest
    | .integer => t.result <$> parseTagInteger fuel t.length rest
    | .float => t.result <$> parseTagFloat lib fuel rest
    | .data => t.result <$> parseTagData fuel rest
    | .date => t.result <$> parseTagDate fuel rest
    | .bool value => return t.result ⟨.bool value, 0, rest⟩
    | .array true => return t.result ⟨.array [], 0, rest⟩
    | .array false => do
      let parsed ← parseTagList fuel rest
      return t.result { parsed with tag := .array parsed.tag }
    | .unknown => return ⟨none, t.length, t.buffer⟩

/-- The loop of `__ParseTagList`, from the end of the last tag on. -/
def parseTagList : Nat → Bytes → Except Stop (Parsed (List (Tag F)))
  | 0, _ => .error .fuel
  | fuel + 1, buffer => do
    let parsed ← xmlParseNextTag fuel buffer
    match parsed.tag with
    | none => return ⟨[], parsed.length, parsed.buffer⟩
    | some tag => do
      let others ← parseTagList fuel (parsed.buffer.drop parsed.length)
      return ⟨tag :: others.tag, parsed.length + others.length,
        parsed.buffer.take parsed.length ++ others.buffer⟩

end

/-- The loop of `ParseXML`, which ends at the first tag with `isDict()` or `isArray()`. The result
is `NULL` for an array, and for a date, of which `getDict()` is `NULL`. -/
def parseXMLLoop : Nat → Bytes → Except Stop (Option (List (Tag F)))
  | 0, _ => .error .fuel
  | fuel + 1, buffer => do
    let parsed ← xmlParseNextTag lib fuel buffer
    match parsed.tag with
    | some (.dict content) => return some content
    | some (.array _) | some (.date _) => return none
    | _ => parseXMLLoop fuel (parsed.buffer.drop parsed.length)

/-- The copy that `ParseXML` works on, with what stands behind it in memory. -/
def configBuffer (text behind : Bytes) : Bytes :=
  (text.map fun c => if c = 0 then 0x20 else c) ++ 0 :: behind

/-- The first dictionary of a text. -/
def parseXML (fuel : Nat) (text behind : Bytes) : Except Stop (Option (List (Tag F))) :=
  parseXMLLoop lib fuel (configBuffer text behind)

end Parse

end Clover.Plist
