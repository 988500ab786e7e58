import Clover.Lib.Bytes
import Clover.Lib.Run

/-!
# The XML reader

`XmlLiteParser` (`cpp_lib/XmlLiteParser.h`, `cpp_lib/XmlLiteParser.cpp`): a cursor in a buffer,
with the line and column it is at, the messages so far and the latch `xmlParsingError`.

Pointers are offsets from `p_start`. The buffer holds the bytes in `[p_start, p_end)`; the byte
at `p_end` is zero. A function with a loop takes a bound on the number of its passes, and
`skipUntilClosingTag` one on its depth too.
-/

namespace Clover.Xml

open Clover.Lib

/-- The bytes of a string literal. -/
def lit (s : String) : Bytes := s.toList.map fun c => c.toNat.toUInt8

/-! ## Messages -/

inductive XmlParserMessageType where
  | error
  | warning
  | info
  deriving DecidableEq, Repr

/-- An argument of `S8Printf`. -/
inductive MsgArg where
  | int (n : Int)
  | char (c : UInt8)
  | str (s : Bytes)
  deriving DecidableEq, Repr

/-- A message, with the format string and the arguments its text is printed from. -/
structure XmlParserMessage where
  type : XmlParserMessageType
  format : String
  args : List MsgArg
  deriving DecidableEq, Repr

/-! ## The state -/

structure XmlParserPosition where
  p : Nat
  line : Int
  col : Int
  deriving DecidableEq, Repr

/-- The state of the parser. -/
structure XmlLiteParser where
  buf : Bytes
  currentPos : XmlParserPosition
  xmlParserMessageArray : List XmlParserMessage
  xmlParsingError : Bool
  deriving DecidableEq, Repr

/-- A pointer into the buffer and a length. -/
structure Slice where
  start : Nat
  length : Nat
  deriving DecidableEq, Repr

namespace XmlLiteParser

/-- A parser as the constructor leaves it. -/
def new : XmlLiteParser := ⟨[], ⟨0, 1, 1⟩, [], false⟩

variable (s : XmlLiteParser)

def addXmlParserMessage (msg : XmlParserMessage) : XmlLiteParser :=
  let a := if s.xmlParserMessageArray.length < 500 then s.xmlParserMessageArray ++ [msg]
    else s.xmlParserMessageArray
  { s with
    xmlParserMessageArray :=
      if a.length = 500 then a ++ [⟨.error, "Too many error. Stopping", []⟩] else a }

def addWarning (generateErrors : Bool) (format : String)
    (args : List MsgArg) : XmlLiteParser :=
  if generateErrors then s.addXmlParserMessage ⟨.warning, format, args⟩ else s

def addError (generateErrors : Bool) (format : String)
    (args : List MsgArg) : XmlLiteParser :=
  if generateErrors then s.addXmlParserMessage ⟨.error, format, args⟩ else s

/-- A structural error: the latch is set too. -/
def addXmlError (generateErrors : Bool) (format : String)
    (args : List MsgArg) : XmlLiteParser :=
  if generateErrors then
    { s with xmlParsingError := true }.addXmlParserMessage ⟨.error, format, args⟩
  else s

/-- One pass of the loop of `init`: a zero byte becomes a space. -/
def replaceZero (i : Nat) : XmlLiteParser :=
  if s.buf.getD i 0 = 0 then
    let s := s.addWarning true "Invalid NULL char at offset %zu. Replace by a space" [.int i]
    { s with buf := s.buf.set i 0x20 }
  else s

/-- Start on a new buffer. The latch is left as it is. -/
def init (buf : Bytes) : XmlLiteParser :=
  (List.range buf.length).foldl replaceZero
    { s with buf := buf, currentPos := ⟨0, 1, 1⟩, xmlParserMessageArray := [] }

/-- The length `p_end - p_start`. -/
def size : Nat := s.buf.length

/-- The bytes of a slice; the zero at `p_end` can be one of them. -/
def bytes (v : Slice) : Bytes :=
  ((s.buf ++ [0]).drop v.start).take v.length

/-- The slice from `start`, which the position is not before, to the current position. -/
def sliceFrom (start : Nat) : Slice := ⟨start, s.currentPos.p - start⟩

def restorePosition (pos : XmlParserPosition) : XmlLiteParser :=
  { s with currentPos := pos }

def isEof : Bool := s.size ≤ s.currentPos.p

def getchar : UInt8 := s.buf.getD s.currentPos.p 0

end XmlLiteParser

/-- The comparison `strnnIsEqual`. -/
def strnnIsEqual (s : XmlLiteParser) (key value : Slice) : Bool :=
  key.length = value.length ∧ s.bytes key = s.bytes value

/-- The comparison `strnIsEqual` with a literal. -/
def strnIsEqual (s : XmlLiteParser) (key : Slice) (value : Bytes) : Bool :=
  key.length = value.length ∧ s.bytes key = value

/-- The lower case of an ASCII letter. -/
def toLower (c : UInt8) : UInt8 := if 65 ≤ c ∧ c ≤ 90 then c + 32 else c

/-- The comparison `strnIsEqualIC` with a literal. -/
def strnIsEqualIC (s : XmlLiteParser) (key : Slice) (value : Bytes) : Bool :=
  key.length = value.length ∧ (s.bytes key).map toLower = value.map toLower

/-- The characters that are not significant. -/
def isSpace (c : UInt8) : Bool := c = 32 ∨ c = 9 ∨ c = 13 ∨ c = 10

/-- The macro `IS_TAGCHAR`. -/
def isTagchar (c : UInt8) : Bool :=
  (97 ≤ c ∧ c ≤ 122) ∨ (65 ≤ c ∧ c ≤ 90) ∨ (48 ≤ c ∧ c ≤ 57)

/-- The characters of the markup. -/
def chLt : UInt8 := 60

def chGt : UInt8 := 62

def chSlash : UInt8 := 47

def chNewline : UInt8 := 10

namespace XmlLiteParser

/-! ## Moves -/

/-- One byte on, with the line and the column. -/
def moveForward (s : XmlLiteParser) : UInt8 × XmlLiteParser :=
  if s.size ≤ s.currentPos.p then (0, s)
  else
    let pos := s.currentPos
    let s : XmlLiteParser :=
      { s with
        currentPos :=
          if s.getchar = chNewline then ⟨pos.p + 1, pos.line + 1, 1⟩
          else ⟨pos.p + 1, pos.line, pos.col + 1⟩ }
    (s.getchar, s)

/-- The loop of `moveBackward` that counts the columns from the start of a line to `q`. -/
def columnsBack (buf : Bytes) : Nat → Int → Int
  | 0, col => col
  | q + 1, col => if buf.getD q 0 ≠ chNewline then columnsBack buf q (col + 1) else col

def moveBackward (s : XmlLiteParser) : Run (UInt8 × XmlLiteParser) :=
  if s.currentPos.p = 0 then .ok (0, s)
  else
    let pos := s.currentPos
    let p := pos.p - 1
    if s.buf.getD p 0 = chNewline then
      if pos.col ≠ 1 then .error (.panic "moveBackward : currentPos.col != 1")
      else
        .ok (chNewline, s.restorePosition ⟨p, pos.line - 1, columnsBack s.buf p 1⟩)
    else .ok (s.buf.getD p 0, s.restorePosition ⟨p, pos.line, pos.col - 1⟩)

section Loops

variable (fuel : Nat) (s : XmlLiteParser)

def moveForwardUntilSignificant : Run (UInt8 × XmlLiteParser) :=
  Run.loop
    (fun (c, s) => if isSpace c then .ok (.again (moveForward s)) else .ok (.leave (c, s)))
    fuel (s.getchar, s)

def moveForwardUntil (stop : UInt8) : Run (UInt8 × XmlLiteParser) :=
  Run.loop
    (fun (c, s) =>
      if s.currentPos.p < s.size ∧ c ≠ stop then .ok (.again (moveForward s))
      else .ok (.leave (if s.currentPos.p = s.size then 0 else c, s)))
    fuel (s.getchar, s)

/-- One pass of the loop in `moveBackwardUntil`. -/
def backwardPass (stop : UInt8) :
    UInt8 × XmlLiteParser → Run (Pass (UInt8 × XmlLiteParser) (UInt8 × XmlLiteParser))
  | (c, s) =>
    if c ≠ 0 ∧ c ≠ stop then do
      let r ← moveBackward s
      .ok (.again r)
    else .ok (.leave (c, s))

def moveBackwardUntil (stop : UInt8) : Run (UInt8 × XmlLiteParser) := do
  let r ← moveBackward s
  Run.loop (backwardPass stop) fuel r

def moveBackwardUntilSignificant : Run (UInt8 × XmlLiteParser) :=
  Run.loop
    (fun (c, s) =>
      if isSpace c then do
        let r ← moveBackward s
        .ok (.again r)
      else .ok (.leave (c, s)))
    fuel (s.getchar, s)

def moveForwardPastNext (stop : UInt8) : Run (UInt8 × XmlLiteParser) := do
  let (_, s) ← moveForwardUntil fuel s stop
  .ok (moveForward s)

/-- The text `head` stands at the current position. -/
def startsWith (head : Bytes) : Bool :=
  head.isPrefixOf (s.buf.drop s.currentPos.p)

/-- Skip what `skipHeader` takes for a header line, which starts with `head`. -/
def skipLine (head : Bytes) : Run XmlLiteParser :=
  if s.startsWith head then do
    let (_, s) ← moveForwardPastNext fuel s chGt
    let (_, s) ← moveForwardUntilSignificant fuel s
    .ok s
  else .ok s

def skipHeader : Run XmlLiteParser :=
  if s.startsWith (lit "<?xml") then do
    let s ← skipLine fuel s (lit "<?xml")
    let s ← skipLine fuel s (lit "<!DOCTYPE")
    skipLine fuel s (lit "<plist")
  else .ok s

/-! ## Tags and text -/

/-- The loop that moves to the end of a tag name, from the character behind its first one. -/
def moveToTagEnd : Run (UInt8 × XmlLiteParser) :=
  Run.loop
    (fun (c, s) => if isTagchar c then .ok (.again (moveForward s)) else .ok (.leave (c, s)))
    fuel (moveForward s)

/-- What `getNextTag` reports of a character where `>` has to stand. -/
def unexpectedChar (c : UInt8) (generateErrors : Bool) : XmlLiteParser :=
  if c = 0 then
    s.addXmlError generateErrors
      "Unexpected end of file at line %d col %d while looking for closing char '>'"
      [.int s.currentPos.line, .int s.currentPos.col]
  else
    s.addXmlError generateErrors
      "Unexpected char '%c' at line %d col %d while looking for closing char '>'"
      [.char c, .int s.currentPos.line, .int s.currentPos.col]

end Loops

end XmlLiteParser

/-- A tag, and whether it is an opening or a closing one. -/
structure Tag where
  tag : Slice
  isOpeningTag : Bool
  deriving DecidableEq, Repr

namespace XmlLiteParser

section Tags

variable (fuel : Nat) (s : XmlLiteParser)

/-- The branch of `getNextTag` for a tag that starts with `<`. -/
def getBracketTag (generateErrors : Bool) :
    Run (Option Tag × XmlLiteParser) := do
  let (_, s) := moveForward s
  let isClosingTag : Bool := s.getchar = chSlash
  let s := if isClosingTag then (moveForward s).2 else s
  let tag := s.currentPos.p
  let (c, s) ← moveToTagEnd fuel s
  if c = chSlash then
    if isClosingTag then
      .ok (none, s.addXmlError generateErrors
        "unexpected '/' at line %d col %d. Tag like </true/> are illegal."
        [.int s.currentPos.line, .int s.currentPos.col])
    else .ok (some ⟨s.sliceFrom tag, true⟩, s)
  else if c ≠ chGt then .ok (none, s.unexpectedChar c generateErrors)
  else .ok (some ⟨s.sliceFrom tag, !isClosingTag⟩, (moveForward s).2)

/-- The branch of `getNextTag` where an empty tag was left at its `/`. -/
def getSlashTag (generateErrors : Bool) : Run (Option Tag × XmlLiteParser) := do
  let pos := s.currentPos
  let (_, back) ← moveBackwardUntil fuel s chLt
  let tag := (moveForward back).2.currentPos.p
  let s := (moveForward back).2.restorePosition pos
  let name := s.sliceFrom tag
  let (c, s) := moveForward s
  if c ≠ chGt then .ok (none, s.unexpectedChar c generateErrors)
  else .ok (some ⟨name, false⟩, (moveForward s).2)

/-- The next tag. An empty tag `<true/>` is reported first as an opening tag, with the position
left at its `/`, and then as a closing one. -/
def getNextTag (generateErrors : Bool) : Run (Option Tag × XmlLiteParser) := do
  let (_, s) ← moveForwardUntilSignificant fuel s
  if s.isEof then
    .ok (none, s.addXmlError generateErrors "Unexpected end of file at line %d col %d"
      [.int s.currentPos.line, .int s.currentPos.col])
  else if s.getchar = chLt then getBracketTag fuel s generateErrors
  else if s.getchar = chSlash then getSlashTag fuel s generateErrors
  else
    let s := s.addXmlError generateErrors
      "Unexpected char '%c' at line %d col %d while looking for a tag that must start with '<'"
      [.char s.getchar, .int s.currentPos.line, .int s.currentPos.col]
    .ok (none, (moveForward s).2)

/-- The text up to the next `<`. The position is left there. -/
def getString : Run (Slice × XmlLiteParser) :=
  let string := s.currentPos.p
  if s.getchar = chSlash ∧ s.buf.getD (s.currentPos.p + 1) 0 = chGt then .ok (⟨string, 0⟩, s)
  else if s.size ≤ s.currentPos.p ∨ s.getchar = chLt then .ok (⟨string, 0⟩, s)
  else do
    let (c, s) ← moveForwardUntil fuel s chLt
    let s ← if c ≠ 0 then do
        let (_, s) ← moveBackward s
        .ok s
      else .ok s
    let length := s.currentPos.p + 1 - string
    let (_, s) ← moveForwardUntil fuel s chLt
    .ok (⟨string, length⟩, s)

/-- A tag and its text, or nothing. -/
def getSimpleTag (expectedTag : Option Bytes) (generateErrors : Bool) :
    Run (Option (Slice × Slice) × XmlLiteParser) := do
  let pos := s.currentPos
  let (t, s) ← getNextTag fuel s generateErrors
  match t with
  | none => .ok (none, s)
  | some t =>
    if !t.isOpeningTag then
      .ok (none, s.addXmlError generateErrors
        "Unexpected closing tag '%.*s' at line %d col %d. Was expecting <key>."
        [.str (s.bytes t.tag), .int pos.line, .int pos.col])
    else if expectedTag.any fun e => !strnIsEqual s t.tag e then
      .ok (none, s.addXmlError generateErrors
        "Unexpected tag '%.*s' at line %d col %d. Was expecting <%s>."
        [.str (s.bytes t.tag), .int pos.line, .int pos.col, .str (expectedTag.getD [])])
    else do
      let (value, s) ← getString fuel s
      let pos := s.currentPos
      let (endTag, s) ← getNextTag fuel s generateErrors
      match endTag with
      | none => .ok (none, s)
      | some endTag =>
        if endTag.isOpeningTag ∨ !strnnIsEqual s endTag.tag t.tag then
          .ok (none, (s.restorePosition pos).addXmlError generateErrors
            "Expected closing tag '%.*s' at line %d col %d"
            [.str (s.bytes t.tag), .int pos.line, .int pos.col])
        else .ok (some (t.tag, value), s)

/-- One pass of the loop over the children in `skipUntilClosingTag`; it leaves with the closing
tag, or with nothing on an error. The children are skipped with `skip`. -/
def skipChild (skip : XmlLiteParser → Slice → Bool → Run (Bool × XmlLiteParser))
    (generateErrors : Bool) :
    Tag × XmlLiteParser → Run (Pass (Tag × XmlLiteParser) (Option Slice × XmlLiteParser))
  | (t, s) =>
    if t.isOpeningTag then do
      let (b, s) ← skip s t.tag generateErrors
      if !b then .ok (.leave (none, s))
      else do
        let (next, s) ← getNextTag fuel s generateErrors
        match next with
        | none => .ok (.leave (none, s))
        | some t => .ok (.again (t, s))
    else .ok (.leave (some t.tag, s))

/-- The end of `skipUntilClosingTag`: the closing tag `tag` has been read. -/
def endSkip (pos : XmlParserPosition) (tag tagToSkip : Slice)
    (generateErrors : Bool) : Run (Bool × XmlLiteParser) :=
  if !strnnIsEqual s tag tagToSkip then
    .ok (false, s.addXmlError generateErrors "Expected closing tag '%.*s' at line %d col %d"
      [.str (s.bytes tagToSkip), .int pos.line, .int pos.col])
  else do
    let (c, s) ← moveForwardUntilSignificant fuel s
    if c ≠ 0 ∧ c ≠ chLt then
      .ok (false, s.addXmlError generateErrors
        ("Unexpected char '%c' at line %d col %d after the end of tag '%.*s'. " ++
          "The containing tag cannot have text abd tab")
        [.char s.getchar, .int s.currentPos.line, .int s.currentPos.col,
          .str (s.bytes tagToSkip)])
    else .ok (true, s)

/-- The opening tag has been read. Skip until the closing tag. -/
def skipUntilClosingTag : Nat → XmlLiteParser → Slice → Bool → Run (Bool × XmlLiteParser)
  | 0, _, _, _ => .error .fuel
  | depth + 1, s, tagToSkip, generateErrors => do
    let (value, s) ← getString fuel s
    let text := (s.bytes value).dropWhile isSpace
    let pos := s.currentPos
    let (t, s) ← getNextTag fuel s generateErrors
    match t with
    | none => .ok (false, s)
    | some t =>
      if t.isOpeningTag ∧ text ≠ [] then
        .ok (false, s.addXmlError generateErrors
          "Tag '%.*s' cannot contains text AND tag at line %d col %d"
          [.str (s.bytes tagToSkip), .int pos.line, .int pos.col])
      else do
        let (tag, s) ← Run.loop (skipChild fuel (skipUntilClosingTag depth) generateErrors) fuel
          (t, s)
        match tag with
        | none => .ok (false, s)
        | some tag => endSkip fuel s pos tag tagToSkip generateErrors

/-- Skip the next element, up to its closing tag. -/
def skipNextTag (generateErrors : Bool) : Run (Bool × XmlLiteParser) := do
  let pos := s.currentPos
  let (t, s) ← getNextTag fuel s generateErrors
  match t with
  | none => .ok (false, s)
  | some t =>
    if !t.isOpeningTag then
      .ok (false, s.addXmlError generateErrors "Expected an opening tag at line %d col %d"
        [.int pos.line, .int pos.col])
    else skipUntilClosingTag fuel fuel s t.tag generateErrors

/-- The text of a `<key>` and the position of the key; the position is restored when there is
none. -/
def getKeyTagValue (generateErrors : Bool) :
    Run (Option Slice × XmlParserPosition × XmlLiteParser) := do
  let (_, s) ← moveForwardUntilSignificant fuel s
  let pos := s.currentPos
  let (r, s) ← getSimpleTag fuel s (some (lit "key")) generateErrors
  match r with
  | none => .ok (none, pos, s.restorePosition pos)
  | some (tag, value) =>
    if !strnIsEqualIC s tag (lit "key") then
      let s := s.addXmlError generateErrors "Expecting a <key> at line %d col %d"
        [.int pos.line, .int pos.col]
      .ok (none, pos, s.restorePosition pos)
    else .ok (some value, pos, s)

def consumeOpeningTag (expectedTag : Bytes) (generateErrors : Bool) :
    Run (Bool × XmlLiteParser) := do
  let pos := s.currentPos
  let (t, s) ← getNextTag fuel s generateErrors
  match t with
  | none => .ok (false, s)
  | some t =>
    if !strnIsEqual s t.tag expectedTag then
      let s := s.addXmlError generateErrors "Expecting tag '%s' at line %d."
        [.str expectedTag, .int pos.line]
      .ok (false, s.restorePosition pos)
    else if !t.isOpeningTag then
      let s := s.addXmlError generateErrors "Expecting opening tag '%s' at line %d."
        [.str expectedTag, .int pos.line]
      .ok (false, s.restorePosition pos)
    else .ok (true, s)

/-- Unlike `consumeOpeningTag`, a wrong tag is always reported and the position is not
restored. -/
def consumeClosingTag (expectedTag : Bytes) (generateErrors : Bool) :
    Run (Bool × XmlLiteParser) := do
  let pos := s.currentPos
  let (t, s) ← getNextTag fuel s generateErrors
  match t with
  | none => .ok (false, s)
  | some t =>
    if !strnIsEqual s t.tag expectedTag then
      .ok (false, s.addXmlError true "Expecting tag '%s' at line %d."
        [.str expectedTag, .int pos.line])
    else if t.isOpeningTag then
      .ok (false, s.addXmlError true "Expecting closing tag '%s' at line %d."
        [.str expectedTag, .int pos.line])
    else .ok (true, s)

/-- Whether the next tag is `expectedTag`, an opening or a closing one. The position is restored
only where there is a tag at all. -/
def nextTagIs (expectedTag : Bytes) (opening : Bool) :
    Run (Bool × XmlLiteParser) := do
  let pos := s.currentPos
  let (t, s) ← getNextTag fuel s false
  match t with
  | none => .ok (false, s)
  | some t =>
    let s := s.restorePosition pos
    .ok (strnIsEqual s t.tag expectedTag && t.isOpeningTag == opening, s)

def nextTagIsOpeningTag (expectedTag : Bytes) : Run (Bool × XmlLiteParser) :=
  nextTagIs fuel s expectedTag true

def nextTagIsClosingTag (expectedTag : Bytes) : Run (Bool × XmlLiteParser) :=
  nextTagIs fuel s expectedTag false

end Tags

end XmlLiteParser

end Clover.Xml
