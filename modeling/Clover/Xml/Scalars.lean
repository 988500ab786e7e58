import Clover.Xml.Strings

/-!
# Scalar XML types

The scalar classes of `cpp_lib/XmlLiteSimpleTypes.h` and `cpp_lib/XmlLiteSimpleTypes.cpp`:
booleans, strings, keys, data and the eight integer types.

`XmlClass` is a class of objects that can be read from XML: the state of an object and its
virtual methods. The scalar classes differ in what they make of the tag and the text of an
element (`ScalarType.content`); `scalarClass` gives the methods they share.
-/

namespace Clover.Xml

open Clover.Lib XmlLiteParser

/-- A class derived from `XmlAbstractType`: the state of its objects and the virtual methods.
A method that may change the object returns its new state. -/
structure XmlClass where
  State : Type
  /-- The state the constructor leaves. -/
  new : State
  isDefined : State → Bool
  reset : State → State
  getDescription : State → Bytes × State
  isTheNextTag : Nat → State → XmlLiteParser → Run (Bool × State × XmlLiteParser)
  parseFromXmlLite : Nat → State → XmlLiteParser → (xmlPath : Bytes) →
    (generateErrors : Bool) → Run (Bool × State × XmlLiteParser)
  validate : State → XmlLiteParser → (xmlPath : Bytes) → (keyPos : XmlParserPosition) →
    (generateErrors : Bool) → Bool × State × XmlLiteParser

/-- The warning of `WARNING_IF_DEFINED`. -/
def warnDefined (s : XmlLiteParser) (xmlPath : Bytes) : XmlLiteParser :=
  s.addWarning true "Tag '%s:%d' is already defined. Previous value ignored."
    [.str xmlPath, .int s.currentPos.line]

/-- The fatal error of `setDefined`. -/
def alreadyDefined : Halt := .panic "m_isDefined"

/-- The memory from a pointer on. -/
def XmlLiteParser.memory (s : XmlLiteParser) (p : Nat) : Bytes := (s.buf ++ [0]).drop p

/-! ## Integers -/

/-- How a text fails to be a number. -/
inductive DigitError where
  | digit
  | overflow
  deriving DecidableEq, Repr

/-- The digit loops of `parseXmlInteger`, on 64 bits. -/
def readDigits (base : Nat) (digit : UInt8 → Option Nat) : Bytes → Nat → Except DigitError Nat
  | [], result => .ok result
  | c :: text, result =>
    match digit c with
    | none => .error .digit
    | some d =>
      if (2 ^ 64 - 1) / base < result then .error .overflow
      else if 2 ^ 64 - 1 - d < result * base then .error .overflow
      else readDigits base digit text (result * base + d)

def decimalDigit (c : UInt8) : Option Nat :=
  if 48 ≤ c ∧ c ≤ 57 then some (c.toNat - 48) else none

def hexadecimalDigit (c : UInt8) : Option Nat :=
  if 48 ≤ c ∧ c ≤ 57 then some (c.toNat - 48)
  else if 97 ≤ c ∧ c ≤ 102 then some (c.toNat - 97 + 10)
  else if 65 ≤ c ∧ c ≤ 70 then some (c.toNat - 65 + 10)
  else none

/-- Why `parseXmlInteger` refuses a text, with the message it gives. -/
inductive IntegerError where
  | hexDigits
  | decimalDigits
  | between
  | start
  | oneDigit
  deriving DecidableEq, Repr

def IntegerError.format : IntegerError → String
  | .hexDigits => "Expecting hex digits for tag '%s:%d'."
  | .decimalDigits => "Expecting decimal digits for tag '%s:%d'."
  | .between => "Expecting an integer between %lld and %llu for tag '%s:%d'."
  | .start =>
    "Expecting an integer starting with a decimal digit, a minus sign or '0x' for tag '%s:%d'."
  | .oneDigit => "Expecting at least one digit for integer for tag '%s:%d'."

/-- The range check at the end; `negative` is the sign of the number. -/
def checkRange (minimum : Int) (maximum result : Nat) (negative : Bool) :
    Except IntegerError (Nat × Bool) :=
  if !negative then
    if (0 < minimum ∧ (result : Int) < minimum) ∨ maximum < result then .error .between
    else .ok (result, negative)
  else if 2 ^ 63 < result ∨ -(result : Int) < minimum then .error .between
  else .ok (result, negative)

/-- The variables `result` and `negative` for the text of an `<integer>` or a `<string>`. -/
def integerText (minimum : Int) (maximum : Nat) (value : Bytes) :
    Except IntegerError (Nat × Bool) :=
  if 1 < value.length ∧ (value.getD 1 0 = 120 ∨ value.getD 1 0 = 88) then
    match readDigits 16 hexadecimalDigit (value.drop 2) 0 with
    | .error .digit => .error .hexDigits
    | .error .overflow => .error .between
    | .ok result =>
      if value.drop 2 = [] then .ok (result, false) else checkRange minimum maximum result false
  else if 1 ≤ value.length ∧ ((48 ≤ value.getD 0 0 ∧ value.getD 0 0 ≤ 57) ∨ value.getD 0 0 = 45)
  then
    let negative : Bool := value.getD 0 0 = 45
    let text := if negative then value.drop 1 else value
    match readDigits 10 decimalDigit text 0 with
    | .error .digit => .error .decimalDigits
    | .error .overflow => .error .between
    | .ok result =>
      if text = [] then .error .oneDigit else checkRange minimum maximum result negative
  else .error .start

/-- The number that `memcpy` of at most eight bytes leaves in a cleared variable. -/
def littleEndian (bytes : Bytes) : Nat :=
  (bytes.take 8).foldr (fun b n => b.toNat + 256 * n) 0

/-- What `parseXmlInteger` makes of a tag and a text. -/
def integerContent (minimum : Int) (maximum : Nat) (s : XmlLiteParser) (xmlPath : Bytes)
    (pos : XmlParserPosition) (tag value : Slice) (generateErrors : Bool) :
    Option (Nat × Bool) × XmlLiteParser :=
  if strnIsEqual s tag (lit "integer") || strnIsEqual s tag (lit "string") then
    match integerText minimum maximum (s.bytes value) with
    | .error .between =>
      (none, s.addError generateErrors IntegerError.between.format
        [.int minimum, .int maximum, .str xmlPath, .int pos.line])
    | .error e => (none, s.addError generateErrors e.format [.str xmlPath, .int pos.line])
    | .ok (result, negative) =>
      if negative ∧ result = 0 then
        (some (result, false), s.addWarning generateErrors
          ("Integer is -0. It's mathematically correct but looks like a mistake for tag " ++
            "'%s:%d'. Corrected to 0.") [.str xmlPath, .int pos.line])
      else (some (result, negative), s)
  else if strnIsEqual s tag (lit "data") then
    let s := s.addWarning generateErrors
      ("Tag '%s:%d' should be an integer. It's currently a data. For now, I've made the " ++
        "conversion. Please update.") [.str xmlPath, .int pos.line]
    match base64DecodeClover (s.bytes value) with
    | some decoded => (some (littleEndian decoded, false), s)
    | none =>
      (some (0, false), s.addWarning generateErrors
        ("Tag '%s:%d' should be an integer. It's currently a data with conversion problem. " ++
          "Setting value to 0.") [.str xmlPath, .int pos.line])
  else
    (none, s.addError generateErrors
      "Expecting a <integer> tag following key '%s' for tag '%s:%d'."
      [.str xmlPath, .str xmlPath, .int pos.line])

/-! ## What scalar types share -/

/-- One of several opening tags comes next; they are tried in this order. -/
def nextTagIsAny (fuel : Nat) : XmlLiteParser → List Bytes → Run (Bool × XmlLiteParser)
  | s, [] => .ok (false, s)
  | s, tag :: tags => do
    let (b, s) ← nextTagIsOpeningTag fuel s tag
    if b then .ok (true, s) else nextTagIsAny fuel s tags

/-- The state of a scalar object. -/
structure Scalar (α : Type) where
  isDefined : Bool
  value : α
  deriving DecidableEq, Repr

/-- What a scalar type stores: the value, whether the object becomes defined by it, and what
`parseFromXmlLite` returns. -/
structure Stored (α : Type) where
  value : α
  defines : Bool
  returned : Bool
  deriving DecidableEq, Repr

/-- The usual case, `setDefined(); m_value = value; return true`. -/
def Stored.accept {α : Type} (value : α) : Stored α := ⟨value, true, true⟩

def Scalar.store {α : Type} (v : Scalar α) (w : Stored α) : Run (Scalar α) :=
  if w.defines then if v.isDefined then .error alreadyDefined else .ok ⟨true, w.value⟩
  else .ok { v with value := w.value }

/-- How a scalar type tells whether the next element is one of its own. -/
inductive Lookahead where
  /-- By the tag. -/
  | tags (tags : List Bytes)
  /-- By parsing the element into a temporary object. -/
  | trial
  /-- By the tag `<integer>`, or else by parsing the element as an integer. -/
  | integer

/-- What distinguishes a scalar type. -/
structure ScalarType where
  Value : Type
  zero : Value
  description : Bytes
  lookahead : Lookahead
  /-- The tags without which `parseFromXmlLite` skips the element. -/
  expected : Option (List Bytes)
  /-- What is stored for a tag and a text, if anything. -/
  content : XmlLiteParser → (xmlPath : Bytes) → (pos : XmlParserPosition) →
    (tag value : Slice) → (generateErrors : Bool) → Option (Stored Value) × XmlLiteParser
  validate : Value → XmlLiteParser → (xmlPath : Bytes) → (keyPos : XmlParserPosition) →
    (generateErrors : Bool) → Bool × XmlLiteParser

namespace ScalarType

variable (t : ScalarType) (fuel : Nat) (v : Scalar t.Value) (s : XmlLiteParser) (xmlPath : Bytes)
  (generateErrors : Bool)

/-- The macro `WARNING_IF_DEFINED`. -/
def warningIfDefined : Scalar t.Value × XmlLiteParser :=
  if v.isDefined then (⟨false, t.zero⟩, warnDefined s xmlPath) else (v, s)

/-- The element is read and stored. -/
def parseSimple (pos : XmlParserPosition) : Run (Bool × Scalar t.Value × XmlLiteParser) := do
  let (r, s) ← getSimpleTag fuel s none generateErrors
  match r with
  | none => .ok (false, v, s)
  | some (tag, value) =>
    match t.content s xmlPath pos tag value generateErrors with
    | (none, s) => .ok (false, v, s)
    | (some w, s) => do
      let v ← v.store w
      .ok (w.returned, v, s)

/-- The element has none of the expected tags: it is skipped. -/
def skipUnexpected (pos : XmlParserPosition) : Run (Bool × Scalar t.Value × XmlLiteParser) := do
  let (b, s) ← skipNextTag fuel s generateErrors
  if b then
    .ok (false, v, s.addError generateErrors "Expecting boolean value at line %d."
      [.int pos.line])
  else
    .ok (false, v, s.addXmlError generateErrors "Expecting boolean value at line %d."
      [.int pos.line])

def parseFromXmlLite : Run (Bool × Scalar t.Value × XmlLiteParser) :=
  let (v, s) := t.warningIfDefined v s xmlPath
  let pos := s.currentPos
  match t.expected with
  | none => t.parseSimple fuel v s xmlPath generateErrors pos
  | some tags => do
    let (b, s) ← nextTagIsAny fuel s tags
    if b then t.parseSimple fuel v s xmlPath generateErrors pos
    else t.skipUnexpected fuel v s generateErrors pos

/-- The second part of `XmlIntegerAbstract::isTheNextTag`, which reads the element with the
widest bounds. -/
def isInteger : Run (Bool × Scalar t.Value × XmlLiteParser) := do
  let pos := s.currentPos
  let (v, s) := t.warningIfDefined v s []
  let pos' := s.currentPos
  let (r, s) ← getSimpleTag fuel s none false
  match r with
  | none => .ok (false, v, s.restorePosition pos)
  | some (tag, value) =>
    let (w, s) := integerContent (-2 ^ 63) (2 ^ 64 - 1) s [] pos' tag value false
    .ok (w.isSome, v, s.restorePosition pos)

def isTheNextTag : Run (Bool × Scalar t.Value × XmlLiteParser) :=
  match t.lookahead with
  | .tags tags => do
    let (b, s) ← nextTagIsAny fuel s tags
    .ok (b, v, s)
  | .trial => do
    let pos := s.currentPos
    let (b, _, s) ← t.parseFromXmlLite fuel ⟨false, t.zero⟩ s [] false
    .ok (b, v, s.restorePosition pos)
  | .integer => do
    let (b, s) ← nextTagIsOpeningTag fuel s (lit "integer")
    if b then .ok (true, v, s) else t.isInteger fuel v s

end ScalarType

def scalarClass (t : ScalarType) : XmlClass where
  State := Scalar t.Value
  new := ⟨false, t.zero⟩
  isDefined v := v.isDefined
  reset _ := ⟨false, t.zero⟩
  getDescription v := (t.description, v)
  isTheNextTag := t.isTheNextTag
  parseFromXmlLite := t.parseFromXmlLite
  validate v s xmlPath keyPos generateErrors :=
    let (b, s) := t.validate v.value s xmlPath keyPos generateErrors
    (b, v, s)

/-- The default method `validate`. -/
def validateAny {α : Type} (_ : α) (s : XmlLiteParser) (_ : Bytes) (_ : XmlParserPosition)
    (_ : Bool) : Bool × XmlLiteParser := (true, s)

/-! ## The integer types -/

/-- The classes `XmlUInt8` to `XmlInt64`. -/
inductive IntegerType where
  | uint8
  | uint16
  | uint32
  | uint64
  | int8
  | int16
  | int32
  | int64
  deriving DecidableEq, Repr

namespace IntegerType

def description : IntegerType → String
  | .uint8 => "uint8"
  | .uint16 => "uint16"
  | .uint32 => "uint32"
  | .uint64 => "uint64"
  | .int8 => "int8"
  | .int16 => "unt16"
  | .int32 => "int32"
  | .int64 => "int64"

def width : IntegerType → Nat
  | .uint8 | .int8 => 8
  | .uint16 | .int16 => 16
  | .uint32 | .int32 => 32
  | .uint64 | .int64 => 64

def signed : IntegerType → Bool
  | .uint8 | .uint16 | .uint32 | .uint64 => false
  | .int8 | .int16 | .int32 | .int64 => true

/-- The argument `minimum` of `parseXmlInteger`. -/
def minimum (t : IntegerType) : Int := if t.signed then -2 ^ (t.width - 1) else 0

/-- The argument `maximum` of `parseXmlInteger`. -/
def maximum (t : IntegerType) : Nat :=
  if t.signed then 2 ^ (t.width - 1) - 1 else 2 ^ t.width - 1

/-- The width of the type the result is cast to. -/
def castWidth : IntegerType → Nat
  | .int64 => 8
  | t => t.width

/-- The setter of an unsigned type. A sign is a technical bug. -/
def setUnsigned (width : Nat) (value : Nat) (sign : Bool) : Stored Int :=
  if sign then ⟨0, true, false⟩ else .accept (value % 2 ^ width : Nat)

/-- The setter of a signed type, behind a cast to `castWidth` bits. -/
def setSigned (width castWidth : Nat) (value : Nat) (sign : Bool) : Stored Int :=
  let v := Int.bmod value (2 ^ castWidth)
  .accept (if sign then Int.bmod (-v) (2 ^ width) else v)

def store (t : IntegerType) (value : Nat) (sign : Bool) : Stored Int :=
  if t.signed then setSigned t.width t.castWidth value sign else setUnsigned t.width value sign

end IntegerType

def xmlInteger (t : IntegerType) : ScalarType where
  Value := Int
  zero := 0
  description := lit t.description
  lookahead := .integer
  expected := none
  content s xmlPath pos tag value generateErrors :=
    match integerContent t.minimum t.maximum s xmlPath pos tag value generateErrors with
    | (none, s) => (none, s)
    | (some (result, negative), s) => (some (t.store result negative), s)
  validate := validateAny

/-! ## Booleans -/

/-- The words a `<string>` may hold, with the warning `XmlBool` gives for each. -/
def boolWords : List (Bytes × Bool × String) :=
  [(lit "true", true, "Boolean value contained in a string. Please use <true/> instead of " ++
      "<string>true</string> for tag '%s:%d'"),
    (lit "yes", true, "Boolean value contained in a string. Please use <true/> instead of " ++
      "<string>yes</string> for tag '%s:%d'"),
    (lit "false", false, "Boolean value contained in a string. Please use <false/> instead of " ++
      "<string>false</string> for tag '%s:%d'"),
    (lit "no", false, "Boolean value contained in a string. Please use <false/> instead of " ++
      "<string>no</string> for tag '%s:%d'")]

/-- What a boolean type does with a `<string>`. -/
inductive BoolString where
  | refuse
  | warn
  | accept
  deriving DecidableEq, Repr

/-- The last error of the boolean types. -/
def BoolString.format : BoolString → String
  | .refuse => "Expecting strict boolean value <true/> <false/> for tag '%s:%d'"
  | .warn | .accept =>
    "Expecting <true/> <false/> or <string> tag containing true, false, yes or no tag '%s:%d'"

def boolContent (mode : BoolString) (s : XmlLiteParser) (xmlPath : Bytes)
    (pos : XmlParserPosition) (tag value : Slice) (generateErrors : Bool) :
    Option (Stored Bool) × XmlLiteParser :=
  let refuse (s : XmlLiteParser) : Option (Stored Bool) × XmlLiteParser :=
    (none, s.addError generateErrors mode.format [.str xmlPath, .int pos.line])
  if strnIsEqualIC s tag (lit "true") then
    if value.length = 0 then (some (.accept true), s)
    else refuse (s.addError generateErrors "Tag 'true' cannot contains text at line %d."
      [.int pos.line])
  else if strnIsEqualIC s tag (lit "false") then
    if value.length = 0 then (some (.accept false), s)
    else refuse (s.addError generateErrors "Tag 'false' cannot contains text at line %d."
      [.int pos.line])
  else if mode ≠ .refuse ∧ strnIsEqual s tag (lit "string") then
    match boolWords.find? fun w => strnIsEqualIC s value w.1 with
    | some w =>
      (some (.accept w.2.1),
        s.addWarning (generateErrors && mode = .warn) w.2.2 [.str xmlPath, .int pos.line])
    | none => refuse s
  else refuse s

def xmlBoolean (mode : BoolString) (lookahead : Lookahead) : ScalarType where
  Value := Bool
  zero := false
  description := lit "boolean"
  lookahead := lookahead
  expected := some [lit "string", lit "true", lit "false"]
  content := boolContent mode
  validate := validateAny

def xmlStrictBool : ScalarType := xmlBoolean .refuse (.tags [lit "true", lit "false"])

def xmlBool : ScalarType := xmlBoolean .warn .trial

def xmlBoolYesNo : ScalarType := xmlBoolean .accept .trial

/-! ## Strings -/

/-- What a type reads from the elements with one tag, another being a structural error. -/
def tagContent {α : Type} (name : Bytes) (format : String)
    (read : Bytes → Nat → Stored α) (s : XmlLiteParser) (xmlPath : Bytes)
    (pos : XmlParserPosition) (tag value : Slice) (generateErrors : Bool) :
    Option (Stored α) × XmlLiteParser :=
  if strnIsEqual s tag name then (some (read (s.memory value.start) value.length), s)
  else (none, s.addXmlError generateErrors format [.str xmlPath, .int pos.line])

/-- The check of the string types that do not allow an empty string. -/
def validateNotEmpty (canBeEmpty isEmpty : Bool) (format : String) (s : XmlLiteParser)
    (xmlPath : Bytes) (keyPos : XmlParserPosition) (generateErrors : Bool) :
    Bool × XmlLiteParser :=
  if !canBeEmpty && isEmpty then
    (false, s.addWarning generateErrors format [.str xmlPath, .int keyPos.line])
  else (true, s)

/-- The classes `XmlString8`, `XmlString8AllowEmpty` and, trimmed, `XmlString8Trimed`, which does
not become defined by an empty string. -/
def xmlString8 (canBeEmpty trimmed : Bool) : ScalarType where
  Value := Bytes
  zero := []
  description := lit "string"
  lookahead := .tags [lit "string"]
  expected := none
  content := tagContent (lit "string") "Expecting a <string> tag in '%s' at line %d."
    fun mem length =>
      let out := xmlDecode mem length (length + 1)
      if trimmed then ⟨trim out, trim out ≠ [], true⟩ else .accept out
  validate value s xmlPath keyPos generateErrors :=
    validateNotEmpty canBeEmpty value.isEmpty "String cannot be empty for tag '%s:%d'." s xmlPath
      keyPos generateErrors

def xmlStringW (canBeEmpty : Bool) : ScalarType where
  Value := List UInt16
  zero := []
  description := lit "string"
  lookahead := .tags [lit "string"]
  expected := none
  content := tagContent (lit "string") "Expecting a <string> tag in '%s' at line %d."
    fun mem length =>
      let out := xmlDecode mem length (length + 1)
      .accept (strsicpyW out out.length)
  validate value s xmlPath keyPos generateErrors :=
    validateNotEmpty canBeEmpty value.isEmpty "String cannot be empty for tag '%s:%d'." s xmlPath
      keyPos generateErrors

/-! ## Keys -/

structure KeyValue where
  xstring8 : Bytes
  disabled : Bool
  deriving DecidableEq, Repr

/-- The method `setStringValue` of `XmlKey`, and of `XmlKeyDisablable`, where a key that starts
with `!` is disabled. -/
def setKeyValue (disablable : Bool) (mem : Bytes) (length : Nat) : KeyValue :=
  if disablable ∧ 0 < length ∧ mem.getD 0 0 = 33 then
    ⟨strsicpy (mem.drop 1) (length - 1), true⟩
  else ⟨strsicpy mem length, false⟩

/-- The classes `XmlKey` and `XmlKeyDisablable`. -/
def xmlKey (disablable : Bool) : ScalarType where
  Value := KeyValue
  zero := ⟨[], false⟩
  description := if disablable then lit "key(dis)" else lit "key"
  lookahead := .tags [lit "key"]
  expected := none
  content := tagContent (lit "key") "Expecting a <key> tag in '%s' at line %d."
    fun mem length => .accept (setKeyValue disablable mem length)
  validate value s xmlPath keyPos generateErrors :=
    let (b, s) := validateNotEmpty false value.xstring8.isEmpty
      "String cannot be empty at tag '%s:%d'" s xmlPath keyPos generateErrors
    if disablable ∧ value.xstring8 = lit "!" then
      (false, s.addWarning generateErrors
        ("Disabled key (prefix with '!') cannot be emptyString cannot be empty at tag " ++
          "'%s:%d'") [.str xmlPath, .int keyPos.line])
    else (b, s)

/-! ## Data -/

def dataContent (s : XmlLiteParser) (xmlPath : Bytes) (pos : XmlParserPosition)
    (tag value : Slice) (generateErrors : Bool) : Option (Stored Bytes) × XmlLiteParser :=
  if strnIsEqual s tag (lit "string") then
    if (s.bytes value).any fun c => !isHex c && !isDigit c then
      (none, s.addError generateErrors "Expecting hex digits following key '%s' at line %d."
        [.str xmlPath, .int pos.line])
    else
      (some (.accept (hex2bin (s.memory value.start) value.length (value.length / 2))), s)
  else if strnIsEqual s tag (lit "data") then
    (some (.accept ((base64DecodeClover (s.bytes value)).getD [])), s)
  else
    (none, s.addError generateErrors "Expecting a <data> tag following key '%s' at line %d."
      [.str xmlPath, .int pos.line])

def xmlData : ScalarType where
  Value := Bytes
  zero := []
  description := lit "data"
  lookahead := .tags [lit "string", lit "data"]
  expected := none
  content := dataContent
  validate := validateAny

end Clover.Xml
