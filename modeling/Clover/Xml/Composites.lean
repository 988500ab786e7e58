import Clover.Xml.Scalars

/-!
# Composite XML types

`XmlDict` and `_XmlRepeatingDict` (`cpp_lib/XmlLiteDictTypes.h`, `cpp_lib/XmlLiteDictTypes.cpp`),
`XmlArray<T>` (`cpp_lib/XmlLiteArrayTypes.h`) and `XmlUnion` (`cpp_lib/XmlLiteUnionTypes.h`,
`cpp_lib/XmlLiteUnionTypes.cpp`), each as a class made from other classes. The last part builds
a class from a schema and parses a configuration with it
(`Settings/ConfigPlist/ConfigPlistAbstract.cpp`).
-/

namespace Clover.Xml

open Clover.Lib XmlLiteParser

/-! ## Dictionaries -/

/-- The fields of a dictionary class, with their names. -/
abbrev Fields := List (Bytes × XmlClass)

/-- The class of a field. -/
abbrev Fields.class (fields : Fields) (i : Fin fields.length) : XmlClass := (fields.get i).2

/-- The fields, and whether the dictionary is defined. -/
structure DictState (fields : Fields) where
  isDefined : Bool
  field : ∀ i : Fin fields.length, (fields.class i).State

namespace XmlDict

variable {fields : Fields} (fuel : Nat) (st : DictState fields) (s : XmlLiteParser)
  (xmlPath : Bytes) (generateErrors : Bool)

def setField (i : Fin fields.length) (v : (fields.class i).State) : DictState fields :=
  { st with field := Function.update st.field i v }

def reset : DictState fields :=
  ⟨false, fun i => (fields.class i).reset (st.field i)⟩

/-- The path of an entry. -/
def subPath (xmlPath key : Bytes) : Bytes :=
  if lastChar xmlPath = 47 then xmlPath ++ key else xmlPath ++ lit "/" ++ key

/-- The first field with the name of a key. -/
def findField (fields : Fields) (s : XmlLiteParser) (key : Slice) : Option (Fin fields.length) :=
  (List.finRange fields.length).find? fun i => strnIsEqualIC s key (fields.get i).1

/-- The value behind a key: the field, if there is one, and what became of it. -/
def parseValueFromXmlLite (keyPos : XmlParserPosition) (key : Slice) :
    Run (Option (Fin fields.length) × DictState fields × XmlLiteParser) :=
  match findField fields s key with
  | none => .ok (none, st, s)
  | some i =>
    if (fields.class i).isDefined (st.field i) then do
      let s := s.addWarning generateErrors
        "Tag '%s:%d' is previously defined. New value ignored." [.str xmlPath, .int keyPos.line]
      let (_, s) ← skipNextTag fuel s false
      .ok (some i, st, s)
    else do
      let (_, v, s) ← (fields.class i).parseFromXmlLite fuel (st.field i) s xmlPath generateErrors
      .ok (some i, setField st i v, s)

/-- A key that names no field: its value is skipped. A warning is given unless the key is
commented out. -/
def skipUnknown (keyPos : XmlParserPosition) (key : Slice) : Run XmlLiteParser := do
  let text := s.bytes key
  let s :=
    if text.getD 0 0 ≠ 35 ∧ text.getD (key.length - 1) 0 ≠ 63 then
      s.addWarning generateErrors
        (if lastChar xmlPath = 47 then "Unknown key '%s%.*s:%d'. Skipped."
          else "Unknown key '%s/%.*s:%d'. Skipped.")
        [.str xmlPath, .str text, .int keyPos.line]
    else s
  let (_, s) ← skipNextTag fuel s generateErrors
  .ok s

/-- A key and its value: the field, if there is one, and the key. -/
def parseKeyAndValueFromXmlLite :
    Run (Option (Fin fields.length × Slice) × DictState fields × XmlLiteParser) := do
  let (key, keyPos, s) ← getKeyTagValue fuel s true
  match key with
  | none => do
    let (_, s) ← skipNextTag fuel s false
    .ok (none, st, s)
  | some key =>
    if key.length = 0 then do
      let s := s.addWarning generateErrors "Key in '%s:%d' is empty. Skipped."
        [.str xmlPath, .int keyPos.line]
      let (_, s) ← skipNextTag fuel s generateErrors
      .ok (none, st, s)
    else do
      let (i, st, s) ← parseValueFromXmlLite fuel st s (subPath xmlPath (s.bytes key))
        generateErrors keyPos key
      match i with
      | some i => .ok (some (i, key), st, s)
      | none => do
        let s ← skipUnknown fuel s xmlPath generateErrors keyPos key
        .ok (none, st, s)

/-- The position is the one before the entry: move on, or give up. -/
def moveOn : Run (Bool × XmlLiteParser) := do
  let p := s.currentPos.p
  let s ← if s.getchar = chLt then do
      let (_, s) ← skipNextTag fuel s false
      .ok s
    else do
      let (_, s) ← moveForwardUntil fuel s chLt
      .ok s
  .ok (s.currentPos.p ≠ p, s)

/-- The rest of a pass of the loop in `parseFromXmlLite`, once an entry has been parsed from
position `p`; `keyPos` is the position before it. -/
def endEntry (keyPos : XmlParserPosition)
    (entry : Option (Fin fields.length × Slice)) (st : DictState fields) (s : XmlLiteParser) :
    Run (Bool × DictState fields × XmlLiteParser) :=
  match entry.filter fun e => (fields.class e.1).isDefined (st.field e.1) with
  | some (i, key) =>
    let (validated, v, s) := (fields.class i).validate (st.field i) s
      (subPath xmlPath (s.bytes key)) keyPos generateErrors
    .ok (true, setField st i (if validated then v else (fields.class i).reset v), s)
  | none =>
    if s.currentPos.p = keyPos.p then do
      let (b, s) ← moveOn fuel s
      .ok (b, st, s)
    else .ok (true, st, s)

/-- One pass of the loop in `parseFromXmlLite`. It leaves with the word whether the end of the
dictionary is to be read. -/
def pass : DictState fields × XmlLiteParser →
      Run (Pass (DictState fields × XmlLiteParser) (Bool × DictState fields × XmlLiteParser))
  | (st, s) =>
    if s.isEof then .ok (.leave (true, st, s))
    else do
      let (closing, s) ← nextTagIsClosingTag fuel s (lit "dict")
      if closing then .ok (.leave (true, st, s))
      else do
        let keyPos := s.currentPos
        let (entry, st, s) ← parseKeyAndValueFromXmlLite fuel st s xmlPath generateErrors
        let (b, st, s) ← endEntry fuel xmlPath generateErrors keyPos entry st s
        if b then .ok (.again (st, s)) else .ok (.leave (false, st, s))

def parseFromXmlLite : Run (Bool × DictState fields × XmlLiteParser) := do
  let (st, s) : DictState fields × XmlLiteParser :=
    if st.isDefined then (reset st, warnDefined s xmlPath) else (st, s)
  let (b, s) ← consumeOpeningTag fuel s (lit "dict") generateErrors
  if !b then .ok (false, st, s)
  else if st.isDefined then .error alreadyDefined
  else do
    let (b, st, s) ← Run.loop (pass fuel xmlPath generateErrors) fuel
      ({ st with isDefined := true }, s)
    if !b then .ok (false, st, s)
    else do
      let (b, s) ← consumeClosingTag fuel s (lit "dict") generateErrors
      .ok (b, st, s)

end XmlDict

/-- The class `XmlDict` with these fields. -/
def dictClass (fields : Fields) : XmlClass where
  State := DictState fields
  new := ⟨false, fun i => (fields.class i).new⟩
  isDefined st := st.isDefined
  reset := XmlDict.reset
  getDescription st := (lit "dict", st)
  isTheNextTag fuel st s := do
    let (b, s) ← nextTagIsOpeningTag fuel s (lit "dict")
    .ok (b, st, s)
  parseFromXmlLite := XmlDict.parseFromXmlLite
  validate st s _ _ _ := (true, st, s)

/-! ## Arrays -/

structure ArrayState (c : XmlClass) where
  isDefined : Bool
  elements : List c.State

namespace XmlArray

variable {c : XmlClass} (fuel : Nat)

/-- The path of an element. -/
def subPath (xmlPath : Bytes) (n : Nat) : Bytes :=
  xmlPath ++ lit "[" ++ lit (toString n) ++ lit "]"

/-- One pass of the loop in `parseFromXmlLite`, with the number of the element. It leaves with
the word whether the end of the array is to be read. -/
def pass (xmlPath : Bytes) (generateErrors : Bool) :
    (Nat × ArrayState c) × XmlLiteParser →
      Run (Pass ((Nat × ArrayState c) × XmlLiteParser) (Bool × ArrayState c × XmlLiteParser))
  | ((n, st), s) => do
    let (closing, s) ← nextTagIsClosingTag fuel s (lit "array")
    if closing then .ok (.leave (true, st, s))
    else do
      let p := s.currentPos.p
      let (b, v, s) ← c.parseFromXmlLite fuel c.new s (subPath xmlPath n) generateErrors
      if b then .ok (.again ((n + 1, { st with elements := st.elements ++ [v] }), s))
      else if s.currentPos.p = p then do
        let (b, s) ← XmlDict.moveOn fuel s
        if b then .ok (.again ((n + 1, st), s)) else .ok (.leave (false, st, s))
      else .ok (.again ((n + 1, st), s))

/-- The opening tag is asked for with errors on, and the closing one is not asked about. -/
def parseFromXmlLite (st : ArrayState c) (s : XmlLiteParser) (xmlPath : Bytes)
    (generateErrors : Bool) : Run (Bool × ArrayState c × XmlLiteParser) := do
  let (st, s) : ArrayState c × XmlLiteParser :=
    if st.isDefined then (⟨false, []⟩, warnDefined s xmlPath) else (st, s)
  let (b, s) ← consumeOpeningTag fuel s (lit "array") true
  if !b then .ok (false, st, s)
  else if st.isDefined then .error alreadyDefined
  else do
    let (b, st, s) ← Run.loop (pass fuel xmlPath generateErrors) fuel
      ((0, { st with isDefined := true }), s)
    if !b then .ok (false, st, s)
    else do
      let (_, s) ← consumeClosingTag fuel s (lit "array") generateErrors
      .ok (true, st, s)

/-- The elements that are valid. -/
def validateElements (c : XmlClass) (xmlPath : Bytes) (keyPos : XmlParserPosition)
    (generateErrors : Bool) : List c.State → XmlLiteParser → List c.State × XmlLiteParser
  | [], s => ([], s)
  | v :: vs, s =>
    let (b, v, s) := c.validate v s xmlPath keyPos generateErrors
    let (vs, s) := validateElements c xmlPath keyPos generateErrors vs s
    (if b then v :: vs else vs, s)

end XmlArray

/-- The class `XmlArray`. -/
def arrayClass (c : XmlClass) : XmlClass where
  State := ArrayState c
  new := ⟨false, []⟩
  isDefined st := st.isDefined
  reset _ := ⟨false, []⟩
  getDescription st := (lit "array", st)
  isTheNextTag fuel st s := do
    let (b, s) ← nextTagIsOpeningTag fuel s (lit "array")
    .ok (b, st, s)
  parseFromXmlLite := XmlArray.parseFromXmlLite
  validate st s xmlPath keyPos generateErrors :=
    let (elements, s) := XmlArray.validateElements c xmlPath keyPos generateErrors st.elements s
    (true, { st with elements := elements }, s)

/-! ## Repeating dictionaries -/

structure RepeatingDictState (c : XmlClass) where
  isDefined : Bool
  keyTmp : Scalar KeyValue
  /-- The member `m_valueArray`, each value with its key. -/
  valueArray : List (Scalar KeyValue × c.State)

namespace XmlRepeatingDict

variable {c : XmlClass} (fuel : Nat) (disablable ignoreCommented : Bool)
  (st : RepeatingDictState c) (s : XmlLiteParser) (xmlPath : Bytes) (generateErrors : Bool)

/-- A key, which goes to `keyTmp`, and its value. -/
def parseKeyAndValueFromXmlLite : Run (Option c.State × RepeatingDictState c × XmlLiteParser) := do
  let (b, key, s) ← (xmlKey disablable).parseFromXmlLite fuel ⟨false, ⟨[], false⟩⟩ s xmlPath
    generateErrors
  let st := { st with keyTmp := key }
  if b then do
    let (b, v, s) ← c.parseFromXmlLite fuel c.new s xmlPath generateErrors
    .ok (if b then some v else none, st, s)
  else .ok (none, st, s)

/-- The rest of a pass: a value with a proper key is validated and added. -/
def endEntry (keyPos : XmlParserPosition)
    (value : Option c.State) (st : RepeatingDictState c) (s : XmlLiteParser) :
    RepeatingDictState c × XmlLiteParser :=
  let key := st.keyTmp.value.xstring8
  let keyLen := (chars key).length
  if 0 < keyLen then
    if !(char32At key 0 = 35 ∧ ignoreCommented) ∧ char32At key (keyLen - 1) ≠ 63 then
      match value with
      | none => (st, s)
      | some v =>
        let (validated, v, s) := c.validate v s (xmlPath ++ lit "/" ++ key) keyPos generateErrors
        if validated then ({ st with valueArray := st.valueArray ++ [(st.keyTmp, v)] }, s)
        else (st, s)
    else (st, s)
  else
    (st, s.addWarning generateErrors "Empty key, following value is ignored at line %d"
      [.int keyPos.line])

/-- One pass of the loop in `parseFromXmlLite`. It leaves with the word whether the end of the
dictionary is to be read. -/
def pass : (Nat × RepeatingDictState c) × XmlLiteParser →
      Run (Pass ((Nat × RepeatingDictState c) × XmlLiteParser)
        (Bool × RepeatingDictState c × XmlLiteParser))
  | ((n, st), s) => do
    let (closing, s) ← nextTagIsClosingTag fuel s (lit "dict")
    if closing then .ok (.leave (true, st, s))
    else do
      let keyPos := s.currentPos
      let (value, st, s) ← parseKeyAndValueFromXmlLite fuel disablable st s
        (XmlArray.subPath xmlPath n) generateErrors
      if s.xmlParsingError then .ok (.leave (false, st, s))
      else if !st.keyTmp.isDefined then .error (.panic "value : value is not defined")
      else
        let (st, s) := endEntry ignoreCommented xmlPath generateErrors keyPos value st s
        .ok (.again ((n + 1, st), s))

def parseFromXmlLite : Run (Bool × RepeatingDictState c × XmlLiteParser) := do
  let (st, s) : RepeatingDictState c × XmlLiteParser :=
    if st.isDefined then ({ st with isDefined := false, valueArray := [] }, warnDefined s xmlPath)
    else (st, s)
  let (b, s) ← consumeOpeningTag fuel s (lit "dict") generateErrors
  if !b then .ok (false, st, s)
  else if st.isDefined then .error alreadyDefined
  else do
    let (b, st, s) ← Run.loop (pass fuel disablable ignoreCommented xmlPath generateErrors) fuel
      ((0, { st with isDefined := true }), s)
    if !b then .ok (false, st, s)
    else do
      let (b, s) ← consumeClosingTag fuel s (lit "dict") generateErrors
      .ok (b, st, s)

end XmlRepeatingDict

/-- The class `XmlRepeatingDict`. -/
def repeatingDictClass (disablable ignoreCommented : Bool) (c : XmlClass) : XmlClass where
  State := RepeatingDictState c
  new := ⟨false, ⟨false, ⟨[], false⟩⟩, []⟩
  isDefined st := st.isDefined
  reset st := { st with isDefined := false, valueArray := [] }
  getDescription st := (lit "dict", st)
  isTheNextTag fuel st s := do
    let (b, s) ← nextTagIsOpeningTag fuel s (lit "dict")
    .ok (b, st, s)
  parseFromXmlLite fuel := XmlRepeatingDict.parseFromXmlLite fuel disablable ignoreCommented
  validate st s _ _ _ := (true, st, s)

/-! ## Unions -/

structure UnionState (members : List XmlClass) where
  isDefined : Bool
  /-- The text that `getDescription` puts together; it is never cleared. -/
  description : Bytes
  member : ∀ i : Fin members.length, (members.get i).State

namespace XmlUnion

variable {members : List XmlClass} (fuel : Nat)

def setMember (st : UnionState members) (i : Fin members.length) (v : (members.get i).State) :
    UnionState members :=
  { st with member := Function.update st.member i v }

def reset (st : UnionState members) : UnionState members :=
  { st with isDefined := false, member := fun i => (members.get i).reset (st.member i) }

/-- The loop of `getDescription` over the members `is`. -/
def describe : List (Fin members.length) → UnionState members → UnionState members
  | [], st => st
  | i :: is, st =>
    let bar := if 0 < i.val then lit "|" else []
    let (text, v) := (members.get i).getDescription (st.member i)
    let st := setMember st i v
    describe is { st with description := st.description ++ bar ++ text }

/-- The description, unless the class overrides the method. -/
def getDescription (overriding : Option Bytes) (st : UnionState members) :
    Bytes × UnionState members :=
  match overriding with
  | some text => (text, st)
  | none =>
    let st := describe (List.finRange members.length) st
    (st.description, st)

/-- The first of the members `is` that the next element belongs to. -/
def findMember : List (Fin members.length) → UnionState members → XmlLiteParser →
    Run (Option (Fin members.length) × UnionState members × XmlLiteParser)
  | [], st, s => .ok (none, st, s)
  | i :: is, st, s => do
    let (b, v, s) ← (members.get i).isTheNextTag fuel (st.member i) s
    let st := setMember st i v
    if b then .ok (some i, st, s) else findMember is st s

def isTheNextTag (st : UnionState members) (s : XmlLiteParser) :
    Run (Bool × UnionState members × XmlLiteParser) := do
  let (i, st, s) ← findMember fuel (List.finRange members.length) st s
  .ok (i.isSome, st, s)

def parseFromXmlLite (overriding : Option Bytes) (st : UnionState members)
    (s : XmlLiteParser) (xmlPath : Bytes) (generateErrors : Bool) :
    Run (Bool × UnionState members × XmlLiteParser) := do
  let pos := s.currentPos
  let (i, st, s) ← findMember fuel (List.finRange members.length) st s
  match i with
  | none =>
    let (text, st) := getDescription overriding st
    .ok (false, st, s.addError generateErrors "Expecting %s for tag '%s:%d'"
      [.str text, .str xmlPath, .int pos.line])
  | some i => do
    let (b, v, s) ← (members.get i).parseFromXmlLite fuel (st.member i) s xmlPath generateErrors
    let st := setMember st i v
    if !b then .ok (false, st, s)
    else if st.isDefined then .error alreadyDefined
    else .ok (true, { st with isDefined := true }, s)

/-- The loop of `validate` over the members `is`. -/
def validateMembers (xmlPath : Bytes) (keyPos : XmlParserPosition) (generateErrors : Bool) :
    List (Fin members.length) → UnionState members → XmlLiteParser →
      Bool × UnionState members × XmlLiteParser
  | [], st, s => (true, st, s)
  | i :: is, st, s =>
    if (members.get i).isDefined (st.member i) then
      let (b, v, s) := (members.get i).validate (st.member i) s xmlPath keyPos generateErrors
      let st := setMember st i v
      if b then validateMembers xmlPath keyPos generateErrors is st s else (false, st, s)
    else validateMembers xmlPath keyPos generateErrors is st s

end XmlUnion

/-- A union class; a union without members is a fatal error as soon as it is used, so there is
a first one. -/
def unionClass (overriding : Option Bytes) (first : XmlClass) (others : List XmlClass) :
    XmlClass where
  State := UnionState (first :: others)
  new := ⟨false, [], fun i => ((first :: others).get i).new⟩
  isDefined st := st.isDefined
  reset := XmlUnion.reset
  getDescription := XmlUnion.getDescription overriding
  isTheNextTag := XmlUnion.isTheNextTag
  parseFromXmlLite fuel := XmlUnion.parseFromXmlLite fuel overriding
  validate st s xmlPath keyPos generateErrors :=
    XmlUnion.validateMembers xmlPath keyPos generateErrors (List.finRange (first :: others).length)
      st s

/-! ## Schemas -/

/-- The scalar classes. -/
inductive ScalarClass where
  | strictBool
  | bool
  | boolYesNo
  | string8 (canBeEmpty trimmed : Bool)
  | stringW (canBeEmpty : Bool)
  | key (disablable : Bool)
  | data
  | integer (t : IntegerType)
  deriving DecidableEq, Repr

def ScalarClass.type : ScalarClass → ScalarType
  | .strictBool => xmlStrictBool
  | .bool => xmlBool
  | .boolYesNo => xmlBoolYesNo
  | .string8 canBeEmpty trimmed => xmlString8 canBeEmpty trimmed
  | .stringW canBeEmpty => xmlStringW canBeEmpty
  | .key disablable => xmlKey disablable
  | .data => xmlData
  | .integer t => xmlInteger t

/-- How a class is built. -/
inductive XmlSchema where
  | scalar (c : ScalarClass)
  | dict (fields : List (Bytes × XmlSchema))
  | array (element : XmlSchema)
  | repeatingDict (disablable ignoreCommented : Bool) (value : XmlSchema)
  | union (description : Option Bytes) (first : XmlSchema) (others : List XmlSchema)

mutual

/-- The class that a schema stands for. -/
def XmlSchema.toClass : XmlSchema → XmlClass
  | .scalar c => scalarClass c.type
  | .dict fields => dictClass (XmlSchema.toFields fields)
  | .array element => arrayClass element.toClass
  | .repeatingDict disablable ignoreCommented value =>
    repeatingDictClass disablable ignoreCommented value.toClass
  | .union description first others =>
    unionClass description first.toClass (XmlSchema.toClasses others)

def XmlSchema.toFields : List (Bytes × XmlSchema) → Fields
  | [] => []
  | (name, x) :: fields => (name, x.toClass) :: XmlSchema.toFields fields

def XmlSchema.toClasses : List XmlSchema → List XmlClass
  | [] => []
  | x :: xs => x.toClass :: XmlSchema.toClasses xs

end

/-- The method `parse` of a configuration of class `c`, on a parser that has been initialised. -/
def parseConfig (fuel : Nat) (c : XmlClass) (st : c.State) (s : XmlLiteParser)
    (xmlPath : Bytes) : Run (Bool × c.State × XmlLiteParser) := do
  let (_, s) ← moveForwardUntilSignificant fuel s
  let s ← skipHeader fuel s
  let pos := s.currentPos
  let (b, st, s) ← c.parseFromXmlLite fuel st s xmlPath true
  if !b then .ok (false, st, s) else .ok (c.validate st s xmlPath pos true)

/-- The method `parse` with a buffer. -/
def parseBuffer (fuel : Nat) (c : XmlClass) (st : c.State) (s : XmlLiteParser) (buf : Bytes)
    (xmlPath : Bytes) : Run (Bool × c.State × XmlLiteParser) :=
  parseConfig fuel c st (s.init buf) xmlPath

end Clover.Xml
