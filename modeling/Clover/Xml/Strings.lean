import Clover.Unicode.Chars
import Clover.Xml.Parser

/-!
# Texts of values

What the XML types do with the text of an element once the reader has found it: entities
(`XMLDecode` of `Platform/plist/xml.cpp`), base64 (`Platform/b64cdecode.cpp`), hex texts
(`hex2bin` of `Platform/Utils.h`), and the operations of `XString8` and `XStringW` they use.

A pointer is the list of the bytes from it on, as far as the memory that is read goes. Strings
are the bytes or units before the terminator. The loops here are bounded by the length of the
text they run over.
-/

namespace Clover.Xml

open Clover.Unicode

/-! ## Strings -/

/-- The characters read up to the first zero one, in at most `n` steps. -/
def charsUpTo : Nat → Bytes → List UInt32
  | 0, _ => []
  | n + 1, s =>
    let (s', c) := getChar32FromUtf8String s
    if c = 0 then [] else c :: charsUpTo n s'

/-- The characters of an `XString8`, as many as `length()` says. -/
def chars (s : Bytes) : List UInt32 := charsUpTo s.length s

def char32At (s : Bytes) (i : Nat) : UInt32 := (chars s).getD i 0

def lastChar (s : Bytes) : UInt32 := (chars s).getLastD 0

/-- The number of leading bytes of `s` that `utf8_string_from_utf8_string_size` copies, where
`size` of them, at least one, were asked for and exist: a last character that is cut off is not
copied. -/
def utf8CopySize (s : Bytes) (size : Nat) : Nat :=
  if s.getD (size - 1) 0 &&& 0x80 = 0 then size
  else
    -- the last byte that is no continuation byte, or the first byte
    let first := (size - 1) - ((s.take size).reverse.takeWhile (· &&& 0xC0 = 0x80)).length
    let lead := s.getD first 0
    if lead &&& 0xC0 = 0xC0 then
      if lead &&& 0xE0 = 0xC0 then if size - first < 2 then first else first + 2
      else if lead &&& 0xF0 = 0xE0 then if size - first < 3 then first else first + 3
      else if lead &&& 0xF8 = 0xF0 then if size - first < 4 then first else first + 4
      else size
    else
      -- the bytes of longer characters at the end go, with the byte before them
      max 1 (size - 1 - ((s.take size).reverse.takeWhile (· &&& 0x80 ≠ 0)).length)

/-- The string that `strsicpy` makes from `size` bytes at `s`. -/
def strsicpy (s : Bytes) (size : Nat) : Bytes :=
  let real := (s.takeWhile (· ≠ 0)).length
  if real = 0 ∨ size = 0 then [] else s.take (utf8CopySize s (min real size))

/-- The loop of `utf16_string_from_utf8_string_size`; `read` bytes have been read of `size`. -/
def widenUpTo (size : Nat) : Nat → Bytes → Nat → Dst UInt16 → List UInt16
  | 0, _, _, d => d.written
  | n + 1, s, read, d =>
    let (s', c) := getChar32FromUtf8String s
    let read' := read + (s.length - s'.length)
    if c ≠ 0 ∧ 0 < d.room ∧ read' ≤ size then widenUpTo size n s' read' (getUtf16FromChar32 d c)
    else d.written

/-- The wide string that `strsicpy` makes from `size` bytes at `s`. -/
def strsicpyW (s : Bytes) (size : Nat) : List UInt16 :=
  if s.getD 0 0 = 0 ∨ size = 0 then [] else widenUpTo size s.length s 0 ⟨[], size⟩

/-- The method `trim`. -/
def trim (s : Bytes) : Bytes :=
  ((s.dropWhile (· ≤ 32)).reverse.dropWhile (· ≤ 32)).reverse

/-! ## Entities -/

/-- The table `ents`. -/
def ents : List (Bytes × UInt8) :=
  [(lit "quot;", 34), (lit "apos;", 39), (lit "lt;", 60), (lit "gt;", 62), (lit "amp;", 38)]

/-- The comparison `name.strncmp(s, nameLen) == 0`, which is one of characters. -/
def startsWithName : Bytes → Bytes → Bool
  | [], _ => true
  | c :: name, s =>
    let (s', c') := getChar32FromUtf8String s
    c' = c.toUInt32 && startsWithName name s'

/-- The loop of `XMLDecode` from `src + i`, with what has been written to `out`. -/
def xmlDecodeFrom (src : Bytes) (srclen outlen : Nat) : Nat → Nat → Bytes → Bytes
  | 0, _, out => out
  | n + 1, i, out =>
    if i < srclen then
      if src.getD i 0 = 38 then
        match ents.find? fun e => startsWithName e.1 (src.drop (i + 1)) with
        | some e =>
          if outlen ≤ out.length then out
          else xmlDecodeFrom src srclen outlen n (i + 1 + e.1.length) (out ++ [e.2])
        | none =>
          -- the `&` is gone, and the byte behind it is copied unseen
          if outlen ≤ out.length then out
          else xmlDecodeFrom src srclen outlen n (i + 2) (out ++ [src.getD (i + 1) 0])
      else if outlen ≤ out.length then out
      else xmlDecodeFrom src srclen outlen n (i + 1) (out ++ [src.getD i 0])
    else out

/-- The bytes `XMLDecode` writes before the terminator. -/
def xmlDecode (src : Bytes) (srclen outlen : Nat) : Bytes :=
  xmlDecodeFrom src srclen outlen srclen 0 []

/-! ## Base64 -/

/-- The table `decoding`. -/
def decoding : List Int :=
  [62, -1, -1, -1, 63, 52, 53, 54, 55, 56, 57, 58, 59, 60, 61, -1, -1, -1, -2, -1, -1, -1, 0, 1, 2,
    3, 4, 5, 6, 7, 8, 9, 10, 11, 12, 13, 14, 15, 16, 17, 18, 19, 20, 21, 22, 23, 24, 25, -1, -1, -1,
    -1, -1, -1, 26, 27, 28, 29, 30, 31, 32, 33, 34, 35, 36, 37, 38, 39, 40, 41, 42, 43, 44, 45, 46,
    47, 48, 49, 50, 51]

def base64DecodeValue (c : UInt8) : Int :=
  if c.toNat < 43 then -1 else decoding.getD (c.toNat - 43) (-1)

inductive Base64DecodeStep where
  | a
  | b
  | c
  | d
  deriving DecidableEq, Repr

/-- The bytes decoded from `code`; `plainchar` is the one that is being put together. -/
def base64DecodeBlock : Base64DecodeStep → UInt8 → Bytes → Bytes
  | _, _, [] => []
  | step, plainchar, codechar :: code =>
    let value := base64DecodeValue codechar
    let fragment := value.toNat.toUInt8
    if value < 0 then base64DecodeBlock step plainchar code
    else
      match step with
      | .a => base64DecodeBlock .b ((fragment &&& 0x3f) <<< 2) code
      | .b =>
        (plainchar ||| ((fragment &&& 0x30) >>> 4)) ::
          base64DecodeBlock .c ((fragment &&& 0x0f) <<< 4) code
      | .c =>
        (plainchar ||| ((fragment &&& 0x3c) >>> 2)) ::
          base64DecodeBlock .d ((fragment &&& 0x03) <<< 6) code
      | .d => (plainchar ||| (fragment &&& 0x3f)) :: base64DecodeBlock .a 0 code

/-- The decoded bytes, or `NULL` when there are none. -/
def base64DecodeClover (encodedData : Bytes) : Option Bytes :=
  match base64DecodeBlock .a 0 encodedData with
  | [] => none
  | decoded => some decoded

/-! ## Hex texts -/

/-- The test `IS_DIGIT`. -/
def isDigit (c : UInt8) : Bool := 48 ≤ c ∧ c ≤ 57

/-- The test `IS_HEX`. -/
def isHex (c : UInt8) : Bool := (97 ≤ c ∧ c ≤ 102) ∨ (65 ≤ c ∧ c ≤ 70)

def isHexDigit (c : UInt8) : Bool := isDigit c || isHex c

/-- The value of a hex digit in `hexstrtouint8`. -/
def hexDigit (c : UInt8) : UInt8 :=
  if isDigit c then c - 48 else if isHex c then (c ||| 0x20) - 97 + 10 else 0

/-- The value of two hex digits. -/
def hexstrtouint8 (c₀ c₁ : UInt8) : UInt8 := (hexDigit c₀ <<< 4) + hexDigit c₁

/-- The separators that `hex2bin` skips. -/
def isHexSeparator (c : UInt8) : Bool := c = 0x20 ∨ c = 44 ∨ c = 10 ∨ c = 13

/-- The loop of `hex2bin` from `hexidx` on, into a buffer of `outlen` bytes; the result is what
was written, and nothing where the source returns zero. -/
def hex2binFrom (hex : Bytes) (hexlen outlen : Nat) : Nat → Nat → Bytes → Bytes
  | 0, _, out => out
  | n + 1, hexidx, out =>
    if hexidx < hexlen then
      let skipped := ((hex.drop hexidx).takeWhile isHexSeparator).length
      -- the end is noticed at a separator only
      if hexidx + skipped > hexlen then out
      else
        let hexidx := hexidx + skipped
        let c₀ := hex.getD hexidx 0
        let c₁ := hex.getD (hexidx + 1) 0
        if hexidx + 1 = hexlen then []
        else if !isHexDigit c₀ || !isHexDigit c₁ then []
        else if out.length = outlen then []
        else hex2binFrom hex hexlen outlen n (hexidx + 2) (out ++ [hexstrtouint8 c₀ c₁])
    else out

def hex2bin (hex : Bytes) (hexlen outlen : Nat) : Bytes :=
  hex2binFrom hex hexlen outlen hexlen 0 []

end Clover.Xml
