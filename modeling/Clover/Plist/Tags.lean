import Clover.Xml.Strings

/-!
# Tags of a property list

The classes `TagDict`, `TagArray`, `TagKey`, `TagString`, `TagInt64`, `TagFloat`, `TagData`,
`TagDate` and `TagBool` of `Platform/plist`, each with what it holds, and their methods `sprintf`.
A dictionary holds its keys and values in one list, in the order of the text.

Reading and printing a `float` is left open: `FloatLib` says what is needed of it, that the printed
text has no markup.
-/

namespace Clover.Plist

open Clover.Unicode Clover.Xml

inductive Tag (F : Type) where
  | dict (content : List (Tag F))
  | array (content : List (Tag F))
  | key (string : Bytes)
  | string (string : Bytes)
  | int64 (value : BitVec 64)
  | float (value : F)
  | data (dataBuffer : Bytes)
  | date (string : Bytes)
  | bool (value : Bool)

/-- The overrides of `isDict`, of which `TagDate` has one too. -/
def Tag.isDict {F : Type} : Tag F → Bool
  | .dict _ | .date _ => true
  | _ => false

def Tag.isArray {F : Type} : Tag F → Bool
  | .array _ => true
  | _ => false

/-- The functions on `float` that the parser and the printer call. -/
structure FloatLib (F : Type) where
  asciiStrToFloat : Bytes → F
  /-- What `S8Printf("%f", value)` returns. -/
  printed : F → Bytes
  plain : ∀ f, ∀ c ∈ printed f, c ≠ 0 ∧ c < 0x80 ∧ c ≠ 60

/-! ## Strings -/

/-- The bytes that `get_utf8_from_char32` writes for a character. -/
def utf8Bytes (c : UInt32) : Bytes := (getUtf8FromChar32 ⟨[], 4⟩ c).written

/-- The string that `strncpy` makes from at most `len` characters at `s`. It has room for as many
bytes as are read, and no character is written with more bytes than it was read from. -/
def strncpy (s : Bytes) (len : Nat) : Bytes := (charsUpTo len s).flatMap utf8Bytes

/-! ## Printing -/

def encodingTable : Bytes :=
  lit "ABCDEFGHIJKLMNOPQRSTUVWXYZabcdefghijklmnopqrstuvwxyz0123456789+/"

/-- The four characters of a triple of octets. -/
def base64Triple (a b c : UInt8) : Bytes :=
  let triple := (a.toNat <<< 0x10) + (b.toNat <<< 0x08) + c.toNat
  [encodingTable.getD ((triple >>> 18) &&& 0x3F) 0, encodingTable.getD ((triple >>> 12) &&& 0x3F) 0,
    encodingTable.getD ((triple >>> 6) &&& 0x3F) 0, encodingTable.getD (triple &&& 0x3F) 0]

/-- The function `base64_encode`; the octets that miss at the end count as zero, and their
characters are `=`. -/
def base64Encode : Bytes → Bytes
  | [] => []
  | [a] => (base64Triple a 0 0).take 2 ++ lit "=="
  | [a, b] => (base64Triple a b 0).take 3 ++ lit "="
  | a :: b :: c :: data => base64Triple a b c ++ base64Encode data

/-- The decimal digits of a number. -/
def decimal (n : Nat) : Bytes :=
  if n = 0 then lit "0" else (Nat.digits 10 n).reverse.map fun d => d.toUInt8 + 48

/-- What `S8Printf("%lld", value)` returns. -/
def printInt64 (value : BitVec 64) : Bytes :=
  if value.toInt < 0 then 45 :: decimal value.toInt.natAbs else decimal value.toInt.natAbs

def spaces (ident : Nat) : Bytes := List.replicate ident 0x20

section Sprintf

variable {F : Type} (lib : FloatLib F)

mutual

/-- The text that `sprintf` appends. -/
def Tag.sprintf (ident : Nat) : Tag F → Bytes
  | .dict content =>
    spaces ident ++ lit "<dict>\n" ++ sprintfAll (ident + 8) content ++ spaces ident ++
      lit "</dict>\n"
  | .array content =>
    spaces ident ++ lit "<array>\n" ++ sprintfAll (ident + 8) content ++ spaces ident ++
      lit "</array>\n"
  | .key string => spaces ident ++ lit "<key>" ++ string ++ lit "</key>\n"
  | .string string => spaces ident ++ lit "<string>" ++ string ++ lit "</string>\n"
  | .int64 value => spaces ident ++ lit "<integer>" ++ printInt64 value ++ lit "</integer>\n"
  | .float value => spaces ident ++ lib.printed value
  | .data dataBuffer =>
    spaces ident ++ lit "<data>\n" ++
      (if dataBuffer = [] then [] else spaces ident ++ base64Encode dataBuffer) ++ spaces ident ++
      lit "</data>\n"
  | .date string => spaces ident ++ string
  | .bool value => spaces ident ++ if value then lit "<true/>\n" else lit "<false/>\n"

/-- The loop over the content of a list. -/
def sprintfAll (ident : Nat) : List (Tag F) → Bytes
  | [] => []
  | tag :: content => tag.sprintf ident ++ sprintfAll ident content

end

end Sprintf

end Clover.Plist
