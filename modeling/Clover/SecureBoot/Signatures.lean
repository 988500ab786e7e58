import Clover.Lib.Bytes

/-!
# The Secure Boot signature database

A signature database is a block of memory with one `EFI_SIGNATURE_LIST` after the other. A list
has a header of 28 bytes (the type of its signatures, its own size, the size of a further header
and the size of one entry, the last three of 32 bits), the further header, and entries of one
size, each the GUID of an owner with the signature behind it.

The functions of `securehash.cpp` that search, extend and cut down such a database are translated
here byte by byte. A database that is `NULL` is the empty block. Blocks are lists of bytes; a
comparison that reads past the end of a pool block reads what `behind` says stands there.
-/

namespace Clover.SecureBoot

open Clover.Lib

inductive Status where
  | success
  | invalidParameter
  | notFound
  deriving DecidableEq, Repr

/-- `sizeof(EFI_GUID)` -/
def guidSize : Nat := 16

/-- `sizeof(EFI_SIGNATURE_LIST)` -/
def listHeaderSize : Nat := 28

/-- `EFI_GUID::isNull` -/
def isNull (guid : Bytes) : Bool := guid.all (· == 0)

/-- `EFI_SIGNATURE_LIST` -/
structure ListHeader where
  signatureType : Bytes
  signatureListSize : Nat
  signatureHeaderSize : Nat
  signatureSize : Nat
  deriving DecidableEq, Repr

/-- The header that stands at the start of `bs`. -/
def readHeader (bs : Bytes) : ListHeader where
  signatureType := bs.take 16
  signatureListSize := leValue ((bs.drop 16).take 4)
  signatureHeaderSize := leValue ((bs.drop 20).take 4)
  signatureSize := leValue ((bs.drop 24).take 4)

def writeHeader (h : ListHeader) : Bytes :=
  h.signatureType ++ leBytes 4 h.signatureListSize ++ leBytes 4 h.signatureHeaderSize ++
    leBytes 4 h.signatureSize

/-- The check that a list is valid, as every function makes it. -/
def ListHeader.invalid (h : ListHeader) : Bool :=
  h.signatureListSize ≤ listHeaderSize || h.signatureSize ≤ guidSize

/-- The places a pointer takes that starts at `p` and advances by `step` while it is below
`last`. -/
def places (last step : Nat) : Nat → Nat → List Nat
  | 0, _ => []
  | fuel + 1, p => if p < last then p :: places last step fuel (p + step) else []

/-- The places of the signatures of a list, behind their owners. -/
def ListHeader.signaturePlaces (h : ListHeader) : List Nat :=
  places h.signatureListSize h.signatureSize h.signatureListSize
    (h.signatureHeaderSize + listHeaderSize + guidSize)

/-- The `n` bytes at a place. -/
def bytesAt (bs : Bytes) (p n : Nat) : Bytes := (bs.drop p).take n

/-! ## Searching -/

/-- The traversal of `CheckSignatureIsInDatabase`. -/
def searchLists (signatureType signature : Bytes) : Nat → Bytes → Status
  | 0, _ => .notFound
  | _, [] => .notFound
  | fuel + 1, db =>
    let list := readHeader db
    if list.invalid then .invalidParameter
    else if signature.length + guidSize = list.signatureSize ∧
        signatureType = list.signatureType ∧
        list.signaturePlaces.any (fun p => bytesAt db p signature.length == signature) then
      .success
    else searchLists signatureType signature fuel (db.drop list.signatureListSize)

def checkSignatureIsInDatabase (db signatureType signature : Bytes) : Status :=
  if isNull signatureType || signature.isEmpty then .invalidParameter
  else if db.length ≤ listHeaderSize then .notFound
  else searchLists signatureType signature db.length db

/-! ## Appending -/

section

variable (behind : Bytes → Bytes)

/-- Append a signature to a list, which need not be there yet. -/
def appendSignatureToList (list : Option Bytes) (signatureType signature : Bytes) :
    Except Status Bytes :=
  let dataSize := (signature.length + guidSize) % 2 ^ 32
  if isNull signatureType || signature.isEmpty then .error .invalidParameter
  else
    match list with
    | none =>
      .ok (writeHeader ⟨signatureType, dataSize + listHeaderSize, 0, dataSize⟩ ++
        List.replicate dataSize 0)
    | some old =>
      let h := readHeader old
      if h.invalid || dataSize != h.signatureSize || signatureType != h.signatureType then
        .error .invalidParameter
      else if h.signaturePlaces.any (fun p =>
          bytesAt (old ++ behind old) (p + guidSize) signature.length == signature) then .ok old
      else
        .ok (writeHeader { h with signatureListSize := h.signatureListSize + dataSize } ++
          bytesAt old listHeaderSize (h.signatureListSize - listHeaderSize) ++
          List.replicate guidSize 0 ++ signature)

/-- The loop of `AppendSignatureListToDatabase` that collects the signatures the database has not
got, at the places `ps` of the list. -/
def collectNew (db list : Bytes) : List Nat → Option Bytes → Except Status (Option Bytes)
  | [], new => .ok new
  | p :: ps, new =>
    let h := readHeader list
    let signature := bytesAt list p (h.signatureSize - guidSize)
    match checkSignatureIsInDatabase db h.signatureType signature with
    | .success => collectNew db list ps new
    | .invalidParameter => .error .invalidParameter
    | .notFound =>
      match appendSignatureToList behind new h.signatureType signature with
      | .error e => .error e
      | .ok new => collectNew db list ps (some new)

/-- Append a list, which starts `list`, to a database. -/
def appendSignatureListToDatabase (db list : Bytes) : Except Status Bytes :=
  let h := readHeader list
  if h.invalid then .error .invalidParameter
  else if db.length ≤ listHeaderSize then .ok (list.take h.signatureListSize)
  else
    match collectNew behind db list h.signaturePlaces none with
    | .error e => .error e
    | .ok none => .ok db
    | .ok (some new) =>
      if (readHeader new).invalid then .ok db
      else .ok (db ++ new.take (readHeader new).signatureListSize)

/-- The signature is appended as a list of its own. -/
def appendSignatureToDatabase (db signatureType signature : Bytes) : Except Status Bytes :=
  match appendSignatureToList behind none signatureType signature with
  | .error e => .error e
  | .ok list => appendSignatureListToDatabase behind db list

/-! ## Removing -/

/-- The loop of `RemoveSignatureFromDatabase` over one list at the start of `db`. What it compares
and appends is the start of the list, for each place of a signature. -/
def collectOthers (db signatureType signature : Bytes) :
    List Nat → Option Bytes → Except Status (Option Bytes)
  | [], new => .ok new
  | _ :: ps, new =>
    if bytesAt db 0 signature.length != signature then
      match appendSignatureToList behind new signatureType (bytesAt db 0 signature.length) with
      | .error e => .error e
      | .ok new => collectOthers db signatureType signature ps (some new)
    else collectOthers db signatureType signature ps new

/-- One pass of the traversal of `RemoveSignatureFromDatabase`: the list at the start of `db` is
appended to the new database, without the signature if it could hold it. -/
def removeFromList (signatureType signature db new : Bytes) : Except Status Bytes :=
  let list := readHeader db
  if list.signatureSize - guidSize = signature.length ∧ signatureType = list.signatureType then
    match collectOthers behind db signatureType signature list.signaturePlaces none with
    | .error e => .error e
    | .ok none => .ok new
    | .ok (some newList) => appendSignatureListToDatabase behind new newList
  else appendSignatureListToDatabase behind new db

/-- The traversal of `RemoveSignatureFromDatabase`: the rest of the old database, and the new
one. -/
def removeFromLists (signatureType signature : Bytes) : Nat → Bytes → Bytes → Except Status Bytes
  | 0, _, new => .ok new
  | fuel + 1, db, new =>
    let list := readHeader db
    if db.isEmpty then .ok new
    else if list.invalid then .error .invalidParameter
    else do
      let new ← removeFromList behind signatureType signature db new
      removeFromLists signatureType signature fuel (db.drop list.signatureListSize) new

def removeSignatureFromDatabase (db signatureType signature : Bytes) : Except Status Bytes :=
  if isNull signatureType || signature.length ≤ listHeaderSize then .error .invalidParameter
  else if db.length ≤ listHeaderSize then .ok db
  else removeFromLists behind signatureType signature db.length db []

end

end Clover.SecureBoot
