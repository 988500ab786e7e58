import Clover.Plist.Lookup

/-!
# Variables from nvram.plist

The functions `PutNvramPlistToRtVars` and `PutDictToNvram` of `Platform/Nvram.cpp`. The value of the
first key says which layout the file has: in the second one every key is a GUID and every value a
dictionary of variables. That value is looked at before it is known to be there, and `isDict()` is
also true of a date. In the second layout every value is cast to a `TagDict`, of whatever class it
is. The size of a string is taken from `length()`, which counts characters.

The main result is `putNvramPlistToRtVars_iff`.
-/

namespace Clover.Plist

open Clover.Xml

variable {F G : Type}

/-- The arguments of a call of `SetNvramVariable`. -/
structure Variable (G : Type) where
  name : List UInt32
  guid : G
  value : Bytes
  deriving DecidableEq

inductive NvramFault where
  /-- The value behind the first key is missing. -/
  | missing
  /-- The content of a tag is read that is no dictionary. -/
  | notDict
  deriving DecidableEq

/-- The calls of `SetNvramVariable` in a loop over a list. -/
def callsOf {α : Type} (f : α → Except NvramFault (List (Variable G))) :
    List α → Except NvramFault (List (Variable G))
  | [] => .ok []
  | a :: l => do
    let vars ← f a
    let others ← callsOf f l
    return vars ++ others

def isSkipped (key : Bytes) : Bool :=
  [lit "OsxAptioFixDrv-RelocBase", lit "OsxAptioFixDrv-ErrorExitingBootServices",
    lit "EmuVariableUefiPresent", lit "aapl,panic-info"].any fun name => chars key == chars name

/-- The bytes at `Value`, and their number `Size`. -/
def valueAndSize : Tag F → Bytes × Nat
  | .string s => (s, (chars s).length)
  | .data buffer => (buffer, buffer.length)
  | _ => ([], 0)

def putEntry (guid : G) (entry : Bytes × Tag F) : Except NvramFault (List (Variable G)) :=
  let (value, size) := valueAndSize entry.2
  .ok (if isSkipped entry.1 ∨ size = 0 then [] else [⟨chars entry.1, guid, value.take size⟩])

def putDictToNvram (content : List (Tag F)) (guid : G) : Except NvramFault (List (Variable G)) :=
  callsOf (putEntry guid) (enumerated content)

variable (takeValueFrom : Bytes → G) (appleBootGuid : G)

/-- A key of the second layout, whose value is cast to a `TagDict` whatever it is. -/
def putDict (entry : Bytes × Tag F) : Except NvramFault (List (Variable G)) :=
  match entry.2 with
  | .dict content => putDictToNvram content (takeValueFrom entry.1)
  | _ => .error .notDict

/-- The variables that are set, in either layout. -/
def putNvramPlistToRtVars (nvramDict : List (Tag F)) : Except NvramFault (List (Variable G)) :=
  match getKeyAndValueAtIndex nvramDict 0 with
  | none => .error .missing
  | some (_, valueTag) =>
    if valueTag.isDict then callsOf (putDict takeValueFrom) (enumerated nvramDict)
    else putDictToNvram nvramDict appleBootGuid

/-! ## What is expected -/

def Tag.bytes : Tag F → Bytes
  | .string s => s
  | .data buffer => buffer
  | _ => []

/-- There is nothing to set. -/
def Idle (entry : Bytes × Tag F) : Prop := isSkipped entry.1 ∨ entry.2.bytes = []

instance (entry : Bytes × Tag F) : Decidable (Idle entry) :=
  inferInstanceAs (Decidable (_ ∨ _))

/-- One variable with the bytes of the entry. -/
def expectedEntry (guid : G) (entry : Bytes × Tag F) : List (Variable G) :=
  if Idle entry then [] else [⟨chars entry.1, guid, entry.2.bytes⟩]

/-- The variables of an entry of the file, and of the entries of a dictionary in it. -/
def expected (entry : Bytes × Tag F) : List (Variable G) :=
  match entry.2 with
  | .dict content => (pairs content).flatMap (expectedEntry (takeValueFrom entry.1))
  | _ => expectedEntry appleBootGuid entry

/-- Every character of a string is one byte. -/
def Plain (entry : Bytes × Tag F) : Prop :=
  isSkipped entry.1 = false → ∀ s, entry.2 = .string s → s.length ≤ (chars s).length

/-- The entry suits the layout. -/
def Suits (second : Bool) (entry : Bytes × Tag F) : Prop :=
  match entry.2 with
  | .dict content => ∀ q ∈ pairs content, if second then Plain q else Idle q
  | _ => second = false ∧ Plain entry

/-! ## Entries -/

/-- The calls are no more than expected, and as expected exactly if `P` holds. -/
def Meets (calls : Except NvramFault (List (Variable G))) (vars : List (Variable G)) (P : Prop) :
    Prop :=
  (∀ r, calls = .ok r → r.length ≤ vars.length) ∧ (calls = .ok vars ↔ P)

theorem expectedEntry_eq_nil (guid : G) (entry : Bytes × Tag F) :
    expectedEntry guid entry = [] ↔ Idle entry := by
  unfold expectedEntry
  split
  next h => exact iff_of_true rfl h
  next h => exact iff_of_false (List.cons_ne_nil _ _) h

theorem callsOf_meets {α : Type} {f : α → Except NvramFault (List (Variable G))}
    {g : α → List (Variable G)} {P : α → Prop}
    (h : ∀ a, Meets (f a) (g a) (P a)) (l : List α) :
    Meets (callsOf f l) (l.flatMap g) (∀ a ∈ l, P a) := by
  induction l with
  | nil => simp [Meets, callsOf]
  | cons a l ih =>
    obtain ⟨hle, hiff⟩ := h a
    obtain ⟨hle', hiff'⟩ := ih
    rw [callsOf, List.flatMap_cons, List.forall_mem_cons, ← hiff, ← hiff']
    cases ha : f a with
    | error e => exact ⟨nofun, iff_of_false nofun fun h => nomatch h.1⟩
    | ok x =>
      cases hl : callsOf f l with
      | error e => exact ⟨nofun, iff_of_false nofun fun h => nomatch h.2⟩
      | ok y =>
        have hx := hle x ha
        have hy := hle' y hl
        constructor
        · intro r hr
          obtain rfl := Except.ok.inj hr
          rw [List.length_append, List.length_append]
          omega
        · constructor
          · intro heq
            have happend : x ++ y = g a ++ l.flatMap g := Except.ok.inj heq
            have hlength := congrArg List.length happend
            rw [List.length_append, List.length_append] at hlength
            obtain ⟨rfl, rfl⟩ := List.append_inj happend (by omega)
            exact ⟨rfl, rfl⟩
          · rintro ⟨hx', hy'⟩
            obtain rfl := Except.ok.inj hx'
            obtain rfl := Except.ok.inj hy'
            rfl

/-- An entry makes its call exactly if it is plain. -/
theorem putEntry_meets (guid : G) (entry : Bytes × Tag F) :
    Meets (putEntry guid entry) (expectedEntry guid entry) (Plain entry) := by
  obtain ⟨key, value⟩ := entry
  cases hskip : isSkipped key with
  | true => simp [Meets, putEntry, expectedEntry, Idle, Plain, hskip]
  | false =>
    cases value with
    | string s =>
      have htake : s.take (chars s).length = s ↔ s.length ≤ (chars s).length := by
        refine ⟨fun h => ?_, List.take_of_length_le⟩
        have hle := congrArg List.length h
        rw [List.length_take] at hle
        omega
      by_cases hs : s = []
      · simp [Meets, putEntry, expectedEntry, Idle, Plain, valueAndSize, Tag.bytes, hs, chars,
          charsUpTo]
      · by_cases hsize : chars s = []
        · simp [Meets, putEntry, expectedEntry, Idle, Plain, hskip, valueAndSize, Tag.bytes, hs,
            hsize]
        · simp [Meets, putEntry, expectedEntry, Idle, Plain, hskip, valueAndSize, Tag.bytes, hs,
            hsize, htake]
    | data buffer =>
      by_cases hb : buffer = [] <;>
        simp [Meets, putEntry, expectedEntry, Idle, Plain, hskip, valueAndSize, Tag.bytes, hb]
    | _ => simp [Meets, putEntry, expectedEntry, Idle, Plain, hskip, valueAndSize, Tag.bytes]

theorem putDictToNvram_meets (guid : G) (content : List (Tag F)) :
    Meets (putDictToNvram content guid) ((pairs content).flatMap (expectedEntry guid))
      (∀ q ∈ pairs content, Plain q) := by
  rw [putDictToNvram, enumerated_eq]
  exact callsOf_meets (putEntry_meets guid) (pairs content)

/-- What is done with an entry of the file, in the second layout or in the first one. -/
def putInLayout (second : Bool) : Bytes × Tag F → Except NvramFault (List (Variable G)) :=
  if second then putDict takeValueFrom else putEntry appleBootGuid

theorem putInLayout_meets (second : Bool) (entry : Bytes × Tag F) :
    Meets (putInLayout takeValueFrom appleBootGuid second entry)
      (expected takeValueFrom appleBootGuid entry) (Suits second entry) := by
  obtain ⟨key, value⟩ := entry
  cases value with
  | dict content =>
    cases second with
    | true => exact putDictToNvram_meets (takeValueFrom key) content
    | false =>
      simp [Meets, putInLayout, expected, Suits, putEntry, valueAndSize, expectedEntry_eq_nil,
        List.flatMap_eq_nil_iff, eq_comm (a := ([] : List (Variable G)))]
  | _ =>
    cases second with
    | true => simp [Meets, putInLayout, putDict, Suits]
    | false => simpa [Suits, putInLayout, expected] using putEntry_meets appleBootGuid _

/-- The variables are set as expected if and only if some key has a value and, by the kind of the
first one, every entry suits the layout. -/
theorem putNvramPlistToRtVars_iff (nvramDict : List (Tag F)) :
    putNvramPlistToRtVars takeValueFrom appleBootGuid nvramDict =
        .ok ((pairs nvramDict).flatMap (expected takeValueFrom appleBootGuid)) ↔
      ∃ first, (pairs nvramDict).head? = some first ∧
        ∀ entry ∈ pairs nvramDict, Suits first.2.isDict entry := by
  have hfirst : getKeyAndValueAtIndex nvramDict 0 = (pairs nvramDict).head? := by
    rw [List.head?_eq_getElem?]
    exact keyAndValueFrom_eq nvramDict 0 0
  rw [putNvramPlistToRtVars, hfirst]
  cases hhead : (pairs nvramDict).head? with
  | none => exact iff_of_false nofun nofun
  | some first =>
    have hall := callsOf_meets (putInLayout_meets takeValueFrom appleBootGuid first.2.isDict)
      (pairs nvramDict)
    simp only [Option.some.injEq, exists_eq_left', ← hall.2, putDictToNvram, enumerated_eq,
      putInLayout]
    cases first.2.isDict <;> rfl

/-- No key, a date for a dictionary, and half of a character. -/
theorem nvramPlist_disturbed :
    putNvramPlistToRtVars (F := Unit) id [] [] = .error .missing ∧
    putNvramPlistToRtVars (F := Unit) id [] [.key (lit "a"), .date (lit "b")] = .error .notDict ∧
    putNvramPlistToRtVars (F := Unit) id [] [.key (lit "a"), .string [0xC3, 0xA9]] =
      .ok [⟨[97], [], [0xC3]⟩] := by
  decide +kernel

end Clover.Plist
