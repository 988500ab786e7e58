import Clover.Lib.Bytes
import Clover.Lib.Cells

/-!
# Strings of an SMBIOS structure

The functions `iStrLen`, `SmbiosTableLength`, `GetSmbiosTableFromType`, `UpdateSmbiosString`,
`GetSmbiosString` and `UniquifySmbiosTableStr` of `Platform/smbios.cpp`. A structure is a formatted
area, whose length stands in its byte 1, and behind it strings, one after the other, each ended by a
zero, with another zero at the end. A field of the formatted area names a string by its number, from
1 on.

A `Table` is a structure as a value; `Represents` says that it stands at the start of a buffer. The
lemmas here are about the walk along the strings.
-/

namespace Clover.Smbios

open Clover.Lib List Nat

variable {s text : Bytes} {strings : List Bytes} {k : UInt8}

def maxOemString : Nat := 256

/-! ## The functions -/

/-- The C string at `p`. -/
def cStr (mem : Bytes) (p : Nat) : Bytes := (mem.drop p).takeWhile (· != 0)

/-- The loop of `iStrLen` that goes back over spaces. -/
def trimLen (string : Bytes) : Nat → Nat
  | 0 => 0
  | len + 1 =>
    if string.getD len 0 = 0x20 ∨ string.getD len 0 = 0 then trimLen string len else len + 1

def iStrLen (string : Bytes) (maxLen : Nat) : Nat :=
  if maxLen > 0 then trimLen string (min (string.takeWhile (· != 0)).length maxLen)
  else (string.takeWhile (· != 0)).length

def hdrLength (mem : Bytes) : Nat := (mem.getD 1 0).toNat

/-- The number of bytes before two zeros. -/
def scanEnd : Bytes → Nat
  | a :: b :: rest => if a != 0 || b != 0 then scanEnd (b :: rest) + 1 else 0
  | _ => 0

def smbiosTableLength (mem : Bytes) : Nat :=
  (hdrLength mem + scanEnd (mem.drop (hdrLength mem)) + 2) % 2 ^ 16

/-- The walk of `UpdateSmbiosString` to the string of a field: its place, and the number that the
field gets if the walk has come to the end of the structure. Every round goes on by a byte at least,
so that as many rounds as there are bytes are enough. -/
def locate (mem : Bytes) (field : UInt8) : Nat → UInt8 → Nat → Nat × Option UInt8
  | 0, _, p => (p, none)
  | rounds + 1, indexStr, p =>
    if indexStr = field then (p, none)
    else
      let indexStr := if mem.getD p 0 ≠ 0 then indexStr + 1 else indexStr
      let p := p + (cStr mem p).length + 1
      if mem.getD p 0 = 0 then (p, some indexStr) else locate mem field rounds indexStr p

/-- Copy a block of bytes to `p`. -/
def writeBytes (mem : Bytes) (p : Nat) (bytes : Bytes) : Bytes :=
  mem.take p ++ bytes ++ mem.drop (p + bytes.length)

/-- What follows the walk: the string at `p` is replaced, in a structure of the given length. -/
def replaceAt (mem : Bytes) (length p : Nat) (buffer : Bytes) : Bytes :=
  let aLength := (cStr mem p).length
  let bLength := iStrLen buffer maxOemString
  let mem :=
    if bLength > aLength then
      let d := bLength - aLength
      copyCells (mem.set (length + d) 0) (p + d) p (length - p)
    else if bLength < aLength then
      let mem := copyCells mem (p + bLength) (p + aLength) (length - (p + aLength))
      let newEnd := length - (aLength - bLength)
      (mem.set newEnd 0).set (newEnd - 1) 0
    else mem
  (writeBytes mem p (buffer.take bLength)).set (p + bLength) 0

/-- The field is the byte at offset `field`. -/
def updateSmbiosString (mem : Bytes) (field : Nat) (buffer : Bytes) : Bytes :=
  let length := smbiosTableLength mem
  if buffer = [] then mem
  else
    match locate mem (mem.getD field 0) mem.length 1 (hdrLength mem) with
    | (p, none) => replaceAt mem length p buffer
    | (p, some indexStr) =>
      let mem := if mem.getD field 0 = 0 then mem.set (p + 1) 0 else mem
      let mem := mem.set field indexStr
      replaceAt mem length (if indexStr = 1 then p - 1 else p) buffer

def getLoop (mem : Bytes) (stringN : UInt8) : Nat → UInt8 → Nat → Nat
  | 0, _, p => p
  | rounds + 1, ind, p =>
    if ind = stringN then p
    else
      let p := p + (cStr mem p).length + 1
      if mem.getD p 0 = 0 then p else getLoop mem stringN rounds (ind + 1) p

/-- The string that the function returns. -/
def getSmbiosString (mem : Bytes) (stringN : UInt8) : Bytes :=
  cStr mem (getLoop mem stringN mem.length 1 (hdrLength mem))

/-- One round of `UniquifySmbiosTableStr`, with the offsets that stand before in the list. -/
def uniquifyStep (mem : Bytes) (earlier : List Nat) (cmpIdx : Nat) : Bytes :=
  if mem.getD cmpIdx 0 = 0 then mem
  else if earlier.any fun j => mem.getD cmpIdx 0 = mem.getD j 0 then mem.set cmpIdx 0
  else mem

def uniquifyLoop : List Nat → List Nat → Bytes → Bytes
  | _, [], mem => mem
  | earlier, cmpIdx :: rest, mem =>
    uniquifyLoop (earlier ++ [cmpIdx]) rest (uniquifyStep mem earlier cmpIdx)

def uniquifySmbiosTableStr (mem : Bytes) : List Nat → Bytes
  | [] => mem
  | first :: rest => uniquifyLoop [first] rest mem

/-! ## Structures as values -/

def encode (strings : List Bytes) : Bytes := strings.flatMap (· ++ [0])

/-- The bytes behind the formatted area. -/
def body : List Bytes → Bytes
  | [] => [0, 0]
  | s :: strings => encode (s :: strings) ++ [0]

/-- A string that can stand in a structure. -/
structure IsString (s : Bytes) : Prop where
  ne_nil : s ≠ []
  no_zero : 0 ∉ s

/-- A structure with its strings. -/
structure Table where
  formatted : Bytes
  strings : List Bytes
  length_eq : hdrLength formatted = formatted.length
  four_le : 4 ≤ formatted.length
  isString : ∀ s ∈ strings, IsString s

def Table.image (t : Table) : Bytes := t.formatted ++ body t.strings

/-- The buffer starts with the structure. -/
def Represents (mem : Bytes) (t : Table) : Prop := ∃ junk, mem = t.image ++ junk

/-! ## The walk -/

theorem getD_append_cons (pre : Bytes) (b : UInt8) (post : Bytes) :
    (pre ++ b :: post).getD pre.length 0 = b := by
  rw [getD_eq_getElem?_getD, getElem?_append_right (Nat.le_refl _), Nat.sub_self]
  rfl

theorem cStr_append (hs : 0 ∉ s) (pre post : Bytes) :
    cStr (pre ++ (s ++ 0 :: post)) pre.length = s := by
  rw [cStr, drop_left, takeWhile_append_of_pos]
  · rw [takeWhile_cons_of_neg (by decide), append_nil]
  · intro b hb
    rw [bne_iff_ne]
    exact fun h => hs (h ▸ hb)

theorem encode_cons (s : Bytes) (strings : List Bytes) (post : Bytes) :
    encode (s :: strings) ++ post = s ++ 0 :: (encode strings ++ post) := by
  simp [encode]

theorem length_encode_cons (s : Bytes) (strings : List Bytes) :
    (encode (s :: strings)).length = s.length + 1 + (encode strings).length := by
  rw [encode, flatMap_cons, length_append, length_append]
  rfl

theorem encode_append (as bs : List Bytes) : encode (as ++ bs) = encode as ++ encode bs :=
  flatMap_append ..

theorem head_encode (h : ∀ s ∈ strings, IsString s) (post : Bytes) :
    ∃ b rest, encode strings ++ 0 :: post = b :: rest ∧ (b = 0 ↔ strings = []) := by
  cases strings with
  | nil => exact ⟨0, post, rfl, iff_of_true rfl rfl⟩
  | cons s strings =>
    have hs := h s mem_cons_self
    obtain ⟨b, s, rfl⟩ := exists_cons_of_ne_nil hs.ne_nil
    refine ⟨b, s ++ 0 :: (encode strings ++ 0 :: post), encode_cons _ _ _, ?_⟩
    exact iff_of_false (fun hb => hs.no_zero (hb ▸ mem_cons_self)) (cons_ne_nil _ _)

theorem walk_step (hs : IsString s) (h : ∀ s ∈ strings, IsString s) (pre post : Bytes) :
    let mem := pre ++ (encode (s :: strings) ++ 0 :: post)
    let p := pre.length + (cStr mem pre.length).length + 1
    mem.getD pre.length 0 ≠ 0 ∧ mem = (pre ++ s ++ [0]) ++ (encode strings ++ 0 :: post) ∧
      p = (pre ++ s ++ [0]).length ∧ (mem.getD p 0 = 0 ↔ strings = []) := by
  intro mem p
  have hmem : mem = (pre ++ s ++ [0]) ++ (encode strings ++ 0 :: post) := by
    simp only [mem, encode_cons, append_assoc, singleton_append]
  have hcstr : cStr mem pre.length = s := by
    rw [show mem = pre ++ (s ++ 0 :: (encode strings ++ 0 :: post)) by
      simp only [mem, encode_cons]]
    exact cStr_append hs.no_zero _ _
  have hp : p = (pre ++ s ++ [0]).length := by
    simp only [p, hcstr, length_append, length_singleton]
  refine ⟨?_, hmem, hp, ?_⟩
  · obtain ⟨b, s, rfl⟩ := exists_cons_of_ne_nil hs.ne_nil
    rw [show mem = pre ++ b :: (s ++ 0 :: (encode strings ++ 0 :: post)) by
      simp only [mem, encode_cons, cons_append], getD_append_cons]
    exact fun hb => hs.no_zero (hb ▸ mem_cons_self)
  · obtain ⟨b, rest, heq, hb⟩ := head_encode h post
    rw [hp, hmem, heq, getD_append_cons]
    exact hb

theorem ofNat_ne_of_toNat_ne {n : Nat} (hn : n < 256) (h : k.toNat ≠ n) : UInt8.ofNat n ≠ k := by
  rintro rfl
  exact h (mod_eq_of_lt hn)

section Walk

variable {strings : List Bytes} (h : ∀ s ∈ strings, IsString s) (pre post : Bytes)
include h

/-- The walk stops at the string with the number. -/
theorem locate_found {rounds i j : Nat} (hrounds : strings.length ≤ rounds)
    (hj : j < strings.length) (hk : k.toNat = i + 1 + j) :
    locate (pre ++ (encode strings ++ 0 :: post)) k rounds (UInt8.ofNat (i + 1)) pre.length =
      (pre.length + (encode (strings.take j)).length, none) := by
  induction strings generalizing pre rounds i j with
  | nil => cases hj
  | cons s strings ih =>
    obtain ⟨rounds, rfl⟩ : ∃ r, rounds = r + 1 := ⟨rounds - 1, by
      omega⟩
    have hlt := k.toNat_lt
    rw [locate]
    cases j with
    | zero =>
      rw [if_pos]
      · rfl
      · rw [show i + 1 = k.toNat by omega, UInt8.ofNat_toNat]
    | succ j =>
      rw [if_neg (ofNat_ne_of_toNat_ne (by omega) (by omega))]
      obtain ⟨hfirst, hmem, hp, hend⟩ := walk_step (h s mem_cons_self)
        (fun s hs => h s (mem_cons_of_mem _ hs)) pre post
      have hrest : strings ≠ [] := ne_nil_of_length_pos (by
        rw [length_cons] at hj
        omega)
      rw [if_pos hfirst, if_neg (mt hend.mp hrest), hp, hmem,
        show UInt8.ofNat (i + 1) + 1 = UInt8.ofNat (i + 1 + 1) from (UInt8.ofNat_add ..).symm]
      rw [ih (fun s hs => h s (mem_cons_of_mem _ hs)) (pre ++ s ++ [0])
        (le_of_succ_le_succ hrounds) (lt_of_succ_lt_succ hj) (by omega)]
      rw [take_succ_cons, length_encode_cons, length_append, length_append,
        length_singleton, Nat.add_assoc, Nat.add_assoc, Nat.add_assoc]

theorem locate_end {rounds i : Nat} (hrounds : strings.length ≤ rounds) (hne : strings ≠ [])
    (hlt : i + strings.length < 256) (hk : k.toNat ≤ i ∨ i + strings.length < k.toNat) :
    locate (pre ++ (encode strings ++ 0 :: post)) k rounds (UInt8.ofNat (i + 1)) pre.length =
      (pre.length + (encode strings).length, some (UInt8.ofNat (i + strings.length + 1))) := by
  induction strings generalizing pre rounds i with
  | nil => exact absurd rfl hne
  | cons s strings ih =>
    obtain ⟨rounds, rfl⟩ : ∃ r, rounds = r + 1 := ⟨rounds - 1, by
      rw [length_cons] at hrounds
      omega⟩
    obtain ⟨hfirst, hmem, hp, hend⟩ := walk_step (h s mem_cons_self)
      (fun s hs => h s (mem_cons_of_mem _ hs)) pre post
    rw [length_cons] at hlt hk
    rw [locate, if_neg (ofNat_ne_of_toNat_ne (by omega) (by omega))]
    rw [if_pos hfirst, hp,
      show UInt8.ofNat (i + 1) + 1 = UInt8.ofNat (i + 1 + 1) from (UInt8.ofNat_add ..).symm]
    rw [hp] at hend
    have hlength : (pre ++ s ++ [0]).length + (encode strings).length =
        pre.length + (encode (s :: strings)).length := by
      rw [length_encode_cons, length_append, length_append, length_singleton]
      omega
    have hnum : i + 1 + strings.length + 1 = i + (s :: strings).length + 1 := by
      rw [length_cons]
      omega
    rw [← hlength, ← hnum]
    by_cases hrest : strings = []
    · rw [if_pos (hend.mpr hrest), hrest]
      rfl
    · rw [if_neg (mt hend.mp hrest), hmem]
      exact ih (fun s hs => h s (mem_cons_of_mem _ hs)) (pre ++ s ++ [0])
        (le_of_succ_le_succ hrounds) hrest (by omega) (by omega)

theorem getLoop_eq_locate (rounds : Nat) (k ind : UInt8) (hne : strings ≠ []) :
    getLoop (pre ++ (encode strings ++ 0 :: post)) k rounds ind pre.length =
      (locate (pre ++ (encode strings ++ 0 :: post)) k rounds ind pre.length).1 := by
  induction strings generalizing pre rounds ind with
  | nil => exact absurd rfl hne
  | cons s strings ih =>
    cases rounds with
    | zero => rfl
    | succ rounds =>
      obtain ⟨hfirst, hmem, hp, hend⟩ := walk_step (h s mem_cons_self)
        (fun s hs => h s (mem_cons_of_mem _ hs)) pre post
      rw [getLoop, locate]
      split
      · rfl
      · rw [hp] at hend ⊢
        by_cases hrest : strings = []
        · rw [if_pos (hend.mpr hrest), if_pos (hend.mpr hrest)]
        · rw [if_neg (mt hend.mp hrest), if_neg (mt hend.mp hrest), hmem]
          exact ih (fun s hs => h s (mem_cons_of_mem _ hs)) (pre ++ s ++ [0]) rounds _ hrest

end Walk

/-! ## The length of a structure -/

theorem scanEnd_string (hs : 0 ∉ s) (b : UInt8) (rest : Bytes) :
    scanEnd (s ++ 0 :: b :: rest) = s.length + if b = 0 then 0 else scanEnd (b :: rest) + 1 := by
  induction s with
  | nil => by_cases hb : b = 0 <;> simp [scanEnd, hb]
  | cons a s ih =>
    have ha : a ≠ 0 := fun ha => hs (ha ▸ mem_cons_self)
    have ih := ih fun h => hs (mem_cons_of_mem a h)
    cases s with
    | nil =>
      simp only [cons_append, nil_append, scanEnd, length_singleton] at ih ⊢
      simp [ha]
      omega
    | cons c s =>
      rw [cons_append] at ih ⊢
      rw [cons_append, scanEnd, ih]
      simp [ha]
      omega

theorem scanEnd_encode (hs : IsString s) (h : ∀ s ∈ strings, IsString s) (post : Bytes) :
    scanEnd (encode (s :: strings) ++ 0 :: post) + 1 = (encode (s :: strings)).length := by
  induction strings generalizing s with
  | nil =>
    rw [encode_cons, length_encode_cons]
    change scanEnd (s ++ 0 :: 0 :: post) + 1 = s.length + 1 + 0
    rw [scanEnd_string hs.no_zero, if_pos rfl]
  | cons r strings ih =>
    have hr := h r mem_cons_self
    obtain ⟨b, rest, heq, hb⟩ := head_encode h post
    have ih := ih hr fun s hs => h s (mem_cons_of_mem r hs)
    rw [encode_cons, length_encode_cons, heq, scanEnd_string hs.no_zero,
      if_neg (mt hb.mp (cons_ne_nil _ _)), ← heq]
    omega

theorem hdrLength_append (t : Table) (rest : Bytes) :
    hdrLength (t.formatted ++ rest) = t.formatted.length := by
  have hlt := t.four_le
  rw [← t.length_eq, hdrLength, hdrLength, getD_eq_getElem?_getD, getD_eq_getElem?_getD,
    getElem?_append_left (by omega)]

theorem smbiosTableLength_image {t : Table} {junk : Bytes} (h : t.image.length < 2 ^ 16) :
    smbiosTableLength (t.image ++ junk) = t.image.length := by
  have hscan : scanEnd (body t.strings ++ junk) + 2 = (body t.strings).length := by
    cases hstrings : t.strings with
    | nil => rfl
    | cons s strings =>
      have hall : ∀ r ∈ s :: strings, IsString r := hstrings ▸ t.isString
      have hlength := scanEnd_encode (hall s mem_cons_self)
        (fun r hr => hall r (mem_cons_of_mem s hr)) junk
      rw [body, append_assoc, length_append, length_singleton]
      change scanEnd (encode (s :: strings) ++ 0 :: junk) + 2 = _
      omega
  have himage : t.image.length = t.formatted.length + (body t.strings).length :=
    length_append ..
  rw [smbiosTableLength, Table.image, append_assoc, hdrLength_append, drop_left,
    Nat.add_assoc, hscan, mod_eq_of_lt (by omega), length_append]

/-! ## Walking along structures -/

/-- The walk of `GetSmbiosTableFromType` from address `p` on, with the addresses it visits. -/
def walkTables (mem : Bytes) (smbiosType : UInt8) (indexTable : Nat) :
    Nat → Nat → Nat → Option (Option Nat × List Nat)
  | 0, _, _ => none
  | fuel + 1, smbiosTypeIndex, p =>
    if smbiosTypeIndex = indexTable ∧ mem.getD p 0 = smbiosType then some (some p, [p])
    else if mem.getD p 0 = 127 then some (none, [p])
    else
      (walkTables mem smbiosType indexTable fuel
        (if mem.getD p 0 = smbiosType then smbiosTypeIndex + 1 else smbiosTypeIndex)
        (p + smbiosTableLength (mem.drop p))).map fun r => (r.1, p :: r.2)

/-- The address of the structure or `none` for `NULL`, in the memory from `TableAddress` on. -/
def getSmbiosTableFromType (fuel : Nat) (tableAddress : Option Bytes) (smbiosType : UInt8)
    (indexTable : Nat) : Option (Option Nat × List Nat) :=
  match tableAddress with
  | none => some (none, [])
  | some mem => walkTables mem smbiosType indexTable fuel 0 0

def Table.type (t : Table) : UInt8 := t.formatted.getD 0 0

/-- Structures of less than 64 KiB, the last of which is the end of the table. -/
def EndsTable : List Table → Prop
  | [] => False
  | t :: ts => t.image.length < 2 ^ 16 ∧ if t.type = 127 then ts = [] else EndsTable ts

/-- The structures with their addresses, from `p` on. -/
def addresses : Nat → List Table → List (Nat × Table)
  | _, [] => []
  | p, t :: ts => (p, t) :: addresses (p + t.image.length) ts

/-- The address of structure `k` of a type, from `p` on. -/
def kthAddress (p : Nat) (ts : List Table) (type : UInt8) (k : Nat) : Option Nat :=
  ((addresses p ts).filter (·.2.type = type))[k]?.map Prod.fst

/-- The walk comes to the table that is looked for. -/
theorem walkTables_eq {mem junk : Bytes} {ts : List Table} {type : UInt8}
    {fuel k i p : Nat} (hts : EndsTable ts) (hmem : mem.drop p = ts.flatMap Table.image ++ junk)
    (hfuel : ts.length ≤ fuel) (hi : i ≤ k) :
    ∃ visited, walkTables mem type k fuel i p = some (kthAddress p ts type (k - i), visited) ∧
      visited ⊆ (addresses p ts).map Prod.fst := by
  induction ts generalizing fuel i p with
  | nil => exact hts.elim
  | cons t ts ih =>
    obtain ⟨fuel, rfl⟩ : ∃ n, fuel = n + 1 := ⟨fuel - 1, by rw [length_cons] at hfuel; omega⟩
    rw [flatMap_cons, append_assoc] at hmem
    have htype : mem.getD p 0 = t.type := by
      have hlt := t.four_le
      have hfirst : (mem.drop p).getD 0 0 = t.type := by
        rw [hmem, Table.image, Table.type, append_assoc, getD_append _ _ _ _ (by omega)]
      simpa using hfirst
    have hnext : mem.drop (p + t.image.length) = ts.flatMap Table.image ++ junk := by
      rw [← drop_drop, hmem, drop_left]
    simp only [walkTables, htype, hmem, smbiosTableLength_image hts.1, kthAddress, addresses,
      filter_cons, map_cons]
    by_cases hfound : i = k ∧ t.type = type
    · exact ⟨[p], by simp [hfound], by simp⟩
    have hlt : t.type = type → i < k := fun h => lt_of_le_of_ne hi fun hik => hfound ⟨hik, h⟩
    by_cases hend : t.type = 127
    · obtain rfl : ts = [] := by simpa [hend] using hts.2
      refine ⟨[p], ?_, by simp⟩
      rw [if_neg hfound, if_pos hend]
      by_cases htype : t.type = type
      · have hnone : [(p, t)][k - i]? = none := getElem?_eq_none (Nat.sub_pos_of_lt (hlt htype))
        simp [addresses, htype, hnone]
      · simp [addresses, htype]
    · have hrest : EndsTable ts := by simpa [hend] using hts.2
      obtain ⟨visited, hrun, hsub⟩ := ih (i := if t.type = type then i + 1 else i) hrest hnext
        (by simpa using hfuel) (by split <;> [exact hlt ‹_›; exact hi])
      refine ⟨p :: visited, ?_, by simpa using cons_subset_cons p hsub⟩
      rw [if_neg hfound, if_neg hend, hrun]
      by_cases htype : t.type = type
      · have hk : k - i = k - (i + 1) + 1 := by have := hlt htype; omega
        simp [htype, hk, kthAddress]
      · simp [htype, kthAddress]

/-- The walk returns structure `k` of the type, or `NULL` if there are fewer, and visits nothing but
starts of structures. -/
theorem getSmbiosTableFromType_kth {ts : List Table} (hts : EndsTable ts) (junk : Bytes)
    (type : UInt8) (k : Nat) {fuel : Nat} (hfuel : ts.length ≤ fuel) :
    ∃ visited, getSmbiosTableFromType fuel (some (ts.flatMap Table.image ++ junk)) type k =
        some (kthAddress 0 ts type k, visited) ∧
      visited ⊆ (addresses 0 ts).map Prod.fst :=
  walkTables_eq hts rfl hfuel k.zero_le

theorem isString_singleton {s : Bytes} (hs : s ≠ []) (hzero : 0 ∉ s) : ∀ s' ∈ [s], IsString s' :=
  forall_mem_singleton.mpr ⟨hs, hzero⟩

theorem isString_nil : ∀ s ∈ ([] : List Bytes), IsString s := forall_mem_nil _

/-- Two structures of type 4, with two strings and with one, and between them one of another type
without strings. -/
def sampleTables : List Table :=
  [⟨[4, 4, 0, 0], [[65, 66], [67]], rfl, Nat.le_refl 4,
      forall_mem_cons.mpr ⟨⟨by decide, by decide⟩, isString_singleton (by decide) (by decide)⟩⟩,
    ⟨[17, 5, 0, 0, 9], [], rfl, Nat.le_succ 4, isString_nil⟩,
    ⟨[4, 4, 1, 0], [[68]], rfl, Nat.le_refl 4, isString_singleton (by decide) (by decide)⟩,
    ⟨[127, 4, 0, 0], [], rfl, Nat.le_refl 4, isString_nil⟩]

/-- The second structure of type 4 starts at byte 17: the walk has passed the strings of the first
one and the two zeros that stand for no strings. -/
theorem getSmbiosTableFromType_kth_second :
    ∃ visited, getSmbiosTableFromType 4 (some (sampleTables.flatMap Table.image ++ [255])) 4 1 =
        some (some 17, visited) ∧ visited ⊆ [0, 10, 17, 24] :=
  @getSmbiosTableFromType_kth sampleTables
    ⟨by decide, by decide, by decide, by decide, rfl⟩ [255] 4 1 4 (Nat.le_refl 4)

/-! ## Replacing a string -/

theorem write_end {mem pre post bytes : Bytes} (hpre : mem.take pre.length = pre)
    (hpost : mem.drop (pre.length + bytes.length) = 0 :: post) :
    (writeBytes mem pre.length bytes).set (pre.length + bytes.length) 0 =
      pre ++ (bytes ++ 0 :: post) := by
  have hlength : (pre ++ bytes).length = pre.length + bytes.length := length_append ..
  rw [writeBytes, hpre, hpost, ← hlength, set_append_right _ _ (Nat.le_refl _), Nat.sub_self,
    set_cons_zero, append_assoc]

section Replace

variable (pre s junk : Bytes) {tail bytes : Bytes}

/-- The strings behind make room for a longer one. -/
theorem shift_right (tail : Bytes) {d : Nat} (hd : d < junk.length)
    (hlength : bytes.length = s.length + d) : let length := pre.length + s.length + 1 + tail.length
    let mem := copyCells ((pre ++ (s ++ 0 :: tail) ++ junk).set (length + d) 0) (pre.length + d)
      pre.length (length - pre.length)
    mem.take pre.length = pre ∧ ∃ junk', mem.drop (pre.length + bytes.length) =
      0 :: (tail ++ 0 :: junk') := by
  intro length mem
  have hend : (pre ++ (s ++ 0 :: tail)).length = length := by
    simp only [length_append, length_cons, length]
    omega
  have hset : (pre ++ (s ++ 0 :: tail) ++ junk).set (length + d) 0 =
      pre ++ (s ++ 0 :: tail) ++ junk.set d 0 := by
    rw [set_append_right _ _ (by omega), hend, Nat.add_sub_cancel_left]
  have hblock : ((pre ++ (s ++ 0 :: tail) ++ junk.set d 0).drop pre.length).take
      (length - pre.length) = s ++ 0 :: tail := by
    rw [append_assoc, drop_left]
    apply take_left'
    simp only [length_append, length_cons, length]
    omega
  have hcells : (pre ++ (s ++ 0 :: tail) ++ junk.set d 0).length = length + junk.length := by
    rw [length_append, hend, length_set]
  have hjunk : (pre ++ (s ++ 0 :: tail) ++ junk.set d 0).drop (length + d) =
      0 :: junk.drop (d + 1) := by
    rw [← drop_drop, drop_left' hend, drop_eq_getElem_cons (by rwa [length_set]),
      getElem_set_self, drop_set_of_lt (lt_succ_self d)]
  simp only [mem, hset]
  refine ⟨?_, junk.drop (d + 1), ?_⟩
  · rw [take_copyCells (le_add_right _ _) (by omega), append_assoc, take_left]
  · rw [hlength, show pre.length + (s.length + d) = pre.length + d + s.length by omega,
      drop_copyCells (by omega) (by omega) (by omega), hblock, drop_left,
      show pre.length + d + (length - pre.length) = length + d by omega, hjunk]
    rfl

/-- The shift to the left. The last of the zeros that it writes falls on the end of the structure,
which is a zero already. -/
theorem shift_left {t : Bytes} (hlast : 0 :: tail = t ++ [0])
    (hlength : bytes.length < s.length) :
    let length := pre.length + s.length + 1 + tail.length
    let newEnd := length - (s.length - bytes.length)
    let mem := ((copyCells (pre ++ (s ++ 0 :: tail) ++ junk) (pre.length + bytes.length)
      (pre.length + s.length) (length - (pre.length + s.length))).set newEnd 0).set (newEnd - 1) 0
    mem.take pre.length = pre ∧ ∃ junk', mem.drop (pre.length + bytes.length) =
      0 :: (tail ++ junk') := by
  intro length newEnd mem
  have hlen : (pre ++ (s ++ 0 :: tail) ++ junk).length = length + junk.length := by
    simp only [length_append, length_cons, length]
    omega
  have hblock : ((pre ++ (s ++ 0 :: tail) ++ junk).drop (pre.length + s.length)).take
      (length - (pre.length + s.length)) = t ++ [0] := by
    rw [show pre ++ (s ++ 0 :: tail) ++ junk = (pre ++ s) ++ ((t ++ [0]) ++ junk) by
      simp only [hlast, append_assoc], drop_left' (length_append ..)]
    apply take_left'
    rw [← hlast, length_cons]
    omega
  have ht : t.length = tail.length := by
    have := congrArg List.length hlast
    rw [length_cons, length_append, length_singleton] at this
    omega
  simp only [mem]
  generalize hcells : pre ++ (s ++ 0 :: tail) ++ junk = cells at hlen hblock
  have hdrop : (copyCells cells (pre.length + bytes.length) (pre.length + s.length)
      (length - (pre.length + s.length))).drop (pre.length + bytes.length) =
        (t ++ [0]) ++ cells.drop newEnd := by
    have h := drop_copyCells (a := 0) (zero_le (length - (pre.length + s.length)))
      (show pre.length + bytes.length ≤ cells.length by omega)
      (show pre.length + s.length + _ ≤ cells.length by omega)
    rw [hblock] at h
    rwa [show newEnd = pre.length + bytes.length + (length - (pre.length + s.length)) by omega]
  refine ⟨?_, (cells.drop newEnd).set 0 0, ?_⟩
  · rw [take_set_of_le (by omega), take_set_of_le (by omega),
      take_copyCells (le_add_right _ _) (by omega), ← hcells, append_assoc, take_left]
  · have hnext : newEnd - (pre.length + bytes.length) = (t ++ [0]).length := by
      rw [length_append, length_singleton]
      omega
    rw [drop_set, if_neg (by omega), drop_set, if_neg (by omega), hdrop, hnext,
      show newEnd - 1 - (pre.length + bytes.length) = t.length by omega,
      set_append_right _ _ (Nat.le_refl _), Nat.sub_self, append_assoc,
      set_append_right _ _ (Nat.le_refl _), Nat.sub_self, ← cons_append, hlast,
      append_assoc]
    rfl

/-- The whole replacement: only the bytes of the string change, and what stands behind them moves.
If the structure has grown, it is followed by a zero. -/
theorem replaceAt_spec (tail t : Bytes) {buffer : Bytes} (hs : 0 ∉ s) (hlast : 0 :: tail = t ++ [0])
    (hbytes : bytes = buffer.take (iStrLen buffer maxOemString))
    (hle : iStrLen buffer maxOemString ≤ buffer.length) (hroom : bytes.length < junk.length) :
    ∃ junk', replaceAt (pre ++ (s ++ 0 :: tail) ++ junk) (pre.length + s.length + 1 + tail.length)
        pre.length buffer = pre ++ (bytes ++ 0 :: (tail ++ junk')) ∧
      (s.length < bytes.length → ∃ rest, junk' = 0 :: rest) := by
  have hlength : iStrLen buffer maxOemString = bytes.length := by
    rw [hbytes, length_take]
    omega
  have hcstr : cStr (pre ++ (s ++ 0 :: tail) ++ junk) pre.length = s := by
    rw [append_assoc, append_assoc]
    exact cStr_append hs _ _
  rw [replaceAt, hcstr, ← hbytes, hlength]
  split
  · next hlt =>
    obtain ⟨hpre, junk', hpost⟩ := shift_right pre s junk tail
      (show bytes.length - s.length < junk.length by omega)
      (show bytes.length = s.length + (bytes.length - s.length) by omega)
    exact ⟨0 :: junk', write_end hpre hpost, fun _ => ⟨junk', rfl⟩⟩
  next hlt =>
  split
  · next hlt' =>
    obtain ⟨hpre, junk', hpost⟩ := shift_left pre s junk hlast hlt'
    exact ⟨junk', write_end hpre hpost, fun h => absurd h hlt⟩
  · next hlt' =>
    refine ⟨junk, write_end ?_ ?_, fun h => absurd h hlt⟩
    · rw [append_assoc, take_left]
    · rw [show bytes.length = s.length by omega, ← drop_drop, append_assoc,
        drop_left, append_assoc, drop_left]
      rfl

end Replace

/-! ## Texts -/

/-- What a text becomes in a structure: at most `MAX_OEM_STRING` characters, with no spaces at
their end. -/
def stored (text : Bytes) : Bytes := (text.take maxOemString).rdropWhile (· == 0x20)

/-- A text that is more than spaces, as far as it is stored. -/
structure IsText (text : Bytes) : Prop where
  no_zero : 0 ∉ text
  nonspace : ∃ c ∈ text.take maxOemString, c ≠ 0x20

theorem trimLen_le (string : Bytes) (len : Nat) : trimLen string len ≤ len := by
  induction len with
  | zero => exact le_refl 0
  | succ len ih =>
    rw [trimLen]
    split
    · exact le_succ_of_le ih
    · exact le_refl _

theorem take_trimLen (h : 0 ∉ text) {len : Nat} (hlen : len ≤ text.length) :
    text.take (trimLen text len) = (text.take len).rdropWhile (· == 0x20) := by
  induction len with
  | zero => rfl
  | succ len ih =>
    have hzero : text.getD len 0 ≠ 0 := by
      rw [getD_eq_getElem _ _ hlen]
      exact fun h0 => h (h0 ▸ getElem_mem hlen)
    rw [trimLen, take_succ_eq_append_getElem hlen, rdropWhile_concat,
      ← getD_eq_getElem text 0 hlen]
    split
    · next hc =>
      rw [if_pos (beq_iff_eq.mpr (hc.resolve_right hzero)), ih (le_of_succ_le hlen)]
    · next hc =>
      rw [if_neg fun hs => hc (.inl (beq_iff_eq.mp hs)), take_succ_eq_append_getElem hlen,
        getD_eq_getElem]

theorem takeWhile_eq_self (h : 0 ∉ text) : text.takeWhile (· != 0) = text := by
  rw [takeWhile_eq_self_iff]
  intro c hc
  rw [bne_iff_ne]
  exact fun h0 => h (h0 ▸ hc)

theorem iStrLen_le (text : Bytes) : iStrLen text maxOemString ≤ text.length := by
  have := trimLen_le text (min (text.takeWhile (· != 0)).length maxOemString)
  have := (List.takeWhile_prefix (· != 0) (l := text)).length_le
  rw [iStrLen, if_pos (by decide)]
  omega

theorem take_iStrLen (h : 0 ∉ text) : text.take (iStrLen text maxOemString) = stored text := by
  rw [iStrLen, if_pos (by decide), takeWhile_eq_self h, take_trimLen h (min_le_left ..), stored]
  congr 1
  rw [take_eq_take_iff]
  omega

theorem IsText.isString (h : IsText text) : IsString (stored text) where
  ne_nil hnil := by
    obtain ⟨c, hc, hne⟩ := h.nonspace
    rw [stored, rdropWhile_eq_nil_iff] at hnil
    exact hne (beq_iff_eq.mp (hnil c hc))
  no_zero hmem := h.no_zero (mem_of_mem_take ((List.rdropWhile_prefix _ _).subset hmem))

theorem IsText.ne_nil (h : IsText text) : text ≠ [] := by
  rintro rfl
  obtain ⟨c, hc, -⟩ := h.nonspace
  cases hc

end Clover.Smbios
