import Clover.Dsdt.Outers
import Clover.Kext.Text
import Clover.Patch.Search

/-!
# Renaming devices

`RenameDevices` (`Platform/FixBiosDsdt.cpp`) replaces the last name of a configured path wherever
it stands in a table behind, or inside a package with, the name before it in the path.

The functions here take the bytes of the table through a reader. `whole` reads the memory of the
machine, and `inTable` only the table: a read outside it, which the machine does not notice, ends
the run. `renameDevices` is the function with the second reader.

The cursor goes on by five bytes behind a name, but by ten where an outer package was found. At the
end of the table the next search then starts behind it. And the four bytes before a name are looked
at where the name is the first thing in the table. `renameDevices_inside_iff` says that nothing
else leads out of the table.
-/

namespace Clover.Dsdt

open Clover.Lib Clover.Aml Clover.Patch Clover.Kext List

variable {bin bridge : Bytes} {i : Nat} {s : Mem × Nat}

/-! ## The configuration -/

/-- Cut or pad a name to four characters. -/
def fitName (name : Bytes) : Bytes := (name ++ replicate 4 0x5F).take 4

/-- The components of a path from the last one on. -/
def getSplittedName (name : Bytes) : List Bytes :=
  (((name.splitOn 0x2E).filter (· ≠ [])).map fitName).reverse

/-- A configured rename. -/
structure DeviceRename where
  acpiName : Bytes
  renameTo : Bytes

def DeviceRename.getRenameTo (r : DeviceRename) : Bytes := fitName r.renameTo

/-- The variable `LastComponentFind`, as the four bytes that `FindBin` looks at. -/
def DeviceRename.find (r : DeviceRename) : Bytes :=
  (((getSplittedName r.acpiName).headD []) ++ replicate 4 0).take 4

/-- The variable `BridgeList`. -/
def DeviceRename.bridgeList (r : DeviceRename) : List Bytes :=
  (getSplittedName r.acpiName).tail

/-! ## Reading the table -/

/-- The memory of the machine. -/
def whole (m : Mem) (a : Int) : Run UInt8 := .ok (m a.toNat)

/-- The table alone. -/
def inTable (len : Nat) (m : Mem) (a : Int) : Run UInt8 :=
  if 0 ≤ a ∧ a < len then .ok (m a.toNat) else .error (.panic "outside the table")

section Readers

variable (read : Int → Run UInt8)

def readBytes (a : Int) : Nat → Run Bytes
  | 0 => .ok []
  | n + 1 => do
    let b ← read a
    let bytes ← readBytes (a + 1) n
    .ok (b :: bytes)

/-- The inner loop of `FindBin`. -/
def compareBytes (a : Int) : Bytes → Run Bool
  | [] => .ok true
  | b :: bytes => do
    let x ← read a
    if x = b then compareBytes (a + 1) bytes else .ok false

/-- The outer loop of `FindBin`, with the number of places that are left. -/
def findFrom (dsdt : Int) (bin : Bytes) : Nat → Nat → Run Int
  | 0, _ => .ok (-1)
  | n + 1, i => do
    let eq ← compareBytes read (dsdt + i) bin
    if eq then .ok (signed 32 i) else findFrom dsdt bin n (i + 1)

/-- The function `FindBin`. -/
def findBytes (dsdt : Int) (len : Nat) (bin : Bytes) : Run Int :=
  findFrom read dsdt bin (if bin.length ≤ len then len - bin.length else 0) 0

/-- The bytes behind the first one that `get_size` looks at. -/
def moreSizeBytes (b : UInt8) : Nat :=
  if b &&& 0xF0 = 0x40 then 1 else if b &&& 0xF0 = 0x80 then 2 else if b &&& 0xF0 = 0xC0 then 3
  else 0

/-- The function `get_size`. -/
def readSize (adr : Int) : Run Nat := do
  let b ← read adr
  let more ← readBytes read (adr + 1) (moreSizeBytes b)
  .ok (Aml.getSize (b :: more) 0).toNat

/-- The function `CmpNum` with `Sure`. -/
def readsNum (i : Int) : Run Bool := do
  if (← read (i - 1)) = 0x0A then .ok true
  else if (← read (i - 2)) = 0x0B then .ok true
  else .ok ((← read (i - 4)) = 0x0C)

def isACPIChar (c : UInt8) : Bool :=
  (0x41 ≤ c && c ≤ 0x5A) || (0x30 ≤ c && c ≤ 0x39) || c = 0x5F

/-- The loop of `CmpFullName` that counts the characters of a name, with the bytes that are left
of the table. -/
def nameLength (a : Int) : Nat → Run Nat
  | 0 => .ok 0
  | room + 1 => do
    if isACPIChar (← read a) then .ok ((← nameLength (a + 1) room) + 1) else .ok 0

/-- The second loop of `CmpFullName`: the components of the name, from the last one on, are compared
with those of the path. It ends with the shorter of the two. -/
def componentsAgree (name : Bytes) : List Bytes → Nat → Bool
  | [], _ => true
  | _ :: _, 0 => true
  | bridge :: bridges, n + 1 =>
    (asciiStrStr (name.drop (4 * n)) bridge).isSome && componentsAgree name bridges n

/-- The function `CmpFullName`. The copy of the name is taken with one byte more. -/
def cmpFullName (a : Int) (len : Nat) (bridge : List Bytes) : Run Bool := do
  let n := (← nameLength read a len) / 4
  if n = 0 then .ok false
  else do
    let copy ← readBytes read a (4 * n + 1)
    .ok (componentsAgree (copy.take (4 * n)) bridge n)

/-- Where `RenameDevices` takes `i` for the header of a package, the address of its length. -/
def headerAt (i : Nat) : Run (Option Nat) := do
  let device ←
    if (← read i) = 0x5B then
      if (← read (i + 1)) = 0x82 then .ok (!(← readsNum read i)) else .ok false
    else .ok false
  let scope ← if (← read i) = 0x10 then .ok (!(← readsNum read i)) else .ok false
  .ok (if scope then some (i + 1) else if device then some (i + 2) else none)

/-- The place of the name behind a length. -/
def behindSize (k : Nat) (b : UInt8) : Nat :=
  if b < 0x40 then k + 1
  else if b &&& 0x40 ≠ 0 then k + 2
  else if b &&& 0x80 ≠ 0 then k + 3
  else k

/-- The package at `i`, if there is one, reaches over the name at `adr` and has a name of the
path. -/
def bridgeAt (len adr : Nat) (bridges : List Bytes) (i : Nat) : Run Bool := do
  match ← headerAt read i with
  | none => .ok false
  | some k => do
    let size ← readSize read k
    if size ≠ 0 ∧ adr + 4 < k + size then do
      let name := behindSize k (← read k)
      cmpFullName read name (len - name) bridges
    else .ok false

/-- The loop that looks for the outer package. -/
def bridgeFrom (len adr : Nat) (bridges : List Bytes) : Nat → Run Bool
  | 0 => .ok false
  | i + 1 =>
    if 0x20 < i + 1 then do
      if ← bridgeAt read len adr bridges (i + 1) then .ok true else bridgeFrom len adr bridges i
    else .ok false

/-- The loop that skips the name. -/
def skipName : Nat → Run Nat
  | 0 => .ok 0
  | i + 1 => do if isACPIChar (← read (i + 1 : Nat)) then skipName i else .ok (i + 1)

/-- The search for the outer package of the name at `adr`. -/
def outerBridge (len adr : Nat) (bridges : List Bytes) : Run Bool := do
  let i ← skipName read adr
  bridgeFrom read len adr bridges (i - 6)

end Readers

/-! ## The function -/

/-- The function `CopyMem` into the table. -/
def copyInTable (len : Nat) (m : Mem) (adr : Nat) (bytes : Bytes) : Run Mem :=
  if adr + bytes.length ≤ len then .ok (copyMem m adr bytes)
  else .error (.panic "outside the table")

/-- One pass of the search for the next name, from the cursor `adr` on. -/
def renamePass (len : Nat) (r : DeviceRename) : Mem × Nat → Run (Pass (Mem × Nat) Mem)
  | (table, adr) => do
    let shift ← findBytes (inTable len table) adr (uint32 ((len : Int) - adr)) r.find
    if shift < 0 then .ok (.leave table)
    else
      let adr := adr + shift.toNat
      match r.bridgeList with
      | [] => do
        let table ← copyInTable len table adr r.getRenameTo
        .ok (.again (table, adr + 5))
      | bridge :: _ => do
        let attached ← findBytes (inTable len table) ((adr : Int) - 4) 5 bridge
        if attached = 0 then do
          let table ← copyInTable len table adr r.getRenameTo
          .ok (.again (table, adr + 5))
        else if ← outerBridge (inTable len table) len adr r.bridgeList then do
          let table ← copyInTable len table adr r.getRenameTo
          .ok (.again (table, adr + 5 + 5))
        else .ok (.again (table, adr + 5))

/-- The field `Length` of the header. -/
def tableLength (table : Mem) : Nat :=
  (table 4).toNat + 2 ^ 8 * (table 5).toNat + 2 ^ 16 * (table 6).toNat + 2 ^ 24 * (table 7).toNat

/-- All renames, one after the other. -/
def renameDevices (fuel : Nat) (renames : List DeviceRename) (table : Mem) : Run Mem :=
  renames.foldlM
    (fun m r => Run.loop (renamePass (tableLength table) r) fuel (m, 0)) table

/-! ## Reads inside the table -/

section Inside

variable {len : Nat} {m : Mem} {a : Int}

theorem inTable_eq (h0 : 0 ≤ a) (h : a < len) : inTable len m a = whole m a := if_pos ⟨h0, h⟩

theorem whole_bind {β : Type} (f : UInt8 → Run β) : (whole m a >>= f) = f (m a.toNat) := rfl

theorem readBytes_inTable {n : Nat} (h0 : 0 ≤ a) (h : a + n ≤ len) :
    readBytes (inTable len m) a n = readBytes (whole m) a n := by
  induction n generalizing a with
  | zero => rfl
  | succ n ih =>
    rw [readBytes, readBytes, inTable_eq h0 (by omega), ih (by omega) (by omega)]

theorem compareBytes_eq {bytes : Bytes} (h0 : 0 ≤ a) (h : a + bytes.length ≤ len) :
    compareBytes (inTable len m) a bytes = .ok (compareMem m a.toNat bytes) := by
  induction bytes generalizing a with
  | nil => rfl
  | cons b bytes ih =>
    rw [length_cons] at h
    rw [compareBytes, inTable_eq h0 (by omega), whole_bind, compareMem]
    have hnext : (a + 1).toNat = a.toNat + 1 := by omega
    split
    · next heq => rw [ih (by omega) (by omega), hnext, decide_eq_true heq, Bool.true_and]
    · next hne => rw [decide_eq_false hne, Bool.false_and]

theorem findFrom_eq (h0 : 0 ≤ a) (n i : Nat) (h : n = 0 ∨ a + i + n + bin.length ≤ len + 1) :
    findFrom (inTable len m) a bin n i =
      .ok (outcome (signed 32) (-1) (firstHit (fun i => compareMem m (a.toNat + i) bin) n i)) := by
  induction n generalizing i with
  | zero => rfl
  | succ n ih =>
    have hplace : (a + i).toNat = a.toNat + i := by omega
    rw [findFrom, compareBytes_eq (by omega) (by omega), Run.ok_bind, firstHit, hplace]
    split
    · rfl
    · exact ih (i + 1) (by omega)

theorem findBytes_eq {n : Nat} (hbin : bin ≠ []) (h0 : 0 ≤ a) (h : a + n ≤ len) :
    findBytes (inTable len m) a n bin = .ok (findBin m a.toNat n bin) := by
  have hpos : 0 < bin.length := length_pos_iff.mpr hbin
  refine findFrom_eq h0 _ 0 ?_
  split <;> omega

theorem moreSizeBytes_le (b : UInt8) : moreSizeBytes b ≤ 3 := by
  unfold moreSizeBytes
  split_ifs <;> decide

theorem readSize_inTable (h0 : 0 ≤ a) (h : a + 4 ≤ len) :
    readSize (inTable len m) a = readSize (whole m) a := by
  have hmore := moreSizeBytes_le (m a.toNat)
  rw [readSize, readSize, inTable_eq h0 (by omega), whole_bind, whole_bind,
    readBytes_inTable (by omega) (by omega)]

theorem readsNum_inTable (h0 : 4 ≤ a) (h : a ≤ len) :
    readsNum (inTable len m) a = readsNum (whole m) a := by
  unfold readsNum
  rw [inTable_eq (by omega) (by omega), inTable_eq (by omega) (by omega),
    inTable_eq (by omega) (by omega)]

theorem nameLength_inTable {room : Nat} (h0 : 0 ≤ a) (h : a + room ≤ len) :
    nameLength (inTable len m) a room = nameLength (whole m) a room := by
  induction room generalizing a with
  | zero => rfl
  | succ room ih =>
    rw [nameLength, nameLength, inTable_eq h0 (by omega), ih (by omega) (by omega)]

theorem nameLength_whole {room x : Nat} (h0 : 0 ≤ a) (hle : a ≤ x)
    (hx : isACPIChar (m x) = false) :
    ∃ n : Nat, nameLength (whole m) a room = .ok n ∧ a + n ≤ x := by
  induction room generalizing a with
  | zero => exact ⟨0, rfl, by omega⟩
  | succ room ih =>
    rw [nameLength, whole_bind]
    by_cases hchar : isACPIChar (m a.toNat) = true
    · have hne : a ≠ x := by
        rintro rfl
        rw [Int.toNat_natCast, hx] at hchar
        cases hchar
      obtain ⟨n, hn, hlen⟩ := @ih (a + 1) (by omega) (by omega)
      refine ⟨n + 1, ?_, by omega⟩
      rw [if_pos hchar, hn]
      rfl
    · exact ⟨0, if_neg hchar, by omega⟩

theorem cmpFullName_inTable {x : Nat} {bridge : List Bytes} (h0 : 0 ≤ a) (hle : a ≤ x)
    (hlt : x < len) (hx : isACPIChar (m x) = false) :
    cmpFullName (inTable len m) a (len - a.toNat) bridge =
      cmpFullName (whole m) a (len - a.toNat) bridge := by
  obtain ⟨n, hn, hbound⟩ := @nameLength_whole m a (len - a.toNat) x h0 hle hx
  rw [cmpFullName, cmpFullName, nameLength_inTable h0 (by omega), hn, Run.ok_bind, Run.ok_bind]
  dsimp only
  split
  · rfl
  · rw [readBytes_inTable h0 (by omega)]

theorem headerAt_inTable (h0 : 4 ≤ i) (h : i + 1 < len) :
    headerAt (inTable len m) i = headerAt (whole m) i := by
  unfold headerAt
  rw [inTable_eq (by omega) (by omega), inTable_eq (by omega) (by omega),
    readsNum_inTable (by omega) (by omega)]

theorem readsNum_whole (i : Nat) : readsNum (whole m) i = .ok (cmpNum m i true) := by
  have h1 : ((i : Int) - 1).toNat = i - 1 := by omega
  have h2 : ((i : Int) - 2).toNat = i - 2 := by omega
  have h4 : ((i : Int) - 4).toNat = i - 4 := by omega
  unfold readsNum cmpNum
  simp only [whole_bind, h1, h2, h4, if_true]
  by_cases hbyte : m (i - 1) = 0x0A
  · simp [hbyte]
  by_cases hword : m (i - 2) = 0x0B
  · simp [hbyte, hword]
  · simp [hbyte, hword]

theorem headerAt_whole (i : Nat) : headerAt (whole m) i =
    .ok (if m i = 0x10 ∧ cmpNum m i true = false then some (i + 1)
      else if m i = 0x5B ∧ m (i + 1) = 0x82 ∧ cmpNum m i true = false then some (i + 2)
      else none) := by
  have hnext : ((i : Int) + 1).toNat = i + 1 := by omega
  unfold headerAt
  simp only [whole_bind, readsNum_whole, Run.ok_bind, Int.toNat_natCast, hnext]
  by_cases hscope : m i = 0x10
  · cases hnum : cmpNum m i true <;> simp [hscope]
  · by_cases hdevice : m i = 0x5B
    · by_cases hsecond : m (i + 1) = 0x82
      · cases hnum : cmpNum m i true <;> simp [hdevice, hsecond]
      · simp [hdevice, hsecond]
    · simp [hscope, hdevice]

theorem headerAt_le {k : Nat} (h : headerAt (whole m) i = .ok (some k)) : k ≤ i + 2 := by
  rw [headerAt_whole] at h
  split_ifs at h <;> cases h <;> omega

theorem behindSize_le (k : Nat) (b : UInt8) : behindSize k b ≤ k + 3 := by
  unfold behindSize
  split_ifs <;> omega

section Outer

variable {adr x : Nat} {bridges : List Bytes}

theorem bridgeAt_inTable (hi : 0x20 < i) (hle : i + 6 ≤ x) (hlt : x < len)
    (hx : isACPIChar (m x) = false) :
    bridgeAt (inTable len m) len adr bridges i = bridgeAt (whole m) len adr bridges i := by
  rw [bridgeAt, bridgeAt, headerAt_inTable (by omega) (by omega)]
  rcases ho : headerAt (whole m) i with e | o
  · rfl
  rw [Run.ok_bind, Run.ok_bind]
  cases o with
  | none => rfl
  | some k =>
    have hk := headerAt_le ho
    have hname := behindSize_le k (m k)
    have hcmp := @cmpFullName_inTable len m (behindSize k (m k)) x bridges (by omega)
        (by omega) hlt hx
    rw [Int.toNat_natCast] at hcmp
    dsimp only
    rw [readSize_inTable (by omega) (by omega), inTable_eq (by omega) (by omega), whole_bind,
      Int.toNat_natCast, hcmp]
    rfl

theorem bridgeFrom_inTable (hle : i + 6 ≤ x) (hlt : x < len) (hx : isACPIChar (m x) = false) :
    bridgeFrom (inTable len m) len adr bridges i = bridgeFrom (whole m) len adr bridges i := by
  induction i with
  | zero => rfl
  | succ i ih =>
    rw [bridgeFrom, bridgeFrom]
    split
    · next hi => rw [bridgeAt_inTable hi hle hlt hx, ih (by omega)]
    · rfl

theorem skipName_inTable (h : i < len) : skipName (inTable len m) i = skipName (whole m) i := by
  induction i with
  | zero => rfl
  | succ i ih => rw [skipName, skipName, inTable_eq (by omega) (by omega), ih (by omega)]

theorem skipName_whole (i : Nat) :
    ∃ j, skipName (whole m) i = .ok j ∧ j ≤ i ∧ (j = 0 ∨ isACPIChar (m j) = false) := by
  induction i with
  | zero => exact ⟨0, rfl, le_refl 0, Or.inl rfl⟩
  | succ i ih =>
    by_cases hchar : isACPIChar (m (i + 1)) = true
    · obtain ⟨j, hj, hle, hend⟩ := ih
      exact ⟨j, (if_pos hchar).trans hj, Nat.le_succ_of_le hle, hend⟩
    · exact ⟨i + 1, if_neg hchar, le_refl _, Or.inr (Bool.eq_false_iff.mpr hchar)⟩

theorem outerBridge_inTable (h : adr < len) :
    outerBridge (inTable len m) len adr bridges = outerBridge (whole m) len adr bridges := by
  obtain ⟨j, hj, hle, hend⟩ := @skipName_whole m adr
  rw [outerBridge, outerBridge, skipName_inTable h, hj, Run.ok_bind, Run.ok_bind]
  by_cases hsmall : j < 6
  · rw [Nat.sub_eq_zero_of_le (le_of_lt hsmall)]
    rfl
  · exact bridgeFrom_inTable (by omega) (lt_of_le_of_lt hle h) (hend.resolve_left (by omega))

end Outer

/-! ### On the machine every read returns -/

theorem readBytes_whole (a : Int) (n : Nat) : ∃ bytes, readBytes (whole m) a n = .ok bytes := by
  induction n generalizing a with
  | zero => exact ⟨[], rfl⟩
  | succ n ih =>
    obtain ⟨bytes, h⟩ := ih (a + 1)
    exact ⟨m a.toNat :: bytes, by rw [readBytes, whole_bind, h]; rfl⟩

theorem nameLength_returns (a : Int) (room : Nat) : ∃ n, nameLength (whole m) a room = .ok n := by
  induction room generalizing a with
  | zero => exact ⟨0, rfl⟩
  | succ room ih =>
    obtain ⟨n, h⟩ := ih (a + 1)
    rw [nameLength, whole_bind, h]
    split <;> exact ⟨_, rfl⟩

theorem cmpFullName_returns (a : Int) (len : Nat) (bridge : List Bytes) :
    ∃ b, cmpFullName (whole m) a len bridge = .ok b := by
  obtain ⟨n, hn⟩ := @nameLength_returns m a len
  obtain ⟨bytes, hbytes⟩ := @readBytes_whole m a (4 * (n / 4) + 1)
  rw [cmpFullName, hn, Run.ok_bind]
  dsimp only
  rw [hbytes]
  split <;> exact ⟨_, rfl⟩

theorem bridgeAt_returns (len adr : Nat) (bridges : List Bytes) (i : Nat) :
    ∃ b, bridgeAt (whole m) len adr bridges i = .ok b := by
  rw [bridgeAt, headerAt_whole, Run.ok_bind]
  split
  · exact ⟨false, rfl⟩
  · next k _ =>
    obtain ⟨bytes, hbytes⟩ := @readBytes_whole m ((k : Int) + 1) (moreSizeBytes (m k))
    rw [readSize, whole_bind, Int.toNat_natCast, hbytes, Run.ok_bind, Run.ok_bind, whole_bind]
    split
    · exact cmpFullName_returns _ _ _
    · exact ⟨false, rfl⟩

theorem bridgeFrom_returns (len adr : Nat) (bridges : List Bytes) (i : Nat) :
    ∃ b, bridgeFrom (whole m) len adr bridges i = .ok b := by
  induction i with
  | zero => exact ⟨false, rfl⟩
  | succ i ih =>
    obtain ⟨b, hb⟩ := @bridgeAt_returns m len adr bridges (i + 1)
    rw [bridgeFrom, hb, Run.ok_bind]
    split
    · split
      · exact ⟨true, rfl⟩
      · exact ih
    · exact ⟨false, rfl⟩

theorem outerBridge_returns (len adr : Nat) (bridges : List Bytes) :
    ∃ b, outerBridge (whole m) len adr bridges = .ok b := by
  obtain ⟨j, hj, -⟩ := @skipName_whole m adr
  rw [outerBridge, hj, Run.ok_bind]
  exact bridgeFrom_returns _ _ _ _

end Inside

/-! ## One pass -/

theorem fitName_length (name : Bytes) : (fitName name).length = 4 := by
  simp [fitName]

theorem DeviceRename.find_length (r : DeviceRename) : r.find.length = 4 := by
  simp [DeviceRename.find]

theorem DeviceRename.getRenameTo_length (r : DeviceRename) : r.getRenameTo.length = 4 :=
  fitName_length _

theorem DeviceRename.length_of_mem_bridgeList {r : DeviceRename}
    (h : bridge ∈ r.bridgeList) : bridge.length = 4 := by
  have hmem := mem_of_mem_tail h
  rw [getSplittedName, mem_reverse, mem_map] at hmem
  obtain ⟨name, -, rfl⟩ := hmem
  exact fitName_length name

/-- The next place of the name, from the cursor on. -/
def nextName (m : Mem) (len : Nat) (r : DeviceRename) (adr : Nat) : Option Nat :=
  let shift := findBin m adr (len - adr) r.find
  if shift < 0 then none else some (adr + shift.toNat)

/-- A pass from `s` stays inside the table: four bytes before the name belong to it, and where the
name is replaced for the sake of an outer package it is not one of the last ten bytes. -/
def StaysInside (len : Nat) (r : DeviceRename) (s : Mem × Nat) : Prop :=
  ∀ p, nextName s.1 len r s.2 = some p → ∀ bridge ∈ r.bridgeList.head?,
    4 ≤ p ∧ (compareMem s.1 (p - 4) bridge = false →
      outerBridge (whole s.1) len p r.bridgeList = .ok true → p + 10 ≤ len)

section Pass

variable {m : Mem} {len adr p : Nat} {r : DeviceRename}

theorem nextName_eq_some (hlen : len < 2 ^ 32) (h : nextName m len r adr = some p) :
    adr ≤ p ∧ p + 4 < len ∧ compareMem m p r.find = true := by
  unfold nextName at h
  dsimp only at h
  split at h
  · cases h
  · next hnonneg =>
    obtain ⟨i, hi, hlt, hhit⟩ := findBin_nonneg m adr (len - adr) r.find (by omega) hnonneg
    rw [hi, Int.toNat_natCast, Option.some.injEq] at h
    rw [r.find_length] at hlt
    exact ⟨by omega, by omega, h ▸ hhit⟩

theorem findBytes_table (hadr : adr ≤ len) (hlen : len < 2 ^ 32) :
    findBytes (inTable len m) adr (uint32 ((len : Int) - adr)) r.find =
      .ok (findBin m adr (len - adr) r.find) := by
  have hwindow : uint32 ((len : Int) - adr) = len - adr := uint32_of_lt (by omega) (by omega)
  have hne : r.find ≠ [] := ne_nil_of_length_pos (by rw [r.find_length]; decide)
  rw [hwindow, findBytes_eq hne (by omega) (by omega), Int.toNat_natCast]

theorem findBytes_outside {a : Int} (ha : a < 0 ∨ len ≤ a) (hbin : bin.length = 4) (n : Nat) :
    findBytes (inTable len m) a n bin =
      if n ≤ 4 then .ok (-1) else .error (.panic "outside the table") := by
  have hread : inTable len m a = .error (.panic "outside the table") := if_neg (by omega)
  unfold findBytes
  rw [hbin]
  match bin, hbin with
  | b :: bytes, _ =>
    by_cases hn : n ≤ 4
    · have hnone : (if 4 ≤ n then n - 4 else 0) = 0 := by
        split <;> omega
      rw [hnone, if_pos hn]
      rfl
    · obtain ⟨k, hk⟩ : ∃ k, (if 4 ≤ n then n - 4 else 0) = k + 1 := ⟨n - 5, by split <;> omega⟩
      rw [hk, if_neg hn, findFrom, compareBytes, Int.natCast_zero, Int.add_zero, hread]
      rfl

theorem renamePass_behind (hadr : len < adr) (hnear : adr ≤ len + 5) :
    renamePass len r (m, adr) = .error (.panic "outside the table") := by
  have hwindow : ¬ uint32 ((len : Int) - adr) ≤ 4 := by
    unfold uint32
    omega
  rw [renamePass, findBytes_outside (Or.inr (by omega)) r.find_length, if_neg hwindow]
  rfl

theorem le_of_again (h : Run.Again (renamePass len r) (m, adr) s) : adr ≤ len := by
  by_contra hadr
  unfold Run.Again at h
  rw [renamePass, findBytes_outside (Or.inr (by omega)) r.find_length] at h
  split at h
  · cases h
  · cases h

theorem renamePass_none (hadr : adr ≤ len) (hlen : len < 2 ^ 32)
    (hnone : nextName m len r adr = none) : renamePass len r (m, adr) = .ok (.leave m) := by
  rw [renamePass, findBytes_table hadr hlen, Run.ok_bind]
  unfold nextName at hnone
  dsimp only at hnone ⊢
  split at hnone
  · next hneg => rw [if_pos hneg]
  · cases hnone

theorem findBin_attached (hbridge : bridge.length = 4) (a : Nat) :
    findBin m a 5 bridge = 0 ↔ compareMem m a bridge = true := by
  unfold findBin
  dsimp only
  rw [hbridge, if_pos (by decide), firstHit, Nat.add_zero]
  split
  · next h => exact iff_of_true rfl h
  · next h => exact iff_of_false (show ¬ (-1 : Int) = 0 by decide) h

theorem renamePass_some (hadr : adr ≤ len) (hlen : len < 2 ^ 32)
    (hsome : nextName m len r adr = some p) :
    renamePass len r (m, adr) =
      match r.bridgeList with
      | [] => .ok (.again (copyMem m p r.getRenameTo, p + 5))
      | bridge :: _ =>
        if p < 4 then .error (.panic "outside the table")
        else if compareMem m (p - 4) bridge then
          .ok (.again (copyMem m p r.getRenameTo, p + 5))
        else if outerBridge (whole m) len p r.bridgeList = .ok true then
          .ok (.again (copyMem m p r.getRenameTo, p + 10))
        else .ok (.again (m, p + 5)) := by
  obtain ⟨hle, hlt, -⟩ := nextName_eq_some hlen hsome
  have hcopy : copyInTable len m p r.getRenameTo = .ok (copyMem m p r.getRenameTo) :=
    if_pos (by rw [r.getRenameTo_length]; omega)
  unfold nextName at hsome
  dsimp only at hsome
  split at hsome
  · cases hsome
  next hnonneg =>
  rw [Option.some.injEq] at hsome
  rw [renamePass, findBytes_table hadr hlen, Run.ok_bind, if_neg hnonneg]
  dsimp only
  rw [hsome]
  cases hlist : r.bridgeList with
  | nil =>
    rw [hcopy, Run.ok_bind]
  | cons bridge bridges =>
    have hbridge : bridge.length = 4 :=
      DeviceRename.length_of_mem_bridgeList (hlist ▸ mem_cons_self)
    have hne : bridge ≠ [] := ne_nil_of_length_pos (by omega)
    dsimp only
    by_cases hfirst : p < 4
    · rw [if_pos hfirst, findBytes_outside (Or.inl (by omega)) hbridge, if_neg (by decide)]
      rfl
    · have hplace : ((p : Int) - 4).toNat = p - 4 := by omega
      rw [if_neg hfirst, findBytes_eq hne (by omega) (by omega), hplace, Run.ok_bind, hcopy,
        outerBridge_inTable (by omega)]
      obtain ⟨b, hb⟩ := @outerBridge_returns m len p (bridge :: bridges)
      rw [hb]
      by_cases hattached : compareMem m (p - 4) bridge = true
      · rw [if_pos ((findBin_attached hbridge _).mpr hattached), if_pos hattached]
        rfl
      · rw [if_neg (fun h => hattached ((findBin_attached hbridge _).mp h)), if_neg hattached]
        cases b <;> rfl

/-- The cursor goes on, and at most five bytes past the end. -/
theorem renamePass_cursor (hlen : len < 2 ^ 32) (h : Run.Again (renamePass len r) (m, adr) s) :
    adr < s.2 ∧ s.2 ≤ len + 5 := by
  have hadr := le_of_again h
  unfold Run.Again at h
  cases hnext : nextName m len r adr with
  | none =>
    rw [renamePass_none hadr hlen hnext] at h
    cases h
  | some p =>
    obtain ⟨hle, hlt, -⟩ := nextName_eq_some hlen hnext
    rw [renamePass_some hadr hlen hnext] at h
    split at h
    · cases h
      constructor <;> simp only <;> omega
    · split_ifs at h <;> cases h <;> constructor <;> simp only <;> omega

/-- With the cursor inside the table, a pass returns with the cursor inside exactly if it stays
inside. -/
theorem staysInside_iff (hadr : adr ≤ len) (hlen : len < 2 ^ 32) :
    StaysInside len r (m, adr) ↔ ∃ q, renamePass len r (m, adr) = .ok q ∧
      ∀ s, q = .again s → s.2 ≤ len := by
  unfold StaysInside
  cases hnext : nextName m len r adr with
  | none =>
    refine iff_of_true (fun p hp => by cases hp) ⟨_, renamePass_none hadr hlen hnext, ?_⟩
    intro s hs
    cases hs
  | some p =>
    obtain ⟨hle, hlt, -⟩ := nextName_eq_some hlen hnext
    rw [renamePass_some hadr hlen hnext]
    cases hlist : r.bridgeList with
    | nil =>
      refine iff_of_true (fun q _ bridge hbridge => by cases hbridge) ⟨_, rfl, ?_⟩
      rintro s ⟨⟩
      exact hlt
    | cons bridge bridges =>
      dsimp only
      constructor
      · intro h
        obtain ⟨hfirst, hend⟩ := h p rfl bridge rfl
        rw [if_neg (by omega)]
        split
        · refine ⟨_, rfl, ?_⟩
          rintro s ⟨⟩
          exact hlt
        split
        · next hattached houter =>
          refine ⟨_, rfl, ?_⟩
          rintro s ⟨⟩
          exact hend (Bool.eq_false_iff.mpr hattached) houter
        · refine ⟨_, rfl, ?_⟩
          rintro s ⟨⟩
          exact hlt
      · rintro ⟨q, hq, hcursor⟩ p' hp' bridge' hbridge'
        obtain rfl := Option.some.inj hp'
        obtain rfl := Option.some.inj hbridge'
        split at hq
        · cases hq
        · next hfirst =>
          refine ⟨by omega, fun hattached houter => ?_⟩
          rw [hattached, houter] at hq
          exact hcursor (copyMem m p r.getRenameTo, p + 10) (Except.ok.inj hq).symm

end Pass

/-! ## Whole runs -/

/-- The states that a run comes to, with the rename that it is at. -/
inductive Visited (fuel len : Nat) :
    List DeviceRename → Mem → DeviceRename → Mem × Nat → Prop where
  | here {r : DeviceRename} {renames : List DeviceRename} {m : Mem} {s : Mem × Nat}
      (h : Relation.ReflTransGen (Run.Again (renamePass len r)) (m, 0) s) :
      Visited fuel len (r :: renames) m r s
  | later {r r' : DeviceRename} {renames : List DeviceRename} {m m' : Mem} {s : Mem × Nat}
      (h : Run.loop (renamePass len r) fuel (m, 0) = .ok m')
      (hs : Visited fuel len renames m' r' s) : Visited fuel len (r :: renames) m r' s

section Runs

variable {m : Mem} {len fuel : Nat} {r : DeviceRename}

theorem reached_le (hlen : len < 2 ^ 32)
    (h : Relation.ReflTransGen (Run.Again (renamePass len r)) (m, 0) s) : s.2 ≤ len + 5 := by
  cases h with
  | refl => exact Nat.zero_le _
  | tail _ hstep => exact (renamePass_cursor hlen hstep).2

theorem inside_of_staysInside (hlen : len < 2 ^ 32)
    (hall : ∀ s, Relation.ReflTransGen (Run.Again (renamePass len r)) (m, 0) s →
      StaysInside len r s)
    (h : Relation.ReflTransGen (Run.Again (renamePass len r)) (m, 0) s) : s.2 ≤ len := by
  induction h with
  | refl => exact Nat.zero_le _
  | @tail t u ht hstep ih =>
    obtain ⟨q, hq, hcursor⟩ := (staysInside_iff ih hlen).mp (hall t ht)
    exact hcursor u (Except.ok.inj (hq.symm.trans hstep))

/-- The loop over one rename stays inside the table exactly if every pass does. -/
theorem renameLoop_iff (hlen : len < 2 ^ 32) (hfuel : len + 10 < fuel) :
    Run.Returns (Run.loop (renamePass len r) fuel (m, 0)) (fun _ => True) ↔
      ∀ s, Relation.ReflTransGen (Run.Again (renamePass len r)) (m, 0) s → StaysInside len r s := by
  have hmeasure : ∀ s t, Run.Again (renamePass len r) s t → len + 10 - t.2 < len + 10 - s.2 := by
    rintro ⟨m1, adr⟩ t hstep
    have hcursor := renamePass_cursor hlen hstep
    omega
  rw [Run.returns_iff_reached (fun s => len + 10 - s.2) hmeasure (by simp only; omega)]
  constructor
  · intro hall s hs
    have hinside : ∀ t, Relation.ReflTransGen (Run.Again (renamePass len r)) (m, 0) t →
        t.2 ≤ len := by
      rintro ⟨m1, adr⟩ ht
      by_contra hbehind
      obtain ⟨q, hq⟩ := hall _ ht
      rw [renamePass_behind (Nat.lt_of_not_le hbehind) (reached_le hlen ht)] at hq
      cases hq
    obtain ⟨q, hq⟩ := hall s hs
    refine (staysInside_iff (hinside s hs) hlen).mpr ⟨q, hq, fun t ht => ?_⟩
    exact hinside t (hs.tail (hq.trans (congrArg Except.ok ht)))
  · intro hall s hs
    obtain ⟨q, hq, -⟩ :=
      (staysInside_iff (inside_of_staysInside hlen hall hs) hlen).mp (hall s hs)
    exact ⟨q, hq⟩

/-- The renames return exactly if no pass they come to leaves the table. -/
theorem renames_iff (hlen : len < 2 ^ 32) (hfuel : len + 10 < fuel)
    (renames : List DeviceRename) (m : Mem) :
    Run.Returns (renames.foldlM (fun m r => Run.loop (renamePass len r) fuel (m, 0)) m)
        (fun _ => True) ↔
      ∀ r s, Visited fuel len renames m r s → StaysInside len r s := by
  induction renames generalizing m with
  | nil => exact iff_of_true (Run.returns_ok trivial) fun r s hs => by cases hs
  | cons r renames ih =>
    rw [foldlM_cons]
    constructor
    · intro hreturns r' s hs
      have hfirst : Run.Returns (Run.loop (renamePass len r) fuel (m, 0)) (fun _ => True) := by
        obtain ⟨x, hx, -⟩ := hreturns
        obtain ⟨m', hloop, -⟩ := bind_eq_ok.mp hx
        exact ⟨m', hloop, trivial⟩
      cases hs with
      | here h => exact (renameLoop_iff hlen hfuel).mp hfirst s h
      | later h hs =>
        rw [h, Run.ok_bind] at hreturns
        exact (ih _).mp hreturns r' s hs
    · intro hall
      obtain ⟨m', hm', -⟩ := (renameLoop_iff hlen hfuel).mpr fun s hs => hall r s (.here hs)
      rw [hm', Run.ok_bind]
      exact (ih m').mpr fun r' s hs => hall r' s (.later hm' hs)

end Runs

theorem tableLength_lt (m : Mem) : tableLength m < 2 ^ 32 := by
  have hbyte : ∀ b : UInt8, b.toNat < 256 := fun b => b.toNat_lt
  have h4 := hbyte (m 4)
  have h5 := hbyte (m 5)
  have h6 := hbyte (m 6)
  have h7 := hbyte (m 7)
  unfold tableLength
  omega

theorem Visited.reached {fuel len : Nat} {renames : List DeviceRename} {m : Mem}
    {r : DeviceRename} (h : Visited fuel len renames m r s) :
    ∃ m', Relation.ReflTransGen (Run.Again (renamePass len r)) (m', 0) s ∧
      ∀ t, Relation.ReflTransGen (Run.Again (renamePass len r)) (m', 0) t →
        Visited fuel len renames m r t := by
  induction h with
  | here h => exact ⟨_, h, fun t ht => .here ht⟩
  | later h hs ih =>
    obtain ⟨m', hm', hall⟩ := ih
    exact ⟨m', hm', fun t ht => .later h (hall t ht)⟩

/-- A run returns without a read or a write outside the table, and every search ends with the table,
exactly if every pass of the run stays inside. -/
theorem renameDevices_inside_iff {fuel : Nat} (m : Mem) (renames : List DeviceRename)
    (hfuel : tableLength m + 10 < fuel) :
    (Run.Returns (renameDevices fuel renames m) (fun _ => True) ∧
        ∀ r s, Visited fuel (tableLength m) renames m r s →
          s.2 + uint32 ((tableLength m : Int) - s.2) = tableLength m) ↔
      ∀ r s, Visited fuel (tableLength m) renames m r s → StaysInside (tableLength m) r s := by
  have hlen := tableLength_lt m
  rw [renameDevices, renames_iff hlen hfuel, and_iff_left_iff_imp]
  intro hall r s hs
  obtain ⟨m', hreached, hvisited⟩ := hs.reached
  have hinside := inside_of_staysInside hlen (fun t ht => hall r t (hvisited t ht)) hreached
  rw [uint32_of_lt (n := tableLength m - s.2) (by omega) (by omega)]
  omega

/-- A table that holds the device `PXSX` in the device `RP02`, and nothing behind its one byte. -/
def deviceAtEnd : Mem :=
  tableOf ([0x44, 0x53, 0x44, 0x54, 51, 0, 0, 0] ++ replicate 28 0 ++
    [0x5B, 0x82, 0x0D, 0x52, 0x50, 0x30, 0x32, 0x5B, 0x82, 0x06, 0x50, 0x58, 0x53, 0x58, 0x00])

/-- The rename of `RP02.PXSX` to `XHC1`. -/
def renamePXSX : DeviceRename :=
  ⟨[0x52, 0x50, 0x30, 0x32, 0x2E, 0x50, 0x58, 0x53, 0x58], [0x58, 0x48, 0x43, 0x31]⟩

/-- The rename of `RP02.DSDT` to `XHC1`. -/
def renameDSDT : DeviceRename :=
  ⟨[0x52, 0x50, 0x30, 0x32, 0x2E, 0x44, 0x53, 0x44, 0x54], [0x58, 0x48, 0x43, 0x31]⟩

theorem renameDevices_inside_iff_end :
    (Run.Returns (renameDevices 62 [renamePXSX] deviceAtEnd) (fun _ => True) ∧
        ∀ r s, Visited 62 (tableLength deviceAtEnd) [renamePXSX] deviceAtEnd r s →
          s.2 + uint32 ((tableLength deviceAtEnd : Int) - s.2) = tableLength deviceAtEnd) ↔
      ∀ r s, Visited 62 (tableLength deviceAtEnd) [renamePXSX] deviceAtEnd r s →
        StaysInside (tableLength deviceAtEnd) r s :=
  renameDevices_inside_iff deviceAtEnd [renamePXSX] (by decide)

/-- A device at the end of the table is renamed, and the next search starts behind the table. And
before the signature of a table there are no bytes to compare with. -/
theorem read_outside_table :
    tableLength deviceAtEnd = 51 ∧
      (renameDevices 100 [renamePXSX] deviceAtEnd).map (fun _ => ()) =
        .error (.panic "outside the table") ∧
      (renameDevices 100 [renameDSDT] deviceAtEnd).map (fun _ => ()) =
        .error (.panic "outside the table") := by
  refine ⟨by decide, by decide +kernel, by decide +kernel⟩

end Clover.Dsdt
