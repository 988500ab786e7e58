import Clover.Acpi.TableId
import Clover.Lib.Bytes
import Clover.Lib.Cells

/-!
# Dropping tables from the XSDT

The functions `DropTableFromXSDT`, `PostCleanupXSDT`, `Checksum8` and `FixChecksum` of
`Platform/AcpiPatcher.cpp`. The table of tables is a header of 36 bytes and behind it an array of
addresses; a request to drop tables sets their addresses to zero, and the cleanup at the end moves
the others together, corrects `Length` and the checksum.

Header and checksum are always right, and what is requested is dropped. What is dropped is requested
except for identifiers that `OemTableId_NoSpace` confuses. The main result is
`postCleanupXsdt_drops_iff`.
-/

namespace Clover.Acpi

open Clover.Lib List Bool BitVec

/-- The structure `EFI_ACPI_DESCRIPTION_HEADER`; `OemId` is a text of six bytes. -/
structure Header where
  signature : BitVec 32
  length : BitVec 32
  revision : UInt8
  checksum : UInt8
  oemId : BitVec 48
  oemTableId : BitVec 64
  oemRevision : BitVec 32
  creatorId : BitVec 32
  creatorRevision : BitVec 32
  deriving DecidableEq, Repr

def sizeofHeader : Nat := 36

/-- The bytes of the header, up to the checksum and behind it. -/
def Header.before (h : Header) : Bytes :=
  leBytes 4 h.signature.toNat ++ leBytes 4 h.length.toNat ++ [h.revision]

def Header.behind (h : Header) : Bytes :=
  leBytes 6 h.oemId.toNat ++ leBytes 8 h.oemTableId.toNat ++ leBytes 4 h.oemRevision.toNat ++
    leBytes 4 h.creatorId.toNat ++ leBytes 4 h.creatorRevision.toNat

def Header.bytes (h : Header) : Bytes := h.before ++ h.checksum :: h.behind

/-- The arguments of `DropTableFromXSDT`. -/
structure Request where
  signature : BitVec 32
  tableId : BitVec 64
  length : BitVec 32
  deriving DecidableEq, Repr

/-- The macro `TableCount`, as the `UINT32` that its users keep it in. -/
def tableCount (length : BitVec 32) : Nat :=
  (((length.setWidth 64 - BitVec.ofNat 64 sizeofHeader) / 8).setWidth 32).toNat

/-- The XSDT in memory: its header and the array of addresses from `Entry` on, which is at least as
long as `Length` tells. -/
structure Xsdt where
  header : Header
  entry : List (BitVec 64)
  sizeof_le : sizeofHeader ≤ header.length.toNat
  tableCount_le : tableCount header.length ≤ entry.length

variable (x : Xsdt)

namespace Xsdt

def xsdtTableCount (x : Xsdt) : Nat := tableCount x.header.length

/-- The addresses that `Length` counts. -/
def entries (x : Xsdt) : List (BitVec 64) := x.entry.take x.xsdtTableCount

def bytes (x : Xsdt) : Bytes :=
  x.header.bytes ++ x.entry.flatMap fun ptr => leBytes 8 ptr.toNat

end Xsdt

/-! ## The functions -/

/-- The sum of the bytes, in eight bits. -/
def checksum8 (bytes : Bytes) : UInt8 := bytes.foldl (· + ·) 0

/-- The sum of the bytes that `Length` counts. -/
def Xsdt.checksum (x : Xsdt) : UInt8 := checksum8 (x.bytes.take x.header.length.toNat)

def Xsdt.setChecksum (x : Xsdt) (c : UInt8) : Xsdt :=
  { x with header := { x.header with checksum := c } }

def fixChecksum (x : Xsdt) : Xsdt :=
  let x := x.setChecksum 0
  x.setChecksum (UInt8.ofNat (256 - x.checksum.toNat))

/-- The array `XsdtReplaceSizes` has a size for each entry whose table was merged. -/
def isXsdtEntryMerged (replaceSizes : Option (List Nat)) (index : Nat) : Bool :=
  match replaceSizes with
  | none => false
  | some sizes => sizes.getD index 0 != 0

section Drop

-- the headers of the tables, by their addresses
variable (tables : BitVec 64 → Header) (replaceSizes : Option (List Nat))

/-- The table has what the request asks for, where it asks. -/
def matchesRequest (r : Request) (table : Header) : Bool :=
  (r.signature != 0 && table.signature == r.signature) &&
    (r.tableId == 0 || oemTableIdNoSpace table.oemTableId == oemTableIdNoSpace r.tableId) &&
    (r.length == 0 || table.length == r.length)

/-- The body of the loop of `DropTableFromXSDT`: what becomes of one entry. -/
def dropEntry (r : Request) (index : Nat) (ptr : BitVec 64) : BitVec 64 :=
  if ptr = 0 then ptr
  else if !matchesRequest r (tables ptr) then ptr
  else if isXsdtEntryMerged replaceSizes index then ptr
  else 0

/-- Clear the entries of the tables that match. -/
def dropTableFromXsdt (x : Xsdt) (r : Request) : Xsdt :=
  if r.signature = 0 ∧ r.tableId = 0 then x
  else
    { x with
      entry := forCells (dropEntry tables replaceSizes r) x.xsdtTableCount x.entry
      tableCount_le := by
        rw [length_forCells]
        exact x.tableCount_le }

end Drop

theorem tableCount_eq {length : BitVec 32} (h : sizeofHeader ≤ length.toNat) :
    tableCount length = (length.toNat - sizeofHeader) / 8 := by
  have hwide : (length.setWidth 64).toNat = length.toNat := by
    rw [toNat_setWidth]
    omega
  have hsub : (length.setWidth 64 - BitVec.ofNat 64 sizeofHeader).toNat =
      length.toNat - sizeofHeader := by
    rw [toNat_sub, toNat_ofNat, hwide]
    omega
  rw [tableCount, toNat_setWidth, toNat_udiv, hsub]
  change (length.toNat - sizeofHeader) / 8 % 2 ^ 32 = (length.toNat - sizeofHeader) / 8
  omega

theorem toNat_newLength {n : Nat} (hn : n ≤ x.xsdtTableCount) :
    (BitVec.ofNat 32 (sizeofHeader + 8 * n)).toNat = sizeofHeader + 8 * n := by
  have hle := x.sizeof_le
  rw [Xsdt.xsdtTableCount, tableCount_eq hle] at hn
  rw [toNat_ofNat]
  omega

theorem tableCount_newLength {n : Nat} (hn : n ≤ x.xsdtTableCount) :
    tableCount (BitVec.ofNat 32 (sizeofHeader + 8 * n)) = n := by
  have h := toNat_newLength x hn
  rw [tableCount_eq (by omega), h]
  omega

theorem compact_entry_le (keep : BitVec 64 → Bool) :
    (compact keep x.xsdtTableCount x.entry).1 ≤ x.xsdtTableCount :=
  (compact_spec keep x.tableCount_le).2.1

/-- The cleanup before the checksum is fixed: the entries that are not zero move together. -/
def removeNull (x : Xsdt) : Xsdt :=
  let c := compact (· != 0) x.xsdtTableCount x.entry
  { header := { x.header with length := BitVec.ofNat 32 (sizeofHeader + 8 * c.1) }
    entry := c.2
    sizeof_le := by
      rw [toNat_newLength x (compact_entry_le x _)]
      omega
    tableCount_le := by
      rw [tableCount_newLength x (compact_entry_le x _)]
      exact (compact_entry_le x _).trans
        (x.tableCount_le.trans (compact_spec _ x.tableCount_le).1.ge) }

def postCleanupXsdt (x : Xsdt) : Xsdt := fixChecksum (removeNull x)

/-! ## The checksum -/

theorem checksum8_append (as bs : Bytes) : checksum8 (as ++ bs) = checksum8 as + checksum8 bs := by
  have hstart : ∀ (bs : Bytes) (s : UInt8), bs.foldl (· + ·) s = s + checksum8 bs := by
    intro bs
    induction bs with
    | nil => exact fun s => (UInt8.add_zero s).symm
    | cons b bs ih =>
      intro s
      rw [checksum8, foldl_cons, foldl_cons, ih, ih, UInt8.zero_add, UInt8.add_assoc]
  rw [checksum8, foldl_append, hstart]
  rfl

theorem Xsdt.checksum_setChecksum : ∃ s, ∀ c, (x.setChecksum c).checksum = s + c := by
  let behind := x.header.behind ++ x.entry.flatMap fun ptr => leBytes 8 ptr.toNat
  refine ⟨checksum8 x.header.before + checksum8 (behind.take (x.header.length.toNat - 10)),
    fun c => ?_⟩
  have hbytes : (x.setChecksum c).bytes = x.header.before ++ [c] ++ behind := by
    simp [Xsdt.bytes, Xsdt.setChecksum, Header.bytes, Header.before, Header.behind, behind]
  have hlength : (x.header.before ++ [c]).length = 10 := rfl
  have htake : (x.setChecksum c).bytes.take x.header.length.toNat =
      x.header.before ++ [c] ++ behind.take (x.header.length.toNat - 10) := by
    have hle := x.sizeof_le
    unfold sizeofHeader at hle
    rw [hbytes, take_append, hlength, take_of_length_le (by omega)]
  have hsingle : checksum8 [c] = c := UInt8.zero_add c
  rw [Xsdt.checksum, show (x.setChecksum c).header.length = x.header.length from rfl, htake,
    checksum8_append, checksum8_append, UInt8.add_assoc, UInt8.add_comm (checksum8 [c]),
    ← UInt8.add_assoc, hsingle]

theorem fixChecksum_checksum : (fixChecksum x).checksum = 0 := by
  obtain ⟨s, hs⟩ := x.checksum_setChecksum
  have hfixed : (fixChecksum x).checksum = s + UInt8.ofNat (256 - s.toNat) := by
    have hzero : (x.setChecksum 0).checksum = s := (hs 0).trans (UInt8.add_zero s)
    rw [← hs, fixChecksum, hzero]
    rfl
  have hlt := s.toNat_lt
  rw [hfixed]
  apply UInt8.toNat.inj
  rw [UInt8.toNat_add, UInt8.toNat_ofNat']
  change _ = 0
  omega

/-! ## The entries -/

theorem postCleanupXsdt_entries : (postCleanupXsdt x).entries = x.entries.filter (· != 0) := by
  obtain ⟨-, hle, htake, -⟩ := compact_spec (· != 0) x.tableCount_le
  have hcount : (postCleanupXsdt x).xsdtTableCount = _ := tableCount_newLength x hle
  rw [Xsdt.entries, hcount]
  exact htake

theorem Xsdt.length_entries : x.entries.length = x.xsdtTableCount := by
  rw [entries, length_take]
  exact Nat.min_eq_left x.tableCount_le

theorem postCleanupXsdt_length : (postCleanupXsdt x).header.length.toNat =
    sizeofHeader + 8 * (postCleanupXsdt x).entries.length := by
  have hle := compact_entry_le x (· != 0)
  have hcount : (postCleanupXsdt x).xsdtTableCount = _ := tableCount_newLength x hle
  rw [Xsdt.length_entries, hcount]
  exact toNat_newLength x hle

section Drop

variable (tables : BitVec 64 → Header) (replaceSizes : Option (List Nat))

/-- The entry `ptr` at `index` is one that some request matches. -/
def dropped (requests : List Request) (index : Nat) (ptr : BitVec 64) : Bool :=
  ptr != 0 && !isXsdtEntryMerged replaceSizes index &&
    requests.any fun r => matchesRequest r (tables ptr)

theorem dropTableFromXsdt_count (x : Xsdt) (r : Request) :
    (dropTableFromXsdt tables replaceSizes x r).xsdtTableCount = x.xsdtTableCount := by
  unfold dropTableFromXsdt
  split <;> rfl

theorem dropTableFromXsdt_getElem? (x : Xsdt) {r : Request} (hr : r.signature ≠ 0) (i : Nat) :
    (dropTableFromXsdt tables replaceSizes x r).entries[i]? =
      x.entries[i]?.map (dropEntry tables replaceSizes r i) := by
  rw [Xsdt.entries, dropTableFromXsdt_count, dropTableFromXsdt, if_neg fun h => hr h.1,
    Xsdt.entries, getElem?_take, getElem?_take]
  split
  · next hi => rw [getElem?_forCells, if_pos hi]
  · rfl

theorem dropEntry_dropped (r : Request) (requests : List Request) (i : Nat) (ptr : BitVec 64) :
    (if dropped tables replaceSizes requests i (dropEntry tables replaceSizes r i ptr) then 0
      else dropEntry tables replaceSizes r i ptr) =
    if dropped tables replaceSizes (r :: requests) i ptr then 0 else ptr := by
  unfold dropEntry dropped
  by_cases hnull : ptr = 0
  · simp [hnull]
  by_cases hmerged : isXsdtEntryMerged replaceSizes i
  · simp [hmerged]
  by_cases hmatch : matchesRequest r (tables ptr)
  · simp [hmerged, hmatch]
  · simp [hmerged, hmatch]

/-- An entry is cleared if one of the requests drops it. -/
theorem foldl_dropTableFromXsdt_getElem? (requests : List Request)
    (hr : ∀ r ∈ requests, r.signature ≠ 0) (x : Xsdt) (i : Nat) :
    (requests.foldl (dropTableFromXsdt tables replaceSizes) x).entries[i]? =
      x.entries[i]?.map fun ptr => if dropped tables replaceSizes requests i ptr then 0
        else ptr := by
  induction requests generalizing x with
  | nil => simp [dropped]
  | cons r requests ih =>
    rw [foldl_cons, ih fun s hs => hr s (mem_cons_of_mem r hs),
      dropTableFromXsdt_getElem? tables replaceSizes x (hr r mem_cons_self), Option.map_map]
    congr 1
    funext ptr
    exact dropEntry_dropped tables replaceSizes r requests i ptr

end Drop

/-- The entries of a list, without those that are null and those that `drops` tells to drop. -/
def without (drops : Nat → BitVec 64 → Bool) (entries : List (BitVec 64)) : List (BitVec 64) :=
  (entries.zipIdx.filter fun e => e.1 != 0 && !drops e.2 e.1).map Prod.fst

/-- The entries that are left when those that were cleared are taken out. -/
theorem filter_null_eq_without (drops : Nat → BitVec 64 → Bool) (xs ys : List (BitVec 64))
    (h : ∀ i, ys[i]? = xs[i]?.map fun ptr => if drops i ptr then 0 else ptr) :
    ys.filter (· != 0) = without drops xs := by
  have hys : ys = xs.zipIdx.map fun e => if drops e.2 e.1 then 0 else e.1 := by
    apply ext_getElem?
    intro i
    rw [h, getElem?_map, getElem?_zipIdx]
    cases xs[i]? with
    | none => rfl
    | some p => simp
  rw [hys, without]
  generalize xs.zipIdx = es
  induction es with
  | nil => rfl
  | cons e es ih =>
    rw [map_cons, filter_cons, filter_cons, ih]
    by_cases hdrop : drops e.2 e.1
    · simp [hdrop]
    · by_cases hnull : e.1 = 0
      · simp [hnull]
      · have hkeep : (e.1 != 0) = true := bne_iff_ne.mpr hnull
        rw [if_neg hdrop, hkeep, Bool.true_and, if_pos rfl, if_pos (by simpa using hdrop)]
        rfl

/-- If one condition implies the other, they drop the same entries only if they agree on all. -/
theorem without_eq_iff {drops drops' : Nat → BitVec 64 → Bool} {xs : List (BitVec 64)}
    (himp : ∀ i p, p ≠ 0 → drops' i p → drops i p) : without drops xs = without drops' xs ↔
      ∀ i p, xs[i]? = some p → p ≠ 0 → drops i p → drops' i p := by
  have hsub : (xs.zipIdx.filter fun e => e.1 != 0 && !drops e.2 e.1).Sublist
      (xs.zipIdx.filter fun e => e.1 != 0 && !drops' e.2 e.1) := by
    apply monotone_filter_right
    intro e he
    grind
  constructor
  · intro heq i p hp hne hdrop
    have hlength := congrArg length heq
    rw [without, without, length_map, length_map] at hlength
    have hfilter := hsub.eq_of_length hlength
    by_contra hkeep
    have hmem : (p, i) ∈ xs.zipIdx.filter fun e => e.1 != 0 && !drops' e.2 e.1 := by
      rw [mem_filter]
      refine ⟨mem_zipIdx_iff_getElem?.mpr hp, ?_⟩
      rw [and_eq_true, bne_iff_ne, not_eq_true']
      exact ⟨hne, Bool.eq_false_iff.mpr hkeep⟩
    rw [← hfilter, mem_filter] at hmem
    simp [hdrop] at hmem
  · intro h
    rw [without, without]
    congr 1
    apply filter_congr
    rintro ⟨p, i⟩ he
    grind

/-! ## What was requested -/

/-- The request names the table: equal signatures, no identifier or the same text, and no length or
the same. -/
def requested (r : Request) (table : Header) : Bool :=
  table.signature == r.signature &&
    (r.tableId == 0 || trimmed table.oemTableId == trimmed r.tableId) &&
    (r.length == 0 || table.length == r.length)

/-- The request would name the table if its identifier were not one that is confused with the
table's. -/
def Mistaken (r : Request) (table : Header) : Prop :=
  table.signature = r.signature ∧ Confused table.oemTableId r.tableId ∧
    (r.length = 0 ∨ table.length = r.length)

theorem matchesRequest_iff {r : Request} (hr : r.signature ≠ 0) (table : Header) :
    matchesRequest r table ↔ requested r table ∨ Mistaken r table := by
  unfold matchesRequest requested Mistaken
  simp only [and_eq_true, or_eq_true, bne_iff_ne, beq_iff_eq, noSpace_eq_iff]
  grind

section Drop

variable (tables : BitVec 64 → Header) (replaceSizes : Option (List Nat))

/-- The condition of `dropped` for what was requested. -/
def toDrop (requests : List Request) (index : Nat) (ptr : BitVec 64) : Bool :=
  !isXsdtEntryMerged replaceSizes index && requests.any fun r => requested r (tables ptr)

/-- After the requests and the cleanup, the entries are those that were not null and not requested,
in their order, with the right length and checksum, if and only if every table that is mistaken for
a requested one, and not merged, is requested by another request. -/
theorem postCleanupXsdt_drops_iff (requests : List Request)
    (hr : ∀ r ∈ requests, r.signature ≠ 0) (x : Xsdt) :
    let y := postCleanupXsdt (requests.foldl (dropTableFromXsdt tables replaceSizes) x)
    (y.entries = without (toDrop tables replaceSizes requests) x.entries ∧
        y.header.length.toNat = 36 + 8 * y.entries.length ∧ y.checksum = 0) ↔
      ∀ i ptr, x.entries[i]? = some ptr → ptr ≠ 0 → ¬ isXsdtEntryMerged replaceSizes i →
        (∃ r ∈ requests, Mistaken r (tables ptr)) → ∃ r ∈ requests, requested r (tables ptr) := by
  intro y
  have hentries : y.entries = without (dropped tables replaceSizes requests) x.entries := by
    rw [postCleanupXsdt_entries]
    exact filter_null_eq_without _ _ _
      (foldl_dropTableFromXsdt_getElem? tables replaceSizes requests hr x)
  have hmatch : ∀ ptr, (∃ r ∈ requests, matchesRequest r (tables ptr)) ↔
      (∃ r ∈ requests, requested r (tables ptr)) ∨ ∃ r ∈ requests, Mistaken r (tables ptr) := by
    intro ptr
    rw [← exists_or]
    refine exists_congr fun r => ?_
    rw [← and_or_left]
    exact and_congr_right fun h => matchesRequest_iff (hr r h) (tables ptr)
  rw [and_iff_left ⟨postCleanupXsdt_length _, fixChecksum_checksum _⟩, hentries,
    without_eq_iff]
  · refine forall_congr' fun i => forall_congr' fun ptr => forall_congr' fun hptr =>
      forall_congr' fun hne => ?_
    simp only [dropped, toDrop, and_eq_true, any_eq_true, hmatch, bne_iff_ne,
      not_eq_true']
    grind
  · intro i ptr hne h
    simp only [dropped, toDrop, and_eq_true, any_eq_true, hmatch, bne_iff_ne] at h ⊢
    grind

/-- A table with the identifier `ABCDEF X`. -/
def sampleTable : Header :=
  { signature := 1, length := 40, revision := 1, checksum := 0, oemId := 0
    oemTableId := 0x5820464544434241, oemRevision := 0, creatorId := 0, creatorRevision := 0 }

/-- An XSDT with a null entry and one table. -/
def sampleXsdt : Xsdt :=
  { header := { sampleTable with length := 52 }
    entry := [0, 0x1000]
    sizeof_le := by decide
    tableCount_le := by decide }

end Drop

/-- The theorem at an XSDT with a null entry and a table that one request names. -/
theorem postCleanupXsdt_drops_iff_sample :
    (postCleanupXsdt ([⟨1, 0x5820464544434241, 0⟩].foldl
      (dropTableFromXsdt (fun _ => sampleTable) none) sampleXsdt)).entries = [] :=
  ((postCleanupXsdt_drops_iff (fun _ => sampleTable) none [⟨1, 0x5820464544434241, 0⟩] (by decide)
    sampleXsdt).mpr fun _ _ _ _ _ _ => ⟨_, mem_cons_self, by decide⟩).1.trans (by decide)

/-- A request for `ABCDEF`, zero, `X` drops the table `ABCDEF X`. -/
theorem postCleanupXsdt_drops_confused :
    let y := postCleanupXsdt ([⟨1, 0x5800464544434241, 0⟩].foldl
      (dropTableFromXsdt (fun _ => sampleTable) none) sampleXsdt)
    y.entries = [] ∧ trimmed 0x5800464544434241 ≠ trimmed sampleTable.oemTableId ∧
      without (toDrop (fun _ => sampleTable) none [⟨1, 0x5800464544434241, 0⟩])
        sampleXsdt.entries = [0x1000] := by
  decide

end Clover.Acpi
