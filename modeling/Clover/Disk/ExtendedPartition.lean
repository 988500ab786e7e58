import Clover.Lib.Bytes
import Clover.Lib.Orbit

/-!
# Logical partitions

`ScanExtendedPartition` of `refit/lib.cpp` follows the extended boot records of a disk, each of
which names the next one. Nothing keeps a record from naming one that was read before: the scan ends
exactly if no sector comes back (`scanExtendedPartition_returns_iff`).
-/

namespace Clover.Disk

open Clover.Lib Clover.Lib.Run

/-- An entry of a partition table. -/
structure MbrPartitionInfo where
  flags : UInt8
  type : UInt8
  startLBA : UInt32
  size : UInt32
  deriving DecidableEq, Repr

/-- The fields of a volume that the scan sets from the disk. -/
structure Volume where
  mbrPartitionIndex : Nat
  blockIOOffset : UInt64
  deriving DecidableEq, Repr

/-- The contents of every sector, or nothing if it cannot be read. -/
abbrev Sectors := UInt32 → Option Bytes

def readField (sector : Bytes) (offset n : Nat) : Nat := leValue ((sector.drop offset).take n)

/-- The entry at an offset of a sector. -/
def partitionInfo (sector : Bytes) (offset : Nat) : MbrPartitionInfo where
  flags := sector.getD offset 0
  type := sector.getD (offset + 4) 0
  startLBA := UInt32.ofNat (readField sector (offset + 8) 4)
  size := UInt32.ofNat (readField sector (offset + 12) 4)

def eMbrTable (sector : Bytes) : List MbrPartitionInfo :=
  (List.range 4).map fun i => partitionInfo sector (446 + 16 * i)

def isExtendedPartType (type : UInt8) : Bool := type = 0x05 ∨ type = 0x0f ∨ type = 0x85

/-- The loop over the entries of a record: the next record, or zero, and the volumes. -/
def scanEntries (extBase extCurrent : UInt32) :
    List MbrPartitionInfo → List Volume → UInt32 × List Volume
  | [], volumes => (0, volumes)
  | entry :: rest, volumes =>
    if (entry.flags ≠ 0x00 ∧ entry.flags ≠ 0x80) ∨ entry.startLBA = 0 ∨ entry.size = 0 then
      (0, volumes)
    else if isExtendedPartType entry.type then (extBase + entry.startLBA, volumes)
    else
      scanEntries extBase extCurrent rest
        (volumes ++ [⟨4 + volumes.length, (extCurrent + entry.startLBA).toUInt64⟩])

/-- The sector of a record that the loop goes on with. -/
def record (disk : Sectors) (extCurrent : UInt32) : Option Bytes :=
  if extCurrent = 0 then none
  else (disk extCurrent).filter fun sector => readField sector 510 2 = 0xaa55

/-- One pass of the loop over the records. -/
def scanPass (disk : Sectors) (extBase : UInt32) :
    UInt32 × List Volume → Run (Pass (UInt32 × List Volume) (List Volume))
  | (extCurrent, volumes) =>
    match record disk extCurrent with
    | none => .ok (.leave volumes)
    | some sector => .ok (.again (scanEntries extBase extCurrent (eMbrTable sector) volumes))

/-- The volumes found in the extended partition that starts at `extBase`. -/
def scanExtendedPartition (fuel : Nat) (disk : Sectors) (extBase : UInt32) : Run (List Volume) :=
  Run.loop (scanPass disk extBase) fuel (extBase, [])

/-! ## The chain of records -/

/-- The sector named by a record. -/
def nextSector (disk : Sectors) (extBase extCurrent : UInt32) : Option UInt32 :=
  (record disk extCurrent).map fun sector =>
    (scanEntries extBase extCurrent (eMbrTable sector) []).1

/-- The sector that pass `n` reads, if there is such a pass. -/
def sectorOf (disk : Sectors) (extBase : UInt32) (n : Nat) : Option UInt32 :=
  keyAfter (nextSector disk extBase) n (some extBase)

theorem scanEntries_fst (extBase extCurrent : UInt32) (entries : List MbrPartitionInfo)
    (vs ws : List Volume) : (scanEntries extBase extCurrent entries vs).1 =
      (scanEntries extBase extCurrent entries ws).1 := by
  induction entries generalizing vs ws with
  | nil => rfl
  | cons entry rest ih =>
    unfold scanEntries
    split
    · rfl
    split
    · rfl
    · exact ih _ _

theorem keyed_scanPass (disk : Sectors) (extBase : UInt32) :
    Keyed (scanPass disk extBase) Prod.fst (nextSector disk extBase) := by
  rintro ⟨extCurrent, volumes⟩
  cases hrecord : record disk extCurrent with
  | none =>
    simp only [scanPass, nextSector, hrecord]
    exact Or.inr ⟨⟨_, rfl⟩, rfl⟩
  | some sector =>
    simp only [scanPass, nextSector, hrecord]
    refine Or.inl ⟨_, rfl, congrArg some ?_⟩
    exact scanEntries_fst extBase extCurrent (eMbrTable sector) [] volumes

/-- The scan makes finitely many passes, so that it reads and adds finitely much, if and only if no
sector is read again. -/
theorem scanExtendedPartition_returns_iff (disk : Sectors) (extBase : UInt32) :
    (∃ fuel volumes, scanExtendedPartition fuel disk extBase = .ok volumes) ↔
      ∀ i j, i < j → sectorOf disk extBase i ≠ none →
        sectorOf disk extBase i ≠ sectorOf disk extBase j := by
  have hleaves := exists_leaves_iff_injective (keyed_scanPass disk extBase) (extBase, [])
  rw [exists_comm]
  exact hleaves

/-- A record whose first entry names the sector behind the base. -/
def ringSector : Bytes :=
  List.replicate 446 0 ++ [0, 0, 0, 0, 5, 0, 0, 0, 1, 0, 0, 0, 1, 0, 0, 0] ++
    List.replicate 48 0 ++ [0x55, 0xaa]

/-- The record in sector 2 names itself, and the scan does not end. -/
theorem ring_never_ends :
    ¬ ∃ fuel volumes, scanExtendedPartition fuel (fun _ => some ringSector) 1 = .ok volumes := by
  rintro ⟨fuel, volumes, h⟩
  have htable : eMbrTable ringSector = ⟨0, 5, 1, 1⟩ :: List.replicate 3 ⟨0, 0, 0, 0⟩ := by
    decide +kernel
  have hrecord : record (fun _ => some ringSector) 1 = some ringSector ∧
      record (fun _ => some ringSector) 2 = some ringSector := by decide +kernel
  refine not_leaves (fun x => x.1 = 1 ∨ x.1 = 2) ?_ (Or.inl rfl) volumes ⟨fuel, h⟩
  rintro ⟨extCurrent, volumes⟩ (rfl | rfl)
  · simp only [scanPass, hrecord.1, htable]
    exact ⟨(2, volumes), rfl, Or.inr rfl⟩
  · simp only [scanPass, hrecord.2, htable]
    exact ⟨(2, volumes), rfl, Or.inr rfl⟩

end Clover.Disk
