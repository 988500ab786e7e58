import Mathlib

/-!
# Page tables of the memory fix driver

`VMem.c` walks and edits the four-level page tables of the processor. `getPhysicalAddr` translates
one virtual address. `vmMapVirtualPage` maps one page of 4 KB: on its way down it builds the
tables that are missing and splits the larger pages it meets, in pages it takes from a pool that
was set aside while boot services were there. `vmMapVirtualPages` maps page after page.

Memory is read and written here in entries of eight bytes only, all of them inside pages, so it is
a function from the address of an entry to the entry. Addresses are natural numbers; where the
source adds to a 64 bit address the sum is taken modulo `2 ^ 64`.
-/

namespace Clover.MemoryFix

/-- The memory, by the addresses of its entries. -/
abbrev Mem := Nat → UInt64

/-! ## Fields of addresses and entries -/

/-- `VA.Pg4K.PML4Offset` -/
def pml4Offset (va : Nat) : Nat := va / 2 ^ 39 % 512

/-- `VA.Pg4K.PDPOffset` -/
def pdpOffset (va : Nat) : Nat := va / 2 ^ 30 % 512

/-- `VA.Pg4K.PDOffset` -/
def pdOffset (va : Nat) : Nat := va / 2 ^ 21 % 512

/-- `VA.Pg4K.PTOffset` -/
def ptOffset (va : Nat) : Nat := va / 2 ^ 12 % 512

/-- `VA_FIX_SIGN_EXTEND`: the high 16 bits repeat the highest bit of the PML4 offset. -/
def vaFixSignExtend (va : Nat) : Nat :=
  va % 2 ^ 48 + if pml4Offset va < 256 then 0 else 0xFFFF * 2 ^ 48

def ptAddrMask4K : UInt64 := 0x000FFFFFFFFFF000

def ptAddrMask2M : UInt64 := 0x000FFFFFFFE00000

def ptAddrMask1G : UInt64 := 0x000FFFFFC0000000

/-- `Bits.Present` -/
def present (e : UInt64) : Bool := e &&& 1 != 0

/-- `Bits.MustBeZero & 0x1`: the entry of a higher table is a large page. -/
def isPage (e : UInt64) : Bool := e &&& 0x80 != 0

/-- `Bits.PageTableBaseAddress` -/
def pageTableBaseAddress (e : UInt64) : UInt64 := e >>> 12 &&& 0xFFFFFFFFFF

/-- The table an entry points to: `Uint64 & PT_ADDR_MASK_4K`. -/
def tableOf (e : UInt64) : Nat := (e &&& ptAddrMask4K).toNat

/-- The address of an entry of a table. -/
def entry (table off : Nat) : Nat := table + 8 * off

/-! ## Translation -/

/-- `GetPhysicalAddr`; `none` is `EFI_NO_MAPPING`. -/
def getPhysicalAddr (mem : Mem) (pageTable va : Nat) : Option Nat :=
  let pml4 := mem (entry pageTable (pml4Offset va))
  if !present pml4 then none
  else
    let pdpe := mem (entry (tableOf pml4) (pdpOffset va))
    if !present pdpe then none
    else if isPage pdpe then some ((pdpe &&& ptAddrMask1G).toNat + va % 2 ^ 30)
    else
      let pde := mem (entry (tableOf pdpe) (pdOffset va))
      if !present pde then none
      else if isPage pde then some ((pde &&& ptAddrMask2M).toNat + va % 2 ^ 21)
      else
        let pte := mem (entry (tableOf pde) (ptOffset va))
        if !present pte then none
        else some ((pte &&& ptAddrMask4K).toNat + va % 2 ^ 12)

/-! ## Mapping -/

/-- The memory and the pool: `VmMemoryPool` and `VmMemoryPoolFreePages`. -/
structure Vm where
  mem : Mem
  pool : Nat
  freePages : Nat

/-- How a call does not succeed. -/
inductive Failure where
  /-- `CpuDeadLoop` -/
  | deadLoop
  /-- `EFI_NO_MAPPING` -/
  | noMapping
  deriving DecidableEq, Repr

/-- Pages from the front of the pool. -/
def vmAllocatePages (numPages : Nat) (vm : Vm) : Except Failure (Nat × Vm) :=
  if numPages ≤ vm.freePages then
    .ok (vm.pool, { vm with
      pool := vm.pool + 4096 * numPages
      freePages := vm.freePages - numPages })
  else .error .deadLoop

/-- `ZeroMem(page, EFI_PAGE_SIZE)` -/
def zeroMem (page : Nat) (mem : Mem) : Mem :=
  fun a => if page ≤ a ∧ a < page + 4096 then 0 else mem a

/-- The loops that fill `n` entries from `p` on with consecutive pages of the given size. -/
def fillEntries (mask flags : UInt64) (size : Nat) : Nat → Nat → Nat → Mem → Mem
  | 0, _, _, mem => mem
  | n + 1, p, start, mem =>
    fillEntries mask flags size n (p + 8) (start + size)
      (Function.update mem p (UInt64.ofNat start &&& mask ||| flags))

/-- 512 pages of 1 GB; `ReadWrite`, `Present` and `MustBe1` are set. -/
def fill1G (start page : Nat) : Mem → Mem :=
  fillEntries ptAddrMask1G 0x83 0x40000000 512 page start

/-- 512 pages of 2 MB; `ReadWrite`, `Present` and `MustBe1` are set. -/
def fill2M (start page : Nat) : Mem → Mem :=
  fillEntries ptAddrMask2M 0x83 0x200000 512 page start

/-- 512 pages of 4 KB; `ReadWrite` and `Present` are set. -/
def fill4K (start page : Nat) : Mem → Mem :=
  fillEntries ptAddrMask4K 3 0x1000 512 page start

/-- Take a page from the pool, clear it, fill it by what the entry at `slot` was, and make that
entry point to it. -/
def newTable (slot : Nat) (fill : UInt64 → Nat → Mem → Mem) (vm : Vm) : Except Failure Vm := do
  let (page, vm) ← vmAllocatePages 1 vm
  if page = 0 then .error .noMapping
  else
    let mem := zeroMem page vm.mem
    let mem := fill (mem slot) page mem
    .ok { vm with mem := Function.update mem slot (UInt64.ofNat page &&& ptAddrMask4K ||| 3) }

/-- A missing PML4 entry gets a table that maps the first 512 GB. -/
def growPml4 (slot : Nat) (vm : Vm) : Except Failure Vm :=
  if present (vm.mem slot) then .ok vm
  else newTable slot (fun _ => fill1G 0) vm

/-- A missing PDPE gets an empty table, and a page of 1 GB is split into pages of 2 MB. -/
def growPdpe (slot : Nat) (vm : Vm) : Except Failure Vm :=
  if present (vm.mem slot) && !isPage (vm.mem slot) then .ok vm
  else newTable slot
    (fun e page mem => if isPage e then fill2M (e &&& ptAddrMask1G).toNat page mem else mem) vm

/-- A missing PDE gets an empty table, and a page of 2 MB is split into pages of 4 KB. -/
def growPde (slot : Nat) (vm : Vm) : Except Failure Vm :=
  if present (vm.mem slot) && !isPage (vm.mem slot) then .ok vm
  else newTable slot
    (fun e page mem => if isPage e then fill4K (e &&& ptAddrMask2M).toNat page mem else mem) vm

/-- A PML4 entry that points to the same table as the first one is cleared. -/
def releasePml4 (pageTable slot : Nat) (vm : Vm) : Vm :=
  if slot ≠ pageTable ∧ present (vm.mem slot) ∧
      pageTableBaseAddress (vm.mem pageTable) = pageTableBaseAddress (vm.mem slot) then
    { vm with mem := Function.update vm.mem slot 0 }
  else vm

def vmMapVirtualPage (pageTable va pa : Nat) (vm : Vm) : Except Failure Vm := do
  let pml4 := entry pageTable (pml4Offset va)
  let vm ← growPml4 pml4 (releasePml4 pageTable pml4 vm)
  let pdpe := entry (tableOf (vm.mem pml4)) (pdpOffset va)
  let vm ← growPdpe pdpe vm
  let pde := entry (tableOf (vm.mem pdpe)) (pdOffset va)
  let vm ← growPde pde vm
  let pte := entry (tableOf (vm.mem pde)) (ptOffset va)
  .ok { vm with mem := Function.update vm.mem pte (UInt64.ofNat pa &&& ptAddrMask4K ||| 3) }

/-- The pages of a range, one after the other. -/
def vmMapVirtualPages (pageTable : Nat) : Nat → Nat → Nat → Vm → Except Failure Vm
  | _, 0, _, vm => .ok vm
  | va, numPages + 1, pa, vm => do
    let vm ← vmMapVirtualPage pageTable va pa vm
    vmMapVirtualPages pageTable ((va + 0x1000) % 2 ^ 64) numPages ((pa + 0x1000) % 2 ^ 64) vm

end Clover.MemoryFix
