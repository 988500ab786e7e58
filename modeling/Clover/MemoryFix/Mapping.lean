import Clover.Lib.Radix
import Clover.MemoryFix.VMem

/-!
# What mapping pages does to the translation

The tables that `getPhysicalAddr` walks are a radix table in the sense of `Lib.Radix`, with tables
at four depths. `WellFormed` says that they form a tree, that their pages are apart from the pool,
and that entries which are not present are zero.

Building a missing table and splitting a large page grow that tree and keep every translation
(`Opened`). The last step of `vmMapVirtualPage` overwrites one entry of a lowest table, so one page
changes and no other does (`vmMapVirtualPage_spec`), and page after page this gives
`vmMapVirtualPages_maps`.
-/

namespace Clover.MemoryFix

open Clover.Lib.Radix Function

variable {e f flags m mask : UInt64} {a b d n pa pageTable va : Nat} {vm : Vm} {j i : Fin 512}
  (x : UInt64) {fill : UInt64 → Nat → Mem → Mem} {p : List (Fin 512)} {mem : Mem}

/-! ## Entries -/

theorem and_mask {m : Nat} (hm : m ≤ 52) (n : Nat) :
    n &&& (2 ^ 52 - 2 ^ m) = n % 2 ^ 52 / 2 ^ m * 2 ^ m := by
  have hmask : 2 ^ 52 - 2 ^ m = (2 ^ (52 - m) - 1) <<< m := by
    rw [Nat.shiftLeft_eq, Nat.sub_mul, ← Nat.pow_add, Nat.sub_add_cancel hm, Nat.one_mul]
  rw [hmask, ← Nat.shiftRight_eq_div_pow, ← Nat.shiftLeft_eq]
  apply Nat.eq_of_testBit_eq
  intro j
  simp only [Nat.testBit_and, Nat.testBit_shiftLeft, Nat.testBit_shiftRight,
    Nat.testBit_two_pow_sub_one, Nat.testBit_mod_two_pow]
  by_cases hj : m ≤ j
  · rw [Nat.add_sub_cancel' hj]
    have : (j - m < 52 - m) ↔ j < 52 := by omega
    simp only [this, hj, decide_true, Bool.true_and]
    rw [Bool.and_comm]
  · simp [hj]

theorem toNat_and_mask4K (e : UInt64) :
    (e &&& ptAddrMask4K).toNat = e.toNat % 2 ^ 52 / 2 ^ 12 * 2 ^ 12 :=
  (UInt64.toNat_and _ _).trans (and_mask (show 12 ≤ 52 by decide) e.toNat)

theorem toNat_and_mask2M (e : UInt64) :
    (e &&& ptAddrMask2M).toNat = e.toNat % 2 ^ 52 / 2 ^ 21 * 2 ^ 21 :=
  (UInt64.toNat_and _ _).trans (and_mask (show 21 ≤ 52 by decide) e.toNat)

theorem tableOf_mod (e : UInt64) : tableOf e % 4096 = 0 := by
  rw [tableOf, toNat_and_mask4K]
  omega

theorem flags_of_entry {c : UInt64} (hm : m &&& c = 0) (x : UInt64) :
    (x &&& m ||| f) &&& c = f &&& c := by
  apply UInt64.toNat_inj.mp
  have hm' : m.toNat &&& c.toNat = 0 := by rw [← UInt64.toNat_and, hm]; rfl
  simp [Nat.and_or_distrib_right, Nat.and_assoc, hm']

theorem addr_of_entry (hf : f &&& m = 0) (x : UInt64) : (x &&& m ||| f) &&& m = x &&& m := by
  apply UInt64.toNat_inj.mp
  have hf' : f.toNat &&& m.toNat = 0 := by rw [← UInt64.toNat_and, hf]; rfl
  simp [Nat.and_or_distrib_right, hf']

theorem present_entry (hm : m &&& 1 = 0) (hf : f &&& 1 = 1) (x : UInt64) :
    present (x &&& m ||| f) = true := by
  rw [present, flags_of_entry hm, hf]
  rfl

theorem isPage_entry (hm : m &&& 0x80 = 0) (x : UInt64) : isPage (x &&& m ||| f) = isPage f := by
  rw [isPage, flags_of_entry hm, isPage]

/-- What an entry says to a walk that reads it in a table at depth `d`. -/
def kind : Nat → UInt64 → Kind Nat Nat
  | 0, e => if present e then .branch (tableOf e) else .absent
  | 1, e =>
    if !present e then .absent
    else if isPage e then .leaf (e &&& ptAddrMask1G).toNat else .branch (tableOf e)
  | 2, e =>
    if !present e then .absent
    else if isPage e then .leaf (e &&& ptAddrMask2M).toNat else .branch (tableOf e)
  | _, e => if present e then .leaf (e &&& ptAddrMask4K).toNat else .absent

theorem kind_table (hd : d ≤ 2) :
    kind d (x &&& ptAddrMask4K ||| 3) = .branch (x &&& ptAddrMask4K).toNat := by
  have hpresent : present (x &&& ptAddrMask4K ||| 3) = true := present_entry rfl rfl x
  have hpage : isPage (x &&& ptAddrMask4K ||| 3) = false := isPage_entry rfl x
  have htable : tableOf (x &&& ptAddrMask4K ||| 3) = (x &&& ptAddrMask4K).toNat := by
    rw [tableOf, addr_of_entry rfl]
  match d, hd with
  | 0, _ => simp [kind, hpresent, htable]
  | 1, _ => simp [kind, hpresent, hpage, htable]
  | 2, _ => simp [kind, hpresent, hpage, htable]

theorem kind_page1G : kind 1 (x &&& ptAddrMask1G ||| 0x83) = .leaf (x &&& ptAddrMask1G).toNat := by
  have hpresent : present (x &&& ptAddrMask1G ||| 0x83) = true := present_entry rfl rfl x
  have hpage : isPage (x &&& ptAddrMask1G ||| 0x83) = true := isPage_entry rfl x
  rw [kind, hpresent, hpage, addr_of_entry rfl]
  rfl

theorem kind_page2M : kind 2 (x &&& ptAddrMask2M ||| 0x83) = .leaf (x &&& ptAddrMask2M).toNat := by
  have hpresent : present (x &&& ptAddrMask2M ||| 0x83) = true := present_entry rfl rfl x
  have hpage : isPage (x &&& ptAddrMask2M ||| 0x83) = true := isPage_entry rfl x
  rw [kind, hpresent, hpage, addr_of_entry rfl]
  rfl

theorem kind_page4K : kind 3 (x &&& ptAddrMask4K ||| 3) = .leaf (x &&& ptAddrMask4K).toNat := by
  have hpresent : present (x &&& ptAddrMask4K ||| 3) = true := present_entry rfl rfl x
  rw [kind, hpresent, addr_of_entry rfl]
  · rfl
  all_goals simp

/-! ## The tables as a radix table -/

/-- The tables in memory, as a walk reads them. -/
def tables (mem : Mem) (d a : Nat) (i : Fin 512) : Kind Nat Nat := kind d (mem (entry a i))

/-- The index of an address into the table at depth `d`. -/
def key (va d : Nat) : Fin 512 := ⟨va / 2 ^ (39 - 9 * d) % 512, Nat.mod_lt _ (by decide)⟩

/-- Translating an address is a lookup in the tables. -/
theorem getPhysicalAddr_eq (mem : Mem) (pageTable va : Nat) :
    getPhysicalAddr mem pageTable va =
      (lookup (tables mem) (key va) 3 0 pageTable).map fun r => r.2 + va % 2 ^ (39 - 9 * r.1) := by
  have h0 : (key va 0 : Nat) = pml4Offset va := rfl
  have h1 : (key va 1 : Nat) = pdpOffset va := rfl
  have h2 : (key va 2 : Nat) = pdOffset va := rfl
  have h3 : (key va 3 : Nat) = ptOffset va := rfl
  simp only [getPhysicalAddr, lookup, tables, h0, h1, h2, h3, kind]
  -- one depth after the other: the walk ends here, or it reads the next table
  generalize mem (entry pageTable (pml4Offset va)) = pml4
  cases present pml4 with
  | false => rfl
  | true =>
    simp only [Bool.not_true, Bool.false_eq_true, if_false, if_true]
    generalize mem (entry (tableOf pml4) (pdpOffset va)) = pdpe
    cases present pdpe with
    | false => rfl
    | true =>
      cases isPage pdpe with
      | true => rfl
      | false =>
        simp only [Bool.not_true, Bool.false_eq_true, if_false]
        generalize mem (entry (tableOf pdpe) (pdOffset va)) = pde
        cases present pde with
        | false => rfl
        | true =>
          cases isPage pde with
          | true => rfl
          | false =>
            simp only [Bool.not_true, Bool.false_eq_true, if_false]
            cases present (mem (entry (tableOf pde) (ptOffset va))) <;> rfl

/-- Every address that was translated is translated as before. -/
def Keeps (mem mem' : Mem) (pageTable : Nat) : Prop :=
  ∀ va r, getPhysicalAddr mem pageTable va = some r → getPhysicalAddr mem' pageTable va = some r

theorem Keeps.refl (mem : Mem) (pageTable : Nat) : Keeps mem mem pageTable := fun _ _ h => h

theorem Keeps.trans {mem1 mem2 mem3 : Mem} (h : Keeps mem1 mem2 pageTable)
    (h' : Keeps mem2 mem3 pageTable) : Keeps mem1 mem3 pageTable :=
  fun va r hr => h' va r (h va r hr)

/-- The page table `pageTable` is a tree of pages, of which none is at address 0 or in the pool,
entries that are not present are zero, and the pool consists of pages of physical memory. -/
structure WellFormed (vm : Vm) (pageTable : Nat) : Prop where
  aligned : pageTable % 4096 = 0
  tree : IsTree (tables vm.mem) pageTable
  nonzero : ∀ p a, tableAt (tables vm.mem) pageTable p = some a → a ≠ 0
  apart : ∀ p a, tableAt (tables vm.mem) pageTable p = some a →
    a < vm.pool ∨ vm.pool + 4096 * vm.freePages ≤ a
  zero : ∀ p a (i : Fin 512), tableAt (tables vm.mem) pageTable p = some a →
    present (vm.mem (entry a i)) = false → vm.mem (entry a i) = 0
  pool_aligned : vm.pool % 4096 = 0
  pool_pos : 0 < vm.pool
  pool_le : vm.pool + 4096 * vm.freePages ≤ 2 ^ 52

theorem kind_branch (h : kind d e = .branch a) : a = tableOf e := by
  unfold kind at h
  split at h <;> (repeat' split at h) <;> cases h <;> rfl

theorem WellFormed.table_aligned (hw : WellFormed vm pageTable)
    (ha : tableAt (tables vm.mem) pageTable p = some a) :
    a % 4096 = 0 := by
  cases p with
  | nil =>
    cases ha
    exact hw.aligned
  | cons i p =>
    obtain ⟨b, -, hb⟩ := (tableAt_cons_eq_some _ _).mp ha
    rw [kind_branch hb]
    exact tableOf_mod _

theorem entry_inj (ha : a % 4096 = 0) (hb : b % 4096 = 0)
    (h : entry a i = entry b j) : a = b ∧ i = j := by
  simp only [entry] at h
  constructor
  · omega
  · apply Fin.ext
    omega

theorem entry_ne (ha : a % 4096 = 0) (hb : b % 4096 = 0) (h : a ≠ b ∨ i ≠ j) :
    entry a i ≠ entry b j := by
  intro he
  obtain ⟨h1, h2⟩ := entry_inj ha hb he
  tauto

/-! ## Filling a page -/

theorem fillEntries_outside {size p start : Nat} (ha : a < p ∨ p + 8 * n ≤ a) :
    fillEntries mask flags size n p start mem a = mem a := by
  induction n generalizing p start mem with
  | zero => rfl
  | succ n ih =>
    rw [fillEntries, ih (by omega), update_of_ne (by omega)]

theorem fillEntries_entry {size p start : Nat} {i : Nat} (hi : i < n) :
      fillEntries mask flags size n p start mem (entry p i) =
        (UInt64.ofNat (start + i * size) &&& mask ||| flags) := by
  induction n generalizing p start mem i with
  | zero => omega
  | succ n ih =>
    cases i with
    | zero =>
      rw [fillEntries, fillEntries_outside (by simp only [entry]; omega)]
      simp [entry]
    | succ i =>
      have hentry : entry p (i + 1) = entry (p + 8) i := by
        simp only [entry]
        omega
      rw [fillEntries, hentry, ih (by omega), Nat.succ_mul]
      congr 3
      omega

/-- What the page for an entry `e` of a table at depth `d` is filled with: nothing outside the
page changes, and inside there are pages that map, one depth lower, what `e` mapped. -/
structure Refills (fill : UInt64 → Nat → Mem → Mem) (d : Nat) (e : UInt64) : Prop where
  outside : ∀ page mem a, a < page ∨ page + 4096 ≤ a → fill e page mem a = mem a
  childless : ∀ page mem (j : Fin 512),
    (kind (d + 1) (fill e page (zeroMem page mem) (entry page j))).child = none
  zero : ∀ page mem (j : Fin 512), present (fill e page (zeroMem page mem) (entry page j)) = false →
    fill e page (zeroMem page mem) (entry page j) = 0
  same : ∀ s, kind d e = .leaf s → ∀ page mem (j : Fin 512),
    kind (d + 1) (fill e page (zeroMem page mem) (entry page j)) =
      .leaf (s + j * 2 ^ (39 - 9 * (d + 1)))

theorem zeroMem_entry (page : Nat) (mem : Mem) (j : Fin 512) :
    zeroMem page mem (entry page j) = 0 := by
  rw [zeroMem, if_pos]
  simp only [entry]
  omega

theorem refills_pml4 (he : present e = false) : Refills (fun _ => fill1G 0) 0 e where
  outside page mem a ha := fillEntries_outside (by omega)
  childless page mem j := by
    simp only [fill1G, fillEntries_entry j.isLt, Nat.zero_add, kind_page1G]
    rfl
  zero page mem j hj := by
    simp only [fill1G, fillEntries_entry j.isLt] at hj
    rw [present_entry rfl rfl] at hj
    cases hj
  same s hs := by
    rw [kind, he] at hs
    cases hs

/-- The two depths at which a large page is split: the members differ in the sizes. -/
theorem refills_split {fill : Nat → Nat → Mem → Mem} {mask' : UInt64}
    (hfill : ∀ start page, fill start page = fillEntries mask' flags (2 ^ (39 - 9 * (d + 1)))
      512 page start)
    (hmask : mask' &&& 1 = 0) (hflags : flags &&& 1 = 1)
    (hkind : ∀ x : UInt64, kind (d + 1) (x &&& mask' ||| flags) = .leaf (x &&& mask').toNat)
    (habsent : kind (d + 1) 0 = .absent) (hpage : isPage e = false → ∀ s, kind d e ≠ .leaf s)
    (hleaf : ∀ s, kind d e = .leaf s → s = (e &&& mask).toNat)
    (haddr : ∀ j : Fin 512,
      (UInt64.ofNat ((e &&& mask).toNat + j * 2 ^ (39 - 9 * (d + 1))) &&& mask').toNat =
        (e &&& mask).toNat + j * 2 ^ (39 - 9 * (d + 1))) :
    Refills (fun e page mem => if isPage e then fill (e &&& mask).toNat page mem else mem) d e := by
  cases hp : isPage e with
  | false =>
    refine ⟨?_, ?_, ?_, ?_⟩
    · intro page mem a _
      simp [hp]
    · intro page mem j
      simp only [hp, Bool.false_eq_true, if_false, zeroMem_entry, habsent]
      rfl
    · intro page mem j _
      simp only [hp, Bool.false_eq_true, if_false, zeroMem_entry]
    · intro s hs
      exact absurd hs (hpage hp s)
  | true =>
    refine ⟨?_, ?_, ?_, ?_⟩
    · intro page mem a ha
      simp only [hp, if_true, hfill]
      exact fillEntries_outside (by omega)
    · intro page mem j
      simp only [hp, if_true, hfill, fillEntries_entry j.isLt, hkind]
      rfl
    · intro page mem j hj
      simp only [hp, if_true, hfill, fillEntries_entry j.isLt] at hj
      rw [present_entry hmask hflags] at hj
      cases hj
    · intro s hs page mem j
      rw [hleaf s hs]
      simp only [hp, if_true, hfill, fillEntries_entry j.isLt, hkind, haddr]

theorem refills_pdpe (e : UInt64) :
    Refills (fun e page mem =>
      if isPage e then fill2M (e &&& ptAddrMask1G).toNat page mem else mem) 1 e := by
  refine refills_split (fun _ _ => rfl) rfl rfl kind_page2M rfl ?_ ?_ ?_
  · intro hp s hs
    rw [kind, hp] at hs
    split at hs <;> cases hs
  · intro s hs
    rw [kind] at hs
    split at hs
    · cases hs
    · split at hs <;> cases hs
      rfl
  · intro j
    have hs := (UInt64.toNat_and e ptAddrMask1G).trans (and_mask (show 30 ≤ 52 by decide) e.toNat)
    rw [toNat_and_mask2M, UInt64.toNat_ofNat', hs]
    omega

theorem refills_pde (e : UInt64) :
    Refills (fun e page mem =>
      if isPage e then fill4K (e &&& ptAddrMask2M).toNat page mem else mem) 2 e := by
  refine refills_split (fun _ _ => rfl) rfl rfl kind_page4K rfl ?_ ?_ ?_
  · intro hp s hs
    rw [kind, hp] at hs
    split at hs <;> cases hs
  · intro s hs
    rw [kind] at hs
    split at hs
    · cases hs
    · split at hs <;> cases hs
      rfl
  · intro j
    have hs := toNat_and_mask2M e
    rw [toNat_and_mask4K, UInt64.toNat_ofNat', hs]
    omega

/-! ## Growing the tree -/

theorem newTable_eq {slot : Nat} (hpool : 0 < vm.pool) :
    newTable slot fill vm =
      if 1 ≤ vm.freePages then
        .ok { mem := Function.update
                (fill (zeroMem vm.pool vm.mem slot) vm.pool (zeroMem vm.pool vm.mem)) slot
                (UInt64.ofNat vm.pool &&& ptAddrMask4K ||| 3)
              pool := vm.pool + 4096
              freePages := vm.freePages - 1 }
      else .error .deadLoop := by
  unfold newTable vmAllocatePages
  by_cases hfree : 1 ≤ vm.freePages
  · have h0 : vm.pool ≠ 0 := by omega
    simp [hfree, h0, bind, Except.bind]
  · simp [hfree, bind, Except.bind]

section Grow

variable {vm : Vm} {pageTable : Nat} {p : List (Fin 512)} {t : Nat} {i : Fin 512}
  {fill : UInt64 → Nat → Mem → Mem}

/-- The memory in which `entry t i` leads to the first page of the pool. -/
def linked (vm : Vm) (fill : UInt64 → Nat → Mem → Mem) (slot : Nat) : Mem :=
  Function.update (fill (vm.mem slot) vm.pool (zeroMem vm.pool vm.mem)) slot
    (UInt64.ofNat vm.pool &&& ptAddrMask4K ||| 3)

variable (hw : WellFormed vm pageTable) (hp : tableAt (tables vm.mem) pageTable p = some t)
  (hfree : 1 ≤ vm.freePages)
include hw hp hfree

theorem entry_outside (j : Fin 512) : entry t j < vm.pool ∨ vm.pool + 4096 ≤ entry t j := by
  have ha := hw.table_aligned hp
  have hpool := hw.pool_aligned
  have := hw.apart p t hp
  simp only [entry]
  omega

theorem zeroMem_of_table (j : Fin 512) :
    zeroMem vm.pool vm.mem (entry t j) = vm.mem (entry t j) := by
  have := entry_outside hw hp hfree j
  rw [zeroMem, if_neg (by omega)]

theorem linked_of_table (hfill : Refills fill p.length (vm.mem (entry t i))) {q : List (Fin 512)}
    (hq : tableAt (tables vm.mem) pageTable q = some a) (hne : a ≠ t ∨ j ≠ i) :
    linked vm fill (entry t i) (entry a j) = vm.mem (entry a j) := by
  rw [linked, update_of_ne (entry_ne (hw.table_aligned hq) (hw.table_aligned hp) hne),
    hfill.outside _ _ _ (entry_outside hw hq hfree j), zeroMem_of_table hw hq hfree]

omit hp in
theorem pool_fresh (q : List (Fin 512)) : tableAt (tables vm.mem) pageTable q ≠ some vm.pool := by
  intro hq
  have := hw.apart q vm.pool hq
  omega

theorem linked_of_pool (j : Fin 512) :
    linked vm fill (entry t i) (entry vm.pool j) =
      fill (vm.mem (entry t i)) vm.pool (zeroMem vm.pool vm.mem) (entry vm.pool j) := by
  rw [linked, update_of_ne]
  refine entry_ne hw.pool_aligned (hw.table_aligned hp) (Or.inl ?_)
  rintro rfl
  exact pool_fresh hw hfree p hp

theorem linked_grows (hd : p.length ≤ 2)
    (hclosed : (kind p.length (vm.mem (entry t i))).child = none)
    (hfill : Refills fill p.length (vm.mem (entry t i))) :
    Grows (tables vm.mem) (tables (linked vm fill (entry t i))) pageTable p t i vm.pool where
  parent := hp
  off q a j hq hne := by
    simp only [tables]
    rw [linked_of_table hw hp hfree hfill hq hne]
  closed := hclosed
  link := by
    have hpool : (UInt64.ofNat vm.pool &&& ptAddrMask4K).toNat = vm.pool := by
      have := hw.pool_aligned
      have := hw.pool_le
      rw [toNat_and_mask4K, UInt64.toNat_ofNat']
      omega
    rw [tables, linked, update_self, kind_table _ hd, hpool]
  fresh := pool_fresh hw hfree
  childless j := by
    rw [tables, linked_of_pool hw hp hfree]
    exact hfill.childless _ _ j

/-- A new table keeps the page table well formed. -/
theorem linked_wellFormed (hd : p.length ≤ 2)
    (hclosed : (kind p.length (vm.mem (entry t i))).child = none)
    (hfill : Refills fill p.length (vm.mem (entry t i))) :
    WellFormed ⟨linked vm fill (entry t i), vm.pool + 4096, vm.freePages - 1⟩ pageTable := by
  have hgrow := linked_grows hw hp hfree hd hclosed hfill
  refine ⟨hw.aligned, hgrow.isTree hw.tree, ?_, ?_, ?_, ?_, ?_, ?_⟩
  · intro q a hq
    rcases hgrow.tableAt_cases hw.tree hq with ⟨-, rfl⟩ | hq
    · have := hw.pool_pos
      omega
    · exact hw.nonzero q a hq
  · intro q a hq
    rcases hgrow.tableAt_cases hw.tree hq with ⟨-, rfl⟩ | hq
    · simp only
      omega
    · have := hw.apart q a hq
      simp only
      omega
  · intro q a j hq hj
    simp only at hq hj ⊢
    rcases hgrow.tableAt_cases hw.tree hq with ⟨-, rfl⟩ | hq
    · rw [linked_of_pool hw hp hfree] at hj ⊢
      exact hfill.zero _ _ j hj
    · by_cases hne : a ≠ t ∨ j ≠ i
      · rw [linked_of_table hw hp hfree hfill hq hne] at hj ⊢
        exact hw.zero q a j hq hj
      · -- the changed entry is present
        push Not at hne
        obtain ⟨rfl, rfl⟩ := hne
        rw [linked, update_self, present_entry rfl rfl] at hj
        cases hj
  · have := hw.pool_aligned
    simp only
    omega
  · simp only
    omega
  · have := hw.pool_le
    simp only
    omega

/-- A new table keeps the translations. -/
theorem linked_keeps (hd : p.length ≤ 2)
    (hclosed : (kind p.length (vm.mem (entry t i))).child = none)
    (hfill : Refills fill p.length (vm.mem (entry t i))) :
    Keeps vm.mem (linked vm fill (entry t i)) pageTable := by
  have hgrow := linked_grows hw hp hfree hd hclosed hfill
  intro va r hr
  rw [getPhysicalAddr_eq] at hr ⊢
  by_cases hk : steps (key va) (p.length + 1) = i :: p
  · -- the address goes through the changed entry, which was a large page
    obtain ⟨hki, hkp⟩ := List.cons.inj hk
    have hold := lookup_steps _ _ (hkp.symm ▸ hp) (3 - p.length)
    have hnew := lookup_steps _ _ (hk.symm ▸ hgrow.tableAt_new hw.tree) (2 - p.length)
    rw [show p.length + (3 - p.length) = 3 by omega] at hold
    rw [show p.length + 1 + (2 - p.length) = 3 by omega] at hnew
    rw [hold] at hr
    rw [hnew]
    cases hkind : tables vm.mem p.length t (key va p.length) with
    | absent =>
      rw [lookup_absent _ hkind] at hr
      cases hr
    | branch b =>
      rw [hki] at hkind
      rw [tables] at hkind
      rw [hkind] at hclosed
      cases hclosed
    | leaf s =>
      have hsame : tables (linked vm fill (entry t i)) (p.length + 1) vm.pool
          (key va (p.length + 1)) =
            .leaf (s + key va (p.length + 1) * 2 ^ (39 - 9 * (p.length + 1))) := by
        rw [tables, linked_of_pool hw hp hfree]
        exact hfill.same s (by rw [← hkind, hki, tables]) vm.pool vm.mem _
      rw [lookup_leaf _ hkind] at hr
      rw [lookup_leaf _ hsame]
      rw [← hr]
      simp only [Option.map_some, key, Option.some.injEq]
      rw [show 39 - 9 * p.length = 39 - 9 * (p.length + 1) + 9 by omega, Nat.pow_add,
        Nat.mod_mul, Nat.mul_comm (va / _ % 512), show (2 : Nat) ^ 9 = 512 from rfl]
      omega
  · rw [lookup_of_off hw.tree hp hgrow.off hk]
    exact hr

end Grow

/-- The way of the key `k` was opened down to depth `d + 1`, by the entry of the table `t`. -/
structure Opened (vm vm' : Vm) (pageTable : Nat) (k : Nat → Fin 512) (d t : Nat) : Prop where
  wellFormed : WellFormed vm' pageTable
  keeps : Keeps vm.mem vm'.mem pageTable
  free_le : vm'.freePages ≤ vm.freePages
  le_free : vm.freePages ≤ vm'.freePages + 1
  next : tableAt (tables vm'.mem) pageTable (steps k (d + 1)) =
    some (tableOf (vm'.mem (entry t (k d))))

/-- The steps that open the tables at the first three depths: an entry that leads to a table is
left alone, any other gets a new table. -/
theorem grow_spec {k : Nat → Fin 512} {t : Nat} (hd : d ≤ 2) (hw : WellFormed vm pageTable)
    (ht : tableAt (tables vm.mem) pageTable (steps k d) = some t) {leads : UInt64 → Bool}
    (hleads : ∀ e, leads e = true → kind d e = .branch (tableOf e))
    (hfill : ∀ e, leads e = false → (kind d e).child = none ∧ Refills fill d e)
    {run : Except Failure Vm}
    (hrun : run =
      if leads (vm.mem (entry t (k d))) then .ok vm else newTable (entry t (k d)) fill vm) :
    (∃ vm', run = .ok vm' ∧ Opened vm vm' pageTable k d t) ∨
      (run = .error .deadLoop ∧ vm.freePages = 0) := by
  cases hl : leads (vm.mem (entry t (k d))) with
  | true =>
    rw [hl, if_pos rfl] at hrun
    refine Or.inl ⟨vm, hrun, hw, Keeps.refl _ _, le_refl _, Nat.le_succ _, ?_⟩
    refine (tableAt_cons_eq_some _ _).mpr ⟨t, ht, ?_⟩
    rw [length_steps]
    exact hleads _ hl
  | false =>
    rw [hl, if_neg Bool.false_ne_true, newTable_eq hw.pool_pos] at hrun
    by_cases hfree : 1 ≤ vm.freePages
    · rw [if_pos hfree, zeroMem_of_table hw ht hfree] at hrun
      obtain ⟨hclosed, hrefills⟩ := hfill _ hl
      have hlen : (steps k d).length ≤ 2 := by rwa [length_steps]
      have hclosed' : (kind (steps k d).length (vm.mem (entry t (k d)))).child = none := by
        rwa [length_steps]
      have hrefills' : Refills fill (steps k d).length (vm.mem (entry t (k d))) := by
        rwa [length_steps]
      have hgrow := linked_grows hw ht hfree hlen hclosed' hrefills'
      refine Or.inl ⟨_, hrun, ?_, ?_, Nat.sub_le _ _, ?_, ?_⟩
      · exact linked_wellFormed hw ht hfree hlen hclosed' hrefills'
      · exact linked_keeps hw ht hfree hlen hclosed' hrefills'
      · simp only
        omega
      · exact (hgrow.tableAt_new hw.tree).trans (congrArg some (kind_branch hgrow.link))
    · rw [if_neg hfree] at hrun
      exact Or.inr ⟨hrun, by omega⟩

section Steps

variable {vm : Vm} {pageTable : Nat} {k : Nat → Fin 512} {t : Nat}

theorem growPml4_spec (hw : WellFormed vm pageTable)
    (ht : tableAt (tables vm.mem) pageTable (steps k 0) = some t) :
    (∃ vm', growPml4 (entry t (k 0)) vm = .ok vm' ∧ Opened vm vm' pageTable k 0 t) ∨
      (growPml4 (entry t (k 0)) vm = .error .deadLoop ∧ vm.freePages = 0) := by
  refine grow_spec (by decide) hw ht ?_ ?_ rfl
  · intro e he
    rw [kind, if_pos he]
  · intro e he
    refine ⟨?_, refills_pml4 he⟩
    rw [kind, he]
    rfl

theorem leads_iff (hd : d = 1 ∨ d = 2) :
    ((present e && !isPage e) = true → kind d e = .branch (tableOf e)) ∧
      ((present e && !isPage e) = false → (kind d e).child = none) := by
  rcases hd with rfl | rfl <;>
    cases hp : present e <;> cases hg : isPage e <;> simp [kind, hp, hg, Kind.child]

theorem growPdpe_spec (hw : WellFormed vm pageTable)
    (ht : tableAt (tables vm.mem) pageTable (steps k 1) = some t) :
    (∃ vm', growPdpe (entry t (k 1)) vm = .ok vm' ∧ Opened vm vm' pageTable k 1 t) ∨
      (growPdpe (entry t (k 1)) vm = .error .deadLoop ∧ vm.freePages = 0) :=
  grow_spec (by decide) hw ht (fun _ => (leads_iff (Or.inl rfl)).1)
    (fun e he => ⟨(leads_iff (Or.inl rfl)).2 he, refills_pdpe e⟩) rfl

theorem growPde_spec (hw : WellFormed vm pageTable)
    (ht : tableAt (tables vm.mem) pageTable (steps k 2) = some t) :
    (∃ vm', growPde (entry t (k 2)) vm = .ok vm' ∧ Opened vm vm' pageTable k 2 t) ∨
      (growPde (entry t (k 2)) vm = .error .deadLoop ∧ vm.freePages = 0) :=
  grow_spec (by decide) hw ht (fun _ => (leads_iff (Or.inr rfl)).1)
    (fun e he => ⟨(leads_iff (Or.inr rfl)).2 he, refills_pde e⟩) rfl

end Steps

theorem tableOf_eq_of_base {e' : UInt64} (h : pageTableBaseAddress e = pageTableBaseAddress e') :
    tableOf e = tableOf e' := by
  have hbase : ∀ x : UInt64, (pageTableBaseAddress x).toNat = x.toNat / 2 ^ 12 % 2 ^ 40 := by
    intro x
    rw [pageTableBaseAddress, UInt64.toNat_and, UInt64.toNat_shiftRight,
      show UInt64.toNat 0xFFFFFFFFFF = 2 ^ 40 - 1 by decide, Nat.and_two_pow_sub_one_eq_mod,
      Nat.shiftRight_eq_div_pow]
    rfl
  have heq := congrArg UInt64.toNat h
  rw [hbase, hbase] at heq
  rw [tableOf, tableOf, toNat_and_mask4K, toNat_and_mask4K]
  omega

/-- In a well formed page table no entry shares the table of the first one. -/
theorem releasePml4_eq (hw : WellFormed vm pageTable) (i : Fin 512) :
    releasePml4 pageTable (entry pageTable i) vm = vm := by
  rw [releasePml4, if_neg]
  intro ⟨hne, hpresent, hbase⟩
  have hroot : tableAt (tables vm.mem) pageTable [] = some pageTable := rfl
  have htable : ∀ j : Fin 512, present (vm.mem (entry pageTable j)) = true →
      tableAt (tables vm.mem) pageTable [j] = some (tableOf (vm.mem (entry pageTable j))) := by
    intro j hj
    rw [tableAt_cons _ _ hroot, tables, List.length_nil, kind, if_pos hj]
    rfl
  have hi := htable i hpresent
  have hsame := tableOf_eq_of_base hbase
  have hzero : pageTable = entry pageTable (0 : Fin 512) := rfl
  cases hfirst : present (vm.mem pageTable) with
  | true =>
    -- both entries would lead to one table
    rw [hzero] at hfirst hsame
    have h0 := htable 0 hfirst
    rw [← hzero] at hsame
    rw [← hzero, hsame] at h0
    have := hw.tree _ _ _ hi h0
    simp only [List.cons.injEq, and_true] at this
    rw [this] at hne
    exact hne rfl
  | false =>
    -- the first entry is zero, so the table would be at address 0
    have h0 : vm.mem pageTable = 0 := hw.zero [] pageTable 0 hroot hfirst
    rw [h0] at hsame
    exact hw.nonzero _ _ hi hsame.symm

/-! ## Mapping one page -/

/-- The number of a page in the space that the tables translate, which has 48 bits. -/
def pageOf (va : Nat) : Nat := va / 2 ^ 12 % 2 ^ 36

/-- Addresses go the same way to the end just when they are in the same page. -/
theorem steps_key_iff (a b : Nat) : steps (key a) 4 = steps (key b) 4 ↔ pageOf a = pageOf b := by
  simp only [steps, key, pageOf, List.cons.injEq, Fin.mk.injEq, and_true, Nat.reduceMul,
    Nat.reduceSub]
  omega

/-- One page was mapped: its addresses are translated into the page at `pa`, and the addresses
of the other pages as before. -/
structure Mapped (vm vm' : Vm) (pageTable va pa : Nat) : Prop where
  wellFormed : WellFormed vm' pageTable
  maps : ∀ a, pageOf a = pageOf va →
    getPhysicalAddr vm'.mem pageTable a = some (pa % 2 ^ 52 / 2 ^ 12 * 2 ^ 12 + a % 2 ^ 12)
  others : ∀ a r, pageOf a ≠ pageOf va → getPhysicalAddr vm.mem pageTable a = some r →
    getPhysicalAddr vm'.mem pageTable a = some r

theorem kind_three_child (e : UInt64) : (kind 3 e).child = none := by
  simp only [kind]
  split <;> rfl

/-- Writing the last entry maps the page. -/
theorem setPte_mapped {t : Nat} (hw : WellFormed vm pageTable)
    (ht : tableAt (tables vm.mem) pageTable (steps (key va) 3) = some t) (hpa : pa < 2 ^ 64) :
    Mapped vm ⟨Function.update vm.mem (entry t (key va 3))
      (UInt64.ofNat pa &&& ptAddrMask4K ||| 3), vm.pool, vm.freePages⟩ pageTable va pa := by
  have hoff : Off (tables vm.mem) (tables (Function.update vm.mem (entry t (key va 3))
      (UInt64.ofNat pa &&& ptAddrMask4K ||| 3))) pageTable t (key va 3) := by
    intro q a j hq hne
    rw [tables, tables,
      update_of_ne (entry_ne (hw.table_aligned hq) (hw.table_aligned ht) hne)]
  have htables := tableAt_of_sets hw.tree ht hoff
    (by rw [length_steps]; exact kind_three_child _)
    (by rw [length_steps]; exact kind_three_child _)
  refine ⟨⟨hw.aligned, ?_, ?_, ?_, ?_, hw.pool_aligned, hw.pool_pos, hw.pool_le⟩, ?_, ?_⟩
  · intro p q a hp hq
    rw [htables] at hp hq
    exact hw.tree p q a hp hq
  · intro p a hp
    rw [htables] at hp
    exact hw.nonzero p a hp
  · intro p a hp
    rw [htables] at hp
    exact hw.apart p a hp
  · intro p a j hp hj
    simp only at hp hj ⊢
    rw [htables] at hp
    by_cases hne : a ≠ t ∨ j ≠ key va 3
    · rw [update_of_ne (entry_ne (hw.table_aligned hp) (hw.table_aligned ht) hne)] at hj ⊢
      exact hw.zero p a j hp hj
    · push Not at hne
      obtain ⟨rfl, rfl⟩ := hne
      rw [update_self, present_entry rfl rfl] at hj
      cases hj
  · intro a ha
    obtain ⟨hk3, hk⟩ := List.cons.inj ((steps_key_iff a va).mpr ha)
    rw [← htables] at ht
    have hlookup := lookup_steps _ _ ((congrArg _ hk).trans ht) 0
    rw [getPhysicalAddr_eq, hlookup]
    have hleaf : tables (Function.update vm.mem (entry t (key va 3))
        (UInt64.ofNat pa &&& ptAddrMask4K ||| 3)) 3 t (key a 3) =
          .leaf (pa % 2 ^ 52 / 2 ^ 12 * 2 ^ 12) := by
      rw [tables, hk3, update_self, kind_page4K, toNat_and_mask4K, UInt64.toNat_ofNat',
        Nat.mod_eq_of_lt hpa]
    rw [lookup_leaf _ hleaf]
    rfl
  · intro a r ha hr
    rw [getPhysicalAddr_eq] at hr ⊢
    rw [lookup_of_off hw.tree ht hoff]
    · exact hr
    · intro hk
      exact ha ((steps_key_iff a va).mp hk)

/-- Mapping one page uses at most three pages of the pool, and fails only when they run out. -/
theorem vmMapVirtualPage_spec (hw : WellFormed vm pageTable) (hpa : pa < 2 ^ 64) :
    (∃ vm', vmMapVirtualPage pageTable va pa vm = .ok vm' ∧ Mapped vm vm' pageTable va pa ∧
      vm.freePages ≤ vm'.freePages + 3) ∨
    (vmMapVirtualPage pageTable va pa vm = .error .deadLoop ∧ vm.freePages < 3) := by
  unfold vmMapVirtualPage
  have h0 : pml4Offset va = key va 0 := rfl
  have h1 : pdpOffset va = key va 1 := rfl
  have h2 : pdOffset va = key va 2 := rfl
  have h3 : ptOffset va = key va 3 := rfl
  simp only [h0, h1, h2, h3, releasePml4_eq hw]
  have hroot : tableAt (tables vm.mem) pageTable (steps (key va) 0) = some pageTable := rfl
  rcases growPml4_spec hw hroot with ⟨vm1, hrun1, hop1⟩ | ⟨hrun, hfree⟩
  · rw [hrun1]
    rcases growPdpe_spec hop1.wellFormed hop1.next with ⟨vm2, hrun2, hop2⟩ | ⟨hrun, hfree⟩
    · simp only [bind, Except.bind]
      rw [hrun2]
      rcases growPde_spec hop2.wellFormed hop2.next with ⟨vm3, hrun3, hop3⟩ | ⟨hrun, hfree⟩
      · simp only
        rw [hrun3]
        have hset := setPte_mapped hop3.wellFormed hop3.next hpa
        refine Or.inl ⟨_, rfl, ⟨hset.wellFormed, hset.maps, ?_⟩, ?_⟩
        · intro a r ha hr
          exact hset.others a r ha (((hop1.keeps.trans hop2.keeps).trans hop3.keeps) a r hr)
        · have := hop1.le_free
          have := hop2.le_free
          have := hop3.le_free
          simp only
          omega
      · simp only
        rw [hrun]
        have := hop1.le_free
        have := hop2.le_free
        exact Or.inr ⟨rfl, by omega⟩
    · simp only [bind, Except.bind]
      rw [hrun]
      have := hop1.le_free
      exact Or.inr ⟨rfl, by omega⟩
  · rw [hrun]
    exact Or.inr ⟨rfl, by omega⟩

/-! ## Mapping a range -/

/-- A range of pages was mapped, page by page modulo the 48 bits of the translated space. -/
structure MappedRange (vm vm' : Vm) (pageTable va n pa : Nat) : Prop where
  wellFormed : WellFormed vm' pageTable
  maps : ∀ j, j < n → ∀ a, pageOf a = (pageOf va + j) % 2 ^ 36 →
    getPhysicalAddr vm'.mem pageTable a =
      some ((pa + 4096 * j) % 2 ^ 52 / 2 ^ 12 * 2 ^ 12 + a % 2 ^ 12)
  others : ∀ a r, (∀ j, j < n → pageOf a ≠ (pageOf va + j) % 2 ^ 36) →
    getPhysicalAddr vm.mem pageTable a = some r → getPhysicalAddr vm'.mem pageTable a = some r

theorem pageOf_next (va : Nat) : pageOf ((va + 0x1000) % 2 ^ 64) = (pageOf va + 1) % 2 ^ 36 := by
  simp only [pageOf]
  omega

/-- A range is mapped page by page, or the pool runs out. -/
theorem vmMapVirtualPages_spec (hn : n ≤ 2 ^ 36) :
    ∀ (vm : Vm) (va pa : Nat), WellFormed vm pageTable → pa + 4096 * n < 2 ^ 64 →
    (∃ vm', vmMapVirtualPages pageTable va n pa vm = .ok vm' ∧
      MappedRange vm vm' pageTable va n pa) ∨
    (vmMapVirtualPages pageTable va n pa vm = .error .deadLoop ∧ vm.freePages < 3 * n) := by
  induction n with
  | zero =>
    intro vm va pa hw _
    refine Or.inl ⟨vm, rfl, hw, ?_, ?_⟩
    · intro j hj
      omega
    · intro a r _ hr
      exact hr
  | succ n ih =>
    intro vm va pa hw hpa
    rw [vmMapVirtualPages]
    have hpa' : pa < 2 ^ 64 := by omega
    have hnext_pa : (pa + 0x1000) % 2 ^ 64 = pa + 0x1000 := by omega
    rcases vmMapVirtualPage_spec hw hpa' with ⟨vm1, hrun1, hmap, hfree1⟩ | ⟨hrun, hfree⟩
    · rw [hrun1]
      rw [hnext_pa]
      have hrest := ih (by omega) vm1 ((va + 0x1000) % 2 ^ 64) (pa + 0x1000) hmap.wellFormed
        (by omega)
      have hnext := pageOf_next va
      have hlt : pageOf va < 2 ^ 36 := Nat.mod_lt _ (Nat.two_pow_pos 36)
      rcases hrest with ⟨vm', hrun', hrange⟩ | ⟨hrun', hfree'⟩
      · refine Or.inl ⟨vm', hrun', hrange.wellFormed, ?_, ?_⟩
        · intro j hj a ha
          cases j with
          | zero =>
            -- the first page is none of the later ones
            refine hrange.others a _ ?_ (hmap.maps a (by omega))
            intro j hj
            omega
          | succ j =>
            rw [hrange.maps j (by omega) a (by omega), show pa + 0x1000 + 4096 * j =
              pa + 4096 * (j + 1) by omega]
        · intro a r ha hr
          refine hrange.others a r ?_ (hmap.others a r ?_ hr)
          · intro j hj
            have := ha (j + 1) (by omega)
            omega
          · have := ha 0 (by omega)
            omega
      · exact Or.inr ⟨hrun', by omega⟩
    · rw [hrun]
      exact Or.inr ⟨rfl, by omega⟩

theorem vaFixSignExtend_of_page (h : a % 2 ^ 48 = b % 2 ^ 48) :
    vaFixSignExtend a = vaFixSignExtend b := by
  have hoffset : pml4Offset a = pml4Offset b := by
    simp only [pml4Offset]
    omega
  rw [vaFixSignExtend, vaFixSignExtend, h, hoffset]

/-- Mapping `n` pages from `va` to `pa` in a well formed page table, when the range does not wrap
in the 48 bits that the tables translate. The addresses of the range are meant as canonical ones,
so that `vaFixSignExtend (va + d)` is `va + d` itself unless the range leaves its half of the
address space. Three free pages for each page are always enough; and whenever there are enough
every address of the range is translated as asked, every canonical address outside it that had a
translation keeps it, and the page table is well formed again. -/
theorem vmMapVirtualPages_maps {vm : Vm} {pageTable va n pa : Nat} (hw : WellFormed vm pageTable)
    (hva : va % 4096 = 0) (hpa : pa % 4096 = 0) (hlt : pa < 2 ^ 52) (hn : 4096 * n ≤ 2 ^ 48) :
    (3 * n ≤ vm.freePages → vmMapVirtualPages pageTable va n pa vm ≠ .error .deadLoop) ∧
    (vmMapVirtualPages pageTable va n pa vm ≠ .error .deadLoop →
      ∃ vm', vmMapVirtualPages pageTable va n pa vm = .ok vm' ∧
        (∀ d, d < 4096 * n → pa + d < 2 ^ 52 →
          getPhysicalAddr vm'.mem pageTable (va + d) = some (pa + d)) ∧
        (∀ a r, vaFixSignExtend a = a → (∀ d, d < 4096 * n → a ≠ vaFixSignExtend (va + d)) →
          getPhysicalAddr vm.mem pageTable a = some r →
            getPhysicalAddr vm'.mem pageTable a = some r) ∧
        WellFormed vm' pageTable) := by
  have hpages : n ≤ 2 ^ 36 := by omega
  rcases vmMapVirtualPages_spec hpages vm va pa hw (by omega) with
    ⟨vm', hrun, hrange⟩ | ⟨hrun, hfree⟩
  · refine ⟨fun _ h => ?_, fun _ => ⟨vm', hrun, ?_, ?_, hrange.wellFormed⟩⟩
    · rw [hrun] at h
      cases h
    · intro d hd hpd
      rw [hrange.maps (d / 4096) (by omega) (va + d) (by simp only [pageOf]; omega)]
      congr 1
      omega
    · intro a r ha hout hr
      refine hrange.others a r ?_ hr
      intro j hj hpage
      -- the address would be in page `j` of the range, at its own offset
      refine hout (4096 * j + a % 4096) (by omega) ?_
      refine ha.symm.trans (vaFixSignExtend_of_page ?_)
      simp only [pageOf] at hpage
      omega
  · refine ⟨fun h => ?_, fun h => absurd hrun h⟩
    omega

/-- A machine whose page table, at 4096, is empty, with a pool of nine pages behind it. -/
def emptyVm : Vm := ⟨fun _ => 0, 8192, 9⟩

theorem tableAt_emptyVm (h : tableAt (tables emptyVm.mem) 4096 p = some a) : p = [] ∧ a = 4096 := by
  cases p with
  | nil => exact ⟨rfl, (Option.some.inj h).symm⟩
  | cons i p =>
    obtain ⟨b, -, hb⟩ := (tableAt_cons_eq_some _ _).mp h
    simp only [tables, emptyVm] at hb
    unfold kind at hb
    split at hb <;> cases hb

theorem emptyVm_wellFormed : WellFormed emptyVm 4096 where
  aligned := rfl
  tree p q a hp hq := by rw [(tableAt_emptyVm hp).1, (tableAt_emptyVm hq).1]
  nonzero p a hp := by
    rw [(tableAt_emptyVm hp).2]
    decide
  apart p a hp := by
    rw [(tableAt_emptyVm hp).2]
    decide
  zero _ _ _ _ _ := rfl
  pool_aligned := rfl
  pool_pos := by decide
  pool_le := by decide

/-- Two pages are mapped into the empty page table and then a third one, which leaves the
translations of the two as they are. -/
theorem vmMapVirtualPages_maps_sample :
    ∃ vm' vm'', vmMapVirtualPages 4096 0 2 0x200000 emptyVm = .ok vm' ∧
      getPhysicalAddr vm'.mem 4096 0x1004 = some 0x201004 ∧
      vmMapVirtualPages 4096 0x5000 1 0x300000 vm' = .ok vm'' ∧
      getPhysicalAddr vm''.mem 4096 0x1004 = some 0x201004 ∧
      getPhysicalAddr vm''.mem 4096 0x5008 = some 0x300008 ∧ WellFormed vm'' 4096 := by
  have h := @vmMapVirtualPages_maps emptyVm 4096 0 2 0x200000 emptyVm_wellFormed rfl rfl (by decide)
    (by decide)
  obtain ⟨vm', hrun, hmaps, -, hw⟩ := h.2 (h.1 (by decide))
  have hfree : (vmMapVirtualPages 4096 0 2 0x200000 emptyVm).map Vm.freePages = .ok 6 := by
    decide +kernel
  rw [hrun] at hfree
  have hthree : 3 * 1 ≤ vm'.freePages := by
    rw [Except.ok.inj hfree]
    decide
  have h' := @vmMapVirtualPages_maps vm' 4096 0x5000 1 0x300000 hw rfl rfl (by decide) (by decide)
  obtain ⟨vm'', hrun', hmaps', hkept, hw'⟩ := h'.2 (h'.1 hthree)
  have hfirst := hmaps 0x1004 (by decide) (by decide)
  have houtside : ∀ d, d < 4096 * 1 → 0x1004 ≠ vaFixSignExtend (0x5000 + d) := by
    intro d hd
    unfold vaFixSignExtend
    omega
  exact ⟨vm', vm'', hrun, hfirst, hrun', hkept 0x1004 _ (by decide) houtside hfirst,
    hmaps' 8 (by decide) (by decide), hw'⟩

/-! ## Runs of calls -/

/-- A call that maps the page of `va` to that of `pa`. -/
structure MapCall where
  va : Nat
  pa : UInt64

def MapCall.run (pageTable : Nat) (vm : Vm) (c : MapCall) : Except Failure Vm :=
  vmMapVirtualPage pageTable c.va c.pa.toNat vm

/-- What the call is to make of a translation. -/
def MapCall.translate (t : Nat → Option Nat) (c : MapCall) (a : Nat) : Option Nat :=
  if pageOf a = pageOf c.va then some (c.pa.toNat % 2 ^ 52 / 2 ^ 12 * 2 ^ 12 + a % 2 ^ 12) else t a

structure Realises (vm : Vm) (pageTable : Nat) (t : Nat → Option Nat) : Prop where
  wellFormed : WellFormed vm pageTable
  translates : ∀ a r, t a = some r → getPhysicalAddr vm.mem pageTable a = some r

/-- After any calls the page table realises the translation that they ask for one after the other,
and only a pool with less than three pages for each call can run out. -/
theorem realises_run {t : Nat → Option Nat} (h : Realises vm pageTable t) (calls : List MapCall) :
    (calls.foldlM (MapCall.run pageTable) vm = .error .deadLoop ∧ vm.freePages < 3 * calls.length) ∨
    ∃ vm', calls.foldlM (MapCall.run pageTable) vm = .ok vm' ∧
      Realises vm' pageTable (calls.foldl MapCall.translate t) := by
  induction calls generalizing vm t with
  | nil => exact Or.inr ⟨vm, rfl, h⟩
  | cons c calls ih =>
    rw [List.foldlM_cons, MapCall.run, List.length_cons]
    rcases @vmMapVirtualPage_spec _ pageTable c.va vm h.wellFormed c.pa.toNat_lt with
      ⟨vm', hrun, hmap, hfree⟩ | ⟨hrun, hfree⟩
    · have hrealises : Realises vm' pageTable (c.translate t) := by
        refine ⟨hmap.wellFormed, fun a r hr => ?_⟩
        unfold MapCall.translate at hr
        split at hr
        · next ha => exact (hmap.maps a ha).trans hr
        · next ha => exact hmap.others a r ha (h.translates a r hr)
      rw [hrun]
      exact (ih hrealises).imp_left fun h => ⟨h.1, by omega⟩
    · rw [hrun]
      exact Or.inl ⟨rfl, by omega⟩

/-- Two calls for page 0 of the empty page table. -/
theorem realises_run_twice : ∃ vm,
    [⟨0, 0x200000⟩, ⟨8, 0x400000⟩].foldlM (MapCall.run 4096) emptyVm = .ok vm ∧
      getPhysicalAddr vm.mem 4096 4 = some 0x400004 :=
  ((realises_run ⟨emptyVm_wellFormed, fun _ _ h => h⟩ _).resolve_left
    fun h => absurd h.2 (by decide)).imp fun vm h => ⟨h.1, h.2.translates 4 _ rfl⟩

end Clover.MemoryFix
