import Mathlib

/-!
# Allocating pages from the top of memory

`AllocatePagesFromTop` walks the memory map backwards and takes the first conventional descriptor
with enough pages below the limit. On a sorted map with disjoint descriptors this is the highest
place there is (`allocatePagesFromTop_highest`).
-/

namespace Clover.MemoryFix

/-- A descriptor of the firmware: page aligned, with an end that fits in 64 bits. -/
structure MemoryDescriptor where
  type : UInt32
  physicalStart : Nat
  numberOfPages : Nat
  aligned : physicalStart % 4096 = 0
  end_lt : physicalStart + numberOfPages * 4096 < 2 ^ 64

def efiConventionalMemory : UInt32 := 7

def efiNotFound : UInt64 := 0x800000000000000e

/-- `EFI_PAGES_TO_SIZE` -/
def efiPagesToSize (pages : Nat) : Nat := pages * 4096 % 2 ^ 64

/-- The loop of `AllocatePagesFromTop` over the descriptors in backward order, up to its call of
`AllocatePages`. -/
def addressFromTop (pages memory : Nat) : List MemoryDescriptor → Option Nat
  | [] => none
  | desc :: descs =>
    if desc.type = efiConventionalMemory ∧ pages ≤ desc.numberOfPages ∧
        (desc.physicalStart + efiPagesToSize pages) % 2 ^ 64 ≤ memory then
      if (desc.physicalStart + efiPagesToSize desc.numberOfPages) % 2 ^ 64 ≤ memory then
        some ((desc.physicalStart + efiPagesToSize (desc.numberOfPages - pages)) % 2 ^ 64)
      -- the test above keeps this subtraction from wrapping
      else some (memory - efiPagesToSize pages)
    else addressFromTop pages memory descs

/-- The status, what `*Memory` holds afterwards and the addresses `AllocatePages` was called at. -/
def allocatePagesFromTop (getMemoryMapAlloc : Except UInt64 (List MemoryDescriptor))
    (allocatePages : Nat → UInt64 × Nat) (pages memory : Nat) : UInt64 × Nat × List Nat :=
  match getMemoryMapAlloc with
  | .error status => (status, memory, [])
  | .ok memoryMap =>
    match addressFromTop pages memory memoryMap.reverse with
    | none => (efiNotFound, memory, [])
    | some address => ((allocatePages address).1, (allocatePages address).2, [address])

/-! ## The highest fit -/

def MemoryDescriptor.range (d : MemoryDescriptor) : Set Nat :=
  Set.Ico d.physicalStart (d.physicalStart + d.numberOfPages * 4096)

/-- The range of `pages` pages at `a` is free, in one descriptor, and ends at or below `limit`. -/
def Fits (descs : List MemoryDescriptor) (pages limit a : Nat) : Prop :=
  a % 4096 = 0 ∧ a + pages * 4096 ≤ limit ∧ ∃ d ∈ descs, d.type = efiConventionalMemory ∧
    d.physicalStart ≤ a ∧ a + pages * 4096 ≤ d.physicalStart + d.numberOfPages * 4096

variable {descs : List MemoryDescriptor} {pages memory : Nat}

theorem efiPagesToSize_eq {d : MemoryDescriptor} (h : pages ≤ d.numberOfPages) :
    efiPagesToSize pages = pages * 4096 := by
  have hend := d.end_lt
  exact Nat.mod_eq_of_lt (by omega)

/-- Going backwards, every descriptor still to come lies below the present one. -/
theorem addressFromTop_spec (hpages : 0 < pages) (haligned : memory % 4096 = 0)
    (hsorted : descs.Pairwise fun d' d =>
      d.physicalStart ≤ d'.physicalStart ∧ Disjoint d.range d'.range) :
    (∃ a, IsGreatest {a | Fits descs pages memory a} a ∧
      addressFromTop pages memory descs = some a) ∨
    (¬ ∃ a, Fits descs pages memory a) ∧ addressFromTop pages memory descs = none := by
  induction descs with
  | nil => exact Or.inr ⟨by simp [Fits], rfl⟩
  | cons d descs ih =>
    obtain ⟨hbelow, hsorted⟩ := List.pairwise_cons.mp hsorted
    have hd := d.aligned
    have hend := d.end_lt
    unfold addressFromTop
    split
    · next hroom =>
      obtain ⟨htype, hle, hlimit⟩ := hroom
      rw [efiPagesToSize_eq hle] at hlimit ⊢
      rw [efiPagesToSize_eq (Nat.le_refl d.numberOfPages), efiPagesToSize_eq (Nat.sub_le _ pages)]
      have hhigh : ∀ a, d.physicalStart ≤ a → (∀ b, b % 4096 = 0 → b + pages * 4096 ≤ memory →
          b + pages * 4096 ≤ d.physicalStart + d.numberOfPages * 4096 → b ≤ a) →
          ∀ b, Fits (d :: descs) pages memory b → b ≤ a := by
        rintro a ha htop b ⟨hb, hbelow', e, he, -, hstart, hstop⟩
        rcases List.mem_cons.mp he with rfl | he
        · exact htop b hb hbelow' hstop
        · obtain ⟨hfirst, hapart⟩ := hbelow e he
          have := Set.Ico_disjoint_Ico.mp hapart
          omega
      left
      split
      all_goals
        refine ⟨_, ⟨⟨?_, ?_, d, List.mem_cons_self, htype, ?_, ?_⟩, hhigh _ ?_ ?_⟩, rfl⟩ <;> omega
    · next hroom =>
      have hskip : ∀ a, Fits (d :: descs) pages memory a ↔ Fits descs pages memory a := by
        intro a
        refine and_congr_right fun _ => and_congr_right fun hlimit => ?_
        simp only [List.exists_mem_cons_iff, or_iff_right_iff_imp]
        rintro ⟨htype, hstart, hstop⟩
        have hle : pages ≤ d.numberOfPages := by omega
        rw [efiPagesToSize_eq hle] at hroom
        exact absurd ⟨htype, hle, by omega⟩ hroom
      simp only [hskip]
      exact ih hsorted

theorem allocatePagesFromTop_highest {memoryMap : List MemoryDescriptor}
    (allocatePages : Nat → UInt64 × Nat) (hpages : 0 < pages) (haligned : memory % 4096 = 0)
    (hsorted : memoryMap.Pairwise fun d d' =>
      d.physicalStart ≤ d'.physicalStart ∧ Disjoint d.range d'.range) :
    (∃ a, IsGreatest {a | Fits memoryMap pages memory a} a ∧
      allocatePagesFromTop (.ok memoryMap) allocatePages pages memory =
        ((allocatePages a).1, (allocatePages a).2, [a])) ∨
    (¬ ∃ a, Fits memoryMap pages memory a) ∧
      allocatePagesFromTop (.ok memoryMap) allocatePages pages memory =
        (efiNotFound, memory, []) := by
  have hspec := addressFromTop_spec hpages haligned (List.pairwise_reverse.mpr hsorted)
  simp only [Fits, List.mem_reverse] at hspec
  unfold allocatePagesFromTop
  rcases hspec with ⟨a, ha, haddress⟩ | ⟨hnone, haddress⟩
  · exact Or.inl ⟨a, ha, by simp [haddress]⟩
  · exact Or.inr ⟨hnone, by simp [haddress]⟩

/-- Free memory in three places, the middle one a single page, and a block of another type. -/
def sampleMap : List MemoryDescriptor :=
  [⟨7, 0x1000, 4, rfl, by decide⟩, ⟨4, 0x5000, 3, rfl, by decide⟩, ⟨7, 0x8000, 1, rfl, by decide⟩,
    ⟨7, 0xa000, 8, rfl, by decide⟩]

/-- Two pages below `0xb000`: the last block has one page there, the next one is too small and the
one before it not free, so that the end of the first block is taken. -/
theorem allocatePagesFromTop_highest_sample :
    IsGreatest {a | Fits sampleMap 2 0xb000 a} 0x3000 ∧
      allocatePagesFromTop (.ok sampleMap) (fun a => (0, a)) 2 0xb000 = (0, 0x3000, [0x3000]) := by
  have hrun : allocatePagesFromTop (.ok sampleMap) (fun a => (0, a)) 2 0xb000 =
      (0, 0x3000, [0x3000]) := rfl
  have hsorted : sampleMap.Pairwise fun d d' =>
      d.physicalStart ≤ d'.physicalStart ∧ Disjoint d.range d'.range := by
    simp [sampleMap, MemoryDescriptor.range]
  have haligned : 0xb000 % 4096 = 0 := rfl
  rcases allocatePagesFromTop_highest (fun a => (0, a)) Nat.two_pos haligned hsorted with
    ⟨a, ha, heq⟩ | ⟨-, heq⟩
  · rw [hrun] at heq
    obtain rfl : 0x3000 = a := congrArg (·.2.1) heq
    exact ⟨ha, hrun⟩
  · rw [hrun] at heq
    exact absurd (congrArg (·.1) heq) (by decide)

end Clover.MemoryFix
