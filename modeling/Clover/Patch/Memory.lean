import Clover.Lib.Bits
import Clover.Lib.Bytes
import Clover.Lib.Run

/-!
# Masked comparison and copy

The functions of `Platform/MemoryOperation.c` that look at memory (`CompareMemMask`) and change it
(`CopyMemMask`). Memory is a map from addresses to bytes, and a pointer is an address; pointers do
not wrap.
-/

namespace Clover.Patch

open Clover.Lib List

/-- The memory of the machine. -/
abbrev Mem := Nat → UInt8

/-- Write one byte. -/
def Mem.store (m : Mem) (a : Nat) (b : UInt8) : Mem := fun x => if x = a then b else m x

/-! ## Comparison and copy -/

/-- Equality of `Length` bytes, the test `!CompareMem(Source, Search, Length)`. -/
def compareMem (m : Mem) (source : Nat) : Bytes → Bool
  | [] => true
  | b :: search => m source = b && compareMem m (source + 1) search

/-- The loop of `CompareMemMask`; `mask` is what is left of the mask. -/
def compareMasked (m : Mem) (source : Nat) : Bytes → Bytes → Bool
  | [], _ => true
  | b :: search, [] => m source &&& 0xFF = b &&& 0xFF && compareMasked m (source + 1) search []
  | b :: search, x :: mask => m source &&& x = b &&& x && compareMasked m (source + 1) search mask

/-- A missing mask is a null pointer. -/
def compareMemMask (m : Mem) (source : Nat) (search : Bytes) (mask : Option Bytes)
    (maskSize : Nat) : Bool :=
  match mask with
  | none => compareMem m source search
  | some mask =>
    if maskSize = 0 then compareMem m source search
    else compareMasked m source search (mask.take maskSize)

def copyMem (m : Mem) (dest : Nat) : Bytes → Mem
  | [] => m
  | b :: bytes => copyMem (m.store dest b) (dest + 1) bytes

/-- The loop of `CopyMemMask`: a byte is replaced where the mask has ones. -/
def copyMasked (m : Mem) (dest : Nat) : Bytes → Bytes → Mem
  | b :: replace, x :: mask =>
    copyMasked (m.store dest (((m dest ^^^ b) &&& x) ^^^ m dest)) (dest + 1) replace mask
  | _, _ => m

def copyMemMask (m : Mem) (dest : Nat) (replace : Bytes) (mask : Option Bytes)
    (searchSize : Nat) : Mem :=
  match mask with
  | none => copyMem m dest (replace.take searchSize)
  | some mask => copyMasked m dest (replace.take searchSize) mask

/-! ## What is compared and what is written -/

/-- The mask that `CompareMemMask` applies; where it ends all bits count. -/
def effectiveMask (mask : Option Bytes) (maskSize : Nat) : Bytes :=
  match mask with
  | none => []
  | some mask => mask.take maskSize

/-- The byte that `CopyMemMask` leaves at index `i` of its destination. -/
def writtenByte (old : UInt8) (replace : Bytes) (mask : Option Bytes) (i : Nat) : UInt8 :=
  match mask with
  | none => (replace[i]?).getD old
  | some mask =>
    match replace[i]?, mask[i]? with
    | some b, some x => ((old ^^^ b) &&& x) ^^^ old
    | _, _ => old

variable {m : Mem} {a base : Nat} {xs ys image bytes : Bytes}

/-- The image stands in memory at `base`. -/
def Holds (m : Mem) (base : Nat) (image : Bytes) : Prop :=
  ∀ k b, image[k]? = some b → m (base + k) = b

/-- The two memories agree outside `[base, base + n)`. -/
def SameOutside (base n : Nat) (m m' : Mem) : Prop :=
  ∀ a, a < base ∨ base + n ≤ a → m' a = m a

theorem and_allOnes (x : UInt8) : x &&& 0xFF = x := by
  revert x
  apply forall_byte
  decide +kernel

theorem compareMasked_cons (m : Mem) (source : Nat) (b : UInt8) (search mask : Bytes) :
    compareMasked m source (b :: search) mask =
      (decide (m source &&& mask.headD 0xFF = b &&& mask.headD 0xFF) &&
        compareMasked m (source + 1) search mask.tail) := by
  cases mask <;> rfl

theorem compareMem_eq_compareMasked (m : Mem) (search : Bytes) :
    ∀ source, compareMem m source search = compareMasked m source search [] := by
  induction search with
  | nil => exact fun _ => rfl
  | cons b search ih =>
    intro source
    simp only [compareMem, compareMasked, and_allOnes, ih]

theorem compareMemMask_eq (m : Mem) (source : Nat) (search : Bytes)
    (mask : Option Bytes) (maskSize : Nat) :
    compareMemMask m source search mask maskSize =
      compareMasked m source search (effectiveMask mask maskSize) := by
  cases mask with
  | none => exact compareMem_eq_compareMasked m search source
  | some mask =>
    simp only [compareMemMask, effectiveMask]
    split
    · next h => rw [h, take_zero, compareMem_eq_compareMasked]
    · rfl

theorem Holds.tail {x : UInt8} (h : Holds m base (x :: image)) : Holds m (base + 1) image := by
  intro k b hk
  rw [Nat.add_assoc, Nat.add_comm 1 k]
  exact h (k + 1) b (by rw [getElem?_cons_succ]; exact hk)

theorem Holds.left (h : Holds m base (xs ++ ys)) : Holds m base xs := by
  intro k b hk
  apply h k b
  rw [getElem?_append_left (List.getElem?_eq_some_iff.mp hk).1]
  exact hk

theorem Holds.right (h : Holds m base (xs ++ ys)) : Holds m (base + xs.length) ys := by
  intro k b hk
  rw [Nat.add_assoc]
  apply h (xs.length + k) b
  rw [getElem?_append_right (Nat.le_add_right _ _), Nat.add_sub_cancel_left]
  exact hk

theorem copyMem_apply (bytes : Bytes) :
    ∀ (m : Mem) (dest a : Nat), copyMem m dest bytes a =
      if dest ≤ a then (bytes[a - dest]?).getD (m a) else m a := by
  induction bytes with
  | nil =>
    intro m dest a
    simp [copyMem]
  | cons b bytes ih =>
    intro m dest a
    rw [copyMem, ih, Mem.store]
    by_cases ha : a = dest
    · subst ha
      rw [if_neg (by omega)]
      simp
    · by_cases hle : dest ≤ a
      · obtain ⟨k, rfl⟩ : ∃ k, a = dest + 1 + k := ⟨a - (dest + 1), by omega⟩
        rw [if_pos (by omega), if_pos hle, if_neg ha,
          show dest + 1 + k - (dest + 1) = k by omega, show dest + 1 + k - dest = k + 1 by omega,
          getElem?_cons_succ]
      · rw [if_neg (by omega), if_neg hle, if_neg ha]

theorem compareMem_iff_holds : compareMem m a bytes = true ↔ Holds m a bytes := by
  induction bytes generalizing a with
  | nil => simp [compareMem, Holds]
  | cons b bytes ih =>
    rw [compareMem, Bool.and_eq_true, decide_eq_true_iff, ih]
    constructor
    · rintro ⟨hhead, htail⟩ k c hk
      cases k with
      | zero => exact hhead.trans (Option.some.inj hk)
      | succ k =>
        rw [Nat.add_comm k 1, ← Nat.add_assoc]
        exact htail k c hk
    · intro h
      exact ⟨h 0 b rfl, h.tail⟩

theorem copyMem_eq_self_iff : copyMem m a bytes = m ↔ Holds m a bytes := by
  constructor
  · intro h k b hk
    rw [← h, copyMem_apply, if_pos (Nat.le_add_right a k), Nat.add_sub_cancel_left, hk,
      Option.getD_some]
  · intro h
    funext x
    rw [copyMem_apply]
    split
    · next hle =>
      cases hx : bytes[x - a]? with
      | none => rfl
      | some b =>
        have hb := h (x - a) b hx
        rw [Nat.add_sub_of_le hle] at hb
        exact hb.symm
    · rfl

theorem Holds.unique (hx : Holds m a xs) (hy : Holds m a ys) (hlength : xs.length = ys.length) :
    xs = ys := by
  apply ext_getElem hlength
  intro k hk hk'
  rw [← hx k _ (getElem?_eq_getElem hk), ← hy k _ (getElem?_eq_getElem hk')]

theorem copyMasked_apply (replace : Bytes) :
    ∀ (m : Mem) (dest : Nat) (mask : Bytes) (a : Nat), copyMasked m dest replace mask a =
      if dest ≤ a then writtenByte (m a) replace (some mask) (a - dest) else m a := by
  induction replace with
  | nil =>
    intro m dest mask a
    simp [copyMasked, writtenByte]
  | cons b replace ih =>
    intro m dest mask a
    cases mask with
    | nil => simp [copyMasked, writtenByte]
    | cons x mask =>
      rw [copyMasked, ih, Mem.store]
      by_cases ha : a = dest
      · subst ha
        rw [if_neg (by omega)]
        simp [writtenByte]
      · by_cases hle : dest ≤ a
        · obtain ⟨k, rfl⟩ : ∃ k, a = dest + 1 + k := ⟨a - (dest + 1), by omega⟩
          rw [if_pos (by omega), if_pos hle, if_neg ha,
            show dest + 1 + k - (dest + 1) = k by omega,
            show dest + 1 + k - dest = k + 1 by omega]
          simp only [writtenByte, getElem?_cons_succ]
        · rw [if_neg (by omega), if_neg hle, if_neg ha]

theorem copyMemMask_apply (m : Mem) (dest : Nat) (replace : Bytes)
    (mask : Option Bytes) (searchSize a : Nat) :
    copyMemMask m dest replace mask searchSize a =
      if dest ≤ a then writtenByte (m a) (replace.take searchSize) mask (a - dest) else m a := by
  cases mask with
  | none => exact copyMem_apply _ m dest a
  | some mask => exact copyMasked_apply _ m dest mask a

theorem writtenByte_of_length_le {old : UInt8} {replace : Bytes}
    {mask : Option Bytes} {i : Nat} (h : replace.length ≤ i) :
    writtenByte old replace mask i = old := by
  have hnone : replace[i]? = none := getElem?_eq_none h
  cases mask with
  | none => simp only [writtenByte, hnone, Option.getD_none]
  | some mask => simp only [writtenByte, hnone]

end Clover.Patch
