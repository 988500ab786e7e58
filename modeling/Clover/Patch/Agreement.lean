import Clover.Patch.Replacement

/-!
# The booter and kext patchers

`LOADER_ENTRY::BooterPatch` (`Platform/kernel_patcher.cpp`) and the binary branch of
`LOADER_ENTRY::AnyKextPatch` (`Platform/kext_patcher.cpp`). Both scan an image for the start
pattern of a patch and replace in a window of `SearchLen` bytes from each place where it is
found; an empty start pattern is found at once, and then the scan is over.

The two move in step as long as both loops go on after a position without a replacement. The kext
loop does not when its window is the whole driver: it looks for the start pattern at the first
position only. `patchers_agree_iff` says exactly when the two still leave the same bytes in the
image.

The address of the procedure that a kext patch may name is a parameter here, zero for a
patch that names none.
-/

namespace Clover.Patch

open Clover.Lib Clover.Lib.Run

/-- A binary patch. Masks, where there are any, have the length of what they mask. -/
structure BinaryPatch where
  find : Bytes
  replace : Bytes
  maskFind : Option Bytes
  maskReplace : Option Bytes
  startPattern : Bytes
  startMask : Option Bytes
  /-- The field `SearchLen`, if it is not negative. -/
  searchLen : Nat
  count : Int
  skip : Int
  /-- The value `MenuItem.BValue`. -/
  enabled : Bool
  replace_length : replace.length = find.length
  maskFind_length : ∀ mask ∈ maskFind, mask.length = find.length
  maskReplace_length : ∀ mask ∈ maskReplace, mask.length = find.length
  startMask_length : ∀ mask ∈ startMask, mask.length = startPattern.length

/-- The variables of a scan: the pointer `curs` and the counter `j` that moves with it, and
the number of windows in which something was replaced. -/
structure Scan where
  curs : Nat
  j : Nat
  y : Nat

/-- The next position, `j++; curs++`. -/
def Scan.next (v : Scan) : Scan := { v with curs := v.curs + 1, j := v.j + 1 }

/-- Jump over a window in which something was replaced. -/
def Scan.jump (v : Scan) (searchLen : Nat) : Scan :=
  ⟨v.curs + (searchLen - 1), v.j + (searchLen - 1), v.y + 1⟩

section Engine

variable (p : BinaryPatch)

/-- Whether the start pattern stands at `curs`; an empty one stands everywhere. -/
def startsAt (m : Mem) (curs : Nat) : Bool :=
  p.startPattern.isEmpty ||
    compareMemMask m curs p.startPattern p.startMask p.startPattern.length

/-- The replacements of a patch in the window of `len` bytes from `curs`. -/
def replaceAt (fuel : Nat) (m : Mem) (curs len : Nat) : Run (Mem × Nat) :=
  searchAndReplaceMask p.find p.maskFind p.replace p.maskReplace fuel m curs len p.count p.skip

/-- What a pass of the kext loop does at one position. The window has `procLen` bytes, and the
jump over it `searchLen`. -/
def kextWindow (fuel searchLen procLen : Nat) (m : Mem) (v : Scan) : Run (Mem × Scan) :=
  if startsAt p m v.curs then do
    let (m, num) ← replaceAt p fuel m v.curs procLen
    .ok (m, if num ≠ 0 then v.jump searchLen else v)
  else .ok (m, v)

/-- Unlike the booter's, this loop ends after its first pass also when nothing was found, if
the patch asks to be tried `once`. -/
def kextPass (fuel searchLen procLen driverSize : Nat) (once : Bool) :
    Mem × Scan → Run (Pass (Mem × Scan) Mem)
  | (m, v) =>
    if v.j < driverSize then do
      let (m, v) ← kextWindow p fuel searchLen procLen m v
      if once ∨ p.startPattern.isEmpty then .ok (.leave m)
      else .ok (.again (m, v.next))
    else .ok (.leave m)

end Engine

variable {base fuel size : Nat} {p : BinaryPatch} {m : Mem} {v : Scan}

/-! ## One window -/

/-- The places where the patch replaces something in the window of `len` bytes from `curs`: of the
occurrences of the search pattern, taken greedily from the left, those behind the first `Skip`, and
of these the first `Count` if there is such a limit. -/
def places (m : Mem) (p : BinaryPatch) (curs len : Nat) : List Nat :=
  if p.find = [] ∨ p.skip < 0 then []
  else chosen (decide (p.count ≤ 0)) p.count p.skip
    (greedy (matchesAt m p.find p.maskFind) p.find.length (curs + len) curs)

/-- What the patch would replace from position `j` on are the bytes that stand there, as far as they
lie in the image and the mask looks. -/
def Idle (m : Mem) (p : BinaryPatch) (base size j : Nat) : Prop :=
  ∀ q ∈ places m p (base + j) size, ∀ k < p.find.length, q + k < base + size →
    m (q + k) &&& maskAt p.maskReplace k = p.replace.getD k 0 &&& maskAt p.maskReplace k

end Clover.Patch
