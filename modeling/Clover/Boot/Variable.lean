import Clover.Boot.Options
import Clover.Lib.Run

/-!
# A boot variable in memory

`ParseBootOption` of `Platform/BootOptions.cpp` once more, with the memory it reads: the variable is
its first `variableSize` bytes, and what stands behind it is not known. The description is measured
with `StrSize` before any bound is checked, so the size that is stored is one of the variable alone
only if the description ends in it: `parseBootOptionAt_inside_iff`.
-/

namespace Clover.Boot

open Clover.Lib

variable {mem : Nat → UInt8} {fuel k p variableSize : Nat}

/-- The outputs in `BO_BOOT_OPTION`; a pointer is an offset from the start of the variable. -/
structure ParsedOption where
  attributes : UInt32
  filePathListLength : UInt16
  description : Nat
  descriptionSize : Nat
  filePathList : Nat
  optionalData : Option Nat
  optionalDataSize : Nat
  deriving DecidableEq, Repr

def readBytes (mem : Nat → UInt8) (start n : Nat) : Bytes :=
  (List.range n).map fun i => mem (start + i)

/-- A string has its terminator at `p`. -/
def endsAt (mem : Nat → UInt8) (p : Nat) : Prop := mem p = 0 ∧ mem (p + 1) = 0

instance (mem : Nat → UInt8) (p : Nat) : Decidable (endsAt mem p) :=
  inferInstanceAs (Decidable (_ ∧ _))

/-- The size in bytes of the string at `p`, its terminator included. -/
def strSize (mem : Nat → UInt8) : Nat → Nat → Run Nat
  | 0, _ => .error .fuel
  | fuel + 1, p =>
    if endsAt mem p then .ok 2
    else do
      let size ← strSize mem fuel (p + 2)
      .ok (size + 2)

/-- What is left to do once the description is measured. -/
def parsePath (option : ParsedOption) (variableSize : Nat) : Except Status Unit × ParsedOption :=
  let ptr := option.description + option.descriptionSize
  if ptr > variableSize then (.error .invalidParameter, option)
  else
    let option := { option with filePathList := ptr }
    let ptr := ptr + option.filePathListLength.toNat
    if ptr > variableSize then (.error .invalidParameter, option)
    else if ptr < variableSize then
      (.ok (), { option with optionalData := some ptr, optionalDataSize := variableSize - ptr })
    else (.ok (), { option with optionalData := none, optionalDataSize := 0 })

/-- The status, and the option with what was stored in it on the way. -/
def parseBootOptionAt (fuel : Nat) (mem : Nat → UInt8) (variableSize : Nat)
    (option : ParsedOption) : Run (Except Status Unit × ParsedOption) :=
  if variableSize ≤ 6 then .ok (.error .invalidParameter, option)
  else do
    let descriptionSize ← strSize mem fuel 6
    .ok (parsePath
      { option with
        attributes := UInt32.ofNat (leValue (readBytes mem 0 4))
        filePathListLength := UInt16.ofNat (leValue (readBytes mem 4 2))
        description := 6
        descriptionSize }
      variableSize)

theorem endsAt_of_strSize {size : Nat} (h : strSize mem fuel p = .ok size) :
    ∃ k, size = 2 * k + 2 ∧ endsAt mem (p + 2 * k) := by
  induction fuel generalizing p size with
  | zero => cases h
  | succ fuel ih =>
    unfold strSize at h
    split at h
    · next hend =>
      cases h
      exact ⟨0, rfl, hend⟩
    · obtain ⟨n, hrest, h⟩ := bind_eq_ok.mp h
      obtain ⟨k, rfl, hat⟩ := ih hrest
      refine ⟨k + 1, (Except.ok.inj h).symm, ?_⟩
      rwa [show p + 2 * (k + 1) = p + 2 + 2 * k by omega]

theorem exists_strSize (hend : endsAt mem (p + 2 * k)) :
    ∃ size, strSize mem (k + 1) p = .ok size := by
  induction k generalizing p with
  | zero => exact ⟨2, if_pos hend⟩
  | succ k ih =>
    unfold strSize
    split
    · exact ⟨2, rfl⟩
    · rw [show p + 2 * (k + 1) = p + 2 + 2 * k by omega] at hend
      obtain ⟨size, hsize⟩ := ih hend
      rw [hsize]
      exact ⟨size + 2, rfl⟩

/-- The bytes of two memories are the same as far as the variable goes. -/
def AgreeBelow (n : Nat) (mem mem' : Nat → UInt8) : Prop := ∀ i < n, mem' i = mem i

section Agree

variable {n : Nat} {mem mem' : Nat → UInt8} (h : AgreeBelow n mem mem')

include h

theorem readBytes_congr {start : Nat} (hk : start + k ≤ n) :
    readBytes mem' start k = readBytes mem start k := by
  refine List.map_congr_left fun i hi => h _ ?_
  have hi := List.mem_range.mp hi
  omega

theorem endsAt_congr (hp : p + 1 < n) : endsAt mem' p ↔ endsAt mem p := by
  unfold endsAt
  rw [h p (by omega), h (p + 1) hp]

theorem strSize_congr (hend : endsAt mem (p + 2 * k)) (hk : p + 2 * k + 1 < n) (fuel : Nat) :
    strSize mem' fuel p = strSize mem fuel p := by
  induction fuel generalizing p k with
  | zero => rfl
  | succ fuel ih =>
    have hsame := endsAt_congr h (p := p) (by omega)
    unfold strSize
    split
    · next hp => rw [if_pos (hsame.mp hp)]
    · next hp =>
      rw [if_neg (hsame.not.mp hp)]
      cases k with
      | zero => exact absurd (hsame.mpr hend) hp
      | succ k =>
        rw [show p + 2 * (k + 1) = p + 2 + 2 * k by omega] at hend hk
        rw [ih hend hk]

end Agree

/-- The result lies in the variable: the description with its terminator, the path and the optional
data. -/
def ParsedOption.Inside (option : ParsedOption) (variableSize : Nat) : Prop :=
  option.description + option.descriptionSize ≤ variableSize ∧
    option.filePathList + option.filePathListLength.toNat ≤ variableSize ∧
    ∀ p, option.optionalData = some p → p + option.optionalDataSize ≤ variableSize

variable {option : ParsedOption}

theorem parsePath_inside {option' : ParsedOption}
    (h : parsePath option variableSize = (.ok (), option')) : option'.Inside variableSize := by
  unfold parsePath at h
  dsimp only at h
  split at h
  · cases h
  split at h
  · cases h
  unfold ParsedOption.Inside
  split at h
  · cases h
    dsimp only
    refine ⟨by omega, by omega, ?_⟩
    rintro p ⟨⟩
    omega
  · cases h
    dsimp only
    exact ⟨by omega, by omega, nofun⟩

theorem parsePath_descriptionSize (option : ParsedOption) (variableSize : Nat) :
    (parsePath option variableSize).2.descriptionSize = option.descriptionSize := by
  unfold parsePath
  dsimp only
  repeat' split
  all_goals rfl

theorem parseBootOptionAt_inside {option' : ParsedOption}
    (h : parseBootOptionAt fuel mem variableSize option = .ok (.ok (), option')) :
    option'.Inside variableSize := by
  unfold parseBootOptionAt at h
  split at h
  · cases h
  · obtain ⟨size, -, h⟩ := bind_eq_ok.mp h
    exact parsePath_inside (Except.ok.inj h)

theorem strSize_of_parseBootOptionAt {mem' : Nat → UInt8} (hlarge : ¬ variableSize ≤ 6)
    {size : Nat} (hsize : strSize mem fuel 6 = .ok size)
    (h : parseBootOptionAt fuel mem' variableSize option = parseBootOptionAt fuel mem variableSize
      option) : strSize mem' fuel 6 = .ok size := by
  unfold parseBootOptionAt at h
  rw [if_neg hlarge, if_neg hlarge, hsize] at h
  obtain ⟨size', hsize', h⟩ := bind_eq_ok.mp h
  have hsame := congrArg (fun r => r.2.descriptionSize) (Except.ok.inj h)
  simp only [parsePath_descriptionSize] at hsame
  rw [hsize', hsame]

/-- The status and all outputs depend on the bytes of the variable alone, and on success they lie in
it, if and only if the description ends in the variable, or nothing of it is read. -/
theorem parseBootOptionAt_inside_iff (variableSize : Nat) (mem : Nat → UInt8)
    (option : ParsedOption) :
    ((∀ mem', AgreeBelow variableSize mem mem' → ∀ fuel,
        parseBootOptionAt fuel mem' variableSize option =
          parseBootOptionAt fuel mem variableSize option) ∧
      ∀ fuel option', parseBootOptionAt fuel mem variableSize option = .ok (.ok (), option') →
        option'.Inside variableSize) ↔
    variableSize ≤ 6 ∨ ∃ k, 6 + 2 * k + 1 < variableSize ∧ endsAt mem (6 + 2 * k) := by
  rw [and_iff_left fun _ _ => parseBootOptionAt_inside]
  constructor
  · intro hall
    by_contra hcon
    obtain ⟨hlarge, hend⟩ := not_or.mp hcon
    -- zeros behind the variable end the description
    let zeros : Nat → UInt8 := fun i => if i < variableSize then mem i else 0
    have hzeros : AgreeBelow variableSize mem zeros := fun i hi => if_pos hi
    have hat : endsAt zeros (6 + 2 * variableSize) := ⟨if_neg (by omega), if_neg (by omega)⟩
    obtain ⟨size, hsize⟩ := exists_strSize hat
    obtain ⟨k, rfl, hk⟩ := endsAt_of_strSize hsize
    have hbehind : ¬ 6 + 2 * k + 1 < variableSize := fun hlt =>
      hend ⟨k, hlt, (endsAt_congr hzeros hlt).mp hk⟩
    -- where the first terminator is, another byte could stand
    let ones : Nat → UInt8 := fun i => if i < variableSize then mem i else 1
    have hones : AgreeBelow variableSize mem ones := fun i hi => if_pos hi
    have hmem := strSize_of_parseBootOptionAt hlarge hsize (hall zeros hzeros _).symm
    have hsize' := strSize_of_parseBootOptionAt hlarge hmem (hall ones hones _)
    obtain ⟨j, hj, hat'⟩ := endsAt_of_strSize hsize'
    obtain rfl : k = j := by omega
    have hone : ones (6 + 2 * k + 1) = 1 := if_neg hbehind
    rw [hat'.2] at hone
    cases hone
  · rintro (hsmall | ⟨k, hk, hend⟩) mem' hagree fuel
    · rw [parseBootOptionAt, parseBootOptionAt, if_pos hsmall, if_pos hsmall]
    · unfold parseBootOptionAt
      rw [strSize_congr hagree hend hk, readBytes_congr hagree (by omega),
        readBytes_congr hagree (by omega)]

/-- A variable of eight bytes whose description is not terminated, with what stands behind it. -/
def openVariable (behind : Nat → UInt8) (i : Nat) : UInt8 := if i < 8 then 65 else behind i

/-- The size of the description that is stored is that of what stands behind the variable. -/
theorem openVariable_descriptionSize :
    AgreeBelow 8 (openVariable fun _ => 0) (openVariable fun i => if i < 10 then 65 else 0) ∧
    (parseBootOptionAt 9 (openVariable fun _ => 0) 8 ⟨0, 0, 0, 0, 0, none, 0⟩).toOption.map
      (fun r => (r.1, r.2.descriptionSize)) = some (.error .invalidParameter, 4) ∧
    (parseBootOptionAt 9 (openVariable fun i => if i < 10 then 65 else 0) 8
      ⟨0, 0, 0, 0, 0, none, 0⟩).toOption.map
        (fun r => (r.1, r.2.descriptionSize)) = some (.error .invalidParameter, 6) := by
  refine ⟨fun i hi => (if_pos hi).trans (if_pos hi).symm, ?_, ?_⟩
  · decide +kernel
  · decide +kernel

end Clover.Boot
