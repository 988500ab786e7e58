import Clover.Patch.Replacement

/-!
# Byte searches

`FindBin` (`Platform/FixBiosDsdt.cpp`), `FindMemMask` (`Platform/MemoryOperation.c`), `FindMem`
(`refit/lib.cpp`) and `FindRelative32` (`Platform/kext_patcher.cpp`) each look for the first match
in a window. All four stop one place too early: where the first match ends with the window it is not
found. Apart from `FindBin` they compute the end of the search in unsigned numbers, so that in a
window that is shorter than the pattern they search nearly all of the memory behind it. The results
of `FindBin` and `FindMem` are signed, so a place in the upper half of the range comes back
negative.
-/

namespace Clover.Patch

open Clover.Lib

/-! ## The functions -/

/-- The value of an unsigned number after a cast to the signed type of the same width. -/
def signed (w i : Nat) : Int := (BitVec.ofNat w i).toInt

/-- What a search returns. -/
def outcome {α : Type} (value : Nat → α) (notFound : α) : Option Nat → α
  | some i => value i
  | none => notFound

/-- The function `FindBin` on a pointer to the pattern. -/
def findBin (m : Mem) (dsdt len : Nat) (bin : Bytes) : Int :=
  let count := if bin.length ≤ len then len - bin.length else 0
  outcome (signed 32) (-1) (firstHit (fun i => compareMem m (dsdt + i) bin) count 0)

/-- The function `FindBin` on a buffer that holds the pattern. -/
def findBinBuffer (m : Mem) (dsdt len : Nat) (bin : Bytes) : Int :=
  if 2 ^ 31 - 1 < len then 0
  else if 2 ^ 31 - 1 < bin.length then 0
  else findBin m dsdt len bin

/-- The not-found value of `FindMemMask`. -/
def maxUintn : Nat := 2 ^ 64 - 1

def findMemMask (m : Mem) (source sourceSize : Nat) (search : Bytes)
    (maskSearch : Option Bytes) (maskSize : Nat) : Nat :=
  if search.isEmpty then maxUintn
  else
    let count := (sourceSize + (2 ^ 64 - search.length)) % 2 ^ 64
    outcome id maxUintn
      (firstHit (fun i => compareMemMask m (source + i) search maskSearch maskSize) count 0)

def findMem (m : Mem) (buffer bufferLength : Nat) (searchString : Bytes) : Int :=
  let bufferLength := (bufferLength + (2 ^ 64 - searchString.length)) % 2 ^ 64
  outcome (signed 64) (-1) (firstHit (fun i => compareMem m (buffer + i) searchString)
    bufferLength 0)

/-- The variable `Offset` of `FindRelative32`. -/
def relativeOffset (m : Mem) (a : Nat) : Int :=
  ((m a).toUInt32 + ((m (a + 1)).toUInt32 <<< 8) + ((m (a + 2)).toUInt32 <<< 16) +
    ((m (a + 3)).toUInt32 <<< 24)).toInt32.toInt

def findRelative32 (m : Mem) (source start sourceSize taskLocation : Nat) : Nat :=
  let last := (start + sourceSize + (2 ^ 64 - 4)) % 2 ^ 64
  outcome (fun i => (i + 4) % 2 ^ 64) 0
    (firstHit
      (fun i => (taskLocation : Int) == ((i : Int) + relativeOffset m (source + i) + 4) % 2 ^ 64)
      (last - start) start)

/-! ## What they are for -/

/-- The signed number whose little-endian bytes stand at `a`. -/
def displacement (m : Mem) (a : Nat) : Int :=
  let value : Nat := (m a).toNat + 2 ^ 8 * (m (a + 1)).toNat + 2 ^ 16 * (m (a + 2)).toNat +
    2 ^ 24 * (m (a + 3)).toNat
  if value < 2 ^ 31 then (value : Int) else (value : Int) - 2 ^ 32

/-- A call or a jump whose displacement stands at offset `i` goes to `target`. -/
def reaches (m : Mem) (source target i : Nat) : Bool :=
  ((i : Int) + 4 + displacement m (source + i)) % 2 ^ 64 == target

/-- The result is the value of the first place of `[a, c)` with a hit, and `notFound` exactly if
there is no hit there. -/
def IsFirst (hit : Nat → Bool) (a c : Nat) (value : Nat → Int) (notFound result : Int) : Prop :=
  (∀ i, a ≤ i → i < c → hit i = true → (∀ j, a ≤ j → j < i → hit j = false) → result = value i) ∧
    (result = notFound ↔ ∀ i, a ≤ i → i < c → hit i = false)

section First

variable {hit : Nat → Bool} {a c limit : Nat} {value : Nat → Int} {notFound result : Int}

theorem no_hit {b : Bool} {P : Prop} (h : b = true) (h' : b = false) : P :=
  absurd h (ne_true_of_eq_false h')

theorem isFirst_empty (h : c ≤ a) : IsFirst hit a c value notFound result ↔ result = notFound := by
  have hnone : ∀ i, a ≤ i → i < c → hit i = false := fun i hle hlt => by omega
  constructor
  · intro hfirst
    exact hfirst.2.mpr hnone
  · intro hresult
    exact ⟨fun i hle hlt => by omega, iff_of_true hresult hnone⟩

/-- A search that leaves out the last place of the window, and whose values are right below
`limit`. -/
theorem isFirst_iff (f : Nat → Int) (h : a < c)
    (hf : ∀ i, a ≤ i → i + 1 < c → (f i = value i ↔ i < limit) ∧ f i ≠ notFound)
    (hvalue : ∀ i, a ≤ i → i < c → value i ≠ notFound)
    (hresult : result = outcome f notFound (firstHit hit (c - 1 - a) a)) :
    IsFirst hit a c value notFound result ↔ (∀ i, a ≤ i → i < c → hit i = false) ∨
      ∃ i, a ≤ i ∧ i + 1 < c ∧ i < limit ∧ hit i = true := by
  cases hfind : firstHit hit (c - 1 - a) a with
  | none =>
    have hmiss := firstHit_eq_none hfind
    rw [hfind] at hresult
    constructor
    · intro hfirst
      exact Or.inl (hfirst.2.mp hresult)
    · rintro (hnone | ⟨i, hle, hlt, -, hhit⟩)
      · refine ⟨fun i hle hlt hhit => ?_, iff_of_true hresult hnone⟩
        exact no_hit hhit (hnone i hle hlt)
      · exact no_hit hhit (hmiss i hle (by omega))
  | some i =>
    obtain ⟨hle, hlt, hhit, hleast⟩ := firstHit_eq_some hfind
    rw [hfind] at hresult
    obtain ⟨hvalid, hfound⟩ := hf i hle (by omega)
    have hsome : ¬ ∀ i, a ≤ i → i < c → hit i = false := by
      intro hnone
      exact no_hit hhit (hnone i hle (by omega))
    constructor
    · intro hfirst
      have hright := hfirst.1 i hle (by omega) hhit hleast
      rw [hresult] at hright
      exact Or.inr ⟨i, hle, by omega, hvalid.mp hright, hhit⟩
    · rintro (hnone | ⟨j, hj, hjc, hlimit, hhitj⟩)
      · exact absurd hnone hsome
      have hij : i ≤ j := by
        by_contra hgt
        exact no_hit hhitj (hleast j hj (by omega))
      have hright : result = value i := hresult.trans (hvalid.mpr (by omega))
      refine ⟨fun k hk hkc hhitk hleastk => ?_, iff_of_false ?_ hsome⟩
      · rcases Nat.lt_trichotomy k i with hki | rfl | hik
        · exact no_hit hhitk (hleast k hk hki)
        · exact hright
        · exact no_hit hhit (hleastk i hle hik)
      · rw [hright]
        exact hvalue i hle (by omega)

end First

/-! ## The matches -/

theorem compareMem_eq_matchesAt (m : Mem) (a : Nat) (search : Bytes) :
    compareMem m a search = matchesAt m search none a := by
  rw [compareMem_eq_compareMasked, compareMasked_eq_all]
  rfl

theorem compareMemMask_eq_effective (m : Mem) (a : Nat) (search : Bytes)
    (mask : Option Bytes) (maskSize : Nat) :
    compareMemMask m a search mask maskSize =
      matchesAt m search (some (effectiveMask mask maskSize)) a := by
  rw [compareMemMask_eq, compareMasked_eq_all]
  rfl

theorem relativeOffset_eq (m : Mem) (a : Nat) : relativeOffset m a = displacement m a := by
  have hbyte : ∀ b : UInt8, b.toNat < 256 := fun b => b.toNat_lt
  have h0 := hbyte (m a)
  have h1 := hbyte (m (a + 1))
  have h2 := hbyte (m (a + 2))
  have h3 := hbyte (m (a + 3))
  have hvalue : ((m a).toUInt32 + ((m (a + 1)).toUInt32 <<< 8) + ((m (a + 2)).toUInt32 <<< 16) +
      ((m (a + 3)).toUInt32 <<< 24)).toNat = (m a).toNat + 2 ^ 8 * (m (a + 1)).toNat +
        2 ^ 16 * (m (a + 2)).toNat + 2 ^ 24 * (m (a + 3)).toNat := by
    simp only [UInt32.toNat_add, UInt32.toNat_shiftLeft, UInt8.toNat_toUInt32, UInt32.reduceToNat,
      Nat.shiftLeft_eq, Nat.reduceMod, Nat.reducePow]
    omega
  unfold relativeOffset displacement
  rw [← hvalue]
  generalize (m a).toUInt32 + ((m (a + 1)).toUInt32 <<< 8) + ((m (a + 2)).toUInt32 <<< 16) +
    ((m (a + 3)).toUInt32 <<< 24) = value
  have hcond : value.toInt32.toInt = if 2 * value.toNat < 2 ^ 32 then (value.toNat : Int)
      else (value.toNat : Int) - (2 ^ 32 : Nat) := BitVec.toInt_eq_toNat_cond _
  rw [hcond]
  dsimp only
  split <;> split <;> omega

theorem signed_cond {w i : Nat} (hi : i < 2 ^ w) :
    signed w i = if 2 * i < 2 ^ w then (i : Int) else (i : Int) - (2 ^ w : Nat) := by
  rw [signed, BitVec.toInt_eq_toNat_cond, BitVec.toNat_ofNat, Nat.mod_eq_of_lt hi]

theorem signed_eq_iff {w i : Nat} (hi : i < 2 ^ (w + 1)) : signed (w + 1) i = i ↔ i < 2 ^ w := by
  rw [signed_cond hi]
  split <;> omega

theorem signed_ne {w i : Nat} (hi : i + 1 < 2 ^ w) : signed w i ≠ -1 := by
  rw [signed_cond (Nat.lt_of_succ_lt hi)]
  split <;> omega

/-! ## Where they are right -/

section Right

variable (m : Mem) (source n : Nat) (pattern : Bytes) (start target : Nat)

/-- The pattern does not occur in the window, or it occurs in front of the last place, below
`limit`. -/
def FoundInside (hit : Nat → Bool) (a c limit : Nat) : Prop :=
  (∀ i, a ≤ i → i < c → hit i = false) ∨ ∃ i, a ≤ i ∧ i + 1 < c ∧ i < limit ∧ hit i = true

theorem findBin_eq : findBin m source n pattern = outcome (signed 32) (-1)
    (firstHit (fun i => compareMem m (source + i) pattern) (n - pattern.length) 0) := by
  have hcount : (if pattern.length ≤ n then n - pattern.length else 0) = n - pattern.length := by
    split <;> omega
  rw [findBin, hcount]

theorem findBin_isFirst_iff (hn : n < 2 ^ 32) (hpattern : pattern ≠ []) :
    IsFirst (fun i => matchesAt m pattern none (source + i)) 0 (n + 1 - pattern.length)
        (fun i => (i : Int)) (-1) (findBin m source n pattern) ↔
      FoundInside (fun i => matchesAt m pattern none (source + i)) 0 (n + 1 - pattern.length)
        (2 ^ 31) := by
  have hlen : 0 < pattern.length := List.length_pos_iff.mpr hpattern
  simp only [findBin_eq, compareMem_eq_matchesAt]
  rcases Nat.lt_or_ge n pattern.length with hlt | hge
  · rw [Nat.sub_eq_zero_of_le hlt.le, isFirst_empty (by omega)]
    exact iff_of_true rfl (Or.inl fun i _ hi => by omega)
  · refine isFirst_iff (signed 32) (by omega) (fun i _ hi => ?_) (fun i _ _ => by omega) ?_
    · exact ⟨signed_eq_iff (by omega), signed_ne (by omega)⟩
    · have hcount : n + 1 - pattern.length - 1 - 0 = n - pattern.length := by omega
      rw [hcount]

theorem findBinBuffer_isFirst_iff (hpattern : pattern ≠ []) :
    IsFirst (fun i => matchesAt m pattern none (source + i)) 0 (n + 1 - pattern.length)
        (fun i => (i : Int)) (-1) (findBinBuffer m source n pattern) ↔
      if n < 2 ^ 31 ∧ pattern.length < 2 ^ 31 then
        FoundInside (fun i => matchesAt m pattern none (source + i)) 0 (n + 1 - pattern.length)
          (2 ^ 31)
      else pattern.length ≤ n ∧ matchesAt m pattern none source = true := by
  unfold findBinBuffer
  by_cases hsmall : n < 2 ^ 31 ∧ pattern.length < 2 ^ 31
  · rw [if_pos hsmall, if_neg (by omega), if_neg (by omega)]
    exact findBin_isFirst_iff m source n pattern (by omega) hpattern
  · have hzero : (if 2 ^ 31 - 1 < n then 0 else if 2 ^ 31 - 1 < pattern.length then 0
        else findBin m source n pattern) = 0 := by
      split
      · rfl
      · rw [if_pos (by omega)]
    rw [if_neg hsmall, hzero]
    constructor
    · intro hfirst
      -- there is a match, since the result is not -1, and the first one is at 0
      have hsome : ¬ ∀ i, 0 ≤ i → i < n + 1 - pattern.length →
          matchesAt m pattern none (source + i) = false :=
            fun h => absurd (hfirst.2.mpr h) (by decide)
      cases hfind : firstHit (fun i => matchesAt m pattern none (source + i))
          (n + 1 - pattern.length) 0 with
      | none =>
        exact absurd (fun i hle hlt => firstHit_eq_none hfind i hle (by omega)) hsome
      | some i =>
        obtain ⟨hle, hlt, hhit, hleast⟩ := firstHit_eq_some hfind
        have hi : (0 : Int) = (i : Int) := hfirst.1 i hle (by omega) hhit hleast
        obtain rfl : i = 0 := by omega
        exact ⟨by omega, hhit⟩
    · rintro ⟨hle, hhit⟩
      refine ⟨fun i _ hlt _ hleast => ?_, iff_of_false (by decide) fun hnone => ?_⟩
      · show (0 : Int) = (i : Int)
        by_contra hne
        exact no_hit hhit (hleast 0 (Nat.le_refl 0) (by omega))
      · exact no_hit hhit (hnone 0 (Nat.le_refl 0) (by omega))

theorem findBin_cases (hn : n < 2 ^ 31) :
    findBin m source n pattern = -1 ∧
        (∀ x, source ≤ x → x + pattern.length < source + n → compareMem m x pattern = false) ∨
      ∃ i : Nat, findBin m source n pattern = i ∧ i + pattern.length < n ∧
        compareMem m (source + i) pattern = true ∧
        ∀ x, source ≤ x → x < source + i → compareMem m x pattern = false := by
  rw [findBin_eq]
  cases hfind : firstHit (fun i => compareMem m (source + i) pattern) (n - pattern.length) 0 with
  | none =>
    refine Or.inl ⟨rfl, fun x hx hlt => ?_⟩
    have hmiss := firstHit_eq_none hfind (x - source) (Nat.zero_le _) (by omega)
    rwa [Nat.add_sub_of_le hx] at hmiss
  | some i =>
    obtain ⟨-, hlt, hhit, hleast⟩ := firstHit_eq_some hfind
    refine Or.inr ⟨i, (signed_eq_iff (by omega)).mpr (by omega), by omega, hhit, fun x hx hxi => ?_⟩
    have hmiss := hleast (x - source) (Nat.zero_le _) (by omega)
    rwa [Nat.add_sub_of_le hx] at hmiss

theorem findBin_nonneg (hn : n < 2 ^ 32) (h : ¬ findBin m source n pattern < 0) :
    ∃ i : Nat, findBin m source n pattern = i ∧ i + pattern.length < n ∧
      compareMem m (source + i) pattern = true := by
  rw [findBin_eq] at h ⊢
  cases hfind : firstHit (fun i => compareMem m (source + i) pattern) (n - pattern.length) 0 with
  | none =>
    rw [hfind] at h
    exact absurd (show (-1 : Int) < 0 by decide) h
  | some i =>
    obtain ⟨-, hlt, hhit, -⟩ := firstHit_eq_some hfind
    rw [hfind, outcome, signed_cond (by omega)] at h
    refine ⟨i, ?_, by omega, hhit⟩
    rw [outcome, signed_cond (by omega)]
    split_ifs at h ⊢ <;> omega

variable {m source n pattern} in
theorem findBinBuffer_eq (hn : n < 2 ^ 31) (hpattern : pattern.length < 2 ^ 31) :
    findBinBuffer m source n pattern = findBin m source n pattern := by
  rw [findBinBuffer, if_neg (by omega), if_neg (by omega)]

/-- A search whose end is computed in 64 bits. Where the window is shorter than the pattern nothing
may be found in the memory behind it. -/
theorem wrapped_isFirst_iff {hit : Nat → Bool} {len limit n : Nat} {notFound result : Int}
    (f : Nat → Int) (hlen : 0 < len) (hm : len < 2 ^ 64) (hn : n < 2 ^ 64)
    (hf : ∀ i, i + 1 < 2 ^ 64 → (f i = i ↔ i < limit) ∧ f i ≠ notFound)
    (hvalue : ∀ i : Nat, i + 1 < 2 ^ 64 → (i : Int) ≠ notFound)
    (hresult : result = outcome f notFound (firstHit hit ((n + (2 ^ 64 - len)) % 2 ^ 64) 0)) :
    IsFirst hit 0 (n + 1 - len) (fun i => (i : Int)) notFound result ↔
      if len ≤ n then FoundInside hit 0 (n + 1 - len) limit
      else ∀ i, i + len < 2 ^ 64 + n → hit i = false := by
  by_cases hle : len ≤ n
  · have hcount : (n + (2 ^ 64 - len)) % 2 ^ 64 = n + 1 - len - 1 - 0 := by omega
    rw [if_pos hle]
    rw [hcount] at hresult
    exact isFirst_iff f (by omega) (fun i _ hi => hf i (by omega))
      (fun i _ hi => hvalue i (by omega)) hresult
  · have hcount : (n + (2 ^ 64 - len)) % 2 ^ 64 = 2 ^ 64 + n - len := by omega
    rw [if_neg hle, isFirst_empty (by omega), hresult, hcount]
    cases hfind : firstHit hit (2 ^ 64 + n - len) 0 with
    | none =>
      refine iff_of_true rfl fun i hi => ?_
      exact firstHit_eq_none hfind i (Nat.zero_le i) (by omega)
    | some i =>
      obtain ⟨-, hlt, hhit, -⟩ := firstHit_eq_some hfind
      refine iff_of_false (hf i (by omega)).2 fun hnone => ?_
      exact no_hit hhit (hnone i (by omega))

theorem findMemMask_isFirst_iff (maskSearch : Option Bytes) (maskSize : Nat)
    (hn : n < 2 ^ 64) (hm : pattern.length < 2 ^ 64) (hpattern : pattern ≠ []) :
    let hit := fun i => matchesAt m pattern (some (effectiveMask maskSearch maskSize)) (source + i)
    IsFirst hit 0 (n + 1 - pattern.length) (fun i => (i : Int)) maxUintn
        (findMemMask m source n pattern maskSearch maskSize) ↔
      if pattern.length ≤ n then FoundInside hit 0 (n + 1 - pattern.length) (2 ^ 64)
      else ∀ i, i + pattern.length < 2 ^ 64 + n → hit i = false := by
  intro hit
  refine wrapped_isFirst_iff (fun i => (i : Int)) (List.length_pos_iff.mpr hpattern) hm hn
    (fun i hi => ?_) (fun i hi => ?_) ?_
  · exact ⟨iff_of_true rfl (by omega), by rw [maxUintn]; omega⟩
  · rw [maxUintn]
    omega
  · unfold findMemMask
    simp only [compareMemMask_eq_effective, List.isEmpty_iff, if_neg hpattern]
    cases firstHit hit ((n + (2 ^ 64 - pattern.length)) % 2 ^ 64) 0 <;> rfl

theorem findMem_isFirst_iff (hn : n < 2 ^ 64) (hm : pattern.length < 2 ^ 64)
    (hpattern : pattern ≠ []) :
    let hit := fun i => matchesAt m pattern none (source + i)
    IsFirst hit 0 (n + 1 - pattern.length) (fun i => (i : Int)) (-1) (findMem m source n pattern) ↔
      if pattern.length ≤ n then FoundInside hit 0 (n + 1 - pattern.length) (2 ^ 63)
      else ∀ i, i + pattern.length < 2 ^ 64 + n → hit i = false := by
  intro hit
  refine wrapped_isFirst_iff (signed 64) (List.length_pos_iff.mpr hpattern) hm hn
    (fun i hi => ?_) (fun i _ => by omega) ?_
  · exact ⟨signed_eq_iff (Nat.lt_of_succ_lt hi), signed_ne hi⟩
  · unfold findMem
    simp only [compareMem_eq_matchesAt]
    rfl

/-- Where a window of `FindRelative32` starts with the memory and is shorter than a displacement,
all of the memory is searched. A match at the fourth place from the end is returned as 0. -/
def NothingBehind (hit : Nat → Bool) (start size : Nat) : Prop :=
  (∀ i, start ≤ i → i + 4 < 2 ^ 64 → hit i = false) ∧
    (hit (2 ^ 64 - 4) = true ∨ ∀ i, 2 ^ 64 < i + 4 → i + 4 < 2 ^ 64 + start + size → hit i = false)

theorem findRelative32_eq : findRelative32 m source start n target =
    outcome (fun i => (i + 4) % 2 ^ 64) 0
      (firstHit (reaches m source target) ((start + n + (2 ^ 64 - 4)) % 2 ^ 64 - start) start) := by
  have hhit : (fun i : Nat => (target : Int) ==
      ((i : Int) + relativeOffset m (source + i) + 4) % 2 ^ 64) = reaches m source target := by
    funext i
    rw [relativeOffset_eq, reaches, BEq.comm, Int.add_right_comm]
  rw [← hhit]
  rfl

theorem findRelative32_inside (hwindow : start + n < 2 ^ 64) (hwide : 4 ≤ start + n) :
    IsFirst (reaches m source target) start (start + n + 1 - 4) (fun i => (i : Int) + 4) 0
        (findRelative32 m source start n target) ↔
      FoundInside (reaches m source target) start (start + n + 1 - 4) (2 ^ 64) := by
  have hlast : (start + n + (2 ^ 64 - 4)) % 2 ^ 64 = start + n - 4 := by omega
  rw [findRelative32_eq, hlast]
  rcases Nat.lt_or_ge n 4 with hlt | hge
  · have hcount : start + n - 4 - start = 0 := by omega
    rw [isFirst_empty (by omega), hcount]
    exact iff_of_true rfl (Or.inl fun i _ hi => by omega)
  · refine isFirst_iff (fun i => (((i + 4) % 2 ^ 64 : Nat) : Int)) (by omega) (fun i _ hi => ?_)
      (fun i _ _ => by omega) ?_
    · exact ⟨iff_of_true (by omega) (by omega), by omega⟩
    · have hcount : start + n + 1 - 4 - 1 - start = start + n - 4 - start := by omega
      rw [hcount]
      cases firstHit (reaches m source target) (start + n - 4 - start) start <;> rfl

/-- In a window that is too short the end wraps around. -/
theorem findRelative32_short (hshort : start + n < 4) :
    IsFirst (reaches m source target) start (start + n + 1 - 4) (fun i => (i : Int) + 4) 0
        (findRelative32 m source start n target) ↔
      NothingBehind (reaches m source target) start n := by
  have hlast : (start + n + (2 ^ 64 - 4)) % 2 ^ 64 - start = 2 ^ 64 - (4 - n) := by omega
  rw [findRelative32_eq, hlast, isFirst_empty (by omega)]
  generalize reaches m source target = hit
  cases hfind : firstHit hit (2 ^ 64 - (4 - n)) start with
  | none =>
    have hmiss := firstHit_eq_none hfind
    refine iff_of_true rfl ⟨fun i hle hlt => hmiss i hle (by omega), Or.inr fun i hle hlt => ?_⟩
    exact hmiss i (by omega) (by omega)
  | some i =>
    obtain ⟨hle, hlt, hhit, hleast⟩ := firstHit_eq_some hfind
    constructor
    · intro hzero
      have hwrap : (((i + 4) % 2 ^ 64 : Nat) : Int) = 0 := hzero
      have hi : i = 2 ^ 64 - 4 := by omega
      refine ⟨fun j hj hjlt => hleast j hj (by omega), Or.inl ?_⟩
      rw [← hi]
      exact hhit
    · rintro ⟨hlow, hhigh⟩
      have hge : 2 ^ 64 ≤ i + 4 := by
        by_contra hsmall
        exact no_hit hhit (hlow i hle (by omega))
      have hi : i = 2 ^ 64 - 4 := by
        by_contra hne
        rcases hhigh with hend | hnone
        · exact no_hit hend (hleast _ (by omega) (by omega))
        · exact no_hit hhit (hnone i (by omega) (by omega))
      show (((i + 4) % 2 ^ 64 : Nat) : Int) = 0
      omega

end Right

/-- The searches are right exactly where the first match does not end with the window, the place of
the match fits the result, and nothing is found behind a window that is too short. -/
theorem search_isFirst_iff (m : Mem) (source n : Nat) (pattern : Bytes)
    (hpattern : pattern ≠ []) :
    let plain := fun i => matchesAt m pattern none (source + i)
    (n < 2 ^ 32 → pattern.length < 2 ^ 32 →
      (IsFirst plain 0 (n + 1 - pattern.length) (fun i => (i : Int)) (-1)
          (findBin m source n pattern) ↔
        FoundInside plain 0 (n + 1 - pattern.length) (2 ^ 31))) ∧
    (n < 2 ^ 64 → pattern.length < 2 ^ 64 →
      (IsFirst plain 0 (n + 1 - pattern.length) (fun i => (i : Int)) (-1)
          (findBinBuffer m source n pattern) ↔
        if n < 2 ^ 31 ∧ pattern.length < 2 ^ 31 then
          FoundInside plain 0 (n + 1 - pattern.length) (2 ^ 31)
        else pattern.length ≤ n ∧ plain 0 = true) ∧
      (∀ maskSearch maskSize,
        let masked := fun i =>
          matchesAt m pattern (some (effectiveMask maskSearch maskSize)) (source + i)
        (IsFirst masked 0 (n + 1 - pattern.length) (fun i => (i : Int)) maxUintn
            (findMemMask m source n pattern maskSearch maskSize) ↔
          if pattern.length ≤ n then FoundInside masked 0 (n + 1 - pattern.length) (2 ^ 64)
          else ∀ i, i + pattern.length < 2 ^ 64 + n → masked i = false)) ∧
      (IsFirst plain 0 (n + 1 - pattern.length) (fun i => (i : Int)) (-1)
          (findMem m source n pattern) ↔
        if pattern.length ≤ n then FoundInside plain 0 (n + 1 - pattern.length) (2 ^ 63)
        else ∀ i, i + pattern.length < 2 ^ 64 + n → plain i = false)) ∧
    (∀ start target, start + n < 2 ^ 64 →
      (IsFirst (reaches m source target) start (start + n + 1 - 4) (fun i => (i : Int) + 4) 0
          (findRelative32 m source start n target) ↔
        if 4 ≤ start + n then
          FoundInside (reaches m source target) start (start + n + 1 - 4) (2 ^ 64)
        else NothingBehind (reaches m source target) start n)) := by
  intro plain
  refine ⟨fun hn _ => findBin_isFirst_iff m source n pattern hn hpattern, fun hn hm => ?_,
    fun start target hwindow => ?_⟩
  · exact ⟨findBinBuffer_isFirst_iff m source n pattern hpattern,
      fun maskSearch maskSize =>
        findMemMask_isFirst_iff m source n pattern maskSearch maskSize hn hm hpattern,
      findMem_isFirst_iff m source n pattern hn hm hpattern⟩
  · split
    · next hwide => exact findRelative32_inside m source n start target hwindow hwide
    · next hshort => exact findRelative32_short m source n start target (Nat.not_le.mp hshort)

/-- `findBin` looks for the byte 2, which stands second in a window of four bytes. -/
theorem search_isFirst_iff_sample :
    let m : Mem := fun a => [1, 2, 3, 4].getD a 0
    ([(2 : UInt8)] ≠ [] ∧ 4 < 2 ^ 32 ∧ [(2 : UInt8)].length < 2 ^ 32) ∧
    (IsFirst (fun i => matchesAt m [2] none (0 + i)) 0 (4 + 1 - 1) (fun i => (i : Int)) (-1)
        (findBin m 0 4 [2]) ↔
      FoundInside (fun i => matchesAt m [2] none (0 + i)) 0 (4 + 1 - 1) (2 ^ 31)) := by
  intro m
  exact ⟨by decide, (search_isFirst_iff m 0 4 [2] (by decide)).1 (by decide) (by decide)⟩

/-- The memory in front of a window of four bytes, and behind it. -/
def searchSample : Mem := fun a => [1, 2, 3, 4, 5, 6].getD a 0

/-- A match at the end of the window is not found, and one behind the window is. -/
theorem search_misses_end :
    (matchesAt searchSample [3, 4] none 2 = true ∧ 2 + 2 ≤ 4) ∧
    findBin searchSample 0 4 [3, 4] = -1 ∧ findMem searchSample 0 4 [3, 4] = -1 ∧
    findMemMask searchSample 0 4 [3, 4] none 0 = maxUintn ∧
    findMemMask searchSample 0 1 [4, 5] none 0 = 3 ∧ findMem searchSample 0 1 [4, 5] = 3 ∧
    (reaches (fun _ => 0) 0 4 0 = true ∧ findRelative32 (fun _ => 0) 0 0 4 4 = 0) := by
  decide +kernel

end Clover.Patch
