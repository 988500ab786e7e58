import Mathlib

/-!
# Comparing table identifiers

The function `OemTableId_NoSpace` of `Platform/AcpiPatcher.cpp`. An `OemTableId` is a text of eight
bytes, and a text that is shorter is filled up with spaces or with zeros; the function clears the
spaces at its end, so that two identifiers can be compared as numbers.

`trimmed` is the text itself, without what fills it up. The function goes down from the last byte,
and its `do … while` looks at a byte before it asks whether to go on: the last byte is passed
whatever it is. So the comparison is one of the texts (`noSpace_eq_iff`) except that a space before
a last byte that is not blank counts as a zero.
-/

namespace Clover.Acpi

open List

variable (x y : BitVec 64)

/-! ## Bytes of a number -/

/-- Byte `i` of a number, from the lowest on: the byte at offset `i` in memory. -/
def byteAt {w : Nat} (x : BitVec w) (i : Nat) : BitVec 8 := x.extractLsb' (8 * i) 8

/-- The first `n` bytes, from the highest of them down. -/
def bytesDown (x : BitVec 64) : Nat → List (BitVec 8)
  | 0 => []
  | n + 1 => byteAt x n :: bytesDown x n

/-- The byte mask `0xff` at byte `k`. -/
def maskAt (k : Nat) : BitVec 64 := 0xff#64 <<< (8 * k)

def spaceAt (k : Nat) : BitVec 64 := 0x20#64 <<< (8 * k)

theorem byteAt_getLsbD {w : Nat} (x : BitVec w) (i j : Nat) :
    (byteAt x i).getLsbD j = (decide (j < 8) && x.getLsbD (8 * i + j)) := by
  rw [byteAt, BitVec.getLsbD_extractLsb']

theorem maskAt_getLsbD (k i : Nat) :
    (maskAt k).getLsbD i = (decide (i < 64) && decide (8 * k ≤ i) && decide (i < 8 * k + 8)) := by
  have hones : (0xff#64).getLsbD (i - 8 * k) = decide (i - 8 * k < 8) := by
    rw [show (0xff#64) = (BitVec.allOnes 8).setWidth 64 from rfl, BitVec.getLsbD_setWidth,
      BitVec.getLsbD_allOnes]
    grind
  rw [maskAt, BitVec.getLsbD_shiftLeft, hones]
  grind

theorem maskAt_and_eq_iff {k : Nat} (hk : k < 8) (x : BitVec 64) (c : BitVec 8) :
    maskAt k &&& x = c.setWidth 64 <<< (8 * k) ↔ byteAt x k = c := by
  constructor
  · intro h
    apply BitVec.eq_of_getLsbD_eq
    intro j hj
    have hbit := congrArg (fun y => y.getLsbD (8 * k + j)) h
    simp only [BitVec.getLsbD_and, maskAt_getLsbD, BitVec.getLsbD_shiftLeft,
      BitVec.getLsbD_setWidth] at hbit
    rw [byteAt_getLsbD]
    grind
  · intro h
    subst h
    apply BitVec.eq_of_getLsbD_eq
    intro i hi
    simp only [BitVec.getLsbD_and, maskAt_getLsbD, BitVec.getLsbD_shiftLeft,
      BitVec.getLsbD_setWidth, byteAt_getLsbD]
    grind

theorem byteAt_clear (k : Nat) {i : Nat} (hi : i < 8) :
    byteAt (x &&& ~~~maskAt k) i = if i = k then 0 else byteAt x i := by
  apply BitVec.eq_of_getLsbD_eq
  intro j hj
  rw [byteAt_getLsbD, BitVec.getLsbD_and, BitVec.getLsbD_not, maskAt_getLsbD]
  split
  · next h =>
    have hmask : (decide (8 * i + j < 64) && decide (8 * k ≤ 8 * i + j) &&
        decide (8 * i + j < 8 * k + 8)) = true := by
      simp only [Bool.and_eq_true, decide_eq_true_iff]
      omega
    rw [hmask]
    simp
  · rw [byteAt_getLsbD]
    grind

theorem bytesDown_eq_iff (n : Nat) :
    bytesDown x n = bytesDown y n ↔ ∀ i < n, byteAt x i = byteAt y i := by
  induction n with
  | zero => simp [bytesDown]
  | succ n ih =>
    rw [bytesDown, bytesDown, cons.injEq, ih, Nat.forall_lt_succ_right]
    exact and_comm

theorem eq_of_bytesDown_eq {x y : BitVec 64} (h : bytesDown x 8 = bytesDown y 8) : x = y := by
  rw [bytesDown_eq_iff] at h
  apply BitVec.eq_of_getLsbD_eq
  intro i hi
  have hbit := congrArg (fun b => b.getLsbD (i % 8)) (h (i / 8) (by omega))
  simp only [byteAt_getLsbD, Nat.div_add_mod] at hbit
  simpa [Nat.mod_lt i] using hbit

theorem length_bytesDown (n : Nat) : (bytesDown x n).length = n := by
  induction n with
  | zero => rfl
  | succ n ih => rw [bytesDown, length_cons, ih]

/-! ## The function -/

/-- The `do … while` of `OemTableId_NoSpace`; each round moves the mask by a byte, so that there are
at most eight. -/
def noSpaceLoop : Nat → BitVec 64 → BitVec 64 → BitVec 64 → BitVec 64
  | 0, _, _, origin => origin
  | rounds + 1, mask, space, origin =>
    let origin := if mask &&& origin = space then origin &&& ~~~mask else origin
    let mask := mask >>> 8
    let space := space >>> 8
    if mask ≠ 0 ∧ (mask &&& origin = 0 ∨ mask &&& origin = space) then
      noSpaceLoop rounds mask space origin
    else origin

def oemTableIdNoSpace (origin : BitVec 64) : BitVec 64 :=
  noSpaceLoop 8 (0xff#64 <<< 56) (0x20#64 <<< 56) origin

/-- The bytes that fill up a text: zero and space. -/
def blank (b : BitVec 8) : Bool := b = 0 || b = 0x20

/-- The text of an identifier, from its last byte down to the first. -/
def trimmed (id : BitVec 64) : List (BitVec 8) := (bytesDown id 8).dropWhile blank

/-- A space becomes zero. -/
def cleared (b : BitVec 8) : BitVec 8 := if b = 0x20 then 0 else b

/-- All bytes up to the first that is not blank become zero. -/
def clearRun : List (BitVec 8) → List (BitVec 8)
  | [] => []
  | b :: bs => if blank b then 0 :: clearRun bs else b :: bs

theorem cleared_of_blank {b : BitVec 8} (h : blank b) : cleared b = 0 := by
  simp only [blank, Bool.or_eq_true, decide_eq_true_iff] at h
  unfold cleared
  split
  · rfl
  · next hb => exact h.resolve_right hb

theorem cleared_of_not_blank {b : BitVec 8} (h : ¬ blank b) : cleared b = b := by
  simp only [blank, Bool.or_eq_true, decide_eq_true_iff, not_or] at h
  rw [cleared, if_neg h.2]

theorem cleared_eq_zero_iff (b : BitVec 8) : cleared b = 0 ↔ blank b := by
  refine ⟨fun h => ?_, cleared_of_blank⟩
  by_contra hb
  rw [cleared_of_not_blank hb] at h
  exact hb (by rw [h]; rfl)

/-- Texts of the same length agree up to the blanks before them if and only if they are the same
once these are cleared. -/
theorem clearRun_eq_iff (as bs : List (BitVec 8)) (h : as.length = bs.length) :
    clearRun as = clearRun bs ↔ as.dropWhile blank = bs.dropWhile blank := by
  induction as generalizing bs with
  | nil => rw [length_eq_zero_iff.mp h.symm]; simp
  | cons a as ih =>
    cases bs with
    | nil => cases h
    | cons b bs =>
      have hlength : as.length = bs.length := Nat.succ.inj h
      have hzero : blank 0 := rfl
      have hle := fun l => (dropWhile_sublist blank (l := l)).length_le
      rw [clearRun, clearRun, dropWhile_cons, dropWhile_cons]
      by_cases ha : blank a <;> by_cases hb : blank b
      · rw [if_pos ha, if_pos hb, if_pos ha, if_pos hb, cons.injEq, and_iff_right rfl]
        exact ih bs hlength
      · rw [if_pos ha, if_neg hb, if_pos ha, if_neg hb]
        refine iff_of_false (fun heq => ?_) (fun heq => ?_)
        · rw [cons.injEq] at heq
          exact hb (heq.1 ▸ hzero)
        · have hlen := congrArg length heq
          have := hle as
          rw [length_cons] at hlen
          omega
      · rw [if_neg ha, if_pos hb, if_neg ha, if_pos hb]
        refine iff_of_false (fun heq => ?_) (fun heq => ?_)
        · rw [cons.injEq] at heq
          exact ha (heq.1 ▸ hzero)
        · have hlen := congrArg length heq
          have := hle bs
          rw [length_cons] at hlen
          omega
      · rw [if_neg ha, if_neg hb, if_neg ha, if_neg hb]

theorem maskAt_shift : ∀ k < 7,
    maskAt (k + 1) >>> 8 = maskAt k ∧ spaceAt (k + 1) >>> 8 = spaceAt k ∧ maskAt k ≠ 0 := by
  decide

theorem byteAt_round {n i : Nat} (hn : n < 8) (hi : i < 8) :
    byteAt (if maskAt n &&& x = spaceAt n then x &&& ~~~maskAt n else x) i =
      if i = n then cleared (byteAt x n) else byteAt x i := by
  have hspace : maskAt n &&& x = spaceAt n ↔ byteAt x n = 0x20 := maskAt_and_eq_iff hn x 0x20
  unfold cleared
  split
  · next h => rw [byteAt_clear x n hi, if_pos (hspace.mp h)]
  · next h =>
    rw [if_neg (mt hspace.mpr h)]
    split
    · next hin => rw [hin]
    · rfl

theorem maskAt_and_blank {n : Nat} (hn : n < 8) (x : BitVec 64) :
    maskAt n &&& x = 0 ∨ maskAt n &&& x = spaceAt n ↔ blank (byteAt x n) := by
  have hzero : maskAt n &&& x = 0 ↔ byteAt x n = 0 := by
    have h := maskAt_and_eq_iff hn x 0
    rwa [show (0 : BitVec 8).setWidth 64 <<< (8 * n) = 0 from BitVec.zero_shiftLeft _] at h
  have hspace : maskAt n &&& x = spaceAt n ↔ byteAt x n = 0x20 := maskAt_and_eq_iff hn x 0x20
  rw [hzero, hspace, blank, Bool.or_eq_true, decide_eq_true_iff, decide_eq_true_iff]

/-- The loop, entered at byte `n`: that byte is passed, and those below it are cleared up to the
first one that is not blank. -/
theorem noSpaceLoop_spec (n : Nat) (hn : n < 8) (x : BitVec 64) :
    let y := noSpaceLoop (n + 1) (maskAt n) (spaceAt n) x
    (∀ i, n < i → i < 8 → byteAt y i = byteAt x i) ∧ byteAt y n = cleared (byteAt x n) ∧
      bytesDown y n = clearRun (bytesDown x n) := by
  induction n generalizing x with
  | zero =>
    have hy : noSpaceLoop 1 (maskAt 0) (spaceAt 0) x =
        if maskAt 0 &&& x = spaceAt 0 then x &&& ~~~maskAt 0 else x := by
      rw [noSpaceLoop, if_neg fun h => h.1 (by decide)]
    rw [hy]
    refine ⟨fun i h hi => ?_, ?_, rfl⟩
    · rw [byteAt_round x hn hi, if_neg (by omega)]
    · rw [byteAt_round x hn hn, if_pos rfl]
  | succ n ih =>
    obtain ⟨hmask, hspace, hne⟩ := maskAt_shift n (by omega)
    have hbyte := fun i hi => byteAt_round (i := i) x hn hi
    rw [noSpaceLoop]
    dsimp only
    rw [hmask, hspace]
    generalize (if maskAt (n + 1) &&& x = spaceAt (n + 1) then x &&& ~~~maskAt (n + 1) else x) = z
      at hbyte
    have hbelow : ∀ i < n + 1, byteAt z i = byteAt x i := by
      intro i hi
      rw [hbyte i (by omega), if_neg (by omega)]
    have hdown := fun m (hm : m ≤ n + 1) =>
      (bytesDown_eq_iff z x m).mpr fun i hi => hbelow i (by omega)
    have hblank := maskAt_and_blank (by omega : n < 8) z
    rw [hbelow n (by omega)] at hblank
    split
    · next h =>
      have hb := hblank.mp h.2
      obtain ⟨habove, hat, hrun⟩ := ih (by omega) z
      refine ⟨fun i h hi => ?_, ?_, ?_⟩
      · rw [habove i (by omega) hi, hbyte i hi, if_neg (by omega)]
      · rw [habove (n + 1) (by omega) hn, hbyte (n + 1) hn, if_pos rfl]
      · rw [bytesDown, bytesDown, clearRun, if_pos hb, hat, hrun, hbelow n (by omega),
          cleared_of_blank hb, hdown n (by omega)]
    · next h =>
      have hb : ¬ blank (byteAt x n) := fun hb => h ⟨hne, hblank.mpr hb⟩
      refine ⟨fun i h hi => ?_, ?_, ?_⟩
      · rw [hbyte i hi, if_neg (by omega)]
      · rw [hbyte (n + 1) hn, if_pos rfl]
      · rw [hdown (n + 1) le_rfl, bytesDown, clearRun, if_neg hb]

/-! ## The comparison -/

theorem oemTableIdNoSpace_eq_iff :
    oemTableIdNoSpace x = oemTableIdNoSpace y ↔
      cleared (byteAt x 7) = cleared (byteAt y 7) ∧
        (bytesDown x 7).dropWhile blank = (bytesDown y 7).dropWhile blank := by
  obtain ⟨-, hx, hx'⟩ := noSpaceLoop_spec 7 (by omega) x
  obtain ⟨-, hy, hy'⟩ := noSpaceLoop_spec 7 (by omega) y
  rw [← clearRun_eq_iff _ _ (by rw [length_bytesDown, length_bytesDown]), ← hx, ← hy, ← hx', ← hy']
  constructor
  · intro h
    have h : noSpaceLoop 8 (maskAt 7) (spaceAt 7) x = noSpaceLoop 8 (maskAt 7) (spaceAt 7) y := h
    rw [h]
    exact ⟨rfl, rfl⟩
  · intro h
    apply eq_of_bytesDown_eq
    exact cons.injEq _ _ _ _ ▸ h

/-- Two identifiers that end in the same byte, not a blank one, and differ before it, but in blanks
only. -/
def Confused (x y : BitVec 64) : Prop :=
  byteAt x 7 = byteAt y 7 ∧ ¬ blank (byteAt x 7) ∧
    (bytesDown x 7).dropWhile blank = (bytesDown y 7).dropWhile blank ∧ x ≠ y

instance (x y : BitVec 64) : Decidable (Confused x y) :=
  inferInstanceAs (Decidable (_ ∧ _))

/-- The function compares the texts, except that it confuses some of them. -/
theorem noSpace_eq_iff : oemTableIdNoSpace x = oemTableIdNoSpace y ↔
    trimmed x = trimmed y ∨ Confused x y := by
  have hle := fun z => (dropWhile_sublist blank (l := bytesDown z 7)).length_le
  have hlength := fun z => length_bytesDown z 7
  have htrim : ∀ z, trimmed z = if blank (byteAt z 7) then (bytesDown z 7).dropWhile blank
      else byteAt z 7 :: bytesDown z 7 := fun z => dropWhile_cons ..
  rw [oemTableIdNoSpace_eq_iff, htrim, htrim, Confused]
  by_cases hx : blank (byteAt x 7) <;> by_cases hy : blank (byteAt y 7)
  · rw [if_pos hx, if_pos hy, cleared_of_blank hx, cleared_of_blank hy, and_iff_right rfl]
    exact (or_iff_left fun h => h.2.1 hx).symm
  · rw [if_pos hx, if_neg hy, cleared_of_blank hx]
    refine iff_of_false (fun h => hy ((cleared_eq_zero_iff _).mp h.1.symm)) ?_
    rintro (h | h)
    · have hlen := congrArg length h
      have := hle x
      have := hlength x
      have := hlength y
      rw [length_cons] at hlen
      omega
    · exact h.2.1 hx
  · rw [if_neg hx, if_pos hy, cleared_of_blank hy]
    refine iff_of_false (fun h => hx ((cleared_eq_zero_iff _).mp h.1)) ?_
    rintro (h | h)
    · have hlen := congrArg length h
      have := hle y
      have := hlength x
      have := hlength y
      rw [length_cons] at hlen
      omega
    · exact h.2.1 (h.1 ▸ hy)
  · rw [if_neg hx, if_neg hy, cleared_of_not_blank hx, cleared_of_not_blank hy]
    constructor
    · rintro ⟨hbyte, hdown⟩
      by_cases heq : x = y
      · exact Or.inl (by rw [heq])
      · exact Or.inr ⟨hbyte, hx, hdown, heq⟩
    · rintro (h | h)
      · rw [cons.injEq] at h
        exact ⟨h.1, by rw [h.2]⟩
      · exact ⟨h.1, h.2.2.1⟩

end Clover.Acpi
