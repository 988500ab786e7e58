import Clover.Dsdt.Outers
import Clover.Patch.Search

/-!
# Binary patches of a table

`FixAny` (`Platform/FixBiosDsdt.cpp`) replaces occurrences of a pattern in a table. It searches with
`FindBin`, which does not look at the last place of its window, and prints the first four bytes of
the pattern, which halts the system when there are fewer. Apart from this a patch that keeps the
length replaces the chosen ones of the occurrences taken greedily (`fixAny_iff`).
-/

namespace Clover.Dsdt

open Clover.Lib Clover.Patch List

/-! ## The function -/

/-- The variables of `FixAny`. -/
structure Patching where
  i : Nat
  dsdt : Mem
  len : Nat
  skip : Nat
  count : Int

/-- One pass of the loop of `FixAny`. -/
def anyPass (fuel : Nat) (toFind toReplace : Bytes) (sizeoffset : Int) (v : Patching) :
    Run (Pass Patching (Mem × Nat)) :=
  if v.i < v.len then
    let adr := findBinBuffer v.dsdt v.i (v.len - v.i) toFind
    if adr < 0 then .ok (.leave (v.dsdt, v.len))
    else
      let a := adr.toNat
      if v.skip = 0 then do
        let (dsdt, len) ← moveData fuel (a + v.i) v.dsdt v.len sizeoffset
        let dsdt := copyMem dsdt (a + v.i) toReplace
        let (dsdt, len) ← correctOuterMethod fuel dsdt len (a + v.i - 2) sizeoffset
        let (dsdt, len) ← correctOuters fuel dsdt len (a + v.i - 3) sizeoffset
        if v.count - 1 = 0 then .ok (.leave (dsdt, len))
        else
          .ok (.again ⟨uint32 (v.i + (a + toReplace.length)), dsdt, len, v.skip, v.count - 1⟩)
      else
        .ok (.again { v with i := uint32 (v.i + (a + toFind.length)), skip := v.skip - 1 })
  else .ok (.leave (v.dsdt, v.len))

/-- The message of `XBuffer::operator[]`. -/
def indexPanic : String := "XBuffer::[] : i > _Len. System halted\n"

/-- The table after the patch, and its length. -/
def fixAny (fuel : Nat) (dsdt : Mem) (len : Nat) (toFind toReplace : Bytes) (skip : Nat)
    (count : Int) : Run (Mem × Nat) :=
  if toFind.isEmpty ∨ toReplace.isEmpty then .ok (dsdt, len)
  -- the first four bytes are printed
  else if toFind.length < 4 then .error (.panic indexPanic)
  else if len < toFind.length + 36 then .ok (dsdt, len)
  else if 2 ^ 31 - 1 < ((toReplace.length : Int) - toFind.length).natAbs then .ok (dsdt, len)
  else
    Run.loop (anyPass fuel toFind toReplace ((toReplace.length : Int) - toFind.length)) fuel
      ⟨20, dsdt, len, skip, count⟩

/-! ## Patches that keep the length -/

/-- The occurrences of the pattern in the table behind its first 20 bytes, from the left and
without overlaps. -/
def occurrences (m : Mem) (len : Nat) (pattern : Bytes) : List Nat :=
  greedy (fun a => compareMem m a pattern) pattern.length (len - pattern.length + 1) 20

/-- Those that a patch is to replace. -/
def requested (m : Mem) (len : Nat) (pattern : Bytes) (skip : Nat) (count : Int) : List Nat :=
  chosen (decide (count ≤ 0)) count skip (occurrences m len pattern)

section SameLength

variable {find replace : Bytes} {fuel len : Nat}

theorem moveData_nothing (start : Nat) (m : Mem) (hlen : len < 2 ^ 32) :
    moveData fuel start m len 0 = .ok (m, len) := by
  have hsame : uint32 ((len : Int) + 0) = len := uint32_of_lt (Int.add_zero _) hlen
  rw [moveData, moveBytes, if_neg (by decide), if_neg (by simp), hsame]
  rfl

section Pass

variable {m : Mem} {i skip : Nat} {count : Int}

theorem anyPass_none (h : i < len) (hnone : findBinBuffer m i (len - i) find = -1) :
    anyPass fuel find replace 0 ⟨i, m, len, skip, count⟩ = .ok (.leave (m, len)) := by
  rw [anyPass, if_pos h, hnone]
  rfl

theorem anyPass_skip {j : Nat} (hlen : len < 2 ^ 32) (hskip : skip ≠ 0)
    (hfound : findBinBuffer m i (len - i) find = j) (hj : i + j + find.length < len) :
    anyPass fuel find replace 0 ⟨i, m, len, skip, count⟩ =
      .ok (.again ⟨i + j + find.length, m, len, skip - 1, count⟩) := by
  have hnext : uint32 ((i : Int) + ((j : Int) + find.length)) = i + j + find.length :=
    uint32_of_lt (by omega) (by omega)
  have hi : i < len := by omega
  have hj0 : ¬ (j : Int) < 0 := by omega
  simp [anyPass, if_pos hi, hfound, if_neg hj0, if_neg hskip, hnext]

theorem anyPass_replace {j : Nat} (hlen : len < 2 ^ 32) (hlength : replace.length = find.length)
    (hfound : findBinBuffer m i (len - i) find = j) (hj : i + j + find.length < len) :
    anyPass fuel find replace 0 ⟨i, m, len, 0, count⟩ =
      if count - 1 = 0 then .ok (.leave (copyMem m (i + j) replace, len))
      else .ok (.again ⟨i + j + find.length, copyMem m (i + j) replace, len, 0, count - 1⟩) := by
  have hnext : uint32 ((i : Int) + ((j : Int) + find.length)) = i + j + find.length :=
    uint32_of_lt (by omega) (by omega)
  have hi : i < len := by omega
  have hj0 : ¬ (j : Int) < 0 := by omega
  simp [anyPass, if_pos hi, hfound, if_neg hj0, moveData_nothing _ _ hlen, Run.ok_bind,
    correctOuterMethod, correctOuters, hlength, hnext, Nat.add_comm j i]

end Pass

/-- From any state the loop replaces the requested ones of the occurrences that it can find. -/
theorem anyLoop_eq (hfind : find ≠ []) (hlength : replace.length = find.length)
    (hfit : find.length + 36 ≤ len) (hlen : len < 2 ^ 31 + 20) (inner : Nat) :
    ∀ (fuel : Nat) (m : Mem) (i skip : Nat) (count : Int), 20 ≤ i → len - i < fuel →
      Run.loop (anyPass inner find replace 0) fuel ⟨i, m, len, skip, count⟩ =
        .ok (replaceAll replace none find.length m (chosen (decide (count ≤ 0)) count skip
          (found find none (len - find.length) m i)), len) := by
  have hpos : 0 < find.length := length_pos_iff.mpr hfind
  intro fuel
  induction fuel with
  | zero =>
    intro m i skip count _ hfuel
    omega
  | succ fuel ih =>
    intro m i skip count hi hfuel
    rcases Nat.lt_or_ge i len with hlt | hge
    · have heq : findBinBuffer m i (len - i) find = findBin m i (len - i) find :=
        findBinBuffer_eq (by omega) (by omega)
      rcases findBin_cases m i (len - i) find (by omega) with
        ⟨hnone, hmiss⟩ | ⟨j, hplace, hj, hhit, hmiss⟩
      · have hempty : found find none (len - find.length) m i = [] :=
          greedy_none fun x hx hxlen => hmiss x hx (by omega)
        rw [Run.loop_leave (anyPass_none hlt (heq.trans hnone)) (Nat.succ_pos fuel), hempty,
          chosen_nil]
        rfl
      · have hfound : found find none (len - find.length) m i =
            (i + j) :: found find none (len - find.length) m (i + j + find.length) :=
          (greedy_skip (Nat.le_add_right i j) hmiss).trans (greedy_hit (by omega) hpos hhit)
        rw [hfound]
        by_cases hskip : skip = 0
        · subst hskip
          have hpass := @anyPass_replace find replace inner len m i count j (by omega) hlength
            (heq.trans hplace) (by omega)
          have hcopy : copyMem m (i + j) replace =
              copyMemMask m (i + j) replace none find.length := by
            rw [copyMemMask, ← hlength, take_length]
          rw [Int.natCast_zero, chosen_take (by rw [decide_eq_true_iff]; omega)]
          by_cases hdone : count - 1 = 0
          · rw [if_pos hdone] at hpass
            rw [Run.loop_leave hpass (Nat.succ_pos fuel), hdone,
              chosen_done (by rw [decide_eq_true_iff]; omega), hcopy]
            rfl
          · rw [if_neg hdone] at hpass
            have hfree : decide (count ≤ 0) = decide (count - 1 ≤ 0) :=
              decide_eq_decide.mpr (by omega)
            rw [Run.loop_again hpass, ih _ _ 0 _ (by omega) (by omega), hcopy, hfree,
              found_replaced hfind]
            rfl
        · rw [Run.loop_again (anyPass_skip (by omega) hskip (heq.trans hplace) (by omega)),
            chosen_skip (by omega), ih m _ _ count (by omega) (by omega),
              Int.natCast_sub (by omega)]
          rfl
    · have hend : anyPass inner find replace 0 ⟨i, m, len, skip, count⟩ = .ok (.leave (m, len)) :=
        if_neg (Nat.not_lt.mpr hge)
      rw [Run.loop_leave hend (Nat.succ_pos fuel), found_end (by omega), chosen_nil]
      rfl

theorem fixAny_eq (hfind : 4 ≤ find.length) (hlength : replace.length = find.length)
    (hfit : find.length + 36 ≤ len) (hlen : len < 2 ^ 31 + 20) (hfuel : len < fuel) (m : Mem)
    (skip : Nat) (count : Int) : fixAny fuel m len find replace skip count =
      .ok (replaceAll replace none find.length m (chosen (decide (count ≤ 0)) count skip
        (found find none (len - find.length) m 20)), len) := by
  have hne : find ≠ [] := ne_nil_of_length_pos (by omega)
  have hsize : (replace.length : Int) - find.length = 0 := by omega
  rw [fixAny, if_neg (not_isEmpty hne hlength), if_neg (by omega), if_neg (by omega), hsize,
    if_neg (by decide)]
  exact anyLoop_eq hne hlength hfit hlen fuel fuel m 20 skip count (Nat.le_refl _) (by omega)

/-- The requested occurrences are those that the code finds, and perhaps the one that ends the
table. -/
theorem requested_eq (hfind : 0 < find.length) (m : Mem) (skip : Nat) (count : Int) :
    ∃ more, requested m len find skip count =
        chosen (decide (count ≤ 0)) count skip (found find none (len - find.length) m 20) ++ more ∧
      (more = [] ∨ more = [len - find.length] ∧ compareMem m (len - find.length) find = true) := by
  obtain ⟨last, hlast, hoccurrences⟩ := @greedy_succ (fun a => compareMem m a find) find.length
    (len - find.length) hfind 20
  obtain ⟨more, hsublist, hchosen⟩ := chosen_append (decide (count ≤ 0)) count skip
    (found find none (len - find.length) m 20) last
  refine ⟨more, ?_, ?_⟩
  · rw [requested, occurrences, hoccurrences]
    exact hchosen
  · rcases hlast with rfl | ⟨rfl, hhit⟩
    · exact Or.inl (sublist_nil.mp hsublist)
    · exact (sublist_singleton.mp hsublist).imp_right fun h => ⟨h, hhit⟩

/-- A patch that keeps the length replaces the requested occurrences exactly if it has four bytes
and none of them, unless it is replaced by itself, ends the table. -/
theorem fixAny_iff (hfind : find ≠ []) (hlength : replace.length = find.length)
    (hfit : find.length + 36 ≤ len) (hlen : len < 2 ^ 31 + 20) (hfuel : len < fuel) (m : Mem)
    (skip : Nat) (count : Int) :
    fixAny fuel m len find replace skip count =
        .ok (replaceAll replace none find.length m (requested m len find skip count), len) ↔
      4 ≤ find.length ∧
        (find = replace ∨ len - find.length ∉ requested m len find skip count) := by
  by_cases hfour : 4 ≤ find.length
  swap
  · have hpanic : fixAny fuel m len find replace skip count = .error (.panic indexPanic) := by
      rw [fixAny, if_neg (not_isEmpty hfind hlength), if_pos (Nat.lt_of_not_le hfour)]
    rw [hpanic]
    exact iff_of_false (by simp) fun h => hfour h.1
  have hpos : 0 < find.length := by omega
  obtain ⟨more, hrequested, hmore⟩ := @requested_eq find len hpos m skip count
  have hsublist := chosen_sublist (decide (count ≤ 0)) count skip
    (found find none (len - find.length) m 20)
  have hapart : (requested m len find skip count).Pairwise fun x y => x + find.length ≤ y :=
    (pairwise_greedy hpos 20).sublist (chosen_sublist _ _ _ _)
  rw [hrequested] at hapart
  rw [fixAny_eq hfour hlength hfit hlen hfuel, and_iff_right hfour, hrequested, replaceAll_append]
  rcases hmore with rfl | ⟨rfl, hhit⟩
  · refine iff_of_true rfl (Or.inr fun hmem => ?_)
    rw [append_nil] at hmem
    exact Nat.lt_irrefl _ (mem_greedy hpos 20 _ (hsublist.subset hmem)).2.1
  · have hmem : len - find.length ∈ chosen (decide (count ≤ 0)) count skip
        (found find none (len - find.length) m 20) ++ [len - find.length] :=
      mem_append_right _ mem_cons_self
    rw [or_iff_left (not_not.mpr hmem)]
    obtain ⟨hapart, -, hbefore⟩ := pairwise_append.mp hapart
    generalize hM : replaceAll replace none find.length m (chosen (decide (count ≤ 0)) count skip
      (found find none (len - find.length) m 20)) = M
    -- what is replaced ends before the last occurrence
    have hheld : Holds M (len - find.length) find := by
      intro k b hk
      rw [← hM, (replaceAll_apply hapart m _).2 fun a ha hin => ?_]
      · exact compareMem_iff_holds.mp hhit k b hk
      · have hle := hbefore a ha _ mem_cons_self
        omega
    have hcopy : replaceAll replace none find.length M [len - find.length] =
        copyMem M (len - find.length) replace := by
      show copyMem M (len - find.length) (replace.take find.length) = _
      rw [← hlength, take_length]
    rw [hcopy]
    constructor
    · intro h
      have hsame : copyMem M (len - find.length) replace = M :=
        (congrArg Prod.fst (Except.ok.inj h)).symm
      exact hheld.unique (copyMem_eq_self_iff.mp hsame) hlength.symm
    · intro h
      rw [copyMem_eq_self_iff.mpr (h ▸ hheld)]

end SameLength

/-- A table with these bytes behind its header. -/
def sampleTable (behind : Bytes) : Mem := tableOf (replicate 36 0 ++ behind)

/-- The first of two occurrences is skipped, and the second one is replaced. -/
theorem fixAny_iff_second :
    fixAny 50 (sampleTable [1, 2, 3, 4, 1, 2, 3, 4, 0]) 45 [1, 2, 3, 4] [5, 6, 7, 8] 1 0 =
      .ok (replaceAll [5, 6, 7, 8] none 4 (sampleTable [1, 2, 3, 4, 1, 2, 3, 4, 0])
        (requested (sampleTable [1, 2, 3, 4, 1, 2, 3, 4, 0]) 45 [1, 2, 3, 4] 1 0), 45) :=
  (@fixAny_iff [1, 2, 3, 4] [5, 6, 7, 8] 50 45 (by decide) rfl (by decide) (by decide) (by decide)
    (sampleTable [1, 2, 3, 4, 1, 2, 3, 4, 0]) 1 0).mpr ⟨by decide, Or.inr (by decide +kernel)⟩

/-- The pattern at the end of a table is not found, and one of three bytes halts the system. -/
theorem last_occurrence_kept :
    requested (sampleTable [9, 9, 9, 9, 1, 2, 3, 4]) 44 [1, 2, 3, 4] 0 0 = [40] ∧
    (fixAny 50 (sampleTable [9, 9, 9, 9, 1, 2, 3, 4]) 44 [1, 2, 3, 4] [5, 6, 7, 8] 0 0).toOption.map
        (fun r => ([r.1 40, r.1 41, r.1 42, r.1 43], r.2)) = some ([1, 2, 3, 4], 44) ∧
      fixAny 50 (sampleTable [1, 2, 3, 4, 9, 9, 9, 9]) 44 [1, 2, 3] [5, 6, 7] 0 0 =
        .error (.panic indexPanic) := by
  refine ⟨by decide +kernel, by decide +kernel, rfl⟩

end Clover.Dsdt
