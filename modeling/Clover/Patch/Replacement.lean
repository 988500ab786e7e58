import Clover.Lib.Greedy
import Clover.Patch.Memory

/-!
# Replacement is greedy

`SearchAndReplaceMask` scans the memory that it changes. It only changes what lies behind its
cursor, so the matches it finds are those of the memory it was given, taken greedily from the left
(`greedy`). Of these it skips the first and replaces as many of the others as it is allowed to.

`SearchAndReplace` and `SearchAndCount` are loops of their own. The first is `SearchAndReplaceMask`
without masks, and the second counts the same matches.
-/

namespace Clover.Patch

open Clover.Lib Clover.Lib.Run List

variable {mask : Option Bytes} {replace search : Bytes}

/-! ## The loops -/

/-- The variables of `SearchAndReplaceMask` beside the memory. -/
structure Replacing where
  source : Nat
  numReplaces : Nat
  maxReplaces : Int
  skip : Int

section Replace

variable (search : Bytes) (maskSearch : Option Bytes)
  (replace : Bytes) (maskReplace : Option Bytes)

/-- One pass of the loop. An occurrence is passed over while there are some to skip. -/
def replacePass (endp : Nat) (noReplacesRestriction : Bool) :
    Mem × Replacing → Run (Pass (Mem × Replacing) (Mem × Nat))
  | (m, v) =>
    if v.source < endp ∧ (noReplacesRestriction ∨ 0 < v.maxReplaces) then
      if compareMemMask m v.source search maskSearch search.length then
        if v.skip = 0 then
          .ok (.again (copyMemMask m v.source replace maskReplace search.length,
            ⟨v.source + search.length, v.numReplaces + 1, v.maxReplaces - 1, v.skip⟩))
        else .ok (.again (m, { v with source := v.source + search.length, skip := v.skip - 1 }))
      else .ok (.again (m, { v with source := v.source + 1 }))
    else .ok (.leave (m, v.numReplaces))

/-- The memory after the replacements, and their number. -/
def searchAndReplaceMask (fuel : Nat) (m : Mem) (source sourceSize : Nat)
    (maxReplaces skip : Int) : Run (Mem × Nat) :=
  if search.isEmpty ∨ replace.isEmpty then .ok (m, 0)
  else
    Run.loop (replacePass search maskSearch replace maskReplace (source + sourceSize)
      (decide (maxReplaces ≤ 0))) fuel (m, ⟨source, 0, maxReplaces, skip⟩)

end Replace

section Passes

variable {search replace : Bytes} {maskSearch maskReplace : Option Bytes}
  {endp : Nat} {free : Bool} {m : Mem} {v : Replacing}

theorem replacePass_leave (h : ¬ (v.source < endp ∧ (free = true ∨ 0 < v.maxReplaces))) :
    replacePass search maskSearch replace maskReplace endp free (m, v) =
      .ok (.leave (m, v.numReplaces)) := by
  simp only [replacePass, if_neg h]

theorem replacePass_miss (h : v.source < endp ∧ (free = true ∨ 0 < v.maxReplaces))
    (hmiss : compareMemMask m v.source search maskSearch search.length = false) :
    replacePass search maskSearch replace maskReplace endp free (m, v) =
      .ok (.again (m, { v with source := v.source + 1 })) := by
  simp only [replacePass, if_pos h, hmiss, Bool.false_eq_true, if_false]

theorem replacePass_skip (h : v.source < endp ∧ (free = true ∨ 0 < v.maxReplaces))
    (hit : compareMemMask m v.source search maskSearch search.length = true) (hskip : v.skip ≠ 0) :
    replacePass search maskSearch replace maskReplace endp free (m, v) =
      .ok (.again (m, { v with source := v.source + search.length, skip := v.skip - 1 })) := by
  simp only [replacePass, if_pos h, hit, if_true, if_neg hskip]

theorem replacePass_replace (h : v.source < endp ∧ (free = true ∨ 0 < v.maxReplaces))
    (hit : compareMemMask m v.source search maskSearch search.length = true) (hskip : v.skip = 0) :
    replacePass search maskSearch replace maskReplace endp free (m, v) =
      .ok (.again (copyMemMask m v.source replace maskReplace search.length,
        ⟨v.source + search.length, v.numReplaces + 1, v.maxReplaces - 1, v.skip⟩)) := by
  simp only [replacePass, if_pos h, hit, if_true, if_pos hskip]

end Passes

/-! ## The loops without masks -/

/-- The variables of `SearchAndReplace` beside the memory. -/
structure PlainReplacing where
  source : Nat
  numReplaces : Nat
  maxReplaces : Int

section Plain

variable (search replace : Bytes)

def plainPass (endp : Nat) (noReplacesRestriction : Bool) :
    Mem × PlainReplacing → Run (Pass (Mem × PlainReplacing) (Mem × Nat))
  | (m, v) =>
    if v.source < endp ∧ (noReplacesRestriction ∨ 0 < v.maxReplaces) then
      if compareMem m v.source search then
        .ok (.again (copyMem m v.source (replace.take search.length),
          ⟨v.source + search.length, v.numReplaces + 1, v.maxReplaces - 1⟩))
      else .ok (.again (m, { v with source := v.source + 1 }))
    else .ok (.leave (m, v.numReplaces))

/-- `SearchAndReplace`, without masks. -/
def searchAndReplace (fuel : Nat) (m : Mem) (source sourceSize : Nat) (maxReplaces : Int) :
    Run (Mem × Nat) :=
  if search.isEmpty ∨ replace.isEmpty then .ok (m, 0)
  else
    Run.loop (plainPass search replace (source + sourceSize) (decide (maxReplaces ≤ 0))) fuel
      (m, ⟨source, 0, maxReplaces⟩)

/-- One pass of `SearchAndCount`, with the cursor and the number of matches so far. -/
def countPass (m : Mem) (endp : Nat) : Nat × Nat → Run (Pass (Nat × Nat) Nat)
  | (source, numFounds) =>
    if source < endp then
      if compareMem m source search then .ok (.again (source + search.length, numFounds + 1))
      else .ok (.again (source + 1, numFounds))
    else .ok (.leave numFounds)

def searchAndCount (fuel : Nat) (m : Mem) (source sourceSize : Nat) : Run Nat :=
  Run.loop (countPass search m (source + sourceSize)) fuel (source, 0)

end Plain

/-! ## Matches -/

/-- The byte of a mask; without a mask all bits count. -/
def maskAt (mask : Option Bytes) (i : Nat) : UInt8 :=
  match mask with
  | none => 0xFF
  | some mask => mask.getD i 0xFF

/-- The pattern stands at `a`, as far as the mask looks. -/
def matchesAt (m : Mem) (search : Bytes) (mask : Option Bytes) (a : Nat) : Bool :=
  (range search.length).all fun i =>
    m (a + i) &&& maskAt mask i == search.getD i 0 &&& maskAt mask i

/-- The matches that are replaced. -/
def chosen (free : Bool) (maxReplaces skip : Int) (occurrences : List Nat) : List Nat :=
  if free then occurrences.drop skip.toNat else (occurrences.drop skip.toNat).take maxReplaces.toNat

/-- The memory with the pattern replaced at the given places, one after the other. -/
def replaceAll (replace : Bytes) (mask : Option Bytes) (len : Nat) (m : Mem)
    (places : List Nat) : Mem :=
  places.foldl (fun m a => copyMemMask m a replace mask len) m

theorem compareMasked_congr {m m' : Mem} (search : Bytes) :
    ∀ {a : Nat} {mask : Bytes}, (∀ x, a ≤ x → m x = m' x) →
      compareMasked m a search mask = compareMasked m' a search mask := by
  induction search with
  | nil => exact fun _ => rfl
  | cons b search ih =>
    intro a mask h
    rw [compareMasked_cons, compareMasked_cons, h a (Nat.le_refl a),
      ih fun x hx => h x (Nat.le_of_succ_le hx)]

theorem masked_byte (old b x : UInt8) :
    ((old ^^^ b) &&& x) ^^^ old = (old &&& ~~~x) ||| (b &&& x) := by
  apply UInt8.toBitVec_inj.mp
  apply BitVec.eq_of_getLsbD_eq
  intro i hi
  simp only [UInt8.toBitVec_xor, UInt8.toBitVec_and, UInt8.toBitVec_or, UInt8.toBitVec_not,
    BitVec.getLsbD_xor, BitVec.getLsbD_and, BitVec.getLsbD_or, BitVec.getLsbD_not, hi]
  cases old.toBitVec.getLsbD i <;> cases b.toBitVec.getLsbD i <;>
    cases x.toBitVec.getLsbD i <;> rfl

theorem writtenByte_eq {i : Nat} (hi : i < replace.length)
    (hmask : ∀ bytes, mask = some bytes → bytes.length = replace.length) (old : UInt8) :
    writtenByte old replace mask i =
      (old &&& ~~~maskAt mask i) ||| (replace.getD i 0 &&& maskAt mask i) := by
  cases mask with
  | none =>
    have hnone : ~~~(0xFF : UInt8) = 0 := by decide
    rw [writtenByte, maskAt, hnone, and_allOnes, UInt8.and_zero, UInt8.zero_or,
      getElem?_eq_getElem hi, getD_eq_getElem _ _ hi]
    rfl
  | some bytes =>
    have hi' : i < bytes.length := by rwa [hmask bytes rfl]
    rw [maskAt, getD_eq_getElem _ _ hi, getD_eq_getElem _ _ hi', ← masked_byte,
      writtenByte, getElem?_eq_getElem hi, getElem?_eq_getElem hi']

theorem copyMemMask_behind {m : Mem} {a x len : Nat} (h : x < a ∨ a + len ≤ x) :
    copyMemMask m a replace mask len x = m x := by
  rw [copyMemMask_apply]
  split
  · refine writtenByte_of_length_le ?_
    rw [length_take]
    omega
  · rfl

/-! ## The loop -/

section Loop

variable {search replace : Bytes} {maskSearch maskReplace : Option Bytes}
  {endp : Nat} {free : Bool} {m : Mem} {v : Replacing} {max : Int}

/-- The matches in front of the cursor. -/
def found (search : Bytes) (maskSearch : Option Bytes) (endp : Nat) (m : Mem)
    (a : Nat) : List Nat :=
  greedy (fun a => compareMemMask m a search maskSearch search.length) search.length endp a

theorem found_end {a : Nat} (h : endp ≤ a) : found search maskSearch endp m a = [] :=
  greedy_end h

theorem found_miss {a : Nat} (h : a < endp)
    (hmiss : compareMemMask m a search maskSearch search.length = false) :
    found search maskSearch endp m a = found search maskSearch endp m (a + 1) :=
  greedy_miss h hmiss

theorem found_hit {a : Nat} (h : a < endp) (hsearch : search ≠ [])
    (hit : compareMemMask m a search maskSearch search.length = true) :
    found search maskSearch endp m a = a :: found search maskSearch endp m (a + search.length) :=
  greedy_hit h (length_pos_iff.mpr hsearch) hit

theorem chosen_skip {skip : Int} (hskip : 0 < skip) (a : Nat) (occurrences : List Nat) :
    chosen free max skip (a :: occurrences) = chosen free max (skip - 1) occurrences := by
  have hsucc : skip.toNat = (skip - 1).toNat + 1 := by omega
  rw [chosen, chosen, hsucc, drop_succ_cons]

theorem chosen_take (hmax : free = true ∨ 0 < max) (a : Nat) (occurrences : List Nat) :
    chosen free max 0 (a :: occurrences) = a :: chosen free (max - 1) 0 occurrences := by
  cases free with
  | true => rfl
  | false =>
    have hpos : 0 < max := hmax.resolve_left Bool.false_ne_true
    have hsucc : max.toNat = (max - 1).toNat + 1 := by omega
    simp only [chosen, hsucc, Int.toNat_zero, drop_zero, take_succ_cons,
      Bool.false_eq_true, if_false]

theorem chosen_done {skip : Int} (hmax : ¬ (free = true ∨ 0 < max)) (occurrences : List Nat) :
    chosen free max skip occurrences = [] := by
  rw [not_or, Bool.not_eq_true] at hmax
  have hzero : max.toNat = 0 := by omega
  rw [chosen, hmax.1, hzero]
  rfl

theorem chosen_nil {skip : Int} : chosen free max skip [] = [] := by
  simp [chosen]

/-- What is replaced at the cursor is not looked at again. -/
theorem found_replaced (hsearch : search ≠ []) (m : Mem) (a : Nat) :
    found search maskSearch endp (copyMemMask m a replace maskReplace search.length)
      (a + search.length) = found search maskSearch endp m (a + search.length) := by
  refine greedy_congr (length_pos_iff.mpr hsearch) _ fun x hx => ?_
  rw [compareMemMask_eq, compareMemMask_eq,
    compareMasked_congr search fun y hy => copyMemMask_behind (Or.inr (by omega))]

/-- From any state the loop replaces the chosen matches in front of the cursor. -/
theorem replaceLoop_eq (hsearch : search ≠ []) :
    ∀ (fuel : Nat) (m : Mem) (v : Replacing), 0 ≤ v.skip → endp - v.source < fuel →
      let places := chosen free v.maxReplaces v.skip (found search maskSearch endp m v.source)
      Run.loop (replacePass search maskSearch replace maskReplace endp free) fuel (m, v) =
        .ok (replaceAll replace maskReplace search.length m places,
          v.numReplaces + places.length) := by
  have hlen : 0 < search.length := length_pos_iff.mpr hsearch
  intro fuel
  induction fuel with
  | zero =>
    intro m v _ hfuel
    omega
  | succ fuel ih =>
    intro m v hskip hfuel
    dsimp only
    by_cases hgo : v.source < endp ∧ (free = true ∨ 0 < v.maxReplaces)
    · have hlt := hgo.1
      cases hit : compareMemMask m v.source search maskSearch search.length with
      | false =>
        rw [loop_again (replacePass_miss hgo hit), found_miss hlt hit]
        exact ih m { v with source := v.source + 1 } hskip
          (by show endp - (v.source + 1) < fuel; omega)
      | true =>
        have hfuel' : endp - (v.source + search.length) < fuel := by omega
        rw [found_hit hlt hsearch hit]
        by_cases hzero : v.skip = 0
        · rw [loop_again (replacePass_replace hgo hit hzero), hzero, chosen_take hgo.2,
            ih _ ⟨v.source + search.length, v.numReplaces + 1, v.maxReplaces - 1, 0⟩
              (Int.le_refl 0) hfuel', found_replaced hsearch, length_cons]
          rw [Nat.add_assoc, Nat.add_comm 1]
          rfl
        · rw [loop_again (replacePass_skip hgo hit hzero), chosen_skip (by omega)]
          exact ih m { v with source := v.source + search.length, skip := v.skip - 1 }
            (by show 0 ≤ v.skip - 1; omega) hfuel'
    · rw [loop_leave (replacePass_leave hgo) (Nat.succ_pos fuel)]
      have hnone : chosen free v.maxReplaces v.skip (found search maskSearch endp m v.source) =
          [] := by
        by_cases hlt : v.source < endp
        · exact chosen_done (fun h => hgo ⟨hlt, h⟩) _
        · rw [found_end (Nat.not_lt.mp hlt), chosen_nil]
      rw [hnone]
      rfl

end Loop

/-! ## The other loops -/

/-- A mask that lets everything through. -/
def IsPlain (search : Bytes) (mask : Option Bytes) : Prop :=
  mask = none ∨ mask = some (replicate search.length 0xFF)

theorem compareMasked_eq_all (m : Mem) (search : Bytes) :
    ∀ (a : Nat) (mask : Bytes), compareMasked m a search mask =
      (range search.length).all fun i =>
        m (a + i) &&& mask.getD i 0xFF == search.getD i 0 &&& mask.getD i 0xFF := by
  induction search with
  | nil =>
    intro a mask
    rfl
  | cons b search ih =>
    intro a mask
    rw [compareMasked_cons, ih, length_cons, range_succ_eq_map, all_cons,
      all_map]
    have hhead : mask.headD 0xFF = mask.getD 0 0xFF := by cases mask <;> rfl
    have htail : ∀ i, mask.tail.getD i 0xFF = mask.getD (i + 1) 0xFF := by
      intro i
      cases mask <;> rfl
    have hplace : ∀ i, a + 1 + i = a + (i + 1) := fun i => by omega
    simp only [hhead, htail, hplace]
    rfl

theorem compareMasked_allOnes (m : Mem) (search : Bytes) (a k : Nat) :
    compareMasked m a search (replicate k 0xFF) = compareMem m a search := by
  rw [compareMem_eq_compareMasked, compareMasked_eq_all, compareMasked_eq_all]
  simp only [getD_eq_getElem?_getD, getElem?_getD_replicate_default_eq]
  rfl

theorem compareMemMask_plain (hmask : IsPlain search mask) (m : Mem) (a : Nat) :
    compareMemMask m a search mask search.length = compareMem m a search := by
  rcases hmask with rfl | rfl
  · rfl
  · rw [compareMemMask_eq, effectiveMask, take_replicate, compareMasked_allOnes]

theorem copyMemMask_plain (hlength : replace.length = search.length) (hmask : IsPlain search mask)
    (m : Mem) (a : Nat) :
    copyMemMask m a replace mask search.length = copyMem m a (replace.take search.length) := by
  rw [← hlength, take_length]
  rcases hmask with rfl | rfl
  · rw [copyMemMask, take_length]
  · funext x
    have hsize : ∀ bytes, some (replicate search.length (0xFF : UInt8)) = some bytes →
        bytes.length = replace.length := by
      rintro _ ⟨⟩
      rw [length_replicate, hlength]
    rw [copyMemMask_apply, copyMem_apply, take_length]
    split
    · rcases Nat.lt_or_ge (x - a) replace.length with hlt | hge
      · have hones : maskAt (some (replicate search.length 0xFF)) (x - a) = maskAt none
            (x - a) := by
          rw [maskAt, maskAt, getD_eq_getElem?_getD,
            getElem?_getD_replicate_default_eq]
        rw [writtenByte_eq hlt hsize, hones, ← writtenByte_eq hlt (by simp)]
        rfl
      · rw [writtenByte_of_length_le hge, getElem?_eq_none hge]
        rfl
    · rfl

/-- Without masks the two loops move in step. -/
theorem plainPass_sim {maskSearch maskReplace : Option Bytes}
    (hlength : replace.length = search.length) (hsearch : IsPlain search maskSearch)
    (hreplace : IsPlain search maskReplace) (endp : Nat) (free : Bool) (x : Mem × Replacing)
    (y : Mem × PlainReplacing)
    (hxy : x = (y.1, ⟨y.2.source, y.2.numReplaces, y.2.maxReplaces, 0⟩)) :
    Sim (replacePass search maskSearch replace maskReplace endp free x)
      (plainPass search replace endp free y)
      (PassRel (fun x y => x = (y.1, ⟨y.2.source, y.2.numReplaces, y.2.maxReplaces, 0⟩))
        (· = ·)) := by
  subst hxy
  obtain ⟨m, v⟩ := y
  rw [plainPass]
  by_cases hgo : v.source < endp ∧ (free = true ∨ 0 < v.maxReplaces)
  · rw [if_pos hgo, ← compareMemMask_plain hsearch, ← copyMemMask_plain hlength hreplace]
    cases hit : compareMemMask m v.source search maskSearch search.length with
    | false =>
      rw [replacePass_miss hgo hit]
      exact sim_ok rfl
    | true =>
      rw [replacePass_replace hgo hit rfl]
      exact sim_ok rfl
  · rw [if_neg hgo, replacePass_leave hgo]
    exact sim_ok rfl

theorem countLoop_eq (hsearch : search ≠ []) (m : Mem) (endp : Nat) :
    ∀ (fuel a n : Nat), endp - a < fuel →
      Run.loop (countPass search m endp) fuel (a, n) =
        .ok (n + (found search none endp m a).length) := by
  have hlen : 0 < search.length := length_pos_iff.mpr hsearch
  intro fuel
  induction fuel with
  | zero =>
    intro a n hfuel
    omega
  | succ fuel ih =>
    intro a n hfuel
    by_cases hlt : a < endp
    · cases hit : compareMem m a search with
      | false =>
        have hpass : countPass search m endp (a, n) = .ok (.again (a + 1, n)) := by
          rw [countPass, if_pos hlt, hit]
          rfl
        rw [loop_again hpass, ih _ _ (by omega), @found_miss search none endp m a hlt hit]
      | true =>
        have hpass : countPass search m endp (a, n) =
            .ok (.again (a + search.length, n + 1)) := by
          rw [countPass, if_pos hlt, hit]
          rfl
        rw [loop_again hpass, ih _ _ (by omega), @found_hit search none endp m a hlt hsearch
          hit, length_cons, Nat.add_assoc, Nat.add_comm 1]
    · have hpass : countPass search m endp (a, n) = .ok (.leave n) := by
        rw [countPass, if_neg hlt]
      rw [loop_leave hpass (Nat.succ_pos fuel), found_end (Nat.not_lt.mp hlt)]
      rfl

/-! ## The result -/

theorem compareMemMask_eq_matchesAt (m : Mem) (a : Nat)
    (hmask : ∀ bytes, mask = some bytes → bytes.length = search.length) :
    compareMemMask m a search mask search.length = matchesAt m search mask a := by
  rw [compareMemMask_eq, compareMasked_eq_all, matchesAt]
  cases mask with
  | none => rfl
  | some bytes =>
    rw [effectiveMask, ← hmask bytes rfl, take_length]
    rfl

/-- A byte after replacements that do not overlap. -/
theorem replaceAll_apply {len : Nat} {places : List Nat}
    (hapart : places.Pairwise fun x y => x + len ≤ y) (m : Mem) (x : Nat) :
    (∀ a ∈ places, a ≤ x → x < a + len →
      replaceAll replace mask len m places x = copyMemMask m a replace mask len x) ∧
    ((∀ a ∈ places, ¬ (a ≤ x ∧ x < a + len)) → replaceAll replace mask len m places x = m x) := by
  induction places generalizing m with
  | nil => exact ⟨fun a ha => absurd ha not_mem_nil, fun _ => rfl⟩
  | cons a places ih =>
    obtain ⟨hfirst, hrest⟩ := pairwise_cons.mp hapart
    have hstep : replaceAll replace mask len m (a :: places) =
        replaceAll replace mask len (copyMemMask m a replace mask len) places := rfl
    obtain ⟨hin, hout⟩ := ih hrest (copyMemMask m a replace mask len)
    rw [hstep]
    constructor
    · intro b hb hle hlt
      rcases mem_cons.mp hb with rfl | hb
      · refine hout fun c hc hcover => ?_
        have := hfirst c hc
        omega
      · have hbehind : copyMemMask m a replace mask len x = m x := by
          have := hfirst b hb
          exact copyMemMask_behind (Or.inr (by omega))
        rw [hin b hb hle hlt, copyMemMask_apply, hbehind, copyMemMask_apply]
    · intro hnone
      rw [hout fun b hb => hnone b (mem_cons_of_mem _ hb)]
      refine copyMemMask_behind ?_
      have := hnone a mem_cons_self
      omega

theorem chosen_sublist (free : Bool) (max skip : Int) (occurrences : List Nat) :
    (chosen free max skip occurrences).Sublist occurrences := by
  unfold chosen
  split
  · exact drop_sublist _ _
  · exact (take_sublist _ _).trans (drop_sublist _ _)

theorem chosen_append (free : Bool) (max skip : Int) (occurrences behind : List Nat) :
    ∃ more, more.Sublist behind ∧ chosen free max skip (occurrences ++ behind) =
      chosen free max skip occurrences ++ more := by
  unfold chosen
  rw [drop_append]
  split
  · exact ⟨_, drop_sublist _ _, rfl⟩
  · rw [take_append]
    exact ⟨_, (take_sublist _ _).trans (drop_sublist _ _), rfl⟩

theorem replaceAll_append (replace : Bytes) (mask : Option Bytes) (len : Nat) (m : Mem)
    (places more : List Nat) : replaceAll replace mask len m (places ++ more) =
      replaceAll replace mask len (replaceAll replace mask len m places) more :=
  foldl_append

theorem not_isEmpty (hsearch : search ≠ []) (hlength : replace.length = search.length) :
    ¬ (search.isEmpty = true ∨ replace.isEmpty = true) := by
  have hreplace : replace ≠ [] := by
    intro h
    rw [h] at hlength
    exact hsearch (List.length_eq_zero_iff.mp hlength.symm)
  rw [List.isEmpty_iff, List.isEmpty_iff]
  exact fun h => h.elim hsearch hreplace

theorem searchAndReplaceMask_eq {search replace : Bytes}
    {maskSearch maskReplace : Option Bytes} {maxReplaces skip : Int} {fuel sourceSize : Nat}
    (hsearch : search ≠ []) (hlength : replace.length = search.length) (hskip : 0 ≤ skip)
    (hfuel : sourceSize < fuel) (m : Mem) (source : Nat) :
    let places := chosen (decide (maxReplaces ≤ 0)) maxReplaces skip
      (found search maskSearch (source + sourceSize) m source)
    searchAndReplaceMask search maskSearch replace maskReplace fuel m source sourceSize
        maxReplaces skip =
      .ok (replaceAll replace maskReplace search.length m places, places.length) := by
  intro places
  have hsize : source + sourceSize - source < fuel := by omega
  rw [searchAndReplaceMask, if_neg (not_isEmpty hsearch hlength),
    replaceLoop_eq hsearch fuel m ⟨source, 0, maxReplaces, skip⟩ hskip hsize, Nat.zero_add]

theorem searchAndReplace_eq {maskSearch maskReplace : Option Bytes} {maxReplaces : Int}
    {fuel sourceSize : Nat} (hsearch : search ≠ []) (hlength : replace.length = search.length)
    (hmaskSearch : IsPlain search maskSearch) (hmaskReplace : IsPlain search maskReplace)
    (hfuel : sourceSize < fuel) (m : Mem) (source : Nat) :
    searchAndReplaceMask search maskSearch replace maskReplace fuel m source sourceSize
      maxReplaces 0 = searchAndReplace search replace fuel m source sourceSize maxReplaces := by
  have hmask := @searchAndReplaceMask_eq search replace maskSearch maskReplace maxReplaces 0 fuel
    sourceSize hsearch hlength (Int.le_refl 0) hfuel m source
  rw [hmask]
  rw [searchAndReplaceMask, if_neg (not_isEmpty hsearch hlength)] at hmask
  rw [searchAndReplace, if_neg (not_isEmpty hsearch hlength)]
  obtain ⟨r, hr, heq⟩ := sim_loop
    (plainPass_sim hlength hmaskSearch hmaskReplace (source + sourceSize)
      (decide (maxReplaces ≤ 0)))
    fuel (m, ⟨source, 0, maxReplaces, 0⟩) (m, ⟨source, 0, maxReplaces⟩) rfl _ hmask
  rw [hr, heq]

/-- The replacement is the greedy one of the memory that was given. Without masks it is
`SearchAndReplace`, whose number without a limit is the one of `SearchAndCount`. -/
theorem searchAndReplaceMask_greedy (m : Mem) (source sourceSize : Nat)
    (search replace : Bytes) (maskSearch maskReplace : Option Bytes)
    (maxReplaces skip : Int) (fuel : Nat) (hsearch : search ≠ [])
    (hlength : replace.length = search.length)
    (hmaskSearch : ∀ bytes, maskSearch = some bytes → bytes.length = search.length)
    (hmaskReplace : ∀ bytes, maskReplace = some bytes → bytes.length = search.length)
    (hskip : 0 ≤ skip) (hfuel : sourceSize < fuel) :
    let occurrences :=
      greedy (matchesAt m search maskSearch) search.length (source + sourceSize) source
    let places := chosen (decide (maxReplaces ≤ 0)) maxReplaces skip occurrences
    (Returns (searchAndReplaceMask search maskSearch replace maskReplace fuel m source
        sourceSize maxReplaces skip) fun r =>
      r.2 = places.length ∧
      (∀ a ∈ places, ∀ i, i < search.length → r.1 (a + i) =
        (m (a + i) &&& ~~~maskAt maskReplace i) ||| (replace.getD i 0 &&& maskAt maskReplace i)) ∧
      ∀ x, (∀ a ∈ places, ¬ (a ≤ x ∧ x < a + search.length)) → r.1 x = m x) ∧
    (IsPlain search maskSearch → IsPlain search maskReplace → skip = 0 →
      searchAndReplaceMask search maskSearch replace maskReplace fuel m source sourceSize
        maxReplaces skip = searchAndReplace search replace fuel m source sourceSize maxReplaces) ∧
    (maxReplaces ≤ 0 →
      (searchAndReplace search replace fuel m source sourceSize maxReplaces).map Prod.snd =
        searchAndCount search fuel m source sourceSize) := by
  have hlen : 0 < search.length := length_pos_iff.mpr hsearch
  have hfound : found search maskSearch (source + sourceSize) m source =
      greedy (matchesAt m search maskSearch) search.length (source + sourceSize) source :=
    greedy_congr hlen source fun x _ => compareMemMask_eq_matchesAt m x hmaskSearch
  intro occurrences places
  refine ⟨?_, ?_, ?_⟩
  · have hresult := @searchAndReplaceMask_eq search replace maskSearch maskReplace maxReplaces skip
      fuel sourceSize hsearch hlength hskip hfuel m source
    rw [hfound] at hresult
    have hapart : places.Pairwise fun x y => x + search.length ≤ y :=
      (pairwise_greedy hlen source).sublist (chosen_sublist _ _ _ _)
    refine ⟨_, hresult, rfl, fun a ha i hi => ?_, fun x => (replaceAll_apply hapart m x).2⟩
    show replaceAll replace maskReplace search.length m places (a + i) = _
    rw [(replaceAll_apply hapart m (a + i)).1 a ha (Nat.le_add_right a i)
      (Nat.add_lt_add_left hi a), copyMemMask_apply, if_pos (Nat.le_add_right a i),
        Nat.add_sub_cancel_left, ← hlength,
      take_length, writtenByte_eq (by omega) (by rwa [hlength])]
  · intro hplainSearch hplainReplace hzero
    rw [hzero]
    exact searchAndReplace_eq hsearch hlength hplainSearch hplainReplace hfuel m source
  · intro hmax
    have hcount : searchAndCount search fuel m source sourceSize =
        .ok (0 + (found search none (source + sourceSize) m source).length) :=
      countLoop_eq hsearch m _ fuel source 0 (by omega)
    rw [hcount, ← searchAndReplace_eq hsearch hlength (Or.inl rfl) (Or.inl rfl) hfuel,
      searchAndReplaceMask_eq hsearch hlength (Int.le_refl 0) hfuel, Nat.zero_add]
    dsimp only [Except.map]
    rw [chosen, if_pos (decide_eq_true hmax), Int.toNat_zero, drop_zero]

/-- The second of two occurrences of `01 02`, the low half of its second byte. -/
theorem searchAndReplaceMask_greedy_sample :
    let m : Mem := fun x => [1, 2, 0, 1, 2, 3].getD x 7
    Returns (searchAndReplaceMask [1, 2] none [0, 0xFF] (some [0, 0x0F]) 7 m 0 6 1 1)
      fun r => r.2 = 1 ∧ r.1 3 = 1 ∧ r.1 4 = 0x0F ∧ r.1 1 = 2 := by
  intro m
  have hmask : ∀ bytes, some [(0 : UInt8), 0x0F] = some bytes → bytes.length = 2 := by
    rintro _ ⟨⟩
    rfl
  obtain ⟨hreturns, -, -⟩ := searchAndReplaceMask_greedy m 0 6 [1, 2] [0, 0xFF] none
    (some [0, 0x0F]) 1 1 7 (by decide) rfl (by simp) hmask (by decide) (by decide)
  refine hreturns.mono ?_
  rintro ⟨m', n⟩ ⟨hcount, hin, hout⟩
  have hplaces : chosen (decide ((1 : Int) ≤ 0)) 1 1
      (greedy (matchesAt m [1, 2] none) [(1 : UInt8), 2].length (0 + 6) 0) = [3] := by
    decide +kernel
  rw [hplaces] at hcount hin hout
  have hfirst := hin 3 mem_cons_self 0 (by decide)
  have hsecond := hin 3 mem_cons_self 1 (by decide)
  have hold : (m 3 &&& ~~~maskAt (some [0, 0x0F]) 0) |||
      ([(0 : UInt8), 0xFF].getD 0 0 &&& maskAt (some [0, 0x0F]) 0) = 1 := by decide +kernel
  have hnew : (m 4 &&& ~~~maskAt (some [0, 0x0F]) 1) |||
      ([(0 : UInt8), 0xFF].getD 1 0 &&& maskAt (some [0, 0x0F]) 1) = 0x0F := by decide +kernel
  exact ⟨hcount, hfirst.trans hold, hsecond.trans hnew, hout 1 (by simp)⟩

end Clover.Patch
