import Clover.Kext.Text
import Clover.Lib.Cells
import Clover.Lib.Run

/-!
# The bundle identifier of a kext

The function `ExtractKextBundleIdentifier` of `Platform/kext_patcher.cpp`. It goes from tag to tag
with the level of nesting, and where it comes to the key `CFBundleIdentifier` at level 1 it copies
the next string to the global buffer `gKextBundleIdentifier`.

The main result is `extractKextBundleIdentifier_spec`: the level is the depth of the tag, whatever
other text there is, so only a key of the outermost dictionary counts.
-/

namespace Clover.Kext

open Clover.Lib Clover.Xml List

def bundleKey : Bytes := lit "<key>CFBundleIdentifier</key>"

def stringStart : Bytes := lit "<string>"

def stringEnd : Bytes := lit "</string>"

/-! ## The function -/

/-- The string behind the key, unless it is too long for the buffer. -/
def nextString (text : Bytes) : Option Bytes := do
  let i ← asciiStrStr text stringStart
  let start := text.drop (i + 8)
  let j ← asciiStrStr start stringEnd
  if j + 1 < 256 then some (start.take j) else none

/-- Advance to the next tag. -/
def nextTag (tag : Bytes) : Bytes := tag.dropWhile (· ≠ 60)

/-- One pass of the loop, with the pointer `Tag` as what stands there and the variable `DictLevel`.
It leaves with the identifier that it has found. -/
def bundlePass : Bytes × Int → Run (Pass (Bytes × Int) (Option Bytes))
  | (tag, dictLevel) =>
    if tag = [] then .ok (.leave none)
    else if dictStart <+: tag then .ok (.again (nextTag (tag.drop 6), dictLevel + 1))
    else if dictEnd <+: tag then .ok (.again (nextTag (tag.drop 7), dictLevel - 1))
    else if dictLevel = 1 ∧ bundleKey <+: tag then
      match nextString (tag.drop 29) with
      | some bundle => .ok (.leave (some bundle))
      | none => .ok (.again (nextTag (tag.drop 1), dictLevel))
    else .ok (.again (nextTag (tag.drop 1), dictLevel))

/-- What is left in `gKextBundleIdentifier`; `fuel` bounds the passes of the loop. -/
def extractKextBundleIdentifier (fuel : Nat) (gKextBundleIdentifier plist : Bytes) : Run Bytes :=
  let cleared := gKextBundleIdentifier.set 0 0
  match asciiStrStr plist dictStart with
  | none => .ok cleared
  | some i => do
    match ← Run.loop bundlePass fuel (plist.drop (i + 6), 1) with
    | some bundle => .ok (writeCells cleared 0 (bundle ++ [0]))
    | none => .ok cleared

/-! ## Keys at depth 1 -/

/-- The key `CFBundleIdentifier` stands at `i`, in the outermost dictionary. -/
def TopKey (plist : Bytes) (i : Nat) : Prop := bundleKey <+: plist.drop i ∧ depth plist i = 1

def whiteSpace : Bytes := [9, 10, 13, 32]

/-! ## One pass -/

theorem nextTag_eq_drop (text : Bytes) :
    ∃ n, nextTag text = text.drop n ∧ ∀ j < n, text[j]? ≠ some 60 := by
  induction text with
  | nil => exact ⟨0, rfl, fun j hj => absurd hj (Nat.not_lt_zero j)⟩
  | cons c text ih =>
    by_cases hc : c = 60
    · refine ⟨0, ?_, fun j hj => absurd hj (Nat.not_lt_zero j)⟩
      rw [nextTag, dropWhile_cons_of_neg (by simp [hc])]
      rfl
    · obtain ⟨n, hn, hletters⟩ := ih
      refine ⟨n + 1, ?_, ?_⟩
      · rw [nextTag, dropWhile_cons_of_pos (by simp [hc])]
        exact hn
      · intro j hj
        cases j with
        | zero => simpa using hc
        | succ j => exact hletters j (by omega)

section Pass

variable {plist : Bytes} {i : Nat}

theorem tag_letters {pat : Bytes} (h : pat <+: plist.drop i) (hpat : 60 ∉ pat.tail) :
    ∀ j, i + 1 ≤ j → j < i + pat.length → plist[j]? ≠ some 60 := by
  intro j hle hlt hget
  apply hpat
  obtain ⟨rest, hrest⟩ := h
  have hj : (plist.drop i)[j - i]? = some 60 := by
    rw [getElem?_drop, Nat.add_sub_cancel' (by omega), hget]
  rw [← hrest, getElem?_append_left (by omega)] at hj
  apply mem_of_getElem? (i := j - i - 1)
  rw [getElem?_tail, Nat.sub_add_cancel (by omega)]
  exact hj

theorem nextTag_behind (w : Nat)
    (hletters : ∀ j, i + 1 ≤ j → j < i + (w + 1) → plist[j]? ≠ some 60) :
      ∃ i', i < i' ∧ nextTag (plist.drop (i + (w + 1))) = plist.drop i' ∧ depth plist i' =
        depth plist i + nesting (plist.drop i) ∧
      ∀ j, i < j → j < i' → plist[j]? ≠ some 60 := by
  obtain ⟨n, hn, hnext⟩ := nextTag_eq_drop (plist.drop (i + (w + 1)))
  have hall : ∀ j, i + 1 ≤ j → j < i + 1 + (w + n) → plist[j]? ≠ some 60 := by
    intro j hle hlt
    by_cases hj : j < i + (w + 1)
    · exact hletters j hle hj
    · have := hnext (j - (i + (w + 1))) (by omega)
      rwa [getElem?_drop, Nat.add_sub_cancel' (by omega)] at this
  refine ⟨i + 1 + (w + n), by omega, ?_, ?_, hall⟩
  · rw [hn, drop_drop]
    congr 1
    omega
  · rw [depth_add hall, depth]

/-- A pass that comes to no key goes on at the next tag. -/
theorem bundlePass_again (hend : i < plist.length) (hkey : ¬ TopKey plist i) :
    ∃ i', i < i' ∧ bundlePass (plist.drop i, depth plist i) =
        .ok (.again (plist.drop i', depth plist i')) ∧
      ∀ j, i < j → j < i' → plist[j]? ≠ some 60 := by
  have hne : plist.drop i ≠ [] := by
    rw [ne_eq, drop_eq_nil_iff]
    omega
  have hletter : ∀ j, i + 1 ≤ j → j < i + (0 + 1) → plist[j]? ≠ some 60 := by
    intro j hle hlt
    omega
  rw [bundlePass, if_neg hne]
  split
  · next hstart =>
    obtain ⟨i', hlt, hnext, hdepth, hletters⟩ :=
      nextTag_behind 5 (tag_letters hstart (by decide))
    refine ⟨i', hlt, ?_, hletters⟩
    rw [drop_drop, hnext, hdepth, nesting_dictStart hstart]
  next hstart =>
  split
  · next hend =>
    obtain ⟨i', hlt, hnext, hdepth, hletters⟩ := nextTag_behind 6 (tag_letters hend (by decide))
    refine ⟨i', hlt, ?_, hletters⟩
    rw [drop_drop, hnext, hdepth, nesting_dictEnd hend]
    rfl
  next hend =>
  obtain ⟨i', hlt, hnext, hdepth, hletters⟩ := nextTag_behind 0 hletter
  refine ⟨i', hlt, ?_, hletters⟩
  have hnot : ¬ (depth plist i = 1 ∧ bundleKey <+: plist.drop i) := fun h => hkey ⟨h.2, h.1⟩
  rw [if_neg hnot, drop_drop, hnext, hdepth, nesting_other hstart hend, Int.add_zero]

theorem bundlePass_leave {bundle : Bytes} (hkey : TopKey plist i)
    (hstring : nextString (plist.drop (i + 29)) = some bundle) :
    bundlePass (plist.drop i, depth plist i) = .ok (.leave (some bundle)) := by
  obtain ⟨rest, hrest⟩ := hkey.1
  have hfirst : ∀ pat, pat <+: plist.drop i → pat.length ≤ 29 → pat <+: bundleKey := by
    intro pat hpat hlength
    exact prefix_of_prefix_length_le hpat hkey.1 hlength
  have hstart : ¬ dictStart <+: plist.drop i :=
    fun h => absurd (hfirst _ h (by decide)) (by decide)
  have hend : ¬ dictEnd <+: plist.drop i := fun h => absurd (hfirst _ h (by decide)) (by decide)
  have hne : plist.drop i ≠ [] := by
    rw [← hrest]
    exact cons_ne_nil _ _
  rw [bundlePass, if_neg hne, if_neg hstart, if_neg hend, if_pos ⟨hkey.2, hkey.1⟩, drop_drop,
    hstring]

end Pass

/-! ## The first dictionary -/

section First

variable {plist : Bytes} (hbalanced : Balanced plist)

include hbalanced

theorem depth_before {i : Nat} (hi : i ≤ plist.length)
    (h : ∀ j < i, ¬ dictStart <+: plist.drop j) : depth plist i = 0 := by
  have hle : ∀ n ≤ i, depth plist n ≤ 0 := by
    intro n
    induction n with
    | zero => exact fun _ => Int.le_refl 0
    | succ n ih =>
      intro hn
      have hnest : nesting (plist.drop n) ≤ 0 := by
        rw [nesting, if_neg (h n hn)]
        split <;> decide
      have := ih (by omega)
      rw [depth]
      omega
  have hge := hbalanced.nonneg i hi
  have := hle i (le_refl i)
  omega

/-- The loop starts behind the first dictionary tag, at depth 1, and no key stands before. -/
theorem first_dict {f : Nat} (h : asciiStrStr plist dictStart = some f) :
    depth plist (f + 6) = 1 ∧ ∀ k, TopKey plist k → f + 6 ≤ k := by
  rw [asciiStrStr_eq, findPat_eq_some_iff] at h
  obtain ⟨hat, hbefore⟩ := h
  have hf := lt_length_of_starts hat
  have hzero : ∀ j ≤ f, depth plist j = 0 := by
    intro j hj
    exact depth_before hbalanced (by omega) fun n hn => hbefore n (by omega)
  have hletters : ∀ j, f + 1 ≤ j → j < f + 6 → plist[j]? ≠ some 60 :=
    tag_letters hat (by decide)
  constructor
  · have hbehind : depth plist (f + 1 + 5) = depth plist (f + 1) := depth_add hletters
    have hopen : depth plist (f + 1) = 0 + 1 := by
      rw [depth, nesting_dictStart hat, hzero f (le_refl f)]
    exact hbehind.trans hopen
  · intro k hkey
    obtain ⟨hkey, hdepth⟩ := hkey
    by_contra hlt
    rcases lt_or_ge f k with hgt | hle
    · exact hletters k hgt (by omega) (getElem?_of_starts hkey)
    · rw [hzero k hle] at hdepth
      exact absurd hdepth (by decide)

theorem no_dict (h : asciiStrStr plist dictStart = none) (k : Nat) : ¬ TopKey plist k := by
  rw [asciiStrStr_eq, findPat_eq_none_iff] at h
  intro hkey
  obtain ⟨hkey, hdepth⟩ := hkey
  have hk := lt_length_of_starts hkey
  rw [depth_before hbalanced (le_of_lt hk) fun j _ => h j] at hdepth
  exact absurd hdepth (by decide)

end First

/-! ## The identifier -/

theorem nextString_eq {blank bundle rest : Bytes} (hblank : 60 ∉ blank) (hbundle : 60 ∉ bundle)
    (hlength : bundle.length ≤ 254) :
    nextString (blank ++ (stringStart ++ (bundle ++ (stringEnd ++ rest)))) = some bundle := by
  have hstart : asciiStrStr (blank ++ (stringStart ++ (bundle ++ (stringEnd ++ rest))))
      stringStart = some blank.length := by
    rw [asciiStrStr_eq]
    exact findPat_first rfl hblank _
  have hdrop : (blank ++ (stringStart ++ (bundle ++ (stringEnd ++ rest)))).drop
      (blank.length + 8) = bundle ++ (stringEnd ++ rest) := by
    rw [← drop_drop, drop_left]
    rfl
  have hend : asciiStrStr (bundle ++ (stringEnd ++ rest)) stringEnd = some bundle.length := by
    rw [asciiStrStr_eq]
    exact findPat_first rfl hbundle _
  simp only [nextString, hstart, Option.bind_eq_bind, Option.bind_some, hdrop, hend]
  rw [if_pos (by omega), take_left]

theorem cString_cleared (global : Bytes) : cString (global.set 0 0) = [] := by
  cases global with
  | nil => rfl
  | cons b global => rfl

theorem cString_stored {bundle : Bytes} (hzero : 0 ∉ bundle) (global : Bytes) :
    cString (writeCells global 0 (bundle ++ [0])) = bundle := by
  rw [cString, writeCells, take_zero, nil_append, append_assoc,
    takeWhile_append_of_pos]
  · rw [singleton_append, takeWhile_cons_of_neg (by decide), append_nil]
  · intro b hb
    rw [decide_eq_true_iff]
    rintro rfl
    exact hzero hb

section Loop

variable {plist : Bytes}

/-- The loop comes to the first key. -/
theorem bundleLoop_finds {k : Nat} {bundle : Bytes} (hkey : TopKey plist k)
    (hfirst : ∀ j < k, ¬ TopKey plist j)
    (hstring : nextString (plist.drop (k + 29)) = some bundle) {i fuel : Nat} (hi : i ≤ k)
    (hfuel : plist.length < fuel) :
    Run.loop bundlePass fuel (plist.drop i, depth plist i) = .ok (some bundle) := by
  have hk := lt_length_of_starts hkey.1
  obtain ⟨r, hr, rfl⟩ : Run.Returns (Run.loop bundlePass fuel (plist.drop i, depth plist i))
      fun r => r = some bundle := by
    apply Run.returns_loop (fun s => ∃ i ≤ k, s = (plist.drop i, depth plist i))
      (fun s => s.1.length)
    · rintro _ ⟨i, hi, rfl⟩
      rcases Nat.eq_or_lt_of_le hi with rfl | hlt
      · rw [bundlePass_leave hkey hstring]
        exact Run.returns_ok rfl
      · obtain ⟨i', hlt', hpass, hletters⟩ :=
          bundlePass_again (i := i) (by omega) (hfirst i hlt)
        rw [hpass]
        apply Run.returns_ok
        refine ⟨⟨i', ?_, rfl⟩, ?_⟩
        · by_contra hgt
          exact hletters k hlt (by omega) (getElem?_of_starts hkey.1)
        · simp only [length_drop]
          omega
    · exact ⟨i, hi, rfl⟩
    · rw [length_drop]
      omega
  exact hr

theorem bundleLoop_ends (hnone : ∀ j, ¬ TopKey plist j) {i fuel : Nat}
    (hfuel : plist.length < fuel) :
    Run.loop bundlePass fuel (plist.drop i, depth plist i) = .ok none := by
  obtain ⟨r, hr, rfl⟩ : Run.Returns (Run.loop bundlePass fuel (plist.drop i, depth plist i))
      fun r => r = none := by
    apply Run.returns_loop (fun s => ∃ i, s = (plist.drop i, depth plist i)) (fun s => s.1.length)
    · rintro _ ⟨i, rfl⟩
      rcases lt_or_ge i plist.length with hlt | hge
      · obtain ⟨i', hlt', hpass, -⟩ := bundlePass_again hlt (hnone i)
        rw [hpass]
        apply Run.returns_ok
        refine ⟨⟨i', rfl⟩, ?_⟩
        simp only [length_drop]
        omega
      · rw [drop_eq_nil_of_le hge, bundlePass, if_pos rfl]
        exact Run.returns_ok rfl
    · exact ⟨i, rfl⟩
    · rw [length_drop]
      omega
  exact hr

end Loop

/-- The identifier is the string behind the first key at depth 1; without such a key it is empty. -/
theorem extractKextBundleIdentifier_spec (gKextBundleIdentifier plist : Bytes) (fuel : Nat)
    (hzero : 0 ∉ plist) (hbalanced : Balanced plist) (hfuel : plist.length < fuel) :
    (∀ k blank bundle rest, TopKey plist k → (∀ j < k, ¬ TopKey plist j) →
      plist.drop (k + 29) = blank ++ (stringStart ++ (bundle ++ (stringEnd ++ rest))) →
      (∀ b ∈ blank, b ∈ whiteSpace) → 60 ∉ bundle → bundle.length ≤ 254 →
      ∃ global, extractKextBundleIdentifier fuel gKextBundleIdentifier plist = .ok global ∧
        cString global = bundle) ∧
    ((∀ k, ¬ TopKey plist k) →
      ∃ global, extractKextBundleIdentifier fuel gKextBundleIdentifier plist = .ok global ∧
        cString global = []) := by
  constructor
  · intro k blank bundle rest hkey hfirst hrest hblank hbundle hlength
    have hstring : nextString (plist.drop (k + 29)) = some bundle := by
      rw [hrest]
      refine nextString_eq ?_ hbundle hlength
      intro h
      exact absurd (hblank 60 h) (by decide)
    have hzero' : 0 ∉ bundle := by
      intro h
      apply hzero
      apply mem_of_mem_drop (i := k + 29)
      rw [hrest]
      simp [h]
    rw [extractKextBundleIdentifier]
    cases hdict : asciiStrStr plist dictStart with
    | none => exact absurd hkey (no_dict hbalanced hdict k)
    | some f =>
      obtain ⟨hdepth, hbefore⟩ := first_dict hbalanced hdict
      have hloop := bundleLoop_finds hkey hfirst hstring (hbefore k hkey) hfuel
      rw [hdepth] at hloop
      simp only [hloop, Run.ok_bind]
      exact ⟨_, rfl, cString_stored hzero' _⟩
  · intro hnone
    rw [extractKextBundleIdentifier]
    cases hdict : asciiStrStr plist dictStart with
    | none => exact ⟨_, rfl, cString_cleared _⟩
    | some f =>
      have hloop := bundleLoop_ends hnone (i := f + 6) hfuel
      rw [(first_dict hbalanced hdict).1] at hloop
      simp only [hloop, Run.ok_bind]
      exact ⟨_, rfl, cString_cleared _⟩

/-- A key of an inner dictionary stands before the one that counts. -/
def nestedPlist : Bytes :=
  lit "<dict><key>A</key><dict><key>CFBundleIdentifier</key><string>x</string></dict>" ++
    (bundleKey ++ (lit " " ++ (stringStart ++ (lit "y" ++ (stringEnd ++ dictEnd)))))

theorem extractKextBundleIdentifier_spec_nested : ∃ global,
    extractKextBundleIdentifier 200 (replicate 256 7) nestedPlist = .ok global ∧
      cString global = lit "y" := by
  have hbalanced : Balanced nestedPlist := ⟨by decide +kernel, by decide +kernel⟩
  have hkey : TopKey nestedPlist 78 := by
    unfold TopKey
    decide +kernel
  have hfirst : ∀ j < 78, ¬ TopKey nestedPlist j := by
    unfold TopKey
    decide +kernel
  exact (extractKextBundleIdentifier_spec (replicate 256 7) nestedPlist 200 (by decide +kernel)
    hbalanced (by decide +kernel)).1 78 (lit " ") (lit "y") dictEnd hkey hfirst (by decide +kernel)
    (by decide) (by decide) (by decide)

end Clover.Kext
