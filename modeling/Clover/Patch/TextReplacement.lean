import Clover.Patch.Replacement

/-!
# Replacement in a text

`SearchAndReplaceTxt` of `Platform/MemoryOperation.c` looks for a pattern in a text that ends with a
NUL. Characters up to the blank are passed over in the text, and their places are filled with
blanks behind the replacement.

The pointer `SourcePos` is not reset when the search goes on behind a match. If the text ends there,
nothing is searched, and the old match is replaced again, at the same place, for as long as the
number of replacements is not restricted or not used up. The search stops for another reason only if
there is no room for the pattern in front of the end of the buffer. This is what the condition of
the final theorem says.
-/

namespace Clover.Patch

open Clover.Lib Clover.Lib.Run List Nat

/-! ## The function -/

/-- What the comparing loop moves: `Source`, `Skip`, and what is left of the pattern from `Pos`
on. -/
structure Comparing where
  source : Nat
  skip : Nat
  pos : Bytes

/-- What the searching loop moves. The pointer `SourcePos` is null where nothing was found. -/
structure Finding where
  source : Nat
  skip : Nat
  firstMatch : Nat
  sourcePos : Option Nat

structure TxtReplacing where
  mem : Mem
  finding : Finding
  numReplaces : Nat
  maxReplaces : Int

/-- One pass of the innermost loop. -/
def comparePass (m : Mem) (v : Comparing) : Run (Pass Comparing Comparing) :=
  match v.pos with
  | [] => .ok (.leave v)
  | p :: pos =>
    if m v.source ≠ 0 then
      if m v.source ≤ 0x20 then .ok (.again { v with source := v.source + 1, skip := v.skip + 1 })
      else if m v.source ≠ p then .ok (.leave v)
      else .ok (.again { v with source := v.source + 1, pos := pos })
    else .ok (.leave v)

/-- One pass of the loop that looks for the pattern. -/
def findPass (search : Bytes) (fuel : Nat) (m : Mem) (v : Finding) : Run (Pass Finding Finding) :=
  if m v.source ≠ 0 then do
    let firstMatch := v.source
    let found ← Run.loop (comparePass m) fuel ⟨v.source, 0, search⟩
    if found.pos = [] then .ok (.leave ⟨found.source, found.skip, firstMatch, some firstMatch⟩)
    else .ok (.again ⟨firstMatch + 1, found.skip, firstMatch, none⟩)
  else .ok (.leave v)

/-- One pass of the outer loop. -/
def txtPass (search replace : Bytes) (fuel endp : Nat) (noReplacesRestriction : Bool)
    (v : TxtReplacing) : Run (Pass TxtReplacing (Mem × Nat)) :=
  if v.finding.source + search.length ≤ endp ∧ (noReplacesRestriction ∨ 0 < v.maxReplaces) then do
    let found ← Run.loop (findPass search fuel v.mem) fuel v.finding
    match found.sourcePos with
    | none => .ok (.leave (v.mem, v.numReplaces))
    | some sourcePos =>
      let mem := copyMem v.mem sourcePos (replace.take search.length)
      let mem := copyMem mem (sourcePos + search.length) (replicate found.skip 0x20)
      .ok (.again ⟨mem, { found with source := found.firstMatch + search.length + found.skip },
        v.numReplaces + 1, v.maxReplaces - 1⟩)
  else .ok (.leave (v.mem, v.numReplaces))

/-- The memory after the replacements and their number. The loops over the text may make `fuel`
passes each, and the outer loop `passes`. -/
def searchAndReplaceTxt (search replace : Bytes) (fuel passes : Nat) (m : Mem)
    (source sourceSize : Nat) (maxReplaces : Int) : Run (Mem × Nat) :=
  if search.isEmpty ∨ replace.isEmpty then .ok (m, 0)
  else
    Run.loop (txtPass search replace fuel (source + sourceSize) (decide (maxReplaces ≤ 0))) passes
      ⟨m, ⟨source, 0, source, none⟩, 0, maxReplaces⟩

/-! ## Texts -/

/-- The text stands at `a`, with a NUL behind it. -/
def TextAt (m : Mem) : Nat → Bytes → Prop
  | a, [] => m a = 0
  | a, c :: t => m a = c ∧ c ≠ 0 ∧ TextAt m (a + 1) t

/-- The text in a buffer, up to its first NUL. -/
def textOf (m : Mem) (source size : Nat) : Bytes :=
  ((range size).map fun i => m (source + i)).takeWhile (· ≠ 0)

/-- How far the pattern goes in the text: the number of characters of the text, how many of these
are passed over, and what is left of the pattern. -/
def compareText : Bytes → Bytes → Nat × Nat × Bytes
  | [], _ => (0, 0, [])
  | pattern, [] => (0, 0, pattern)
  | p :: pattern, c :: t =>
    if c ≤ 0x20 then
      let r := compareText (p :: pattern) t
      (r.1 + 1, r.2.1 + 1, r.2.2)
    else if c ≠ p then (0, 0, p :: pattern)
    else
      let r := compareText pattern t
      (r.1 + 1, r.2.1, r.2.2)

/-- The matches of the pattern in the text, from the left and without overlap, each with its place
and its length. The text starts at place `a`, and its first `k` characters are covered. -/
def textMatches (pattern : Bytes) : Nat → Nat → Bytes → List (Nat × Nat)
  | _, _, [] => []
  | a, k + 1, _ :: t => textMatches pattern (a + 1) k t
  | a, 0, c :: t =>
    let r := compareText pattern (c :: t)
    if r.2.2 = [] then (a, r.1) :: textMatches pattern (a + 1) (r.1 - 1) t
    else textMatches pattern (a + 1) 0 t

/-- The place of the first match, and how many characters are passed over in it. -/
def firstMatch (pattern : Bytes) : Bytes → Option (Nat × Nat)
  | [] => none
  | c :: t =>
    let r := compareText pattern (c :: t)
    if r.2.2 = [] then some (0, r.2.1) else (firstMatch pattern t).map fun r => (r.1 + 1, r.2)

section Texts

variable {m m' : Mem} {a : Nat} {t : Bytes}

theorem TextAt.drop (h : TextAt m a t) {k : Nat} (hk : k ≤ t.length) :
    TextAt m (a + k) (t.drop k) := by
  induction k generalizing a t with
  | zero => exact h
  | succ k ih =>
    cases t with
    | nil => exact absurd hk (not_succ_le_zero k)
    | cons c t =>
      rw [drop_succ_cons, Nat.add_comm k 1, ← Nat.add_assoc]
      exact ih h.2.2 (le_of_succ_le_succ hk)

theorem TextAt.congr (h : TextAt m a t) (hm : ∀ x, a ≤ x → m' x = m x) : TextAt m' a t := by
  induction t generalizing a with
  | nil => exact (hm a (Nat.le_refl a)).trans h
  | cons c t ih =>
    exact ⟨(hm a (Nat.le_refl a)).trans h.1, h.2.1,
      ih h.2.2 fun x hx => hm x (le_of_succ_le hx)⟩

theorem textAt_textOf {size : Nat} (h : m (a + size) = 0) : TextAt m a (textOf m a size) := by
  induction size generalizing a with
  | zero => exact h
  | succ size ih =>
    have htail : textOf m a (size + 1) =
        if m a ≠ 0 then m a :: textOf m (a + 1) size else [] := by
      have hshift : ((range size).map Nat.succ).map (fun i => m (a + i)) =
          (range size).map fun i => m (a + 1 + i) := by
        rw [map_map]
        refine map_congr_left fun i _ => ?_
        exact congrArg m (by omega)
      rw [textOf, range_succ_eq_map, map_cons, hshift, takeWhile_cons, textOf]
      simp
    rw [htail]
    split
    · next hne => exact ⟨rfl, hne, ih (by rw [← h]; congr 1; omega)⟩
    · next hzero => exact not_not.mp hzero

theorem length_textOf_le (m : Mem) (a size : Nat) : (textOf m a size).length ≤ size := by
  have hle := (List.takeWhile_prefix (l := (range size).map fun i => m (a + i))
    (fun c => decide (c ≠ 0))).length_le
  rwa [length_map, length_range] at hle

end Texts

section Compare

variable {pattern t : Bytes} {c : UInt8}

theorem compareText_spec (pattern t : Bytes) : (compareText pattern t).1 ≤ t.length ∧
    (compareText pattern t).1 + (compareText pattern t).2.2.length =
      pattern.length + (compareText pattern t).2.1 := by
  induction t generalizing pattern with
  | nil => cases pattern <;> simp [compareText]
  | cons c t ih =>
    cases pattern with
    | nil => simp [compareText]
    | cons p pattern =>
      have hblank := ih (p :: pattern)
      have hsame := ih pattern
      rw [compareText]
      simp only [length_cons] at *
      split
      · dsimp only
        omega
      · split
        · simp
        · dsimp only
          omega

/-- The comparing loop, on the text as a list. -/
theorem compareLoop_eq {m : Mem} {a skip fuel : Nat} (ht : TextAt m a t) (hfuel : t.length < fuel) :
    Run.loop (comparePass m) fuel ⟨a, skip, pattern⟩ =
      .ok ⟨a + (compareText pattern t).1, skip + (compareText pattern t).2.1,
        (compareText pattern t).2.2⟩ := by
  induction t generalizing pattern a skip fuel with
  | nil =>
    have hzero : m a = 0 := ht
    cases pattern with
    | nil => exact loop_leave rfl (by omega)
    | cons p pattern =>
      have hpass : comparePass m ⟨a, skip, p :: pattern⟩ =
          .ok (.leave ⟨a, skip, p :: pattern⟩) := by
        exact if_neg (not_not.mpr hzero)
      exact loop_leave hpass (by omega)
  | cons c t ih =>
    obtain ⟨rfl, hne, ht⟩ := ht
    rw [length_cons] at hfuel
    obtain ⟨fuel, rfl⟩ : ∃ k, fuel = k + 1 := ⟨fuel - 1, by omega⟩
    have hfuel' : t.length < fuel := by omega
    cases pattern with
    | nil => exact loop_leave rfl (by omega)
    | cons p pattern =>
      rw [compareText]
      by_cases hblank : m a ≤ 0x20
      · have hpass : comparePass m ⟨a, skip, p :: pattern⟩ =
            .ok (.again ⟨a + 1, skip + 1, p :: pattern⟩) := by
          exact (if_pos hne).trans (if_pos hblank)
        rw [loop_again hpass, ih ht hfuel', if_pos hblank]
        rw [Nat.add_assoc a, Nat.add_comm 1, Nat.add_assoc skip, Nat.add_comm 1]
      · rw [if_neg hblank]
        by_cases hdiffers : m a ≠ p
        · have hpass : comparePass m ⟨a, skip, p :: pattern⟩ =
              .ok (.leave ⟨a, skip, p :: pattern⟩) := by
            exact (if_pos hne).trans ((if_neg hblank).trans (if_pos hdiffers))
          rw [if_pos hdiffers]
          exact loop_leave hpass (by omega)
        · have hpass : comparePass m ⟨a, skip, p :: pattern⟩ =
              .ok (.again ⟨a + 1, skip, pattern⟩) := by
            exact (if_pos hne).trans ((if_neg hblank).trans (if_neg hdiffers))
          rw [loop_again hpass, ih ht hfuel', if_neg hdiffers]
          rw [Nat.add_assoc a, Nat.add_comm 1]

theorem firstMatch_cons_some (h : (compareText pattern (c :: t)).2.2 = []) :
    firstMatch pattern (c :: t) = some (0, (compareText pattern (c :: t)).2.1) := by
  exact if_pos h

theorem firstMatch_cons_none (h : (compareText pattern (c :: t)).2.2 ≠ []) :
    firstMatch pattern (c :: t) = (firstMatch pattern t).map fun r => (r.1 + 1, r.2) := by
  exact if_neg h

/-- The searching loop: it stops at once in an empty text, and finds the first match in others. -/
theorem findLoop_eq {m : Mem} {a fuel fuel' : Nat} {v : Finding} (ht : TextAt m a t)
    (hv : v.source = a) (hfuel : t.length < fuel) (hfuel' : t.length < fuel') :
    ∃ v', Run.loop (findPass pattern fuel m) fuel' v = .ok v' ∧
      match firstMatch pattern t with
      | none => v'.sourcePos = if t = [] then v.sourcePos else none
      | some r => v'.skip = r.2 ∧ v'.firstMatch = a + r.1 ∧ v'.sourcePos = some (a + r.1) := by
  induction t generalizing a v fuel' with
  | nil =>
    have hpass : findPass pattern fuel m v = .ok (.leave v) := by
      rw [findPass, hv]
      exact if_neg (not_not.mpr ht)
    exact ⟨v, loop_leave hpass (by omega), (if_pos rfl).symm⟩
  | cons c t ih =>
    have hcompare := @compareLoop_eq pattern (c :: t) m a 0 fuel ht hfuel
    obtain ⟨rfl, hne, ht⟩ := ht
    rw [length_cons] at hfuel hfuel'
    obtain ⟨fuel', rfl⟩ : ∃ k, fuel' = k + 1 := ⟨fuel' - 1, by omega⟩
    by_cases hfound : (compareText pattern (m a :: t)).2.2 = []
    · have hpass : findPass pattern fuel m v = .ok (.leave
          ⟨a + (compareText pattern (m a :: t)).1, 0 + (compareText pattern (m a :: t)).2.1, a,
            some a⟩) := by
        rw [findPass, hv, if_pos hne, hcompare]
        exact if_pos hfound
      rw [firstMatch_cons_some hfound]
      exact ⟨_, loop_leave hpass (by omega), Nat.zero_add _, rfl, rfl⟩
    · have hpass : findPass pattern fuel m v = .ok (.again
          ⟨a + 1, 0 + (compareText pattern (m a :: t)).2.1, a, none⟩) := by
        rw [findPass, hv, if_pos hne, hcompare]
        exact if_neg hfound
      obtain ⟨v', hloop, hresult⟩ := @ih (a + 1) fuel'
        ⟨a + 1, 0 + (compareText pattern (m a :: t)).2.1, a, none⟩ ht rfl (by omega) (by omega)
      rw [firstMatch_cons_none hfound]
      refine ⟨v', (loop_again hpass fuel').trans hloop, ?_⟩
      cases hfirst : firstMatch pattern t with
      | none =>
        rw [hfirst] at hresult
        refine Eq.trans hresult ?_
        rw [if_neg (cons_ne_nil _ _), ite_self]
      | some r =>
        rw [hfirst] at hresult
        dsimp only at hresult
        have hplace : a + 1 + r.1 = a + (r.1 + 1) := by omega
        rw [hplace] at hresult
        exact hresult

theorem textMatches_covered (a k : Nat) (t : Bytes) :
    textMatches pattern a k t = textMatches pattern (a + k) 0 (t.drop k) := by
  induction t generalizing a k with
  | nil => rw [drop_nil, textMatches, textMatches]
  | cons c t ih =>
    cases k with
    | zero => rfl
    | succ k => rw [textMatches, ih, drop_succ_cons, Nat.add_assoc, Nat.add_comm 1]

theorem textMatches_eq (hpattern : pattern ≠ []) (a : Nat) (t : Bytes) :
    match firstMatch pattern t with
    | none => textMatches pattern a 0 t = []
    | some r => r.1 + (pattern.length + r.2) ≤ t.length ∧
        textMatches pattern a 0 t = (a + r.1, pattern.length + r.2) ::
          textMatches pattern (a + r.1 + (pattern.length + r.2)) 0
            (t.drop (r.1 + (pattern.length + r.2))) := by
  induction t generalizing a with
  | nil => rfl
  | cons c t ih =>
    have hlen : 0 < pattern.length := length_pos_iff.mpr hpattern
    obtain ⟨hle, hlength⟩ := compareText_spec pattern (c :: t)
    by_cases hfound : (compareText pattern (c :: t)).2.2 = []
    · rw [hfound, length_nil, Nat.add_zero] at hlength
      rw [firstMatch_cons_some hfound, textMatches]
      dsimp only
      rw [if_pos hfound, hlength, textMatches_covered, Nat.zero_add]
      refine ⟨hlength ▸ hle, ?_⟩
      obtain ⟨n, hn⟩ : ∃ n, pattern.length + (compareText pattern (c :: t)).2.1 = n + 1 :=
        ⟨pattern.length + (compareText pattern (c :: t)).2.1 - 1, by omega⟩
      rw [hn, drop_succ_cons, Nat.add_sub_cancel, Nat.add_assoc a, Nat.add_comm 1]
      rfl
    · rw [firstMatch_cons_none hfound, textMatches, if_neg hfound]
      have hrest := ih (a + 1)
      cases hfirst : firstMatch pattern t with
      | none =>
        rw [hfirst] at hrest
        exact hrest
      | some r =>
        rw [hfirst] at hrest
        obtain ⟨hfits, heq⟩ := hrest
        have hplace : a + 1 + r.1 = a + (r.1 + 1) := by omega
        have hdrop : r.1 + 1 + (pattern.length + r.2) = r.1 + (pattern.length + r.2) + 1 := by omega
        rw [Option.map_some]
        dsimp only
        rw [heq, hplace, hdrop, drop_succ_cons, length_cons]
        exact ⟨succ_le_succ hfits, rfl⟩

end Compare

/-! ## The outer loop -/

section Outer

variable {search replace : Bytes} {fuel endp base : Nat} {free : Bool} {m₀ : Mem}
  {v : TxtReplacing} {t : Bytes} {found : Finding} {p : Nat} {r : Mem × Nat}

/-- Between two passes: the text that is left stands at the cursor, memory has changed in the
buffer only, and the last match, if there is one, ends at the cursor. -/
structure Searching (search : Bytes) (m₀ : Mem) (base endp : Nat) (v : TxtReplacing)
    (t : Bytes) : Prop where
  text : TextAt v.mem v.finding.source t
  start : base ≤ v.finding.source
  inside : v.finding.source + t.length ≤ endp
  same : SameOutside base (endp - base) m₀ v.mem
  last : ∀ p, v.finding.sourcePos = some p → p = v.finding.firstMatch ∧ base ≤ p ∧
    p + search.length + v.finding.skip = v.finding.source

/-- The memory after a match at `p`. -/
def replaced (search replace : Bytes) (m : Mem) (p skip : Nat) : Mem :=
  copyMem (copyMem m p (replace.take search.length)) (p + search.length) (replicate skip 0x20)

theorem replaced_of_outside {m : Mem} {skip x : Nat} (h : x < p ∨ p + search.length + skip ≤ x) :
    replaced search replace m p skip x = m x := by
  have hcopy : ∀ (m : Mem) (bytes : Bytes) (d : Nat), x < d ∨ d + bytes.length ≤ x →
      copyMem m d bytes x = m x := by
    intro m bytes d hx
    rw [copyMem_apply]
    split
    · rw [getElem?_eq_none (by omega)]
      rfl
    · rfl
  have hlength : (replace.take search.length).length ≤ search.length := by
    rw [length_take]
    exact Nat.min_le_left _ _
  rw [replaced, hcopy _ _ _ (by rw [length_replicate]; omega), hcopy _ _ _ (by omega)]

/-- The next state after a match at `p`. -/
def afterMatch (search replace : Bytes) (v : TxtReplacing) (found : Finding) (p : Nat) :
    TxtReplacing :=
  ⟨replaced search replace v.mem p found.skip,
    { found with source := found.firstMatch + search.length + found.skip },
    v.numReplaces + 1, v.maxReplaces - 1⟩

/-- The pattern has room in front of the end of the buffer, and replacements are left to make. -/
abbrev GoesOn (search : Bytes) (endp : Nat) (free : Bool) (v : TxtReplacing) : Prop :=
  v.finding.source + search.length ≤ endp ∧ (free = true ∨ 0 < v.maxReplaces)

theorem txtPass_leave (h : ¬ GoesOn search endp free v) :
    txtPass search replace fuel endp free v = .ok (.leave (v.mem, v.numReplaces)) := by
  exact if_neg h

theorem txtPass_none (h : GoesOn search endp free v)
    (hloop : Run.loop (findPass search fuel v.mem) fuel v.finding = .ok found)
    (hfound : found.sourcePos = none) :
    txtPass search replace fuel endp free v = .ok (.leave (v.mem, v.numReplaces)) := by
  rw [txtPass, if_pos h, hloop]
  show (match found.sourcePos with | none => _ | some sourcePos => _) = _
  rw [hfound]

theorem txtPass_some (h : GoesOn search endp free v)
    (hloop : Run.loop (findPass search fuel v.mem) fuel v.finding = .ok found)
    (hfound : found.sourcePos = some p) :
    txtPass search replace fuel endp free v =
      .ok (.again (afterMatch search replace v found p)) := by
  obtain ⟨source, skip, firstMatch, sourcePos⟩ := found
  obtain rfl : sourcePos = some p := hfound
  rw [txtPass, if_pos h, hloop]
  rfl

theorem Searching.behind (h : Searching search m₀ base endp v t) {k : Nat}
    (hfirst : found.firstMatch = p) (hpos : found.sourcePos = some p) (hbase : base ≤ p)
    (hend : p + search.length + found.skip = v.finding.source + k) (hk : k ≤ t.length) :
    Searching search m₀ base endp (afterMatch search replace v found p) (t.drop k) := by
  have hcursor : (afterMatch search replace v found p).finding.source = v.finding.source + k := by
    show found.firstMatch + search.length + found.skip = _
    rw [hfirst, hend]
  have hinside := h.inside
  refine ⟨?_, ?_, ?_, ?_, ?_⟩
  · rw [hcursor]
    refine (h.text.drop hk).congr fun x hx => ?_
    exact replaced_of_outside (Or.inr (by omega))
  · omega
  · rw [hcursor, length_drop]
    omega
  · intro x hx
    refine Eq.trans ?_ (h.same x hx)
    refine replaced_of_outside ?_
    omega
  · intro q hq
    obtain rfl := Option.some.inj (hpos.symm.trans hq)
    exact ⟨hfirst.symm, hbase, by rw [hcursor]; exact hend⟩

/-- The matches that are left, by their places. -/
def remaining (search : Bytes) (v : TxtReplacing) (t : Bytes) : List (Nat × Nat) :=
  textMatches search v.finding.source 0 t

/-- The last match ends with the text. -/
def EndsAtNul (search : Bytes) (v : TxtReplacing) (t : Bytes) : Prop :=
  match (remaining search v t).getLast? with
  | some r => r.1 + r.2 = v.finding.source + t.length
  | none => t = [] ∧ v.finding.sourcePos ≠ none

/-- The search comes to the end of the text behind a match, with room for the pattern in the buffer
and replacements left to make. -/
def Stuck (search : Bytes) (endp : Nat) (free : Bool) (v : TxtReplacing) (t : Bytes) : Prop :=
  EndsAtNul search v t ∧ v.finding.source + t.length + search.length ≤ endp ∧
    (free = true ∨ ((remaining search v t).length : Int) < v.maxReplaces)

/-- The number of matches to replace. -/
def dueCount (free : Bool) (max : Int) (places : List (Nat × Nat)) : Nat :=
  if free then places.length else min places.length max.toNat

variable (replace free) in
/-- Behind a match at the end of the text the loop makes the same replacement over and over. -/
theorem Searching.stale (h : Searching search m₀ base endp v []) (hfuel : 0 < fuel)
    (hpos : v.finding.sourcePos = some p)
    (hgo : GoesOn search endp free v) :
    ∃ v', txtPass search replace fuel endp free v = .ok (.again v') ∧
      Searching search m₀ base endp v' [] ∧ v'.finding.sourcePos = some p ∧
      v'.finding.source = v.finding.source ∧ v'.numReplaces = v.numReplaces + 1 ∧
      v'.maxReplaces = v.maxReplaces - 1 := by
  obtain ⟨hfirst, hbase, hend⟩ := h.last p hpos
  have hstop : findPass search fuel v.mem v.finding = .ok (.leave v.finding) := by
    exact if_neg (not_not.mpr h.text)
  refine ⟨_, txtPass_some hgo (loop_leave hstop hfuel) hpos,
    h.behind hfirst.symm hpos hbase (k := 0) hend (Nat.le_refl 0), hpos, ?_, rfl, rfl⟩
  show v.finding.firstMatch + search.length + v.finding.skip = v.finding.source
  rw [← hfirst, hend]

theorem Searching.stale_free (h : Searching search m₀ base endp v []) (hfuel : 0 < fuel)
    (hpos : v.finding.sourcePos ≠ none) (hroom : v.finding.source + search.length ≤ endp)
    (r : Mem × Nat) : ¬ Leaves (txtPass search replace fuel endp true) v r := by
  refine not_leaves (fun v => Searching search m₀ base endp v [] ∧ v.finding.sourcePos ≠ none ∧
    v.finding.source + search.length ≤ endp) ?_ ⟨h, hpos, hroom⟩ r
  rintro v ⟨h, hpos, hroom⟩
  obtain ⟨p, hp⟩ := Option.ne_none_iff_exists'.mp hpos
  obtain ⟨v', hpass, h', hp', hsource, -, -⟩ := h.stale replace true hfuel hp ⟨hroom, Or.inl rfl⟩
  exact ⟨v', hpass, h', by rw [hp']; exact Option.some_ne_none p, by rw [hsource]; exact hroom⟩

theorem Searching.stale_restricted {n : Nat} (h : Searching search m₀ base endp v [])
    (hfuel : 0 < fuel)
    (hpos : v.finding.sourcePos ≠ none) (hroom : v.finding.source + search.length ≤ endp)
    (hn : v.maxReplaces = n) (hr : Leaves (txtPass search replace fuel endp false) v r) :
    r.2 = v.numReplaces + n := by
  induction n generalizing v with
  | zero =>
    have hleave : txtPass search replace fuel endp false v = .ok (.leave (v.mem, v.numReplaces)) :=
      txtPass_leave fun hgo => by
        rcases hgo.2 with hfree | hmax
        · exact absurd hfree (by decide)
        · omega
    rw [(leaves_leave hleave r).mp hr]
    rfl
  | succ n ih =>
    obtain ⟨p, hp⟩ := Option.ne_none_iff_exists'.mp hpos
    obtain ⟨v', hpass, h', hp', hsource, hnum, hmax⟩ :=
      h.stale replace false hfuel hp ⟨hroom, Or.inr (by omega)⟩
    have hr' := (leaves_again hpass r).mp hr
    rw [ih h' (by rw [hp']; exact Option.some_ne_none p) (by rw [hsource]; exact hroom)
      (by omega) hr', hnum]
    omega

variable (replace) in
/-- What a match does: the loop goes on behind it, with one match less. -/
theorem Searching.step (h : Searching search m₀ base endp v t) (hsearch : search ≠ [])
    (hfuel : t.length < fuel)
    (hgo : GoesOn search endp free v)
    {r : Nat × Nat} (hfirst : firstMatch search t = some r) :
    ∃ v' t', txtPass search replace fuel endp free v = .ok (.again v') ∧
      Searching search m₀ base endp v' t' ∧ t'.length < t.length ∧
      v'.finding.source + t'.length = v.finding.source + t.length ∧
      v'.finding.sourcePos ≠ none ∧ v'.numReplaces = v.numReplaces + 1 ∧
      v'.maxReplaces = v.maxReplaces - 1 ∧
      ∃ n, v.finding.source + r.1 + n = v'.finding.source ∧
        remaining search v t = (v.finding.source + r.1, n) :: remaining search v' t' := by
  have hlen : 0 < search.length := length_pos_iff.mpr hsearch
  obtain ⟨found, hloop, hfound⟩ :=
    @findLoop_eq search t v.mem v.finding.source fuel fuel v.finding h.text rfl hfuel hfuel
  rw [hfirst] at hfound
  obtain ⟨hskip, hmatch, hpos⟩ := hfound
  have hmatches := textMatches_eq hsearch v.finding.source t
  rw [hfirst] at hmatches
  obtain ⟨hfits, hmatches⟩ := hmatches
  have hstart := h.start
  have hcursor : found.firstMatch + search.length + found.skip =
      v.finding.source + (r.1 + (search.length + r.2)) := by omega
  refine ⟨afterMatch search replace v found (v.finding.source + r.1),
    t.drop (r.1 + (search.length + r.2)), txtPass_some hgo hloop hpos,
    h.behind hmatch hpos (by omega) (by omega) hfits, ?_, ?_, ?_, rfl, rfl,
    search.length + r.2, ?_, ?_⟩
  · rw [length_drop]
    omega
  · show found.firstMatch + search.length + found.skip + _ = _
    rw [hcursor, length_drop]
    omega
  · show found.sourcePos ≠ none
    rw [hpos]
    exact Option.some_ne_none _
  · show _ = found.firstMatch + search.length + found.skip
    omega
  · show remaining search v t = _ :: textMatches search (found.firstMatch + search.length +
        found.skip) 0 _
    rw [hcursor, remaining, hmatches, Nat.add_assoc v.finding.source]

/-- The loop is left with the number of matches, unless the search gets stuck. Then it is left only
with all the replacements used up that were allowed. -/
def Counts (search replace : Bytes) (fuel endp : Nat) (free : Bool) (v : TxtReplacing)
    (t : Bytes) : Prop :=
  (¬ Stuck search endp free v t → ∃ r, Leaves (txtPass search replace fuel endp free) v r ∧
    r.2 = v.numReplaces + dueCount free v.maxReplaces (remaining search v t)) ∧
  (Stuck search endp free v t → ∀ r, Leaves (txtPass search replace fuel endp free) v r →
    free = false ∧ r.2 = v.numReplaces + v.maxReplaces.toNat)

theorem counts_of_leave
    (hnone : remaining search v t = [] ∨ free = false ∧ v.maxReplaces ≤ 0)
    (hnot : ¬ Stuck search endp free v t)
    (hpass : txtPass search replace fuel endp free v = .ok (.leave (v.mem, v.numReplaces))) :
    Counts search replace fuel endp free v t := by
  refine ⟨fun _ => ⟨_, (leaves_leave hpass _).mpr rfl, ?_⟩, fun hstuck => absurd hstuck hnot⟩
  rcases hnone with hnone | ⟨hfree, hmax⟩
  · rw [hnone, dueCount, length_nil, Nat.zero_min, ite_self]
    rfl
  · have hzero : v.maxReplaces.toNat = 0 := by omega
    rw [dueCount, hfree, hzero, Nat.min_zero]
    rfl

theorem Searching.counts_stale (h : Searching search m₀ base endp v []) (hfuel : 0 < fuel)
    (hpos : v.finding.sourcePos ≠ none)
    (hgo : GoesOn search endp free v) :
    Counts search replace fuel endp free v [] := by
  have hstuck : Stuck search endp free v [] := ⟨⟨rfl, hpos⟩, hgo.1, hgo.2⟩
  refine ⟨fun hnot => absurd hstuck hnot, fun _ r hr => ?_⟩
  cases free with
  | true => exact absurd hr (h.stale_free hfuel hpos hgo.1 r)
  | false =>
    have hmax : 0 < v.maxReplaces := hgo.2.resolve_left Bool.false_ne_true
    exact ⟨rfl, h.stale_restricted (n := v.maxReplaces.toNat) hfuel hpos hgo.1 (by omega) hr⟩

/-- A pass that replaces a match and goes on. -/
theorem counts_step {v' : TxtReplacing} {t' : Bytes} {a n : Nat}
    (hgo : free = true ∨ 0 < v.maxReplaces)
    (hpass : txtPass search replace fuel endp free v = .ok (.again v'))
    (hend : v'.finding.source + t'.length = v.finding.source + t.length)
    (hpos : v'.finding.sourcePos ≠ none) (hnum : v'.numReplaces = v.numReplaces + 1)
    (hmax : v'.maxReplaces = v.maxReplaces - 1) (hcursor : a + n = v'.finding.source)
    (hmatches : remaining search v t = (a, n) :: remaining search v' t')
    (h : Counts search replace fuel endp free v' t') :
    Counts search replace fuel endp free v t := by
  have hnul : EndsAtNul search v t ↔ EndsAtNul search v' t' := by
    unfold EndsAtNul
    rw [hmatches, getLast?_cons]
    cases (remaining search v' t').getLast? with
    | none =>
      show a + n = v.finding.source + t.length ↔ t' = [] ∧ v'.finding.sourcePos ≠ none
      rw [and_iff_left hpos, ← length_eq_zero_iff]
      omega
    | some r =>
      show r.1 + r.2 = v.finding.source + t.length ↔ r.1 + r.2 = v'.finding.source + t'.length
      rw [hend]
  have hlength : (remaining search v t).length = (remaining search v' t').length + 1 := by
    rw [hmatches, length_cons]
  have hstuck : Stuck search endp free v t ↔ Stuck search endp free v' t' := by
    unfold Stuck
    rw [hnul, hend, hlength, hmax]
    refine and_congr_right fun _ => and_congr_right fun _ => or_congr_right ?_
    omega
  have hdue : dueCount free v.maxReplaces (remaining search v t) =
      1 + dueCount free v'.maxReplaces (remaining search v' t') := by
    rw [dueCount, dueCount, hlength, hmax]
    cases free with
    | true => exact Nat.add_comm _ _
    | false =>
      have hpositive : 0 < v.maxReplaces := hgo.resolve_left Bool.false_ne_true
      simp only [Bool.false_eq_true, if_false]
      omega
  have hsum : v.numReplaces + dueCount free v.maxReplaces (remaining search v t) =
      v'.numReplaces + dueCount free v'.maxReplaces (remaining search v' t') := by
    rw [hdue, hnum, Nat.add_assoc]
  obtain ⟨hreturns, hwrong⟩ := h
  constructor
  · intro hnot
    obtain ⟨r, hr, hcount⟩ := hreturns fun h => hnot (hstuck.mpr h)
    exact ⟨r, (leaves_again hpass r).mpr hr, hcount.trans hsum.symm⟩
  · intro h r hr
    obtain ⟨hfree, hcount⟩ := hwrong (hstuck.mp h) r ((leaves_again hpass r).mp hr)
    have hpositive : 0 < v.maxReplaces := hgo.resolve_left (by rw [hfree]; decide)
    exact ⟨hfree, by omega⟩

variable (replace free) in
/-- A pass leaves the loop, or stands at the end of the text behind a match, or has a match in front
of it. -/
theorem Searching.pass_cases (h : Searching search m₀ base endp v t) (hsearch : search ≠ [])
    (hfuel : t.length < fuel) :
    (txtPass search replace fuel endp free v = .ok (.leave (v.mem, v.numReplaces)) ∧
      (remaining search v t = [] ∨ free = false ∧ v.maxReplaces ≤ 0) ∧
      ¬ Stuck search endp free v t) ∨
    GoesOn search endp free v ∧
      (t = [] ∧ v.finding.sourcePos ≠ none ∨ ∃ r, firstMatch search t = some r) := by
  have hinside := h.inside
  have hmatches := textMatches_eq hsearch v.finding.source t
  by_cases hgo : GoesOn search endp free v
  · cases hfirst : firstMatch search t with
    | some r => exact Or.inr ⟨hgo, Or.inr ⟨r, rfl⟩⟩
    | none =>
      obtain ⟨found, hloop, hfound⟩ := @findLoop_eq search t v.mem v.finding.source fuel fuel
        v.finding h.text rfl hfuel hfuel
      rw [hfirst] at hmatches hfound
      have hnone : remaining search v t = [] := hmatches
      by_cases hstale : t = [] ∧ v.finding.sourcePos ≠ none
      · exact Or.inr ⟨hgo, Or.inl hstale⟩
      · refine Or.inl ⟨txtPass_none hgo hloop ?_, Or.inl hnone, fun hstuck => hstale ?_⟩
        · rw [hfound]
          split
          · next hnil => exact not_not.mp fun hpos => hstale ⟨hnil, hpos⟩
          · rfl
        · have hnul := hstuck.1
          rw [EndsAtNul, hnone] at hnul
          exact hnul
  · refine Or.inl ⟨txtPass_leave hgo, ?_, ?_⟩
    · rcases Nat.lt_or_ge endp (v.finding.source + search.length) with hroom | hroom
      · left
        cases hfirst : firstMatch search t with
        | none =>
          rw [hfirst] at hmatches
          exact hmatches
        | some r =>
          rw [hfirst] at hmatches
          omega
      · right
        have hbudget : ¬ (free = true ∨ 0 < v.maxReplaces) := fun hbudget => hgo ⟨hroom, hbudget⟩
        rw [not_or, Bool.not_eq_true] at hbudget
        exact ⟨hbudget.1, by omega⟩
    · rintro ⟨-, hroom, hbudget⟩
      exact hgo ⟨by omega, hbudget.imp_right fun hlt => by omega⟩

theorem Searching.length_lt (h : Searching search m₀ base endp v t) (hfuel : endp - base < fuel) :
    t.length < fuel := by
  have := h.inside
  have := h.start
  omega

/-- The loop counts the matches, from any state. -/
theorem Searching.counts (hsearch : search ≠ []) (hfuel : endp - base < fuel) :
    ∀ {v : TxtReplacing} {t : Bytes}, Searching search m₀ base endp v t →
      Counts search replace fuel endp free v t := by
  intro v t
  induction hn : t.length using Nat.strongRecOn generalizing v t with
  | ind n ih =>
  subst hn
  intro h
  have hfuel' := h.length_lt hfuel
  rcases h.pass_cases replace free hsearch hfuel' with
    ⟨hpass, hnone, hnot⟩ | ⟨hgo, ⟨rfl, hpos⟩ | ⟨r, hfirst⟩⟩
  · exact counts_of_leave hnone hnot hpass
  · exact h.counts_stale (zero_lt_of_lt hfuel) hpos hgo
  · obtain ⟨v', t', hpass, h', hshorter, hend, hpos, hnum, hmax, n, hcursor, hrest⟩ :=
      h.step replace hsearch hfuel' hgo hfirst
    exact counts_step hgo.2 hpass hend hpos hnum hmax hcursor hrest (ih _ hshorter rfl h')

theorem Searching.sameOutside (hsearch : search ≠ []) (hfuel : endp - base < fuel)
    (h : Searching search m₀ base endp v t) {passes : Nat}
    (hr : Run.loop (txtPass search replace fuel endp free) passes v = .ok r) :
    SameOutside base (endp - base) m₀ r.1 := by
  have hsafe : Safe (Run.loop (txtPass search replace fuel endp free) passes v)
      fun r => SameOutside base (endp - base) m₀ r.1 := by
    refine safe_loop (fun v => ∃ t, Searching search m₀ base endp v t) ?_ passes v ⟨t, h⟩
    rintro v ⟨t, h⟩
    have hfuel' := h.length_lt hfuel
    rcases h.pass_cases replace free hsearch hfuel' with
      ⟨hpass, -, -⟩ | ⟨hgo, ⟨rfl, hpos⟩ | ⟨r, hfirst⟩⟩
    · rw [hpass]
      exact h.same
    · obtain ⟨p, hp⟩ := Option.ne_none_iff_exists'.mp hpos
      obtain ⟨v', hpass, h', -⟩ := h.stale replace free (zero_lt_of_lt hfuel) hp hgo
      rw [hpass]
      exact ⟨[], h'⟩
    · obtain ⟨v', t', hpass, h', -⟩ := h.step replace hsearch hfuel' hgo hfirst
      rw [hpass]
      exact ⟨t', h'⟩
  rw [hr] at hsafe
  exact hsafe

end Outer

/-! ## The result -/

/-- The matches in the text of a buffer, by their places. -/
def bufferMatches (m : Mem) (source sourceSize : Nat) (search : Bytes) : List (Nat × Nat) :=
  textMatches search source 0 (textOf m source sourceSize)

/-- The last match ends at the first NUL, with room for the pattern behind it in the buffer, and
replacements left to make. -/
def FindsAgain (m : Mem) (source sourceSize : Nat) (search : Bytes) (maxReplaces : Int) : Prop :=
  (∃ r, (bufferMatches m source sourceSize search).getLast? = some r ∧
    r.1 + r.2 = source + (textOf m source sourceSize).length) ∧
  (textOf m source sourceSize).length + search.length ≤ sourceSize ∧
  (maxReplaces ≤ 0 ∨ ((bufferMatches m source sourceSize search).length : Int) < maxReplaces)

section Result

variable (m : Mem) (source sourceSize : Nat) (search replace : Bytes) (maxReplaces : Int)

theorem stuck_iff_findsAgain :
    Stuck search (source + sourceSize) (decide (maxReplaces ≤ 0))
      ⟨m, ⟨source, 0, source, none⟩, 0, maxReplaces⟩ (textOf m source sourceSize) ↔
      FindsAgain m source sourceSize search maxReplaces := by
  have hlast : EndsAtNul search ⟨m, ⟨source, 0, source, none⟩, 0, maxReplaces⟩
        (textOf m source sourceSize) ↔
      ∃ r, (bufferMatches m source sourceSize search).getLast? = some r ∧
        r.1 + r.2 = source + (textOf m source sourceSize).length := by
    show (match (bufferMatches m source sourceSize search).getLast? with
      | some r => r.1 + r.2 = source + (textOf m source sourceSize).length
      | none => textOf m source sourceSize = [] ∧ (none : Option Nat) ≠ none) ↔ _
    cases (bufferMatches m source sourceSize search).getLast? with
    | none => exact ⟨fun h => absurd rfl h.2, fun ⟨_, h, _⟩ => nomatch h⟩
    | some r => exact ⟨fun h => ⟨r, rfl, h⟩, fun ⟨_, h, h'⟩ => Option.some.inj h ▸ h'⟩
  refine and_congr hlast (and_congr ?_ (or_congr_left decide_eq_true_iff))
  show source + (textOf m source sourceSize).length + search.length ≤ source + sourceSize ↔ _
  omega

variable {m source sourceSize search replace maxReplaces} {fuel : Nat}
  (hnul : m (source + sourceSize) = 0)

include hnul

theorem searching_start : Searching search m source (source + sourceSize)
    ⟨m, ⟨source, 0, source, none⟩, 0, maxReplaces⟩ (textOf m source sourceSize) :=
  ⟨textAt_textOf hnul, Nat.le_refl _, Nat.add_le_add_left (length_textOf_le _ _ _) _,
    fun _ _ => rfl, nofun⟩

variable (hsearch : search ≠ []) (hlength : replace.length = search.length)
  (hfuel : sourceSize < fuel) {passes : Nat} {r : Mem × Nat}

include hsearch hfuel

theorem counts_start : Counts search replace fuel (source + sourceSize) (decide (maxReplaces ≤ 0))
    ⟨m, ⟨source, 0, source, none⟩, 0, maxReplaces⟩ (textOf m source sourceSize) :=
  Searching.counts hsearch (by omega) (searching_start hnul)

include hlength

theorem searchAndReplaceTxt_inside
    (hr : searchAndReplaceTxt search replace fuel passes m source sourceSize maxReplaces = .ok r) :
    SameOutside source sourceSize m r.1 := by
  rw [searchAndReplaceTxt, if_neg (not_isEmpty hsearch hlength)] at hr
  have hsame := (searching_start hnul).sameOutside hsearch (by omega) hr
  rwa [Nat.add_sub_cancel_left] at hsame

/-- Where the last match is found again all the replacements are used up, and without a restriction
nothing is returned. -/
theorem searchAndReplaceTxt_findsAgain (hagain : FindsAgain m source sourceSize search maxReplaces)
    (hr : searchAndReplaceTxt search replace fuel passes m source sourceSize maxReplaces = .ok r) :
    0 < maxReplaces ∧ r.2 = maxReplaces.toNat := by
  rw [searchAndReplaceTxt, if_neg (not_isEmpty hsearch hlength)] at hr
  obtain ⟨hfree, hcount⟩ := (counts_start hnul hsearch hfuel).2
    ((stuck_iff_findsAgain ..).mpr hagain) r ⟨passes, hr⟩
  exact ⟨Int.not_le.mp (of_decide_eq_false hfree), hcount.trans (Nat.zero_add _)⟩

theorem searchAndReplaceTxt_counts (honce : ¬ FindsAgain m source sourceSize search maxReplaces) :
    ∃ passes r, searchAndReplaceTxt search replace fuel passes m source sourceSize maxReplaces =
      .ok r ∧ r.2 = dueCount (decide (maxReplaces ≤ 0)) maxReplaces
        (bufferMatches m source sourceSize search) := by
  obtain ⟨r, ⟨passes, hr⟩, hcount⟩ := (counts_start hnul hsearch hfuel).1 fun hstuck =>
    honce ((stuck_iff_findsAgain ..).mp hstuck)
  refine ⟨passes, r, ?_, hcount.trans (Nat.zero_add _)⟩
  rw [searchAndReplaceTxt, if_neg (not_isEmpty hsearch hlength), hr]

end Result

/-- The function returns, with only the buffer changed and the number of its matches, exactly if the
last match is not found again. -/
theorem searchAndReplaceTxt_returns_iff (m : Mem) (source sourceSize : Nat)
    (search replace : Bytes) (maxReplaces : Int) (fuel : Nat)
    (hnul : m (source + sourceSize) = 0) (hsearch : search ≠ [])
    (hlength : replace.length = search.length) (hfuel : sourceSize < fuel) :
    (∀ passes r, searchAndReplaceTxt search replace fuel passes m source sourceSize maxReplaces =
      .ok r → SameOutside source sourceSize m r.1) ∧
    ((∃ passes r, searchAndReplaceTxt search replace fuel passes m source sourceSize maxReplaces =
        .ok r ∧ SameOutside source sourceSize m r.1 ∧
        r.2 = dueCount (decide (maxReplaces ≤ 0)) maxReplaces
          (bufferMatches m source sourceSize search)) ↔
      ¬ FindsAgain m source sourceSize search maxReplaces) := by
  refine ⟨fun passes r => searchAndReplaceTxt_inside hnul hsearch hlength hfuel, ?_, ?_⟩
  · rintro ⟨passes, r, hr, -, hcount⟩ hagain
    obtain ⟨hmax, hused⟩ := searchAndReplaceTxt_findsAgain hnul hsearch hlength hfuel hagain hr
    have hleft := hagain.2.2.resolve_left (Int.not_le.mpr hmax)
    rw [hused, dueCount, if_neg (by rw [decide_eq_true_iff]; omega)] at hcount
    omega
  · intro honce
    obtain ⟨passes, r, hr, hcount⟩ := searchAndReplaceTxt_counts hnul hsearch hlength hfuel honce
    exact ⟨passes, r, hr, searchAndReplaceTxt_inside hnul hsearch hlength hfuel hr, hcount⟩

/-- A text with two matches, one of them with a blank in it, in a buffer of its length. -/
theorem searchAndReplaceTxt_returns_iff_sample :
    let m : Mem := fun a => [97, 98, 120, 97, 32, 98, 120].getD a 0
    ∃ passes r, searchAndReplaceTxt [97, 98] [99, 100] 8 passes m 0 7 (-1) = .ok r ∧
      SameOutside 0 7 m r.1 ∧ r.2 = 2 := by
  intro m
  obtain ⟨-, hreturns⟩ := searchAndReplaceTxt_returns_iff m 0 7 [97, 98] [99, 100] (-1) 8
    (by decide +kernel) (by decide) rfl (by decide)
  refine hreturns.mpr fun hagain => ?_
  have hroom := hagain.2.1
  exact absurd hroom (by decide)

/-- A buffer of five bytes whose text is its first two. -/
def shortText : Mem := fun a => [97, 98].getD a 0

/-- The text ends with a match, and there is room behind it: nothing is returned, and with a
restriction the one match is counted three times. -/
theorem searchAndReplaceTxt_stuck :
    (∀ passes r, searchAndReplaceTxt [97, 98] [99, 100] 6 passes shortText 0 5 (-1) ≠ .ok r) ∧
    (searchAndReplaceTxt [97, 98] [99, 100] 6 5 shortText 0 5 3).map Prod.snd = .ok 3 ∧
    bufferMatches shortText 0 5 [97, 98] = [(0, 2)] := by
  have hplaces : bufferMatches shortText 0 5 [97, 98] = [(0, 2)] := by decide +kernel
  refine ⟨fun passes r hr => ?_, by decide +kernel, hplaces⟩
  have hagain : FindsAgain shortText 0 5 [97, 98] (-1) := by
    refine ⟨⟨(0, 2), ?_, by decide +kernel⟩, by decide +kernel, Or.inl (by decide)⟩
    rfl
  obtain ⟨hmax, -⟩ := searchAndReplaceTxt_findsAgain (by decide +kernel) (by decide)
    (by decide) (by decide) hagain hr
  exact absurd hmax (by decide)

end Clover.Patch
