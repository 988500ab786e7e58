import Clover.Lib.Steps

/-!
# Scrolling in a menu

The functions `InitScroll` and `UpdateScroll` of `gui/REFIT_MENU_SCREEN.cpp`. A menu has entries
`0 .. MaxIndex`, of which those up to `MaxScroll` stand in the row that scrolls; the window shows
`MaxVisible + 1` of them from `FirstVisible` on, and `FirstVisible` is at most `MaxFirstVisible`.

`Valid` says that the selected entry exists and, if it stands in the row that scrolls, can be seen.
Most movements keep this. Three of them do not always (`Slips`): a line up into the last entry of
the row, and a page up or down that counts the lines of the window twice, or has none to count. The
main result is `updateScroll_valid_iff`.
-/

namespace Clover.Gui

open Clover.Lib

/-- The structure `SCROLL_STATE`. -/
structure ScrollState where
  currentSelection : Int
  lastSelection : Int
  maxScroll : Int
  maxIndex : Int
  firstVisible : Int
  lastVisible : Int
  maxVisible : Int
  maxFirstVisible : Int
  isScrolling : Bool
  paintAll : Bool
  paintSelection : Bool
  deriving DecidableEq, Repr

def constrainMin (v m : Int) : Int := if v < m then m else v

def constrainMax (v m : Int) : Int := if v > m then m else v

theorem constrainMin_eq_max (v m : Int) : constrainMin v m = max v m := by
  unfold constrainMin
  split <;> omega

theorem constrainMax_eq_min (v m : Int) : constrainMax v m = min v m := by
  unfold constrainMax
  split <;> omega

/-- The movements of `UpdateScroll`, with `none` for a selection that its caller has made. -/
inductive Movement where
  | lineUp
  | lineDown
  | pageUp
  | pageDown
  | first
  | last
  | none
  | scrollDown
  | scrollUp
  deriving DecidableEq, Repr

namespace ScrollState

/-- The cast `(INTN)` of a `UINTN`. -/
def intn (n : UInt64) : Int := n.toBitVec.toInt

/-- The state of a menu that is opened. -/
def initScroll (itemCount : Int) (maxCount visibleSpace : UInt64) (selected : Int) : ScrollState :=
  let maxIndex := intn maxCount - 1
  let maxScroll := itemCount - 1
  let maxVisible := if visibleSpace = 0 then maxScroll else intn visibleSpace - 1
  let maxVisible := if maxVisible ≥ itemCount then itemCount - 1 else maxVisible
  let maxFirstVisible := constrainMin (maxScroll - maxVisible) 0
  let firstVisible := min selected maxFirstVisible
  { currentSelection := selected
    lastSelection := selected
    maxScroll
    maxIndex
    firstVisible
    lastVisible := firstVisible + maxVisible
    maxVisible
    maxFirstVisible
    isScrolling := maxFirstVisible > 0
    paintAll := true
    paintSelection := false }

/-! ## The cases of `UpdateScroll` -/

section Cases

variable (s : ScrollState)

def lineUp : ScrollState :=
  if s.currentSelection > 0 then
    let s := { s with currentSelection := s.currentSelection - 1 }
    let s := if s.currentSelection < s.firstVisible then
        { s with paintAll := true, firstVisible := s.currentSelection } else s
    let s := if s.currentSelection = s.maxScroll then { s with paintAll := true } else s
    if s.currentSelection < s.maxScroll ∧ s.currentSelection > s.lastVisible then
      { s with
        paintAll := true
        lastVisible := s.currentSelection
        firstVisible := s.currentSelection - s.maxVisible }
    else s
  else s

def lineDown : ScrollState :=
  if s.currentSelection < s.maxIndex then
    let s := { s with currentSelection := s.currentSelection + 1 }
    let s := if s.currentSelection > s.lastVisible ∧ s.currentSelection ≤ s.maxScroll then
        { s with
          paintAll := true
          firstVisible := constrainMax (s.firstVisible + 1) s.maxFirstVisible }
      else s
    if s.currentSelection = s.maxScroll + 1 then { s with paintAll := true } else s
  else s

def scrollDown : ScrollState :=
  if s.firstVisible < s.maxFirstVisible then
    let s := if s.currentSelection = s.firstVisible then
        { s with currentSelection := s.currentSelection + 1 } else s
    { s with
      firstVisible := s.firstVisible + 1
      lastVisible := s.lastVisible + 1
      paintAll := true }
  else s

def scrollUp : ScrollState :=
  if s.firstVisible > 0 then
    let s := if s.currentSelection = s.lastVisible then
        { s with currentSelection := s.currentSelection - 1 } else s
    { s with
      firstVisible := s.firstVisible - 1
      lastVisible := s.lastVisible - 1
      paintAll := true }
  else s

def pageUp : ScrollState :=
  if s.currentSelection > 0 then
    let s :=
      if s.currentSelection = s.maxIndex then
        if s.isScrolling then
          { s with currentSelection := s.currentSelection - (s.maxVisible - 1) }
        else { s with currentSelection := 0 }
      else
        { s with
          paintAll := if s.firstVisible > 0 then true else s.paintAll
          currentSelection := s.currentSelection - s.maxVisible
          firstVisible := s.firstVisible - s.maxVisible }
    let s := { s with
      currentSelection := constrainMin s.currentSelection 0
      firstVisible := constrainMin s.firstVisible 0 }
    if s.currentSelection < s.firstVisible then
      { s with paintAll := true, firstVisible := s.currentSelection }
    else s
  else s

/-- The test against `LastVisible` still sees the window before the movement. -/
def pageDown : ScrollState :=
  if s.currentSelection < s.maxIndex then
    let s :=
      if s.currentSelection = 0 then
        if s.isScrolling then { s with currentSelection := s.maxVisible - 1 }
        else { s with currentSelection := s.maxIndex }
      else
        { s with
          currentSelection := s.currentSelection + s.maxVisible
          firstVisible := s.firstVisible + s.maxVisible }
    let s := { s with
      currentSelection := constrainMax s.currentSelection s.maxIndex
      firstVisible := constrainMax s.firstVisible s.maxFirstVisible }
    let s := if s.currentSelection > s.lastVisible ∧ s.currentSelection ≤ s.maxScroll then
        { s with firstVisible := constrainMax (s.firstVisible + s.maxVisible) s.maxFirstVisible }
      else s
    { s with paintAll := true }
  else s

def first : ScrollState :=
  if s.currentSelection > 0 then
    let s := { s with currentSelection := 0 }
    if s.firstVisible > 0 then { s with paintAll := true, firstVisible := 0 } else s
  else s

def last : ScrollState :=
  if s.currentSelection < s.maxIndex then
    let s := { s with currentSelection := s.maxIndex }
    if s.firstVisible < s.maxFirstVisible then
      { s with paintAll := true, firstVisible := s.maxFirstVisible }
    else s
  else s

def none : ScrollState :=
  if s.currentSelection < s.firstVisible then
    { s with paintAll := true, firstVisible := constrainMin s.currentSelection 0 }
  else if s.currentSelection > s.lastVisible ∧ s.currentSelection ≤ s.maxScroll then
    { s with
      paintAll := true
      firstVisible := constrainMax (s.currentSelection - s.maxVisible) s.maxFirstVisible }
  else s

/-- The `switch` of `UpdateScroll`. -/
def move : Movement → ScrollState
  | .lineUp => s.lineUp
  | .lineDown => s.lineDown
  | .pageUp => s.pageUp
  | .pageDown => s.pageDown
  | .first => s.first
  | .last => s.last
  | .none => s.none
  | .scrollDown => s.scrollDown
  | .scrollUp => s.scrollUp

/-- What stands behind the `switch`. -/
def finish : ScrollState :=
  let s := if !s.paintAll && s.currentSelection != s.lastSelection then
      { s with paintSelection := true } else s
  { s with lastVisible := s.firstVisible + s.maxVisible }

/-- The state after a movement. -/
def updateScroll (movement : Movement) : ScrollState :=
  (move { s with lastSelection := s.currentSelection } movement).finish

/-- The case `SCROLL_SCROLLBAR_MOVE`, with the number `lines` that the pointer has moved. -/
def scrollbarMove (lines : Int) : ScrollState :=
  let direction := if lines < 0 then Movement.scrollUp else Movement.scrollDown
  ((List.replicate lines.natAbs direction).foldl updateScroll
    { s with lastSelection := s.currentSelection }).finish

end Cases

/-! ## Valid states -/

/-- The numbers that `InitScroll` sets once and for all. -/
structure Sound (s : ScrollState) : Prop where
  maxVisible_nonneg : 0 ≤ s.maxVisible
  maxVisible_le : s.maxVisible ≤ s.maxScroll
  maxScroll_le : s.maxScroll ≤ s.maxIndex
  maxFirstVisible_eq : s.maxFirstVisible = s.maxScroll - s.maxVisible
  isScrolling_eq : s.isScrolling = decide (s.maxFirstVisible > 0)

/-- The selected entry exists, the window lies within the row that scrolls, and it shows the
selected entry if that stands in this row. -/
structure Valid (s : ScrollState) : Prop where
  selection_nonneg : 0 ≤ s.currentSelection
  selection_le : s.currentSelection ≤ s.maxIndex
  first_nonneg : 0 ≤ s.firstVisible
  first_le : s.firstVisible ≤ s.maxFirstVisible
  last_eq : s.lastVisible = s.firstVisible + s.maxVisible
  visible : s.currentSelection ≤ s.maxScroll →
    s.firstVisible ≤ s.currentSelection ∧ s.currentSelection ≤ s.lastVisible

instance (s : ScrollState) : Decidable (Valid s) :=
  decidable_of_iff
    (((0 ≤ s.currentSelection ∧ s.currentSelection ≤ s.maxIndex) ∧
        (0 ≤ s.firstVisible ∧ s.firstVisible ≤ s.maxFirstVisible)) ∧
      s.lastVisible = s.firstVisible + s.maxVisible ∧
      (s.currentSelection ≤ s.maxScroll →
        s.firstVisible ≤ s.currentSelection ∧ s.currentSelection ≤ s.lastVisible))
    ⟨fun h => ⟨h.1.1.1, h.1.1.2, h.1.2.1, h.1.2.2, h.2.1, h.2.2⟩,
      fun h => ⟨⟨⟨h.1, h.2⟩, h.3, h.4⟩, h.5, h.6⟩⟩

/-- The numbers of `Sound` are the same in `t` as in `s`. -/
def SameLimits (s t : ScrollState) : Prop :=
  t.maxScroll = s.maxScroll ∧ t.maxIndex = s.maxIndex ∧ t.maxVisible = s.maxVisible ∧
    t.maxFirstVisible = s.maxFirstVisible ∧ t.isScrolling = s.isScrolling

theorem SameLimits.trans {s t u : ScrollState} (h : SameLimits s t) (h' : SameLimits t u) :
    SameLimits s u :=
  ⟨h'.1.trans h.1, h'.2.1.trans h.2.1, h'.2.2.1.trans h.2.2.1, h'.2.2.2.1.trans h.2.2.2.1,
    h'.2.2.2.2.trans h.2.2.2.2⟩

theorem Sound.of_sameLimits {s t : ScrollState} (hs : Sound s) (h : SameLimits s t) : Sound t := by
  obtain ⟨hscroll, hindex, hvisible, hfirst, hscrolling⟩ := h
  constructor
  · rw [hvisible]
    exact hs.maxVisible_nonneg
  · rw [hvisible, hscroll]
    exact hs.maxVisible_le
  · rw [hscroll, hindex]
    exact hs.maxScroll_le
  · rw [hfirst, hscroll, hvisible]
    exact hs.maxFirstVisible_eq
  · rw [hscrolling, hfirst]
    exact hs.isScrolling_eq

theorem move_sameLimits (s : ScrollState) (m : Movement) : SameLimits s (s.move m) := by
  cases m <;> dsimp only [move, lineUp, lineDown, pageUp, pageDown, first, last, none, scrollDown,
    scrollUp] <;> split_ifs <;> exact ⟨rfl, rfl, rfl, rfl, rfl⟩

theorem finish_sameLimits (s : ScrollState) : SameLimits s s.finish := by
  unfold finish
  split_ifs <;> exact ⟨rfl, rfl, rfl, rfl, rfl⟩

theorem updateScroll_sameLimits (s : ScrollState) (m : Movement) :
    SameLimits s (s.updateScroll m) :=
  (move_sameLimits { s with lastSelection := s.currentSelection } m).trans (finish_sameLimits _)

/-- The `switch` must leave the selection and the first visible entry right: the last visible entry
is computed behind it. -/
theorem valid_finish_iff (s : ScrollState) :
    Valid s.finish ↔ (0 ≤ s.currentSelection ∧ s.currentSelection ≤ s.maxIndex) ∧
      (0 ≤ s.firstVisible ∧ s.firstVisible ≤ s.maxFirstVisible) ∧
      (s.currentSelection ≤ s.maxScroll → s.firstVisible ≤ s.currentSelection ∧
        s.currentSelection ≤ s.firstVisible + s.maxVisible) := by
  have hfinish : ∃ paint, s.finish =
      { s with paintSelection := paint, lastVisible := s.firstVisible + s.maxVisible } := by
    unfold finish
    split_ifs
    · exact ⟨true, rfl⟩
    · exact ⟨s.paintSelection, rfl⟩
  obtain ⟨paint, h⟩ := hfinish
  rw [h]
  constructor
  · rintro ⟨h1, h2, h3, h4, -, h6⟩
    exact ⟨⟨h1, h2⟩, ⟨h3, h4⟩, h6⟩
  · rintro ⟨⟨h1, h2⟩, ⟨h3, h4⟩, h6⟩
    exact ⟨h1, h2, h3, h4, rfl, h6⟩

/-- The movements that lose the selection, or lose sight of it:

* a line up from the first entry behind the row that scrolls, while the window does not reach the
  end of the row;
* a page up from the last entry of all, if the window shows one entry only, or does not reach as far
  as the entry a page before it;
* a page up from another entry behind the row, into a part of the row that the window, moved too,
  does not reach;
* a page down from the first entry, if the window shows one entry only;
* a page down from between the first and the last visible entry, where the window moves two
  pages. -/
def Slips (s : ScrollState) : Movement → Prop
  | .lineUp => s.currentSelection = s.maxScroll + 1 ∧ s.firstVisible < s.maxFirstVisible
  | .pageUp =>
    if s.currentSelection = s.maxIndex then
      0 < s.maxFirstVisible ∧ (s.maxVisible = 0 ∨
        (s.maxIndex - s.maxVisible + 1 ≤ s.maxScroll ∧
          s.lastVisible < s.maxIndex - s.maxVisible + 1))
    else
      s.maxScroll < s.currentSelection ∧ s.currentSelection - s.maxVisible ≤ s.maxScroll ∧
        max s.lastVisible (2 * s.maxVisible) < s.currentSelection
  | .pageDown =>
    (s.currentSelection = 0 ∧ 0 < s.maxFirstVisible ∧ s.maxVisible = 0) ∨
      (0 < s.currentSelection ∧ s.firstVisible < s.currentSelection ∧
        s.currentSelection < s.lastVisible ∧
        s.currentSelection + s.maxVisible < s.maxFirstVisible)
  | _ => False

/-- One movement keeps the state valid exactly if it does not slip. -/
theorem updateScroll_valid_step {s : ScrollState} (hs : Sound s) (hv : Valid s) (m : Movement) :
    Valid (s.updateScroll m) ↔ ¬ Slips s m := by
  obtain ⟨hvis, hle, hscroll, hfirst, hscrolling⟩ := hs
  obtain ⟨h1, h2, h3, h4, h5, h6⟩ := hv
  have hscrolling : s.isScrolling = true ↔ s.maxFirstVisible > 0 := by
    rw [hscrolling, decide_eq_true_iff]
  rw [updateScroll, valid_finish_iff]
  cases m with
  | lineUp =>
    dsimp only [move, lineUp, Slips]
    split_ifs <;> dsimp only at * <;> omega
  | lineDown =>
    refine iff_of_true ?_ id
    simp only [move, lineDown, constrainMax_eq_min]
    split_ifs <;> dsimp only at * <;> omega
  | pageUp =>
    simp only [move, pageUp, constrainMin_eq_max, Slips, hscrolling]
    split_ifs <;> dsimp only at * <;> omega
  | pageDown =>
    simp only [move, pageDown, constrainMax_eq_min, Slips, hscrolling]
    split_ifs <;> dsimp only at * <;> omega
  | first =>
    refine iff_of_true ?_ id
    dsimp only [move, first]
    split_ifs <;> dsimp only at * <;> omega
  | last =>
    refine iff_of_true ?_ id
    dsimp only [move, last]
    split_ifs <;> dsimp only at * <;> omega
  | none =>
    refine iff_of_true ?_ id
    simp only [move, none, constrainMin_eq_max, constrainMax_eq_min]
    split_ifs <;> dsimp only at * <;> omega
  | scrollDown =>
    refine iff_of_true ?_ id
    dsimp only [move, scrollDown]
    split_ifs <;> dsimp only at * <;> omega
  | scrollUp =>
    refine iff_of_true ?_ id
    dsimp only [move, scrollUp]
    split_ifs <;> dsimp only at * <;> omega

theorem select_valid {s : ScrollState} (hs : Sound s) (hv : Valid s) {c : Int} (hc : 0 ≤ c)
    (hc' : c ≤ s.maxIndex) : Valid (updateScroll { s with currentSelection := c } .none) := by
  obtain ⟨hvis, hle, hscroll, hfirst, -⟩ := hs
  obtain ⟨-, -, h3, h4, h5, -⟩ := hv
  rw [updateScroll, valid_finish_iff]
  simp only [move, none, constrainMin_eq_max, constrainMax_eq_min]
  split_ifs <;> dsimp only at * <;> omega

/-- Moving the scroll bar never loses the selection. -/
theorem scrollbarMove_valid {s : ScrollState} (hs : Sound s) (hv : Valid s) (lines : Int) :
    Valid (s.scrollbarMove lines) := by
  have hstart : Sound { s with lastSelection := s.currentSelection } ∧
      Valid { s with lastSelection := s.currentSelection } :=
    ⟨hs.of_sameLimits ⟨rfl, rfl, rfl, rfl, rfl⟩, ⟨hv.1, hv.2, hv.3, hv.4, hv.5, hv.6⟩⟩
  have hscroll : ∀ (t : ScrollState) (m : Movement), m = .scrollDown ∨ m = .scrollUp →
      Sound t ∧ Valid t → Sound (t.updateScroll m) ∧ Valid (t.updateScroll m) := by
    rintro t m hm ⟨ht, hvt⟩
    refine ⟨ht.of_sameLimits (updateScroll_sameLimits t m), ?_⟩
    apply (updateScroll_valid_step ht hvt m).mpr
    rcases hm with rfl | rfl <;> exact id
  have hrun : ∀ (n : Nat) (m : Movement) (t : ScrollState), m = .scrollDown ∨ m = .scrollUp →
      Sound t ∧ Valid t → Valid ((List.replicate n m).foldl updateScroll t) := by
    intro n m t hm
    induction n generalizing t with
    | zero => exact fun ht => ht.2
    | succ n ih => exact fun ht => ih _ (hscroll t m hm ht)
  unfold scrollbarMove
  have hvalid := hrun lines.natAbs (if lines < 0 then .scrollUp else .scrollDown) _
    (by split <;> simp only [true_or, or_true]) hstart
  rw [valid_finish_iff]
  refine ⟨⟨hvalid.1, hvalid.2⟩, ⟨hvalid.3, hvalid.4⟩, fun h => ?_⟩
  rw [← hvalid.last_eq]
  exact hvalid.visible h

section Runs

variable {itemCount : Int} {maxCount visibleSpace : UInt64} {selected : Int}

theorem intn_eq (n : UInt64) :
    intn n = if n.toNat < 2 ^ 63 then (n.toNat : Int) else n.toNat - 2 ^ 64 := by
  rw [intn, BitVec.toInt_eq_toNat_cond, UInt64.toNat_toBitVec]
  split_ifs <;> omega

theorem initScroll_limits (hspace : visibleSpace ≠ 0) :
    let s := initScroll itemCount maxCount visibleSpace selected
    s.maxVisible = min (intn visibleSpace) itemCount - 1 ∧
      s.maxFirstVisible = itemCount - 1 - s.maxVisible := by
  dsimp only [initScroll, constrainMin]
  rw [if_neg hspace]
  split_ifs <;> omega

theorem initScroll_sound (hitems : 1 ≤ itemCount) (hmax : itemCount ≤ intn maxCount)
    (hspace : 1 ≤ intn visibleSpace) :
    Sound (initScroll itemCount maxCount visibleSpace selected) := by
  have hne : visibleSpace ≠ 0 := by
    rintro rfl
    exact absurd hspace (by decide)
  obtain ⟨hvisible, hfirst⟩ := @initScroll_limits itemCount maxCount visibleSpace selected hne
  refine ⟨?_, ?_, ?_, hfirst, rfl⟩
  · omega
  · show _ ≤ itemCount - 1
    omega
  · show itemCount - 1 ≤ intn maxCount - 1
    omega

/-- Counts that are negative as `INTN` leave the selection behind `MaxIndex`, or a window without
entries. -/
theorem initScroll_valid_iff (hspace : visibleSpace ≠ 0)
    (hselected : 0 ≤ selected ∧ selected < itemCount) :
    Valid (initScroll itemCount maxCount visibleSpace selected) ↔
      selected < intn maxCount ∧ 1 ≤ intn visibleSpace := by
  obtain ⟨hvisible, hfirst⟩ := @initScroll_limits itemCount maxCount visibleSpace selected hspace
  have hmin : (initScroll itemCount maxCount visibleSpace selected).firstVisible =
      min selected (initScroll itemCount maxCount visibleSpace selected).maxFirstVisible := rfl
  have hlast : (initScroll itemCount maxCount visibleSpace selected).lastVisible =
      (initScroll itemCount maxCount visibleSpace selected).firstVisible +
        (initScroll itemCount maxCount visibleSpace selected).maxVisible := rfl
  constructor
  · intro h
    have hle : selected ≤ intn maxCount - 1 := h.selection_le
    have hseen : selected ≤ _ := (h.visible (show selected ≤ itemCount - 1 by omega)).2
    omega
  · rintro ⟨hmax, hseen⟩
    refine ⟨hselected.1, show selected ≤ intn maxCount - 1 by omega, by omega, by omega, hlast,
      fun _ => ⟨show _ ≤ selected by omega, show selected ≤ _ by omega⟩⟩

/-- From the state that `InitScroll` sets, a run of movements leaves the selection valid and visible
all along if and only if the two counts are not negative as `INTN` and none of its movements
slips. -/
theorem updateScroll_valid_iff (hitems : 1 ≤ itemCount) (hmax : itemCount ≤ maxCount.toNat)
    (hspace : 1 ≤ visibleSpace.toNat) (hselected : 0 ≤ selected ∧ selected < itemCount)
    (ms : List Movement) :
    let start := initScroll itemCount maxCount visibleSpace selected
    (∀ n, Valid ((ms.take n).foldl updateScroll start)) ↔
      (maxCount.toNat < 2 ^ 63 ∧ visibleSpace.toNat < 2 ^ 63) ∧
        ∀ n (h : n < ms.length), ¬ Slips ((ms.take n).foldl updateScroll start) ms[n] := by
  intro start
  have hne : visibleSpace ≠ 0 := by
    rintro rfl
    exact absurd hspace (by decide)
  have hmax' := intn_eq maxCount
  have hspace' := intn_eq visibleSpace
  have hlt := maxCount.toNat_lt
  have hlt' := visibleSpace.toNat_lt
  have hvalid : Valid start ↔ maxCount.toNat < 2 ^ 63 ∧ visibleSpace.toNat < 2 ^ 63 := by
    rw [initScroll_valid_iff hne hselected]
    split_ifs at hmax' hspace' <;> omega
  by_cases hcounts : maxCount.toNat < 2 ^ 63 ∧ visibleSpace.toNat < 2 ^ 63
  · have hstart : Sound start := by
      rw [if_pos hcounts.1] at hmax'
      rw [if_pos hcounts.2] at hspace'
      exact initScroll_sound hitems (by omega) (by omega)
    have hsound : ∀ n, Sound ((ms.take n).foldl updateScroll start) := fun n =>
      foldl_invariant (fun s m hs => hs.of_sameLimits (updateScroll_sameLimits s m)) (ms.take n)
        hstart
    have hstep : ∀ s m, Sound s ∧ Valid s →
        (Sound (updateScroll s m) ∧ Valid (updateScroll s m) ↔ ¬ Slips s m) := by
      intro s m hs
      rw [and_iff_right (hs.1.of_sameLimits (updateScroll_sameLimits s m))]
      exact updateScroll_valid_step hs.1 hs.2 m
    have hrun := forall_take_iff (I := fun s => Sound s ∧ Valid s) hstep ms
      ⟨hstart, hvalid.mpr hcounts⟩
    rw [and_iff_right hcounts, ← hrun]
    exact forall_congr' fun n => (and_iff_right (hsound n)).symm
  · exact iff_of_false (fun h => hcounts (hvalid.mp (h 0))) fun h => hcounts h.1

end Runs

/-- The theorem at a menu of two rows, with three entries in the first, of which two can be seen,
and two in the second: going to the last entry and a line up do not slip. -/
theorem updateScroll_valid_iff_sample :
    Valid ([Movement.last, .lineUp].foldl updateScroll (initScroll 3 5 2 0)) := by
  have hiff := @updateScroll_valid_iff 3 5 2 0 (by decide) (by decide) (by decide) (by decide)
    [.last, .lineUp]
  refine hiff.mpr ⟨by decide, fun n h => ?_⟩ 2
  have hn : n = 0 ∨ n = 1 := by
    have h : n < 2 := h
    omega
  rcases hn with rfl | rfl
  · exact id
  · show ¬ (_ ∧ _)
    decide

/-- With one visible line, a page down from the first of three entries selects entry `-1`. With
entry 3 selected in a second row and the window not at the end of the first, a line up selects entry
2, which is not visible. A page down from the middle of a window moves the window past the selected
entry. A height of `-1`, given as `UINTN`, shows no entry at all. -/
theorem updateScroll_slips :
    ((initScroll 3 3 1 0).updateScroll .pageDown).currentSelection = -1 ∧
    ¬ Valid ([Movement.last, .scrollUp, .lineUp].foldl updateScroll (initScroll 3 4 1 0)) ∧
    ¬ Valid ([Movement.lineDown, .pageDown].foldl updateScroll (initScroll 10 10 3 0)) ∧
    ¬ Valid (initScroll 3 3 0xFFFFFFFFFFFFFFFF 0) := by
  decide

end ScrollState

end Clover.Gui
