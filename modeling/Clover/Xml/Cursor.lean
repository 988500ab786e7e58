import Clover.Xml.Parser

/-!
# The cursor

The line and the column of a parser are those of its offset in the buffer (`Located`), so a
move of the cursor is one of the offset: `s.moveTo q` is the parser `s` at offset `q`. The
lemmas here say where each of the moves goes, with enough passes for its loop, and that none of
them runs into the fatal error of `moveBackward`.
-/

namespace Clover.Xml

open Clover.Lib Clover.Lib.Run List Bool

variable {buf : Bytes} {p q : Nat} {s : XmlLiteParser} {stop : UInt8 → Bool}

/-! ## Positions -/

/-- The position at an offset. -/
def posAt (buf : Bytes) : Nat → XmlParserPosition
  | 0 => ⟨0, 1, 1⟩
  | p + 1 =>
    if buf.getD p 0 = chNewline then ⟨p + 1, (posAt buf p).line + 1, 1⟩
    else ⟨p + 1, (posAt buf p).line, (posAt buf p).col + 1⟩

@[simp] theorem posAt_p (buf : Bytes) (p : Nat) : (posAt buf p).p = p := by
  cases p with
  | zero => rfl
  | succ p =>
    unfold posAt
    split <;> rfl

theorem posAt_succ_newline (h : buf.getD p 0 = chNewline) :
    posAt buf (p + 1) = ⟨p + 1, (posAt buf p).line + 1, 1⟩ := if_pos h

theorem posAt_succ_other (h : buf.getD p 0 ≠ chNewline) :
    posAt buf (p + 1) = ⟨p + 1, (posAt buf p).line, (posAt buf p).col + 1⟩ := if_neg h

theorem posAt_eta (buf : Bytes) (p : Nat) :
    (⟨p, (posAt buf p).line, (posAt buf p).col⟩ : XmlParserPosition) = posAt buf p := by
  rw [XmlParserPosition.mk.injEq]
  exact ⟨(posAt_p _ _).symm, rfl, rfl⟩

theorem columnsBack_eq (buf : Bytes) (q : Nat) :
    ∀ col : Int, XmlLiteParser.columnsBack buf q col = col + (posAt buf q).col - 1 := by
  induction q with
  | zero =>
    intro col
    show col = col + 1 - 1
    omega
  | succ q ih =>
    intro col
    unfold XmlLiteParser.columnsBack
    by_cases h : buf.getD q 0 = chNewline
    · rw [if_neg (not_not.mpr h), posAt_succ_newline h]
      show col = col + 1 - 1
      omega
    · rw [if_pos h, posAt_succ_other h, ih]
      show col + 1 + (posAt buf q).col - 1 = col + ((posAt buf q).col + 1) - 1
      omega

namespace XmlLiteParser

/-- The cursor is inside the buffer, and its line and column are those of its offset. -/
structure Located (s : XmlLiteParser) : Prop where
  pos : s.currentPos = posAt s.buf s.currentPos.p
  le : s.currentPos.p ≤ s.size

/-- The parser with its cursor at offset `q`. -/
def moveTo (s : XmlLiteParser) (q : Nat) : XmlLiteParser := { s with currentPos := posAt s.buf q }

section MoveTo

variable (s : XmlLiteParser) (q : Nat)

@[simp] theorem moveTo_buf : (s.moveTo q).buf = s.buf := rfl

@[simp] theorem moveTo_size : (s.moveTo q).size = s.size := rfl

@[simp] theorem moveTo_latch : (s.moveTo q).xmlParsingError = s.xmlParsingError := rfl

@[simp] theorem moveTo_messages :
    (s.moveTo q).xmlParserMessageArray = s.xmlParserMessageArray := rfl

@[simp] theorem moveTo_p : (s.moveTo q).currentPos.p = q := posAt_p s.buf q

@[simp] theorem moveTo_moveTo (r : Nat) : (s.moveTo q).moveTo r = s.moveTo r := rfl

@[simp] theorem moveTo_getchar : (s.moveTo q).getchar = s.buf.getD q 0 := by
  rw [getchar, moveTo_p, moveTo_buf]

theorem moveTo_isEof : (s.moveTo q).isEof = decide (s.size ≤ q) := by
  rw [isEof, moveTo_p, moveTo_size]

end MoveTo

theorem Located.moveTo (h : q ≤ s.size) : (s.moveTo q).Located := by
  refine ⟨?_, ?_⟩
  · show posAt s.buf q = posAt s.buf (posAt s.buf q).p
    rw [posAt_p]
  · rw [moveTo_p]
    exact h

theorem Located.eq_moveTo (h : s.Located) : s = s.moveTo s.currentPos.p := by
  unfold XmlLiteParser.moveTo
  rw [← h.pos]

theorem restorePosition_eq {t : XmlLiteParser} (hs : s.Located) (hbuf : t.buf = s.buf) :
    t.restorePosition s.currentPos = t.moveTo s.currentPos.p := by
  unfold restorePosition XmlLiteParser.moveTo
  rw [hbuf, ← hs.pos]

theorem moveTo_restorePosition (s : XmlLiteParser) (q r : Nat) :
    (s.moveTo q).restorePosition (posAt s.buf r) = s.moveTo r := rfl

/-! ## Single steps -/

/-- One byte on, with its line and column. -/
theorem moveForward_of_lt (hs : s.Located) (h : s.currentPos.p < s.size) :
    s.moveForward = (s.buf.getD (s.currentPos.p + 1) 0, s.moveTo (s.currentPos.p + 1)) := by
  have hpos : (if s.getchar = chNewline then
        (⟨s.currentPos.p + 1, s.currentPos.line + 1, 1⟩ : XmlParserPosition)
      else ⟨s.currentPos.p + 1, s.currentPos.line, s.currentPos.col + 1⟩) =
      posAt s.buf (s.currentPos.p + 1) := by
    have hcur := hs.pos
    unfold posAt
    rw [getchar, ← hcur]
  unfold moveForward
  rw [if_neg (Nat.not_le.mpr h)]
  simp only [hpos]
  refine Prod.ext ?_ rfl
  show s.buf.getD (posAt s.buf (s.currentPos.p + 1)).p 0 = _
  rw [posAt_p]

theorem moveForward_moveTo (s : XmlLiteParser) (h : q < s.size) :
    (s.moveTo q).moveForward = (s.buf.getD (q + 1) 0, s.moveTo (q + 1)) := by
  rw [moveForward_of_lt (Located.moveTo (Nat.le_of_lt h)) (by rw [moveTo_p]; exact h)]
  rw [moveTo_p, moveTo_buf, moveTo_moveTo]

theorem moveForward_moveTo_size (s : XmlLiteParser) :
    (s.moveTo s.size).moveForward = (0, s.moveTo s.size) :=
  if_pos (Nat.le_of_eq (by rw [moveTo_p, moveTo_size]))

theorem getD_size (s : XmlLiteParser) : s.buf.getD s.size 0 = 0 :=
  getD_eq_default _ _ (Nat.le_refl _)

theorem moveForward_min (s : XmlLiteParser) (h : q ≤ s.size) :
    (s.moveTo q).moveForward =
      (s.buf.getD (min (q + 1) s.size) 0, s.moveTo (min (q + 1) s.size)) := by
  rcases Nat.lt_or_eq_of_le h with h | rfl
  · rw [moveForward_moveTo s h, Nat.min_eq_left h]
  · rw [moveForward_moveTo_size, Nat.min_eq_right (Nat.le_succ _), getD_size]

theorem moveBackward_moveTo (s : XmlLiteParser) (h : 0 < q) :
    (s.moveTo q).moveBackward = .ok (s.buf.getD (q - 1) 0, s.moveTo (q - 1)) := by
  obtain ⟨p, rfl⟩ : ∃ p, q = p + 1 := ⟨q - 1, by omega⟩
  have hpos : (s.moveTo (p + 1)).currentPos = posAt s.buf (p + 1) := rfl
  unfold moveBackward
  rw [moveTo_p, if_neg (Nat.succ_ne_zero p)]
  simp only [Nat.add_sub_cancel, moveTo_buf, hpos, posAt_p]
  by_cases hnl : s.buf.getD p 0 = chNewline
  · have hcol : columnsBack s.buf p 1 = (posAt s.buf p).col := by
      rw [columnsBack_eq]
      omega
    rw [posAt_succ_newline hnl, if_pos hnl, if_neg (not_not.mpr rfl), hcol, hnl]
    simp only [Int.add_sub_cancel]
    rw [posAt_eta, moveTo_restorePosition]
  · rw [posAt_succ_other hnl, if_neg hnl]
    simp only [Int.add_sub_cancel]
    rw [posAt_eta, moveTo_restorePosition]

theorem moveBackward_start (s : XmlLiteParser) : (s.moveTo 0).moveBackward = .ok (0, s.moveTo 0) :=
  rfl

/-! ## Scans -/

/-- The first offset from `p` on whose byte is in `stop`, or the end of the buffer. -/
def scan (stop : UInt8 → Bool) (buf : Bytes) (p : Nat) : Nat :=
  p + ((buf.drop p).takeWhile fun c => !stop c).length

theorem scan_eq_self (h : p < buf.length → stop (buf.getD p 0) = true) : scan stop buf p = p := by
  unfold scan
  rcases Nat.lt_or_ge p buf.length with hp | hp
  · have hc := h hp
    rw [getD_eq_getElem _ _ hp] at hc
    rw [drop_eq_getElem_cons hp, takeWhile_cons_of_neg (by rw [hc]; decide)]
    rfl
  · rw [drop_eq_nil_of_le hp]
    rfl

theorem scan_succ (hp : p < buf.length) (h : stop (buf.getD p 0) = false) :
    scan stop buf p = scan stop buf (p + 1) := by
  unfold scan
  rw [getD_eq_getElem _ _ hp] at h
  rw [drop_eq_getElem_cons hp, takeWhile_cons_of_pos (by rw [h]; rfl), length_cons]
  omega

theorem le_scan (stop : UInt8 → Bool) (buf : Bytes) (p : Nat) : p ≤ scan stop buf p :=
  Nat.le_add_right _ _

theorem scan_le (hp : p ≤ buf.length) : scan stop buf p ≤ buf.length := by
  have h := (takeWhile_sublist (l := buf.drop p) fun c => !stop c).length_le
  rw [length_drop] at h
  unfold scan
  omega

theorem scan_of_le (hpq : p ≤ q) (hq : q ≤ scan stop buf p) :
    scan stop buf q = scan stop buf p := by
  induction hpq with
  | refl => rfl
  | @step q hpq ih =>
    have hscan := ih (by omega)
    have hgo : q < buf.length ∧ stop (buf.getD q 0) = false := by
      by_contra hstop
      have hself : scan stop buf q = q := scan_eq_self fun h => by simpa [h] using hstop
      omega
    rw [← hscan, scan_succ hgo.1 hgo.2]

theorem stop_scan (h : scan stop buf p < buf.length) :
    stop (buf.getD (scan stop buf p) 0) = true := by
  by_contra hstop
  have hnext := scan_succ h (not_eq_true _ ▸ hstop)
  have hle := le_scan stop buf (scan stop buf p + 1)
  have hself := scan_of_le (le_scan stop buf p) (Nat.le_refl (scan stop buf p))
  omega

/-- A loop that moves forward up to a `stop` byte or to the end of the buffer. -/
theorem loop_scan (s : XmlLiteParser) (stop : UInt8 → Bool)
    {body : UInt8 × XmlLiteParser →
      Run (Pass (UInt8 × XmlLiteParser) (UInt8 × XmlLiteParser))}
    (hagain : ∀ q, q < s.size → stop (s.buf.getD q 0) = false →
      body (s.buf.getD q 0, s.moveTo q) = .ok (.again (s.buf.getD (q + 1) 0, s.moveTo (q + 1))))
    (hleave : ∀ q, q ≤ s.size → (q < s.size → stop (s.buf.getD q 0) = true) →
      body (s.buf.getD q 0, s.moveTo q) = .ok (.leave (s.buf.getD q 0, s.moveTo q))) :
    ∀ (fuel q : Nat), q ≤ s.size → s.size - q < fuel →
      Run.loop body fuel (s.buf.getD q 0, s.moveTo q) =
        .ok (s.buf.getD (scan stop s.buf q) 0, s.moveTo (scan stop s.buf q)) := by
  intro fuel
  induction fuel with
  | zero =>
    intro q _ h
    omega
  | succ fuel ih =>
    intro q hq hfuel
    by_cases hstop : q < s.size ∧ stop (s.buf.getD q 0) = false
    · rw [loop_again (hagain q hstop.1 hstop.2), ih (q + 1) hstop.1 (by omega),
        ← scan_succ hstop.1 hstop.2]
    · have hstop' : q < s.size → stop (s.buf.getD q 0) = true := by
        intro h
        rw [← not_eq_false]
        exact fun hfalse => hstop ⟨h, hfalse⟩
      rw [loop_leave (hleave q hq hstop') (Nat.succ_pos _), scan_eq_self hstop']

/-- The offset of the next significant character. -/
abbrev skipSpaces (buf : Bytes) (p : Nat) : Nat := scan (fun c => !isSpace c) buf p

/-- The offset of the next character `c`. -/
abbrev seek (c : UInt8) (buf : Bytes) (p : Nat) : Nat := scan (· == c) buf p

variable {s : XmlLiteParser} {fuel q : Nat}

theorem moveForwardUntilSignificant_eq (hq : q ≤ s.size) (hfuel : s.size < fuel) :
    moveForwardUntilSignificant fuel (s.moveTo q) =
      .ok (s.buf.getD (skipSpaces s.buf q) 0, s.moveTo (skipSpaces s.buf q)) := by
  unfold moveForwardUntilSignificant
  rw [moveTo_getchar]
  refine loop_scan s _ ?_ ?_ fuel q hq (by omega)
  · intro q hq hspace
    rw [not_eq_false'] at hspace
    simp only [hspace, if_true, moveForward_moveTo s hq]
  · intro q hq hspace
    have hspace' : isSpace (s.buf.getD q 0) = false := by
      rcases Nat.lt_or_eq_of_le hq with h | rfl
      · rw [← not_eq_true']
        exact hspace h
      · rw [getD_size]
        rfl
    simp only [hspace', false_eq_true, if_false]

theorem moveForwardUntil_eq (stop : UInt8) (hq : q ≤ s.size) (hfuel : s.size < fuel) :
    moveForwardUntil fuel (s.moveTo q) stop =
      .ok (s.buf.getD (seek stop s.buf q) 0, s.moveTo (seek stop s.buf q)) := by
  unfold moveForwardUntil
  rw [moveTo_getchar]
  refine loop_scan s _ ?_ ?_ fuel q hq (by omega)
  · intro q hq hstop
    rw [beq_eq_false_iff_ne] at hstop
    simp only [moveTo_p, moveTo_size, if_pos (And.intro hq hstop), moveForward_moveTo s hq]
  · intro q hq hstop
    have hleave : ¬ (q < s.size ∧ s.buf.getD q 0 ≠ stop) := by
      rintro ⟨hlt, hne⟩
      exact hne (beq_iff_eq.mp (hstop hlt))
    have hc : (if q = s.size then 0 else s.buf.getD q 0) = s.buf.getD q 0 := by
      split
      · next h => rw [h, getD_size]
      · rfl
    simp only [moveTo_p, moveTo_size, if_neg hleave, hc]

theorem moveToTagEnd_eq (hq : q ≤ s.size) (hfuel : s.size < fuel) :
    moveToTagEnd fuel (s.moveTo q) =
      .ok (s.buf.getD (scan (fun c => !isTagchar c) s.buf (min (q + 1) s.size)) 0,
        s.moveTo (scan (fun c => !isTagchar c) s.buf (min (q + 1) s.size))) := by
  unfold moveToTagEnd
  rw [moveForward_min s hq]
  refine loop_scan s _ ?_ ?_ fuel _ (Nat.min_le_right _ _) (by omega)
  · intro q hq htag
    rw [not_eq_false'] at htag
    simp only [htag, if_true, moveForward_moveTo s hq]
  · intro q hq htag
    have htag' : isTagchar (s.buf.getD q 0) = false := by
      rcases Nat.lt_or_eq_of_le hq with h | rfl
      · rw [← not_eq_true']
        exact htag h
      · rw [getD_size]
        rfl
    simp only [htag', false_eq_true, if_false]

/-- Where the search backward from offset `q` ends: at the last `stop` before it, or at the
start. -/
def seekBack (stop : UInt8) (buf : Bytes) : Nat → Nat
  | 0 => 0
  | q + 1 => if buf.getD q 0 = 0 ∨ buf.getD q 0 = stop then q else seekBack stop buf q

theorem seekBack_le (stop : UInt8) (buf : Bytes) (q : Nat) : seekBack stop buf q ≤ q := by
  induction q with
  | zero => exact Nat.le_refl _
  | succ q ih =>
    unfold seekBack
    split <;> omega

theorem backwardPass_stop {stop c : UInt8} (s : XmlLiteParser) (h : c = 0 ∨ c = stop) :
    backwardPass stop (c, s) = .ok (.leave (c, s)) :=
  if_neg fun hc => h.elim hc.1 hc.2

theorem backwardPass_back {stop c : UInt8} {r : UInt8 × XmlLiteParser} (h : ¬ (c = 0 ∨ c = stop))
    (hr : s.moveBackward = .ok r) :
    backwardPass stop (c, s) = .ok (.again r) := by
  unfold backwardPass
  simp only [hr, if_pos (not_or.mp h)]
  rfl

theorem backwardLoop_eq (s : XmlLiteParser) (stop : UInt8) (p : Nat) :
    ∀ fuel, p + 1 < fuel →
      ∃ c, Run.loop (backwardPass stop) fuel (s.buf.getD p 0, s.moveTo p) =
        .ok (c, s.moveTo (seekBack stop s.buf (p + 1))) := by
  induction p with
  | zero =>
    intro fuel hfuel
    obtain ⟨n, rfl⟩ : ∃ n, fuel = n + 1 := ⟨fuel - 1, by omega⟩
    rw [seekBack]
    by_cases hc : s.buf.getD 0 0 = 0 ∨ s.buf.getD 0 0 = stop
    · rw [if_pos hc]
      exact ⟨_, loop_leave (backwardPass_stop _ hc) (Nat.succ_pos _)⟩
    · rw [if_neg hc, loop_again (backwardPass_back hc (moveBackward_start s))]
      exact ⟨0, loop_leave (backwardPass_stop _ (Or.inl rfl)) (by omega)⟩
  | succ p ih =>
    intro fuel hfuel
    obtain ⟨n, rfl⟩ : ∃ n, fuel = n + 1 := ⟨fuel - 1, by omega⟩
    rw [seekBack]
    by_cases hc : s.buf.getD (p + 1) 0 = 0 ∨ s.buf.getD (p + 1) 0 = stop
    · rw [if_pos hc]
      exact ⟨_, loop_leave (backwardPass_stop _ hc) (Nat.succ_pos _)⟩
    · rw [if_neg hc,
        loop_again (backwardPass_back hc (moveBackward_moveTo s (Nat.succ_pos p)))]
      exact ih n (by omega)

theorem moveBackwardUntil_eq (s : XmlLiteParser) (stop : UInt8) (hq : q < fuel) :
    ∃ c, moveBackwardUntil fuel (s.moveTo q) stop =
      .ok (c, s.moveTo (seekBack stop s.buf q)) := by
  unfold moveBackwardUntil
  cases q with
  | zero =>
    rw [moveBackward_start]
    exact ⟨0, loop_leave (backwardPass_stop _ (Or.inl rfl)) hq⟩
  | succ p =>
    rw [moveBackward_moveTo s (Nat.succ_pos p)]
    exact backwardLoop_eq s stop p fuel hq

end XmlLiteParser

end Clover.Xml
