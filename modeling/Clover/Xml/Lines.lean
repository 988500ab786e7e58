import Clover.Xml.Termination

/-!
# Lines and columns

The line of the parser is one more than the number of newlines before the current position, and
its column one more than the number of bytes behind the last of them. Both are those of the offset
(`Located`), and every function that moves the parser keeps them so: the steps forward count them,
the steps backward count the columns of a line anew when they enter it at its end, and a position
that is restored was right when it was taken. The fatal error of `moveBackward` is therefore never
met, in any sequence of moves (`runMoves_lines`).
-/

namespace Clover.Xml

open Clover.Lib Clover.Lib.Run List

/-! ## The position of an offset -/

/-- The line is the number of line ends before, and one. -/
theorem posAt_line {buf : Bytes} {p : Nat} (hp : p ≤ buf.length) :
    (posAt buf p).line = 1 + (buf.take p).count chNewline := by
  induction p with
  | zero => rfl
  | succ p ih =>
    have hlt : p < buf.length := hp
    rw [take_succ_eq_append_getElem hlt, count_append, Int.natCast_add, ← Int.add_assoc,
      ← ih (le_of_lt hlt)]
    by_cases hnewline : buf.getD p 0 = chNewline
    · rw [posAt_succ_newline hnewline]
      rw [getD_eq_getElem _ _ hlt] at hnewline
      simp [hnewline]
    · rw [posAt_succ_other hnewline]
      rw [getD_eq_getElem _ _ hlt] at hnewline
      simp [hnewline]

theorem posAt_col {buf : Bytes} {p : Nat} (hp : p ≤ buf.length) :
    (posAt buf p).col = 1 + ((buf.take p).rtakeWhile fun c => c ≠ chNewline).length := by
  induction p with
  | zero => rfl
  | succ p ih =>
    have hlt : p < buf.length := hp
    rw [take_succ_eq_append_getElem hlt]
    by_cases hnewline : buf.getD p 0 = chNewline
    · rw [posAt_succ_newline hnewline]
      rw [getD_eq_getElem _ _ hlt] at hnewline
      rw [rtakeWhile_concat_neg _ _ _ (by simp [hnewline])]
      rfl
    · rw [posAt_succ_other hnewline]
      rw [getD_eq_getElem _ _ hlt] at hnewline
      rw [rtakeWhile_concat_pos _ _ _ (by simp [hnewline]), length_append, ih (le_of_lt hlt)]
      simp
      omega

namespace XmlLiteParser

/-! ## Moves -/

/-- A call of a function that moves the parser. The positions that `getPosition` has returned are
numbered; `restorePosition` takes one of them. -/
inductive Move where
  | moveForward
  | moveBackward
  | moveForwardUntil (stop : UInt8)
  | moveBackwardUntil (stop : UInt8)
  | moveForwardPastNext (stop : UInt8)
  | moveForwardUntilSignificant
  | moveBackwardUntilSignificant
  | getNextTag (generateErrors : Bool)
  | getString
  | getPosition
  | restorePosition (i : Nat)
  deriving DecidableEq, Repr

/-- A parser, and the positions that were taken. -/
structure Session where
  parser : XmlLiteParser
  taken : List XmlParserPosition

def Move.run (fuel : Nat) (move : Move) (x : Session) : Run Session :=
  match move with
  | .moveForward => .ok { x with parser := x.parser.moveForward.2 }
  | .moveBackward => do
    let (_, s) ← x.parser.moveBackward
    .ok { x with parser := s }
  | .moveForwardUntil stop => do
    let (_, s) ← x.parser.moveForwardUntil fuel stop
    .ok { x with parser := s }
  | .moveBackwardUntil stop => do
    let (_, s) ← x.parser.moveBackwardUntil fuel stop
    .ok { x with parser := s }
  | .moveForwardPastNext stop => do
    let (_, s) ← x.parser.moveForwardPastNext fuel stop
    .ok { x with parser := s }
  | .moveForwardUntilSignificant => do
    let (_, s) ← x.parser.moveForwardUntilSignificant fuel
    .ok { x with parser := s }
  | .moveBackwardUntilSignificant => do
    let (_, s) ← x.parser.moveBackwardUntilSignificant fuel
    .ok { x with parser := s }
  | .getNextTag generateErrors => do
    let (_, s) ← x.parser.getNextTag fuel generateErrors
    .ok { x with parser := s }
  | .getString => do
    let (_, s) ← x.parser.getString fuel
    .ok { x with parser := s }
  | .getPosition => .ok { x with taken := x.taken ++ [x.parser.currentPos] }
  | .restorePosition i =>
    match x.taken[i]? with
    | some pos => .ok { x with parser := x.parser.restorePosition pos }
    | none => .ok x

def runMoves (fuel : Nat) : List Move → Session → Run Session
  | [], x => .ok x
  | move :: moves, x => do
    let x ← move.run fuel x
    runMoves fuel moves x

/-- The parser on the buffer, and the positions that were taken, are right. -/
structure Session.Right (buf : Bytes) (x : Session) : Prop where
  buf_eq : x.parser.buf = buf
  located : x.parser.Located
  taken : ∀ pos ∈ x.taken, pos.p ≤ buf.length ∧ pos = posAt buf pos.p

variable {s : XmlLiteParser} {fuel : Nat}

theorem returns_moveBackward (hs : s.Located) :
    Returns s.moveBackward fun r =>
      r = (r.1, s.moveTo (s.currentPos.p - 1)) ∧ (s.currentPos.p = 0 → r.1 = 0) := by
  rw [hs.eq_moveTo]
  cases hp : s.currentPos.p with
  | zero =>
    rw [moveBackward_start]
    exact returns_ok ⟨rfl, fun _ => rfl⟩
  | succ p =>
    rw [moveBackward_moveTo s (Nat.succ_pos p)]
    refine returns_ok ⟨?_, fun h => ?_⟩
    · rw [moveTo_p]
      rfl
    · rw [moveTo_p] at h
      cases h

theorem returns_moveBackwardUntilSignificant (hs : s.Located) (hfuel : s.size + 1 < fuel) :
    Returns (s.moveBackwardUntilSignificant fuel) fun r => ∃ q ≤ s.size, r.2 = s.moveTo q := by
  unfold moveBackwardUntilSignificant
  have hle := hs.le
  -- a step from the start of the buffer gives a zero, which ends the loop
  refine returns_loop (fun x => ∃ q ≤ s.size, x.2 = s.moveTo q)
    (fun x => x.2.currentPos.p + if x.1 = 0 then 0 else 1) ?_ fuel _ ?_ ?_
  · rintro ⟨c, t⟩ ⟨q, hq, rfl⟩
    dsimp only
    split
    · next hspace =>
      have hc : c ≠ 0 := by
        rintro rfl
        cases hspace
      refine returns_bind (returns_moveBackward (Located.moveTo hq)) ?_
      rintro ⟨c', t'⟩ ⟨ht, hstart⟩
      obtain rfl := (Prod.mk.inj ht).2
      rw [moveTo_p] at hstart ⊢
      refine returns_ok ⟨⟨q - 1, by omega, rfl⟩, ?_⟩
      dsimp only
      rw [moveTo_moveTo, moveTo_p, if_neg hc]
      split
      · omega
      · next hc' =>
        have : q ≠ 0 := fun h => hc' (hstart h)
        omega
    · exact returns_ok ⟨q, hq, rfl⟩
  · exact ⟨s.currentPos.p, hle, hs.eq_moveTo⟩
  · dsimp only
    split <;> omega

/-- The parser has moved in its buffer. -/
structure Moved (s s' : XmlLiteParser) : Prop where
  buf : s'.buf = s.buf
  located : s'.Located

theorem Onward.moved {s' : XmlLiteParser} (h : Onward s s') : Moved s s' := ⟨h.buf, h.located⟩

theorem moved_moveTo {q : Nat} (hq : q ≤ s.size) : Moved s (s.moveTo q) :=
  ⟨rfl, Located.moveTo hq⟩

theorem returns_moveForwardPastNext (stop : UInt8) (hs : s.Located) (hfuel : s.size < fuel) :
    Returns (s.moveForwardPastNext fuel stop) fun r => Onward s r.2 := by
  unfold moveForwardPastNext
  refine returns_bind (returns_moveForwardUntil stop hs hfuel) ?_
  intro r hr
  exact returns_ok (hr.trans (onward_moveForward hr.located))

theorem returns_moveBackwardUntil (stop : UInt8) (hs : s.Located) (hfuel : s.size < fuel) :
    Returns (s.moveBackwardUntil fuel stop) fun r => Moved s r.2 := by
  obtain ⟨c, hrun⟩ := moveBackwardUntil_eq s stop (lt_of_le_of_lt hs.le hfuel)
  rw [← hs.eq_moveTo] at hrun
  exact ⟨_, hrun, moved_moveTo (le_trans (seekBack_le _ _ _) hs.le)⟩

section Run

variable {buf : Bytes} {x : Session}

theorem Session.Right.moved (h : x.Right buf) {s' : XmlLiteParser} (hs : Moved x.parser s') :
    Session.Right buf { x with parser := s' } :=
  ⟨hs.buf.trans h.buf_eq, hs.located, h.taken⟩

theorem returns_session {α : Type} {run : Run (α × XmlLiteParser)} (h : x.Right buf)
    (hrun : Returns run fun r => Moved x.parser r.2) :
    Returns (run >>= fun r => .ok { x with parser := r.2 }) (Session.Right buf) :=
  returns_bind hrun fun _ hr => returns_ok (h.moved hr)

theorem Session.Right.restored (h : x.Right buf) {pos : XmlParserPosition} (hpos : pos ∈ x.taken) :
    Session.Right buf { x with parser := x.parser.restorePosition pos } := by
  obtain ⟨hle, hpos⟩ := h.taken pos hpos
  refine ⟨h.buf_eq, ⟨?_, ?_⟩, h.taken⟩
  · rw [show (x.parser.restorePosition pos).buf = buf from h.buf_eq]
    exact hpos
  · rw [show (x.parser.restorePosition pos).size = buf.length from congrArg length h.buf_eq]
    exact hle

/-- A move keeps the line and the column right. -/
theorem Move.returns_run (move : Move) (h : x.Right buf) (hfuel : buf.length + 1 < fuel) :
    Returns (move.run fuel x) (Session.Right buf) := by
  have hs := h.located
  have hsize : x.parser.size = buf.length := congrArg length h.buf_eq
  have hfuel' : x.parser.size < fuel := by omega
  cases move with
  | moveForward => exact returns_ok (h.moved (onward_moveForward hs).moved)
  | moveBackward =>
    refine returns_session h ((returns_moveBackward hs).mono fun r hr => ?_)
    rw [hr.1]
    exact moved_moveTo (le_trans (Nat.sub_le _ _) hs.le)
  | moveForwardUntil stop =>
    exact returns_session h ((returns_moveForwardUntil stop hs hfuel').mono fun r hr => hr.moved)
  | moveBackwardUntil stop => exact returns_session h (returns_moveBackwardUntil stop hs hfuel')
  | moveForwardPastNext stop =>
    exact returns_session h ((returns_moveForwardPastNext stop hs hfuel').mono fun r hr => hr.moved)
  | moveForwardUntilSignificant =>
    exact returns_session h
      ((returns_moveForwardUntilSignificant hs hfuel').mono fun r hr => hr.moved)
  | moveBackwardUntilSignificant =>
    refine returns_session h
      ((returns_moveBackwardUntilSignificant hs (by omega)).mono fun r hr => ?_)
    obtain ⟨q, hq, hr⟩ := hr
    rw [hr]
    exact moved_moveTo hq
  | getNextTag generateErrors =>
    exact returns_session h ((returns_getNextTag hs hfuel').mono fun r hr => hr.1.moved)
  | getString => exact returns_session h ((returns_getString hs hfuel').mono fun r hr => hr.moved)
  | getPosition =>
    refine returns_ok ⟨h.buf_eq, hs, fun pos hpos => ?_⟩
    obtain hpos | hpos := mem_append.mp hpos
    · exact h.taken pos hpos
    · rw [mem_singleton.mp hpos, ← hsize, ← h.buf_eq]
      exact ⟨hs.le, hs.pos⟩
  | restorePosition i =>
    unfold Move.run
    dsimp only
    split
    · next pos hpos => exact returns_ok (h.restored (mem_of_getElem? hpos))
    · exact returns_ok h

theorem returns_runMoves (moves : List Move) (h : x.Right buf) (hfuel : buf.length + 1 < fuel) :
    Returns (runMoves fuel moves x) (Session.Right buf) := by
  induction moves generalizing x with
  | nil => exact returns_ok h
  | cons move moves ih => exact returns_bind (move.returns_run h hfuel) fun y hy => ih hy

end Run

/-- The line is one more than the number of newlines before the current position, and the column one
more than the number of bytes behind the last of them. -/
structure AtLine (s : XmlLiteParser) : Prop where
  line : s.currentPos.line = 1 + (s.buf.take s.currentPos.p).count chNewline
  col : s.currentPos.col =
    1 + ((s.buf.take s.currentPos.p).rtakeWhile fun c => c ≠ chNewline).length

theorem Located.atLine (hs : s.Located) : s.AtLine := by
  refine ⟨?_, ?_⟩
  · rw [hs.pos, posAt_line hs.le, posAt_p]
  · rw [hs.pos, posAt_col hs.le, posAt_p]

/-- From `init` on, every sequence of moves returns, without a fatal error, in the same buffer, and
the line and the column are then those of the current position. -/
theorem runMoves_lines (previous : XmlLiteParser) (buf : Bytes) (moves : List Move)
    {fuel : Nat} (hfuel : buf.length + 1 < fuel) :
    Returns (runMoves fuel moves ⟨previous.init buf, []⟩) fun x =>
      x.parser.buf = (previous.init buf).buf ∧ x.parser.currentPos.p ≤ buf.length ∧
        x.parser.AtLine := by
  have hsize : (previous.init buf).buf.length = buf.length := (init_spec previous buf).2
  have hright : Session.Right (previous.init buf).buf ⟨previous.init buf, []⟩ :=
    ⟨rfl, located_init previous buf, nofun⟩
  refine (returns_runMoves moves hright (hsize.symm ▸ hfuel)).mono fun x hx => ?_
  refine ⟨hx.buf_eq, ?_, hx.located.atLine⟩
  rw [← hsize, ← hx.buf_eq]
  exact hx.located.le

/-- Forward over an empty line, back to a tag, and back to a position that was taken. -/
theorem runMoves_lines_sample :
    Returns (runMoves 20 [.getNextTag true, .getPosition, .moveForwardUntilSignificant,
        .moveBackwardUntil chLt, .restorePosition 0, .moveBackwardUntilSignificant]
      ⟨new.init (lit "<a>\n\n b"), []⟩) fun x =>
      x.parser.buf = (new.init (lit "<a>\n\n b")).buf ∧
        x.parser.currentPos.p ≤ (lit "<a>\n\n b").length ∧ x.parser.AtLine :=
  runMoves_lines new (lit "<a>\n\n b") _ (by decide)

end XmlLiteParser

end Clover.Xml
