import Clover.Xml.Cursor

/-!
# Progress of the reader

What every function of the reader does on any text: it returns, the cursor ends in the buffer
and not before where it started, messages are only added, and the latch stays set
(`Onward`). A tag or a text that was found is behind the old position, and where errors are
generated a failure has left a message and set the latch.

The bound on the passes has to exceed the length of the buffer; one bound will do for all loops.
-/

namespace Clover.Xml

open Clover.Lib Clover.Lib.Run List

variable {q : Nat} {s' : XmlLiteParser} {t : Option Tag}

/-! ## The tag ahead -/

/-- Where the name of a tag ends that starts at `a`; its first character can be any. -/
def nameEnd (buf : Bytes) (a : Nat) : Nat :=
  XmlLiteParser.scan (fun c => !isTagchar c) buf (min (a + 1) buf.length)

/-- The tag at offset `q`, if there is one: `<name>`, `</name>`, `<name/`, or the `/>` of an empty
tag, whose name stands before it. -/
def tagAt (buf : Bytes) (q : Nat) : Option Tag :=
  if buf.getD q 0 = chLt then
    let closing : Bool := buf.getD (q + 1) 0 = chSlash
    let a := if closing then min (q + 2) buf.length else q + 1
    let e := nameEnd buf a
    if buf.getD e 0 = chSlash then if closing then none else some ⟨⟨a, e - a⟩, true⟩
    else if buf.getD e 0 = chGt then some ⟨⟨a, e - a⟩, !closing⟩
    else none
  else if buf.getD q 0 = chSlash ∧ buf.getD (q + 1) 0 = chGt then
    let a := min (XmlLiteParser.seekBack chLt buf q + 1) buf.length
    some ⟨⟨a, q - a⟩, false⟩
  else none

/-- The tag at the next significant character from offset `p` on. -/
def nextTag (buf : Bytes) (p : Nat) : Option Tag :=
  let q := XmlLiteParser.skipSpaces buf p
  if buf.length ≤ q then none else tagAt buf q

namespace XmlLiteParser

variable (expected : Bytes)

/-- From `s` to `s'` the parser has only moved on. -/
structure Onward (s s' : XmlLiteParser) : Prop where
  buf : s'.buf = s.buf
  located : s'.Located
  le : s.currentPos.p ≤ s'.currentPos.p
  messages : s.xmlParserMessageArray <+: s'.xmlParserMessageArray
  latch : s.xmlParsingError = true → s'.xmlParsingError = true

/-- An error has been reported. -/
def Reported (s : XmlLiteParser) : Prop :=
  s.xmlParserMessageArray ≠ [] ∧ s.xmlParsingError = true

namespace Onward

variable {s s' s'' : XmlLiteParser}

theorem refl (hs : s.Located) : Onward s s :=
  ⟨rfl, hs, Nat.le_refl _, prefix_refl _, id⟩

theorem trans (h : Onward s s') (h' : Onward s' s'') : Onward s s'' :=
  ⟨h'.buf.trans h.buf, h'.located, Nat.le_trans h.le h'.le, h.messages.trans h'.messages,
    fun hs => h'.latch (h.latch hs)⟩

theorem size (h : Onward s s') : s'.size = s.size := congrArg length h.buf

theorem fuel (h : Onward s s') {fuel : Nat} (hfuel : s.size < fuel) : s'.size < fuel := by
  rwa [h.size]

theorem moveTo (s : XmlLiteParser) (hle : s.currentPos.p ≤ q) (hq : q ≤ s.size) :
    Onward s (s.moveTo q) :=
  ⟨rfl, Located.moveTo hq, by rw [moveTo_p]; exact hle, prefix_refl _, id⟩

theorem reported (h : Onward s s') (hs : s.Reported) : s'.Reported :=
  ⟨fun hnil => hs.1 (prefix_nil.mp (hnil ▸ h.messages)), h.latch hs.2⟩

theorem messages_ne_nil (h : Onward s s') (hs : s.xmlParserMessageArray ≠ []) :
    s'.xmlParserMessageArray ≠ [] :=
  fun hnil => hs (prefix_nil.mp (hnil ▸ h.messages))

theorem restorePosition (h : Onward s s') (hs : s.Located) :
    Onward s (s'.restorePosition s.currentPos) := by
  rw [restorePosition_eq hs h.buf]
  have hle : s.currentPos.p ≤ s'.size := by
    rw [h.size]
    exact hs.le
  exact ⟨h.buf, Located.moveTo hle, Nat.le_of_eq (moveTo_p _ _).symm, h.messages, h.latch⟩

end Onward

/-! ## Messages -/

section Messages

variable {s : XmlLiteParser} {msg : XmlParserMessage} {g : Bool} {format : String}
  {args : List MsgArg}

theorem addXmlParserMessage_prefix :
    s.xmlParserMessageArray <+: (s.addXmlParserMessage msg).xmlParserMessageArray := by
  have hlast : ∀ a last : List XmlParserMessage, s.xmlParserMessageArray <+: a →
      s.xmlParserMessageArray <+: if a.length = 500 then a ++ last else a := by
    intro a last h
    split
    · exact h.trans (prefix_append _ _)
    · exact h
  apply hlast
  split
  · exact prefix_append _ _
  · exact prefix_refl _

theorem addXmlParserMessage_ne_nil : (s.addXmlParserMessage msg).xmlParserMessageArray ≠ [] := by
  have hlast : ∀ a last : List XmlParserMessage, a ≠ [] →
      (if a.length = 500 then a ++ last else a) ≠ [] := by
    intro a last h
    split
    · exact append_ne_nil_of_left_ne_nil h _
    · exact h
  apply hlast
  split
  · exact append_ne_nil_of_right_ne_nil _ (cons_ne_nil _ _)
  · next h =>
    intro hnil
    rw [hnil] at h
    exact h (by decide)

theorem Onward.addXmlParserMessage (h : Onward s s') : Onward s (s'.addXmlParserMessage msg) :=
  ⟨h.buf, ⟨h.located.pos, h.located.le⟩, h.le,
    h.messages.trans addXmlParserMessage_prefix, h.latch⟩

theorem Onward.addWarning (h : Onward s s') : Onward s (s'.addWarning g format args) := by
  unfold XmlLiteParser.addWarning
  split
  · exact h.addXmlParserMessage
  · exact h

theorem Onward.addError (h : Onward s s') : Onward s (s'.addError g format args) := by
  unfold XmlLiteParser.addError
  split
  · exact h.addXmlParserMessage
  · exact h

theorem Onward.addXmlError (h : Onward s s') : Onward s (s'.addXmlError g format args) := by
  unfold XmlLiteParser.addXmlError
  split
  · have hlatch : Onward s { s' with xmlParsingError := true } :=
      ⟨h.buf, ⟨h.located.pos, h.located.le⟩, h.le, h.messages, fun _ => rfl⟩
    exact hlatch.addXmlParserMessage
  · exact h

theorem reported_addXmlError (hg : g = true) : (s.addXmlError g format args).Reported := by
  unfold addXmlError
  rw [if_pos hg]
  exact ⟨addXmlParserMessage_ne_nil, rfl⟩

theorem addError_ne_nil (hg : g = true) :
    (s.addError g format args).xmlParserMessageArray ≠ [] := by
  unfold addError
  rw [if_pos hg]
  exact addXmlParserMessage_ne_nil

theorem addWarning_ne_nil (hg : g = true) :
    (s.addWarning g format args).xmlParserMessageArray ≠ [] := by
  unfold addWarning
  rw [if_pos hg]
  exact addXmlParserMessage_ne_nil

end Messages

/-! ## Tags -/

variable {s : XmlLiteParser} {fuel : Nat} {g : Bool} {α : Type} {args : List MsgArg}
  {format : String}

theorem onward_moveForward (hs : s.Located) : Onward s s.moveForward.2 := by
  have hstep := moveForward_min s hs.le
  rw [← hs.eq_moveTo] at hstep
  rw [hstep]
  have hle := hs.le
  exact Onward.moveTo s (by omega) (Nat.min_le_right _ _)

/-- What every reading function guarantees of a result and the parser after it: the parser has
moved on, behind the start when there is a result, and with an error reported when there is
none. -/
def Reads {α : Type} (s : XmlLiteParser) (g : Bool) (r : Option α × XmlLiteParser) : Prop :=
  Onward s r.2 ∧ (r.1.isSome → s.currentPos.p < r.2.currentPos.p) ∧
    (r.1 = none → g = true → r.2.Reported)

theorem reads_none (h : Onward s s') (hr : g = true → s'.Reported) :
    Reads (α := α) s g (none, s') :=
  ⟨h, fun hsome => (Bool.false_ne_true hsome).elim, fun _ => hr⟩

theorem reads_some {a : α} (h : Onward s s') (hlt : s.currentPos.p < s'.currentPos.p) :
    Reads s g (some a, s') :=
  ⟨h, fun _ => hlt, nofun⟩

theorem reads_error (h : Onward s s') : Reads (α := α) s g (none, s'.addXmlError g format args) :=
  reads_none h.addXmlError reported_addXmlError

/-- What a reading function returns of the buffer alone, and that it has moved on. -/
def Finds (s : XmlLiteParser) (t : Option Tag) (r : Option Tag × XmlLiteParser) : Prop :=
  r.1 = t ∧ Onward s r.2 ∧ s.currentPos.p < r.2.currentPos.p

def FindsOrReports (s : XmlLiteParser) (g : Bool) (t : Option Tag)
    (r : Option Tag × XmlLiteParser) : Prop := Finds s t r ∧ Reads s g r

theorem addXmlError_p (s : XmlLiteParser) (format : String) (args : List MsgArg) :
    (s.addXmlError g format args).currentPos = s.currentPos := by
  unfold addXmlError
  split <;> rfl

theorem finds_none (ht : t = none) (h : Onward s s') (hlt : s.currentPos.p < s'.currentPos.p)
    (hr : g = true → s'.Reported) :
    FindsOrReports s g t (none, s') :=
  ⟨⟨ht.symm, h, hlt⟩, reads_none h hr⟩

theorem finds_addXmlError (hlt : s.currentPos.p < q) (hq : q ≤ s.size) (ht : t = none)
    (format : String) (args : List MsgArg) :
    FindsOrReports s g t (none, (s.moveTo q).addXmlError g format args) := by
  have honward : Onward s (s.moveTo q) := Onward.moveTo s (Nat.le_of_lt hlt) hq
  refine finds_none ht honward.addXmlError ?_ reported_addXmlError
  rw [addXmlError_p, moveTo_p]
  exact hlt

theorem finds_error_moveForward (hle : s.currentPos.p ≤ q) (hq : q < s.size) (ht : t = none)
    (format : String) (args : List MsgArg) :
    FindsOrReports s g t (none, ((s.moveTo q).addXmlError g format args).moveForward.2) := by
  have honward : Onward s (s.moveTo q) := Onward.moveTo s hle (Nat.le_of_lt hq)
  have herror : Onward s ((s.moveTo q).addXmlError g format args) := honward.addXmlError
  have hforward := onward_moveForward herror.located
  refine finds_none ht (herror.trans hforward) ?_ fun hg =>
    hforward.reported (reported_addXmlError hg)
  rw [moveForward_of_lt herror.located]
  · rw [moveTo_p, addXmlError_p, moveTo_p]
    exact Nat.lt_succ_of_le hle
  · rw [addXmlError_p, moveTo_p, size, herror.buf]
    exact hq

theorem finds_unexpectedChar (hlt : s.currentPos.p < q) (hq : q ≤ s.size) (ht : t = none)
    (c : UInt8) :
    FindsOrReports s g t (none, (s.moveTo q).unexpectedChar c g) := by
  unfold unexpectedChar
  split <;> exact finds_addXmlError hlt hq ht _ _

theorem finds_some (hlt : s.currentPos.p < q) (hq : q ≤ s.size) {tag : Tag} (ht : t = some tag) :
    FindsOrReports s g t (some tag, s.moveTo q) := by
  have honward : Onward s (s.moveTo q) := Onward.moveTo s (Nat.le_of_lt hlt) hq
  have hp : s.currentPos.p < (s.moveTo q).currentPos.p := by
    rw [moveTo_p]
    exact hlt
  exact ⟨⟨ht.symm, honward, hp⟩, reads_some honward hp⟩

theorem returns_getBracketTag (hq : q < s.size) (hfuel : s.size < fuel)
    (hstart : s.currentPos.p ≤ q) (hlt : s.buf.getD q 0 = chLt) :
    Returns (getBracketTag fuel (s.moveTo q) g) (FindsOrReports s g (tagAt s.buf q)) := by
  have hsize : s.buf.length = s.size := rfl
  have hstep : (s.moveTo q).moveForward.2 = s.moveTo (q + 1) := by rw [moveForward_moveTo s hq]
  have hname : ∀ closing : Bool, (if closing then (s.moveTo (q + 1)).moveForward.2
      else s.moveTo (q + 1)) = s.moveTo (if closing then min (q + 2) s.size else q + 1) := by
    intro closing
    cases closing with
    | false => rfl
    | true => rw [if_pos rfl, if_pos rfl, moveForward_min s hq]
  have ha : ∀ closing : Bool, q < (if closing then min (q + 2) s.size else q + 1) ∧
      (if closing then min (q + 2) s.size else q + 1) ≤ s.size := by
    intro closing
    split <;> omega
  unfold getBracketTag tagAt nameEnd
  dsimp only
  rw [if_pos hlt, hstep, hname, moveTo_getchar, hsize]
  generalize decide (s.buf.getD (q + 1) 0 = chSlash) = closing
  obtain ⟨hqa, has⟩ := ha closing
  generalize (if closing then min (q + 2) s.size else q + 1) = a at hqa has
  rw [moveToTagEnd_eq has hfuel]
  have hle := le_scan (fun c => !isTagchar c) s.buf (min (a + 1) s.size)
  have hend : scan (fun c => !isTagchar c) s.buf (min (a + 1) s.size) ≤ s.size :=
    scan_le (Nat.min_le_right _ _)
  generalize scan (fun c => !isTagchar c) s.buf (min (a + 1) s.size) = e at hle hend
  have hslice : (s.moveTo e).sliceFrom (s.moveTo a).currentPos.p = ⟨a, e - a⟩ := by
    rw [sliceFrom, moveTo_p, moveTo_p]
  have he : s.currentPos.p < e := by omega
  rw [ok_bind]
  rw [hslice]
  by_cases hslash : s.buf.getD e 0 = chSlash
  · rw [if_pos hslash, if_pos hslash]
    cases closing with
    | true => exact returns_ok (finds_addXmlError he hend rfl _ _)
    | false => exact returns_ok (finds_some he hend rfl)
  · rw [if_neg hslash, if_neg hslash]
    by_cases hgt : s.buf.getD e 0 = chGt
    · rw [if_neg (not_not.mpr hgt), if_pos hgt, moveForward_min s hend]
      refine returns_ok (finds_some ?_ (Nat.min_le_right _ _) rfl)
      omega
    · rw [if_pos hgt, if_neg hgt]
      exact returns_ok (finds_unexpectedChar he hend rfl _)

theorem returns_getSlashTag (hq : q < s.size) (hfuel : s.size < fuel)
    (hstart : s.currentPos.p ≤ q) (hslash : s.buf.getD q 0 = chSlash) :
    Returns (getSlashTag fuel (s.moveTo q) g) (FindsOrReports s g (tagAt s.buf q)) := by
  have hfuel' : q < fuel := by omega
  obtain ⟨c, hback⟩ := moveBackwardUntil_eq s chLt hfuel'
  have hle := seekBack_le chLt s.buf q
  have hne : s.buf.getD q 0 ≠ chLt := by
    rw [hslash]
    decide
  unfold getSlashTag tagAt
  dsimp only
  rw [hback, if_neg hne]
  generalize seekBack chLt s.buf q = b at hle
  have hrestore : (s.moveTo b).moveForward.2.restorePosition (s.moveTo q).currentPos =
      s.moveTo q := by
    rw [moveForward_min s (by omega)]
    rfl
  have hname : (s.moveTo b).moveForward.2.currentPos.p = min (b + 1) s.size := by
    rw [moveForward_min s (by omega), moveTo_p]
  rw [ok_bind]
  rw [hrestore, hname, moveForward_moveTo s hq]
  by_cases hgt : s.buf.getD (q + 1) 0 = chGt
  · rw [if_neg (not_not.mpr hgt), if_pos ⟨hslash, hgt⟩, moveForward_min s hq]
    refine returns_ok (finds_some ?_ (Nat.min_le_right _ _) ?_)
    · omega
    · rw [sliceFrom, moveTo_p]
      rfl
  · rw [if_pos hgt, if_neg fun h => hgt h.2]
    exact returns_ok (finds_unexpectedChar (Nat.lt_succ_of_le hstart) hq rfl _)

theorem Finds.stays {r : Option Tag × XmlLiteParser} (hlt : s.currentPos.p < s.size)
    (h : Finds s t r) : r.1 = t ∧ r.2.buf = s.buf ∧
      (r.2.currentPos = s.currentPos ↔ s.isEof = true) := by
  obtain ⟨htag, honward, hmoved⟩ := h
  refine ⟨htag, honward.buf, fun hsame => ?_, fun heof => ?_⟩
  · rw [hsame] at hmoved
    exact absurd hmoved (Nat.lt_irrefl _)
  · rw [isEof, decide_eq_true_iff] at heof
    exact absurd hlt (Nat.not_lt.mpr heof)

/-- `getNextTag` returns the tag ahead. It stays where it is only at the end of the buffer. -/
theorem returns_getNextTag_nextTag (hs : s.Located) (hfuel : s.size < fuel) :
    Returns (getNextTag fuel s g) fun r => (r.1 = nextTag s.buf s.currentPos.p ∧
      r.2.buf = s.buf ∧ (r.2.currentPos = s.currentPos ↔ s.isEof = true)) ∧ Reads s g r := by
  have hskip := moveForwardUntilSignificant_eq hs.le hfuel
  rw [← hs.eq_moveTo] at hskip
  have hle : s.currentPos.p ≤ skipSpaces s.buf s.currentPos.p := le_scan _ _ _
  have hend : skipSpaces s.buf s.currentPos.p ≤ s.size := scan_le hs.le
  unfold getNextTag nextTag
  dsimp only
  rw [hskip]
  generalize skipSpaces s.buf s.currentPos.p = q at hle hend
  rw [ok_bind]
  rw [moveTo_isEof]
  have honward : Onward s (s.moveTo q) := Onward.moveTo s hle hend
  change Returns _ fun r : Option Tag × XmlLiteParser =>
    (r.1 = (if s.size ≤ q then none else tagAt s.buf q) ∧ _) ∧ _
  by_cases heof : s.size ≤ q
  · rw [if_pos (decide_eq_true heof), if_pos heof]
    refine returns_ok ⟨⟨rfl, honward.addXmlError.buf, ?_⟩, reads_error honward⟩
    · rw [addXmlError_p, isEof, decide_eq_true_iff]
      constructor
      · intro h
        rw [← h, moveTo_p]
        exact heof
      · intro h
        rw [Nat.le_antisymm (Nat.le_trans hend h) hle, ← hs.eq_moveTo]
  · have hq : q < s.size := Nat.lt_of_not_le heof
    rw [if_neg (by rw [decide_eq_true_iff]; exact heof), if_neg heof, moveTo_getchar]
    refine Returns.mono (P := FindsOrReports s g (tagAt s.buf q)) ?_ fun r hr =>
      ⟨hr.1.stays (Nat.lt_of_le_of_lt hle hq), hr.2⟩
    by_cases hlt : s.buf.getD q 0 = chLt
    · rw [if_pos hlt]
      exact returns_getBracketTag hq hfuel hle hlt
    · rw [if_neg hlt]
      by_cases hslash : s.buf.getD q 0 = chSlash
      · rw [if_pos hslash]
        exact returns_getSlashTag hq hfuel hle hslash
      · rw [if_neg hslash]
        refine returns_ok (finds_error_moveForward hle hq ?_ _ _)
        rw [tagAt, if_neg hlt, if_neg fun h => hslash h.1]

theorem returns_getNextTag (hs : s.Located) (hfuel : s.size < fuel) :
    Returns (getNextTag fuel s g) (Reads s g) :=
  (returns_getNextTag_nextTag hs hfuel).mono fun _ h => h.2

/-! ## Text -/

/-- The text up to the next bracket. Where there is none, it ends one byte behind the buffer. -/
theorem getString_eq (hq : q ≤ s.size) (hfuel : s.size < fuel)
    (hslash : ¬ (s.buf.getD q 0 = chSlash ∧ s.buf.getD (q + 1) 0 = chGt)) :
    getString fuel (s.moveTo q) =
      .ok (⟨q, seek chLt s.buf q - q +
        if q < s.size ∧ seek chLt s.buf q = s.size then 1 else 0⟩,
        s.moveTo (seek chLt s.buf q)) := by
  unfold getString
  simp only [moveTo_getchar, moveTo_buf, moveTo_p, moveTo_size, if_neg hslash]
  by_cases hend : s.size ≤ q ∨ s.buf.getD q 0 = chLt
  · have hself : seek chLt s.buf q = q :=
      scan_eq_self fun h => beq_iff_eq.mpr (hend.resolve_left (Nat.not_le.mpr h))
    rw [if_pos hend, hself, if_neg (by omega), Nat.sub_self]
  · obtain ⟨hlt, hne⟩ := not_or.mp hend
    have hnext : seek chLt s.buf q = seek chLt s.buf (q + 1) :=
      scan_succ (Nat.not_le.mp hlt) (beq_eq_false_iff_ne.mpr hne)
    have hq' : seek chLt s.buf q ≤ s.size := scan_le hq
    have hpos : q < seek chLt s.buf q := hnext ▸ le_scan _ _ _
    have hagain : ∀ x, q ≤ x → x ≤ seek chLt s.buf q → seek chLt s.buf x = seek chLt s.buf q :=
      fun x => scan_of_le
    have hchar : seek chLt s.buf q < s.size → s.buf.getD (seek chLt s.buf q) 0 = chLt :=
      fun h => beq_iff_eq.mp (stop_scan h)
    rw [if_neg hend, moveForwardUntil_eq chLt hq hfuel, ok_bind]
    generalize seek chLt s.buf q = r at *
    by_cases hr : r = s.size
    · have hzero : ¬ s.buf.getD r 0 ≠ 0 := by rw [hr, getD_size, not_not]
      simp only [if_neg hzero, ok_bind, moveForwardUntil_eq chLt hq' hfuel,
        hagain r (by omega) (Nat.le_refl r), moveTo_p]
      rw [if_pos ⟨Nat.not_le.mp hlt, hr⟩, Nat.sub_add_comm (by omega)]
    · have hnonzero : chLt ≠ 0 := by decide
      simp only [hchar (by omega), if_pos hnonzero, moveBackward_moveTo s (Nat.zero_lt_of_lt hpos),
        ok_bind, moveForwardUntil_eq chLt (Nat.le_trans (Nat.sub_le r 1) hq') hfuel,
        hagain (r - 1) (by omega) (by omega), moveTo_p]
      rw [if_neg (by omega), Nat.sub_add_cancel (by omega)]
      rfl

theorem returns_getString (hs : s.Located) (hfuel : s.size < fuel) :
    Returns (getString fuel s) fun r => Onward s r.2 := by
  by_cases hslash : s.buf.getD s.currentPos.p 0 = chSlash ∧ s.buf.getD (s.currentPos.p + 1) 0 = chGt
  · exact ⟨_, if_pos hslash, Onward.refl hs⟩
  · have hrun := getString_eq hs.le hfuel hslash
    rw [← hs.eq_moveTo] at hrun
    exact ⟨_, hrun, Onward.moveTo s (le_scan _ _ _) (scan_le hs.le)⟩

theorem returns_getSimpleTag (expected : Option Bytes) (hs : s.Located)
    (hfuel : s.size < fuel) :
    Returns (getSimpleTag fuel s expected g) (Reads s g) := by
  refine returns_bind (returns_getNextTag hs hfuel) ?_
  rintro ⟨t, s1⟩ ⟨h1, hsome, hnone⟩
  cases t with
  | none => exact returns_ok (reads_none h1 (hnone rfl))
  | some t =>
    have hlt : s.currentPos.p < s1.currentPos.p := hsome rfl
    dsimp only
    split
    · exact returns_ok (reads_error h1)
    split
    · exact returns_ok (reads_error h1)
    have hfuel1 := h1.fuel hfuel
    refine returns_bind (returns_getString h1.located hfuel1) ?_
    rintro ⟨value, s2⟩ h2
    refine returns_bind (returns_getNextTag h2.located (h2.fuel hfuel1)) ?_
    rintro ⟨t', s3⟩ ⟨h3, hsome3, hnone3⟩
    have h12 := h1.trans h2
    cases t' with
    | none => exact returns_ok (reads_none (h12.trans h3) (hnone3 rfl))
    | some t' =>
      dsimp only
      split
      · exact returns_ok (reads_error (h12.trans (h3.restorePosition h2.located)))
      · exact returns_ok (reads_some (h12.trans h3)
          (Nat.lt_of_lt_of_le hlt (Nat.le_trans h2.le h3.le)))

/-! ## Skipping -/

/-- What a function that skips an element guarantees: the parser has moved on, behind the start
when it returns true, and with an error reported when it returns false. -/
def Skips (s : XmlLiteParser) (g : Bool) (r : Bool × XmlLiteParser) : Prop :=
  Onward s r.2 ∧ (r.1 = true → s.currentPos.p < r.2.currentPos.p) ∧
    (r.1 = false → g = true → r.2.Reported)

theorem skips_false (h : Onward s s') (hr : g = true → s'.Reported) : Skips s g (false, s') :=
  ⟨h, fun hfalse => Bool.noConfusion hfalse, fun _ => hr⟩

theorem skips_error (h : Onward s s') : Skips s g (false, s'.addXmlError g format args) :=
  skips_false h.addXmlError reported_addXmlError

theorem skips_true (h : Onward s s') (hlt : s.currentPos.p < s'.currentPos.p) :
    Skips s g (true, s') :=
  ⟨h, fun _ => hlt, nofun⟩

theorem Onward.skips {r : Bool × XmlLiteParser} (h : Onward s s') (hr : Skips s' g r) :
    Skips s g r :=
  ⟨h.trans hr.1, fun hb => Nat.lt_of_le_of_lt h.le (hr.2.1 hb), hr.2.2⟩

theorem returns_moveForwardUntilSignificant (hs : s.Located) (hfuel : s.size < fuel) :
    Returns (moveForwardUntilSignificant fuel s) fun r => Onward s r.2 := by
  have hskip := moveForwardUntilSignificant_eq hs.le hfuel
  rw [← hs.eq_moveTo] at hskip
  exact ⟨_, hskip, Onward.moveTo s (le_scan _ _ _) (scan_le hs.le)⟩

theorem returns_moveForwardUntil (stop : UInt8) (hs : s.Located) (hfuel : s.size < fuel) :
    Returns (moveForwardUntil fuel s stop) fun r => Onward s r.2 := by
  have hseek := moveForwardUntil_eq stop hs.le hfuel
  rw [← hs.eq_moveTo] at hseek
  exact ⟨_, hseek, Onward.moveTo s (le_scan _ _ _) (scan_le hs.le)⟩

theorem returns_endSkip (pos : XmlParserPosition) (tag tagToSkip : Slice) (h : Onward s s')
    (hlt : s.currentPos.p < s'.currentPos.p) (hfuel : s.size < fuel) :
    Returns (endSkip fuel s' pos tag tagToSkip g) (Skips s g) := by
  unfold endSkip
  split
  · exact returns_ok (skips_error h)
  · refine returns_bind (returns_moveForwardUntilSignificant h.located (h.fuel hfuel)) ?_
    rintro ⟨c, s2⟩ h2
    have h12 := h.trans h2
    dsimp only
    split
    · exact returns_ok (skips_error h12)
    · exact returns_ok (skips_true h12 (Nat.lt_of_lt_of_le hlt h2.le))

theorem returns_skipChild {skip : XmlLiteParser → Slice → Bool → Run (Bool × XmlLiteParser)}
    {s1 : XmlLiteParser} (t : Tag) (h1 : Onward s s1) (hfuel : s.size < fuel)
    (hskip : ∀ tag, Returns (skip s1 tag g) (Skips s1 g)) :
    Returns (skipChild fuel skip g (t, s1)) fun r =>
      match r with
      | .again (_, s2) => Onward s s2 ∧ s1.currentPos.p < s2.currentPos.p
      | .leave (tag, s2) => Onward s s2 ∧ s1.currentPos.p ≤ s2.currentPos.p ∧
          (tag = none → g = true → s2.Reported) := by
  unfold skipChild
  dsimp only
  split
  · refine returns_bind (hskip t.tag) ?_
    rintro ⟨b, s2⟩ ⟨h2, hb, hreported⟩
    have h12 := h1.trans h2
    cases b with
    | false => exact returns_ok ⟨h12, h2.le, fun _ => hreported rfl⟩
    | true =>
      refine returns_bind (returns_getNextTag h2.located (h12.fuel hfuel)) ?_
      rintro ⟨next, s3⟩ ⟨h3, hsome, hnone⟩
      cases next with
      | none => exact returns_ok ⟨h12.trans h3, Nat.le_trans h2.le h3.le, fun _ => hnone rfl⟩
      | some t' => exact returns_ok ⟨h12.trans h3, Nat.lt_of_lt_of_le (hb rfl) h3.le⟩
  · exact returns_ok ⟨h1, Nat.le_refl _, nofun⟩

/-- A nested call starts behind the tag it is made for, so the depth is bounded by what is left
of the buffer. -/
theorem returns_skipUntilClosingTag (hfuel : s.size < fuel) (depth : Nat) :
    ∀ s1 : XmlLiteParser, Onward s s1 → s.size - s1.currentPos.p < depth → ∀ tagToSkip,
      Returns (skipUntilClosingTag fuel depth s1 tagToSkip g) (Skips s1 g) := by
  induction depth with
  | zero =>
    intro s1 _ h
    omega
  | succ depth ih =>
    intro s1 h1 hdepth tagToSkip
    have hfuel1 := h1.fuel hfuel
    refine returns_bind (returns_getString h1.located hfuel1) ?_
    rintro ⟨value, s2⟩ h2
    refine returns_bind (returns_getNextTag h2.located (h2.fuel hfuel1)) ?_
    rintro ⟨t, s3⟩ ⟨h3, hsome, hnone⟩
    have h13 := h2.trans h3
    cases t with
    | none => exact returns_ok (skips_false h13 (hnone rfl))
    | some t =>
      have hlt : s1.currentPos.p < s3.currentPos.p := Nat.lt_of_le_of_lt h2.le (hsome rfl)
      dsimp only
      split
      · exact returns_ok (skips_error h13)
      · -- the children: every pass goes on behind the last one
        have hloop : Returns (Run.loop (skipChild fuel (skipUntilClosingTag fuel depth) g) fuel
            (t, s3)) fun r => Onward s1 r.2 ∧ s3.currentPos.p ≤ r.2.currentPos.p ∧
              (r.1 = none → g = true → r.2.Reported) := by
          refine returns_loop (fun x => Onward s1 x.2 ∧ s3.currentPos.p ≤ x.2.currentPos.p)
            (fun x => s1.size - x.2.currentPos.p) ?_ fuel (t, s3) ⟨h13, Nat.le_refl _⟩
            (Nat.lt_of_le_of_lt (Nat.sub_le _ _) hfuel1)
          rintro ⟨t', s4⟩ ⟨h4, hle4⟩
          dsimp only at h4 hle4
          have hdepth4 : s.size - s4.currentPos.p < depth := by
            have hin := h4.located.le
            rw [h4.size, h1.size] at hin
            omega
          refine (returns_skipChild t' h4 hfuel1 (ih s4 (h1.trans h4) hdepth4)).mono ?_
          rintro (⟨t5, s5⟩ | ⟨t5, s5⟩) h5
          · have hin := h5.1.located.le
            rw [h5.1.size] at hin
            have hlt5 : s4.currentPos.p < s5.currentPos.p := h5.2
            refine ⟨⟨h5.1, Nat.le_trans hle4 (Nat.le_of_lt hlt5)⟩, ?_⟩
            show s1.size - s5.currentPos.p < s1.size - s4.currentPos.p
            omega
          · exact ⟨h5.1, Nat.le_trans hle4 h5.2.1, h5.2.2⟩
        refine returns_bind hloop ?_
        rintro ⟨tag, s4⟩ ⟨h4, hle4, hnone4⟩
        cases tag with
        | none => exact returns_ok (skips_false h4 (hnone4 rfl))
        | some tag =>
          exact returns_endSkip _ _ _ h4 (Nat.lt_of_lt_of_le hlt hle4) hfuel1

/-- Skipping moves on, or reports why not. -/
theorem returns_skipNextTag (hs : s.Located) (hfuel : s.size < fuel) :
    Returns (skipNextTag fuel s g) (Skips s g) := by
  refine returns_bind (returns_getNextTag hs hfuel) ?_
  rintro ⟨t, s1⟩ ⟨h1, hsome, hnone⟩
  cases t with
  | none => exact returns_ok (skips_false h1 (hnone rfl))
  | some t =>
    dsimp only
    split
    · exact returns_ok (skips_error h1)
    · have hdepth : s.size - s1.currentPos.p < fuel := by omega
      exact (returns_skipUntilClosingTag hfuel fuel s1 h1 hdepth t.tag).mono fun r => h1.skips

/-! ## Expected tags -/

theorem returns_getKeyTagValue (hs : s.Located) (hfuel : s.size < fuel) :
    Returns (getKeyTagValue fuel s g) fun r => Reads s g (r.1, r.2.2) := by
  refine returns_bind (returns_moveForwardUntilSignificant hs hfuel) ?_
  rintro ⟨c, s1⟩ h1
  refine returns_bind (returns_getSimpleTag _ h1.located (h1.fuel hfuel)) ?_
  rintro ⟨r, s2⟩ ⟨h2, hsome, hnone⟩
  have h12 := h1.trans h2
  cases r with
  | none =>
    have hrestore := h2.restorePosition h1.located
    exact returns_ok (reads_none (h1.trans hrestore) fun hg => hnone rfl hg)
  | some r =>
    dsimp only
    split
    · exact returns_ok (reads_none (h1.trans (h2.addXmlError.restorePosition h1.located)) fun hg =>
        reported_addXmlError (s := s2) hg)
    · exact returns_ok (reads_some h12 (Nat.lt_of_le_of_lt h1.le (hsome rfl)))

theorem returns_consumeOpeningTag (hs : s.Located) (hfuel : s.size < fuel) :
    Returns (consumeOpeningTag fuel s expected g) (Skips s g) := by
  refine returns_bind (returns_getNextTag hs hfuel) ?_
  rintro ⟨t, s1⟩ ⟨h1, hsome, hnone⟩
  cases t with
  | none => exact returns_ok (skips_false h1 (hnone rfl))
  | some t =>
    have hrestore : ∀ format args,
        Onward s ((s1.addXmlError g format args).restorePosition s.currentPos) :=
      fun format args =>
        h1.addXmlError.restorePosition hs
    dsimp only
    split
    · exact returns_ok (skips_false (hrestore _ _) fun hg => reported_addXmlError (s := s1) hg)
    split
    · exact returns_ok (skips_false (hrestore _ _) fun hg => reported_addXmlError (s := s1) hg)
    · exact returns_ok (skips_true h1 (hsome rfl))

theorem returns_consumeClosingTag (hs : s.Located) (hfuel : s.size < fuel) :
    Returns (consumeClosingTag fuel s expected g) (Skips s g) := by
  refine returns_bind (returns_getNextTag hs hfuel) ?_
  rintro ⟨t, s1⟩ ⟨h1, hsome, hnone⟩
  cases t with
  | none => exact returns_ok (skips_false h1 (hnone rfl))
  | some t =>
    dsimp only
    split
    · exact returns_ok (skips_false h1.addXmlError fun _ => reported_addXmlError rfl)
    split
    · exact returns_ok (skips_false h1.addXmlError fun _ => reported_addXmlError rfl)
    · exact returns_ok (skips_true h1 (hsome rfl))

theorem returns_nextTagIs (opening : Bool) (hs : s.Located) (hfuel : s.size < fuel) :
    Returns (nextTagIs fuel s expected opening) fun r => Onward s r.2 := by
  refine returns_bind (returns_getNextTag hs hfuel) ?_
  rintro ⟨t, s1⟩ ⟨h1, -, -⟩
  cases t with
  | none => exact returns_ok h1
  | some t => exact returns_ok (h1.restorePosition hs)

/-! ## The header -/

theorem returns_skipLine (head : Bytes) (hs : s.Located) (hfuel : s.size < fuel) :
    Returns (skipLine fuel s head) fun s' => Onward s s' := by
  unfold skipLine
  split
  · refine returns_bind (returns_bind (returns_moveForwardUntil chGt hs hfuel)
      (P := fun r => Onward s r.2) ?_) ?_
    · rintro ⟨c, s1⟩ h1
      exact returns_ok (h1.trans (onward_moveForward h1.located))
    · rintro ⟨c, s1⟩ h1
      refine returns_bind (returns_moveForwardUntilSignificant h1.located (h1.fuel hfuel)) ?_
      rintro ⟨c', s2⟩ h2
      exact returns_ok (h1.trans h2)
  · exact returns_ok (Onward.refl hs)

theorem returns_skipHeader (hs : s.Located) (hfuel : s.size < fuel) :
    Returns (skipHeader fuel s) fun s' => Onward s s' := by
  unfold skipHeader
  split
  · refine returns_bind (returns_skipLine _ hs hfuel) fun s1 h1 => ?_
    refine returns_bind (returns_skipLine _ h1.located (h1.fuel hfuel)) fun s2 h2 => ?_
    have h12 := h1.trans h2
    exact (returns_skipLine _ h2.located (h12.fuel hfuel)).mono fun s3 h3 => h12.trans h3
  · exact returns_ok (Onward.refl hs)

end XmlLiteParser

end Clover.Xml
