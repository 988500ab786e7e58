import Clover.Xml.Progress

/-!
# Reading the text ahead

What is left of the buffer decides what is read next: `s.before t` is the parser `s` with its
cursor where the text `t`, a suffix of the buffer, is left. The lemmas here say what the reader
finds in tags and text that are well formed, and where it leaves the cursor.
-/

namespace Clover.Xml

open Clover.Lib Clover.Lib.Run List Nat

namespace XmlLiteParser

/-- The parser with its cursor where `t` is left of the buffer. -/
def before (s : XmlLiteParser) (t : Bytes) : XmlLiteParser := s.moveTo (s.size - t.length)

/-- The slice of the text `v`, where `v ++ t` is left of the buffer. -/
def sliceOf (s : XmlLiteParser) (v t : Bytes) : Slice := ⟨s.size - (v ++ t).length, v.length⟩

section Before

variable (s : XmlLiteParser) (t u : Bytes)

@[simp] theorem before_buf : (s.before t).buf = s.buf := rfl

@[simp] theorem before_size : (s.before t).size = s.size := rfl

@[simp] theorem before_messages :
    (s.before t).xmlParserMessageArray = s.xmlParserMessageArray := rfl

@[simp] theorem before_latch : (s.before t).xmlParsingError = s.xmlParsingError := rfl

@[simp] theorem before_before : (s.before t).before u = s.before u := rfl

theorem before_bytes (v : Slice) : (s.before t).bytes v = s.bytes v := rfl

theorem before_p : (s.before t).currentPos.p = s.size - t.length := moveTo_p _ _

theorem located_before : (s.before t).Located := Located.moveTo (sub_le _ _)

theorem before_addWarning (g : Bool) (format : String) (args : List MsgArg) :
    (s.before t).addWarning g format args = (s.addWarning g format args).before t := by
  cases g <;> rfl

theorem before_addError (g : Bool) (format : String) (args : List MsgArg) :
    (s.before t).addError g format args = (s.addError g format args).before t := by
  cases g <;> rfl

theorem before_addXmlError (g : Bool) (format : String) (args : List MsgArg) :
    (s.before t).addXmlError g format args = (s.addXmlError g format args).before t := by
  cases g <;> rfl

end Before

@[simp] theorem addWarning_buf (s : XmlLiteParser) (g : Bool) (format : String)
    (args : List MsgArg) : (s.addWarning g format args).buf = s.buf := by
  cases g <;> rfl

@[simp] theorem addError_buf (s : XmlLiteParser) (g : Bool) (format : String)
    (args : List MsgArg) : (s.addError g format args).buf = s.buf := by
  cases g <;> rfl

@[simp] theorem addXmlError_buf (s : XmlLiteParser) (g : Bool) (format : String)
    (args : List MsgArg) : (s.addXmlError g format args).buf = s.buf := by
  cases g <;> rfl

variable {s : XmlLiteParser} {fuel : Nat} {g : Bool} {t u v w n : Bytes} {c : UInt8}

theorem restorePosition_before {s' : XmlLiteParser} (h : s'.buf = s.buf) :
    s'.restorePosition (s.before t).currentPos = s'.before t := by
  unfold restorePosition before moveTo size
  rw [h]

theorem drop_before (h : t <:+ s.buf) : s.buf.drop (s.size - t.length) = t :=
  (suffix_iff_eq_drop.mp h).symm

theorem getD_before (h : t <:+ s.buf) (k : Nat) :
    s.buf.getD (s.size - t.length + k) 0 = t.getD k 0 := by
  have hdrop := drop_before h
  rw [getD_eq_getElem?_getD, getD_eq_getElem?_getD, ← getElem?_drop, hdrop]

theorem before_getchar (h : t <:+ s.buf) : (s.before t).getchar = t.getD 0 0 := by
  unfold before
  rw [moveTo_getchar]
  exact getD_before h 0

theorem before_isEof_cons (h : c :: t <:+ s.buf) : (s.before (c :: t)).isEof = false := by
  have hle := h.length_le
  unfold before
  rw [moveTo_isEof, decide_eq_false_iff_not]
  unfold size
  rw [length_cons] at hle ⊢
  omega

theorem size_sub_cons (h : c :: t <:+ s.buf) :
    s.size - (c :: t).length + 1 = s.size - t.length := by
  have hle := h.length_le
  unfold size
  rw [length_cons] at hle ⊢
  omega

theorem moveForward_before (h : c :: t <:+ s.buf) :
    (s.before (c :: t)).moveForward = (t.getD 0 0, s.before t) := by
  have hlt : s.size - (c :: t).length < s.size := by
    have hle := h.length_le
    unfold size
    rw [length_cons] at hle ⊢
    omega
  have hnext := getD_before h 1
  unfold before
  rw [moveForward_moveTo s hlt, hnext, size_sub_cons h]
  rfl

/-! ## Slices -/

theorem bytes_sliceOf (h : v ++ t <:+ s.buf) : s.bytes (s.sliceOf v t) = v := by
  show ((s.buf ++ [0]).drop (s.size - (v ++ t).length)).take v.length = v
  have hle : s.size - (v ++ t).length ≤ s.buf.length := sub_le _ _
  rw [drop_append_of_le_length hle, drop_before h, append_assoc, take_left]

theorem strnIsEqual_sliceOf (h : v ++ t <:+ s.buf) (x : Bytes) :
    strnIsEqual s (s.sliceOf v t) x = decide (v = x) := by
  unfold strnIsEqual
  rw [bytes_sliceOf h, decide_eq_decide]
  refine ⟨fun hx => hx.2, fun hx => ⟨?_, hx⟩⟩
  rw [← hx]
  rfl

theorem strnIsEqualIC_sliceOf (h : v ++ t <:+ s.buf) (x : Bytes) :
    strnIsEqualIC s (s.sliceOf v t) x = decide (v.map toLower = x.map toLower) := by
  unfold strnIsEqualIC
  rw [bytes_sliceOf h, decide_eq_decide]
  refine ⟨fun hx => hx.2, fun hx => ⟨?_, hx⟩⟩
  have hlength := congrArg length hx
  rw [length_map, length_map] at hlength
  exact hlength

theorem strnnIsEqual_sliceOf (h : v ++ t <:+ s.buf) (h' : w ++ u <:+ s.buf) :
    strnnIsEqual s (s.sliceOf v t) (s.sliceOf w u) = decide (v = w) := by
  unfold strnnIsEqual
  rw [bytes_sliceOf h, bytes_sliceOf h', decide_eq_decide]
  refine ⟨fun hx => hx.2, fun hx => ⟨?_, hx⟩⟩
  rw [hx]
  rfl

theorem before_sliceFrom (h : v ++ t <:+ s.buf) :
    (s.before t).sliceFrom (s.before (v ++ t)).currentPos.p = s.sliceOf v t := by
  have hle := h.length_le
  unfold sliceFrom sliceOf
  rw [before_p, before_p, Slice.mk.injEq]
  refine ⟨rfl, ?_⟩
  unfold size
  rw [length_append] at hle ⊢
  omega

/-! ## Moves -/

theorem scan_before {stop : UInt8 → Bool} (h : v ++ t <:+ s.buf)
    (hv : ∀ c ∈ v, stop c = false) (ht : t = [] ∨ stop (t.getD 0 0) = true) :
    scan stop s.buf (s.size - (v ++ t).length) = s.size - t.length := by
  have hle := h.length_le
  have hall : ∀ c ∈ v, (!stop c) = true := by
    intro c hc
    rw [hv c hc]
    rfl
  have hnone : t.takeWhile (fun c => !stop c) = [] := by
    cases t with
    | nil => rfl
    | cons c t =>
      rcases ht with hnil | hc
      · exact nomatch hnil
      · rw [getD_cons_zero] at hc
        rw [takeWhile_cons_of_neg (by rw [hc]; decide)]
  unfold scan
  rw [drop_before h, takeWhile_append_of_pos hall, hnone, append_nil]
  unfold size
  rw [length_append] at hle ⊢
  omega

theorem moveForwardUntilSignificant_before (h : w ++ t <:+ s.buf)
    (hw : ∀ c ∈ w, isSpace c = true) (ht : isSpace (t.getD 0 0) = false)
    (hfuel : s.size < fuel) :
    moveForwardUntilSignificant fuel (s.before (w ++ t)) = .ok (t.getD 0 0, s.before t) := by
  have hscan : skipSpaces s.buf (s.size - (w ++ t).length) = s.size - t.length := by
    refine scan_before h (fun c hc => ?_) (Or.inr ?_)
    · rw [hw c hc]
      rfl
    · rw [ht]
      rfl
  have hsuffix : t <:+ s.buf := (suffix_append w t).trans h
  have hchar := getD_before hsuffix 0
  unfold before
  rw [moveForwardUntilSignificant_eq (sub_le _ _) hfuel, hscan]
  rw [Nat.add_zero] at hchar
  rw [hchar]

theorem seek_before (h : v ++ c :: t <:+ s.buf) (hv : c ∉ v) :
    seek c s.buf (s.size - (v ++ c :: t).length) = s.size - (c :: t).length := by
  refine scan_before h (fun d hd => ?_) (Or.inr (beq_self_eq_true c))
  rw [beq_eq_false_iff_ne]
  exact fun hdc => hv (hdc ▸ hd)

theorem moveToTagEnd_before (h : c :: (n ++ t) <:+ s.buf) (hn : ∀ c ∈ n, isTagchar c = true)
    (ht : isTagchar (t.getD 0 0) = false) (hfuel : s.size < fuel) :
    moveToTagEnd fuel (s.before (c :: (n ++ t))) = .ok (t.getD 0 0, s.before t) := by
  have htail : n ++ t <:+ s.buf := (suffix_cons c _).trans h
  have hscan : scan (fun c => !isTagchar c) s.buf (s.size - (n ++ t).length) =
      s.size - t.length := by
    refine scan_before htail (fun d hd => ?_) (Or.inr ?_)
    · rw [hn d hd]
      rfl
    · rw [ht]
      rfl
  have hmin : min (s.size - (c :: (n ++ t)).length + 1) s.size = s.size - (n ++ t).length := by
    rw [size_sub_cons h]
    exact min_eq_left (sub_le _ _)
  have hchar := getD_before ((suffix_append n t).trans htail) 0
  unfold before
  rw [moveToTagEnd_eq (sub_le _ _) hfuel, hmin, hscan]
  rw [Nat.add_zero] at hchar
  rw [hchar]

theorem ne_of_isTagchar (hc : isTagchar c = true) : c ≠ 0 ∧ c ≠ chLt := by
  refine ⟨?_, ?_⟩ <;> rintro rfl <;> exact absurd hc (by decide)

theorem seekBack_before (hn : ∀ c ∈ n, c ≠ 0 ∧ c ≠ chLt) :
    ∀ {t : Bytes}, chLt :: (n ++ t) <:+ s.buf →
      seekBack chLt s.buf (s.size - t.length) = s.size - (chLt :: (n ++ t)).length := by
  induction n using reverseRecOn with
  | nil =>
    intro t h
    rw [nil_append] at h ⊢
    have hchar := getD_before h 0
    rw [Nat.add_zero, getD_cons_zero] at hchar
    rw [← size_sub_cons h, seekBack, if_pos (Or.inr hchar)]
  | append_singleton n c ih =>
    intro t h
    rw [append_assoc, singleton_append] at h ⊢
    have htail : c :: t <:+ s.buf :=
      ((suffix_append n _).trans (suffix_cons chLt _)).trans h
    have hc := hn c (mem_append_right _ (mem_singleton_self c))
    have hchar := getD_before htail 0
    rw [Nat.add_zero, getD_cons_zero] at hchar
    have hne : ¬ (c = 0 ∨ c = chLt) := not_or.mpr hc
    rw [← size_sub_cons htail, seekBack, hchar, if_neg hne]
    exact ih (fun d hd => hn d (mem_append_left _ hd)) h

/-! ## Tags -/

/-- The tag of an element whose name is `n`, up to the `>` or the `/` behind the name. -/
theorem getBracketTag_before (h : chLt :: (n ++ c :: t) <:+ s.buf) (hne : n ≠ [])
    (hn : ∀ c ∈ n, isTagchar c = true) (hc : isTagchar c = false) (hfuel : s.size < fuel) :
    getBracketTag fuel (s.before (chLt :: (n ++ c :: t))) g =
      if c = chSlash then .ok (some ⟨s.sliceOf n (c :: t), true⟩, s.before (c :: t))
      else if c ≠ chGt then .ok (none, (s.before (c :: t)).unexpectedChar c g)
      else .ok (some ⟨s.sliceOf n (c :: t), true⟩, s.before t) := by
  have hname : n ++ c :: t <:+ s.buf := (suffix_cons chLt _).trans h
  have hrest : c :: t <:+ s.buf := (suffix_append n _).trans hname
  obtain ⟨d, m, rfl⟩ := exists_cons_of_ne_nil hne
  have hd : isTagchar d = true := hn d mem_cons_self
  have hslash : d ≠ chSlash := by
    rintro rfl
    exact absurd hd (by decide)
  have hend : moveToTagEnd fuel (s.before (d :: m ++ c :: t)) = .ok (c, s.before (c :: t)) :=
    moveToTagEnd_before hname (fun e he => hn e (mem_cons_of_mem _ he)) hc hfuel
  have hfirst : (s.before (d :: m ++ c :: t)).getchar = d := before_getchar hname
  unfold getBracketTag
  simp only [moveForward_before h, hfirst, hslash, decide_false, Bool.false_eq_true, if_false, hend,
    ok_bind, before_sliceFrom hname, moveForward_before hrest, Bool.not_false]

theorem getBracketTag_close (h : chLt :: chSlash :: (n ++ chGt :: t) <:+ s.buf) (hne : n ≠ [])
    (hn : ∀ c ∈ n, isTagchar c = true) (hfuel : s.size < fuel) :
    getBracketTag fuel (s.before (chLt :: chSlash :: (n ++ chGt :: t))) g =
      .ok (some ⟨s.sliceOf n (chGt :: t), false⟩, s.before t) := by
  have hslash : chSlash :: (n ++ chGt :: t) <:+ s.buf := (suffix_cons chLt _).trans h
  have hname : n ++ chGt :: t <:+ s.buf := (suffix_cons chSlash _).trans hslash
  have hrest : chGt :: t <:+ s.buf := (suffix_append n _).trans hname
  obtain ⟨d, m, rfl⟩ := exists_cons_of_ne_nil hne
  have hend : moveToTagEnd fuel (s.before (d :: m ++ chGt :: t)) =
      .ok (chGt, s.before (chGt :: t)) :=
    moveToTagEnd_before hname (fun e he => hn e (mem_cons_of_mem _ he)) rfl hfuel
  have hfirst : (s.before (chSlash :: (d :: m ++ chGt :: t))).getchar = chSlash :=
    before_getchar hslash
  have hgt : chGt ≠ chSlash := by decide
  unfold getBracketTag
  simp only [moveForward_before h, hfirst, decide_true, if_true, moveForward_before hslash, hend,
    ok_bind, before_sliceFrom hname, moveForward_before hrest, if_neg hgt, Bool.not_true,
    not_true_eq_false, ne_eq, if_false]

/-- The end of an empty tag, whose name is read again from the last bracket on. -/
theorem getSlashTag_before (h : chLt :: (n ++ chSlash :: chGt :: t) <:+ s.buf)
    (hn : ∀ c ∈ n, c ≠ 0 ∧ c ≠ chLt) (hfuel : s.size < fuel) :
    getSlashTag fuel (s.before (chSlash :: chGt :: t)) g =
      .ok (some ⟨s.sliceOf n (chSlash :: chGt :: t), false⟩, s.before t) := by
  have hname : n ++ chSlash :: chGt :: t <:+ s.buf := (suffix_cons chLt _).trans h
  have hslash : chSlash :: chGt :: t <:+ s.buf := (suffix_append n _).trans hname
  have hgt : chGt :: t <:+ s.buf := (suffix_cons chSlash _).trans hslash
  have hq : s.size - (chSlash :: chGt :: t).length < fuel :=
    lt_of_le_of_lt (sub_le _ _) hfuel
  obtain ⟨c, hback⟩ := moveBackwardUntil_eq s chLt hq
  rw [seekBack_before hn h] at hback
  have hback' : moveBackwardUntil fuel (s.before (chSlash :: chGt :: t)) chLt =
      .ok (c, s.before (chLt :: (n ++ chSlash :: chGt :: t))) := hback
  have hrestore : (s.before (n ++ chSlash :: chGt :: t)).restorePosition
      (s.before (chSlash :: chGt :: t)).currentPos = s.before (chSlash :: chGt :: t) :=
    restorePosition_before rfl
  unfold getSlashTag
  simp [hback', moveForward_before h, hrestore, before_sliceFrom hname, moveForward_before hslash,
    moveForward_before hgt]

theorem getNextTag_blank (h : w ++ c :: t <:+ s.buf) (hw : ∀ c ∈ w, isSpace c = true)
    (hc : isSpace c = false) (hfuel : s.size < fuel) :
    getNextTag fuel (s.before (w ++ c :: t)) g =
      if c = chLt then getBracketTag fuel (s.before (c :: t)) g
      else if c = chSlash then getSlashTag fuel (s.before (c :: t)) g
      else
        .ok (none, ((s.before (c :: t)).addXmlError g
          "Unexpected char '%c' at line %d col %d while looking for a tag that must start with '<'"
          [.char c, .int (s.before (c :: t)).currentPos.line,
            .int (s.before (c :: t)).currentPos.col]).moveForward.2) := by
  have hrest : c :: t <:+ s.buf := (suffix_append w _).trans h
  have hskip : moveForwardUntilSignificant fuel (s.before (w ++ c :: t)) =
      .ok (c, s.before (c :: t)) := moveForwardUntilSignificant_before h hw hc hfuel
  have hchar : (s.before (c :: t)).getchar = c := before_getchar hrest
  unfold getNextTag
  simp [hskip, before_isEof_cons hrest, hchar]

theorem getNextTag_open (h : w ++ chLt :: (n ++ chGt :: t) <:+ s.buf)
    (hw : ∀ c ∈ w, isSpace c = true) (hne : n ≠ []) (hn : ∀ c ∈ n, isTagchar c = true)
    (hfuel : s.size < fuel) :
    getNextTag fuel (s.before (w ++ chLt :: (n ++ chGt :: t))) g =
      .ok (some ⟨s.sliceOf n (chGt :: t), true⟩, s.before t) := by
  rw [getNextTag_blank h hw rfl hfuel, if_pos rfl,
    getBracketTag_before ((suffix_append w _).trans h) hne hn rfl hfuel,
    if_neg (by decide), if_neg (not_not.mpr rfl)]

theorem getNextTag_closeEmpty (h : chLt :: (n ++ chSlash :: chGt :: t) <:+ s.buf)
    (hn : ∀ c ∈ n, isTagchar c = true) (hfuel : s.size < fuel) :
    getNextTag fuel (s.before (chSlash :: chGt :: t)) g =
      .ok (some ⟨s.sliceOf n (chSlash :: chGt :: t), false⟩, s.before t) := by
  have hslash : chSlash :: chGt :: t <:+ s.buf :=
    ((suffix_append n _).trans (suffix_cons chLt _)).trans h
  have hblank := getNextTag_blank (w := []) (g := g) hslash nofun rfl hfuel
  rw [nil_append] at hblank
  rw [hblank, if_neg (by decide), if_pos rfl,
    getSlashTag_before h (fun c hc => ne_of_isTagchar (hn c hc)) hfuel]

/-! ## Text -/

theorem getString_before (h : v ++ chLt :: t <:+ s.buf) (hv : chLt ∉ v)
    (hslash : ¬ [chSlash, chGt] <+: v) (hfuel : s.size < fuel) :
    getString fuel (s.before (v ++ chLt :: t)) =
      .ok (s.sliceOf v (chLt :: t), s.before (chLt :: t)) := by
  have hle : v.length + (t.length + 1) ≤ s.size := by simpa [size] using h.length_le
  have hempty : ¬ (s.buf.getD (s.size - (v ++ chLt :: t).length) 0 = chSlash ∧
      s.buf.getD (s.size - (v ++ chLt :: t).length + 1) 0 = chGt) := by
    rw [getD_before h 1, ← Nat.add_zero (s.size - _), getD_before h 0]
    rintro ⟨hfirst, hnext⟩
    cases v with
    | nil => exact absurd (show chLt = chSlash from hfirst) (by decide)
    | cons c v =>
      cases v with
      | nil => exact absurd (show chLt = chGt from hnext) (by decide)
      | cons d v => exact hslash ⟨v, by rw [← hfirst, ← hnext]; rfl⟩
  unfold before
  rw [getString_eq (sub_le _ _) hfuel hempty, seek_before h hv, sliceOf]
  simp only [length_append, length_cons]
  rw [if_neg (by omega), show s.size - (t.length + 1) - (s.size - (v.length + (t.length + 1))) =
    v.length by omega]
  rfl

theorem getString_empty (h : chSlash :: chGt :: t <:+ s.buf) :
    getString fuel (s.before (chSlash :: chGt :: t)) =
      .ok (s.sliceOf [] (chSlash :: chGt :: t), s.before (chSlash :: chGt :: t)) := by
  have hchar : (s.before (chSlash :: chGt :: t)).getchar = chSlash := before_getchar h
  have hnext : s.buf.getD (s.size - (chSlash :: chGt :: t).length + 1) 0 = chGt := getD_before h 1
  unfold getString
  simp only [hchar, before_p, before_buf, hnext, and_self, if_true]
  rfl

/-- The text from the cursor up to the next bracket, or to the end of the buffer. -/
def textAhead (s : XmlLiteParser) : Bytes := (s.buf.drop s.currentPos.p).takeWhile (· != chLt)

/-- The text is read exactly if a bracket follows, or at the end of the buffer. -/
theorem getString_exact_iff (hs : s.Located) (hfuel : s.size < fuel)
    (hslash : ¬ (s.getchar = chSlash ∧ s.buf.getD (s.currentPos.p + 1) 0 = chGt)) :
    getString fuel s = .ok (⟨s.currentPos.p, s.textAhead.length⟩,
        s.moveTo (s.currentPos.p + s.textAhead.length)) ↔
      s.currentPos.p = s.size ∨ chLt ∈ s.buf.drop s.currentPos.p := by
  have hrun := getString_eq hs.le hfuel hslash
  have hseek : seek chLt s.buf s.currentPos.p = s.currentPos.p + s.textAhead.length := rfl
  rw [← hs.eq_moveTo, hseek, Nat.add_sub_cancel_left] at hrun
  have hall : s.textAhead.length = s.size - s.currentPos.p ↔ chLt ∉ s.buf.drop s.currentPos.p := by
    rw [size, ← length_drop, textAhead, (takeWhile_sublist _).length_eq,
      takeWhile_eq_self_iff]
    simp only [bne_iff_ne]
    exact ⟨fun h hmem => h _ hmem rfl, fun h c hc hlt => h (hlt ▸ hc)⟩
  have hle := hs.le
  rw [hrun, Except.ok.injEq, Prod.mk.injEq, Slice.mk.injEq]
  by_cases hmem : chLt ∈ s.buf.drop s.currentPos.p
  · have := mt hall.mp (not_not.mpr hmem)
    simp [hmem]
    omega
  · have := hall.mpr hmem
    simp [hmem]
    omega

theorem getString_exact_iff_bracket :
    getString 3 ⟨lit "a<", ⟨0, 1, 1⟩, [], false⟩ = .ok (⟨0, 1⟩, ⟨lit "a<", ⟨1, 1, 2⟩, [], false⟩) :=
  (getString_exact_iff ⟨rfl, by decide⟩ (by decide) (by decide)).mpr (.inr (by decide))

/-- Without a bracket, the text has the byte behind the buffer as well. -/
theorem text_overruns :
    getString 2 ⟨lit "a", ⟨0, 1, 1⟩, [], false⟩ =
      .ok (⟨0, 2⟩, ⟨lit "a", ⟨1, 1, 2⟩, [], false⟩) := by
  rfl

end XmlLiteParser

end Clover.Xml
