import Clover.Xml.Document

/-!
# Where no element follows

Between the last tag and a closing tag there may be a text, or nothing. A reader that looks for
an element there finds none: it meets a closing tag, or a character that starts no tag. Errors
are reported if they are asked for, and in a few steps the cursor is still before the closing
tag.
-/

namespace Clover.Xml

open Clover.Lib Clover.Lib.Run List

namespace XmlLiteParser

variable {s : XmlLiteParser} {fuel : Nat} {g : Bool} {n : TagName} {v t x : Bytes}

theorem ne_of_isSpace {c : UInt8} (hc : isSpace c = true) : c ≠ 0 ∧ c ≠ chLt := by
  refine ⟨?_, ?_⟩ <;> rintro rfl <;> exact absurd hc (by decide)

theorem unexpectedChar_before (s : XmlLiteParser) (t : Bytes) (c : UInt8) (g : Bool) :
    ∃ format args, (s.before t).unexpectedChar c g = (s.addXmlError g format args).before t := by
  unfold unexpectedChar
  split
  · exact ⟨_, _, before_addXmlError ..⟩
  · exact ⟨_, _, before_addXmlError ..⟩

/-- A slash in a text: without a `>` behind it, an error is reported. -/
theorem getSlashTag_eq (h : chSlash :: t <:+ s.buf) (hfuel : s.size < fuel) :
    ∃ tag, getSlashTag fuel (s.before (chSlash :: t)) g =
      if t.getD 0 0 ≠ chGt then .ok (none, (s.before t).unexpectedChar (t.getD 0 0) g)
      else .ok (some ⟨tag, false⟩, (s.before t).moveForward.2) := by
  have hq : s.size - (chSlash :: t).length < fuel :=
    lt_of_le_of_lt (Nat.sub_le _ _) hfuel
  obtain ⟨d, hback⟩ := moveBackwardUntil_eq s chLt hq
  have hle := seekBack_le chLt s.buf (s.size - (chSlash :: t).length)
  generalize seekBack chLt s.buf (s.size - (chSlash :: t).length) = b at hback hle
  have hback' : moveBackwardUntil fuel (s.before (chSlash :: t)) chLt = .ok (d, s.moveTo b) := hback
  have hrestore : (s.moveTo b).moveForward.2.restorePosition
      (s.before (chSlash :: t)).currentPos = s.before (chSlash :: t) := by
    rw [moveForward_min s (le_trans hle (Nat.sub_le _ _))]
    exact restorePosition_before rfl
  unfold getSlashTag
  simp only [hback', ok_bind, hrestore, moveForward_before h]
  exact ⟨_, rfl⟩

/-- Only a closing tag is found in a text without brackets before one. -/
theorem getNextTag_stray (h : v ++ closing n t <:+ s.buf) (hv : chLt ∉ v) (hfuel : s.size < fuel) :
    (∃ tag u, getNextTag fuel (s.before (v ++ closing n t)) g =
      .ok (some ⟨tag, false⟩, s.before u)) ∨
    ∃ format args v', chLt ∉ v' ∧ v' ++ closing n t <:+ s.buf ∧
      getNextTag fuel (s.before (v ++ closing n t)) g =
        .ok (none, (s.addXmlError g format args).before (v' ++ closing n t)) := by
  obtain ⟨w, hw⟩ := exists_dropBlank v
  have hspace := isSpace_dropBlank v
  generalize dropBlank v = v1 at hw hspace
  subst hw
  cases v1 with
  | nil =>
    rw [append_nil] at h ⊢
    exact Or.inl ⟨_, _, getNextTag_closing h hfuel⟩
  | cons c v2 =>
    have hc : c ≠ chLt := fun hc => hv (mem_append_right _ (hc ▸ mem_cons_self))
    have hv2 : chLt ∉ v2 := fun hc =>
      hv (mem_append_right _ (mem_cons_of_mem _ hc))
    rw [append_assoc, cons_append] at h ⊢
    have hrest : c :: (v2 ++ closing n t) <:+ s.buf := (suffix_append _ _).trans h
    have htail : v2 ++ closing n t <:+ s.buf := (suffix_cons _ _).trans hrest
    rw [getNextTag_blank h w.property hspace hfuel, if_neg hc]
    by_cases hslash : c = chSlash
    · subst hslash
      obtain ⟨tag, hrun⟩ := getSlashTag_eq (g := g) hrest hfuel
      rw [if_pos rfl, hrun]
      split
      · obtain ⟨format, args, hchar⟩ := unexpectedChar_before s (v2 ++ closing n t)
          ((v2 ++ closing n t).getD 0 0) g
        exact Or.inr ⟨format, args, v2, hv2, htail, by rw [hchar]⟩
      · obtain ⟨e, u, hu⟩ : ∃ e u, v2 ++ closing n t = e :: u :=
          exists_cons_of_ne_nil (append_ne_nil_of_right_ne_nil _ (cons_ne_nil _ _))
        rw [hu] at htail ⊢
        exact Or.inl ⟨tag, u, by rw [moveForward_before htail]⟩
    · have hmove : ∀ format args, ((s.addXmlError g format args).before
          (c :: (v2 ++ closing n t))).moveForward.2 =
            (s.addXmlError g format args).before (v2 ++ closing n t) := by
        intro format args
        rw [moveForward_before (by rw [addXmlError_buf]; exact hrest)]
      rw [if_neg hslash, before_addXmlError, hmove]
      exact Or.inr ⟨_, _, v2, hv2, htail, rfl⟩

theorem nextTagIs_stray (h : v ++ closing n t <:+ s.buf) (hv : chLt ∉ v) (hfuel : s.size < fuel) :
    ∃ v', chLt ∉ v' ∧ v' ++ closing n t <:+ s.buf ∧
      nextTagIs fuel (s.before (v ++ closing n t)) x true =
        .ok (false, s.before (v' ++ closing n t)) := by
  rcases getNextTag_stray (g := false) h hv hfuel with
    ⟨tag, u, hrun⟩ | ⟨format, args, v', hv', h', hrun⟩
  · refine ⟨v, hv, h, ?_⟩
    have hrestore : (s.before u).restorePosition (s.before (v ++ closing n t)).currentPos =
        s.before (v ++ closing n t) := restorePosition_before rfl
    unfold nextTagIs
    simp [hrun, hrestore]
  · refine ⟨v', hv', h', ?_⟩
    unfold nextTagIs
    simp only [hrun, ok_bind]
    rfl

theorem getSimpleTag_stray (expected : Option Bytes) (h : v ++ closing n t <:+ s.buf)
    (hv : chLt ∉ v) (hfuel : s.size < fuel) :
    ∃ format args u, getSimpleTag fuel (s.before (v ++ closing n t)) expected g =
      .ok (none, (s.addXmlError g format args).before u) := by
  rcases getNextTag_stray (g := g) h hv hfuel with
    ⟨tag, u, hrun⟩ | ⟨format, args, v', -, -, hrun⟩
  · unfold getSimpleTag
    simp only [hrun, ok_bind, Bool.not_false, if_true, before_addXmlError]
    exact ⟨_, _, _, rfl⟩
  · unfold getSimpleTag
    simp only [hrun, ok_bind]
    exact ⟨_, _, _, rfl⟩

theorem getKeyTagValue_stray (h : v ++ closing n t <:+ s.buf) (hv : chLt ∉ v)
    (hfuel : s.size < fuel) :
    ∃ pos s', getKeyTagValue fuel (s.before (v ++ closing n t)) g = .ok (none, pos, s') := by
  obtain ⟨w, hw⟩ := exists_dropBlank v
  have hspace : isSpace ((dropBlank v ++ closing n t).getD 0 0) = false := by
    have hfirst := isSpace_dropBlank v
    cases hdrop : dropBlank v with
    | nil => exact isSpace_chLt
    | cons c v2 =>
      rw [hdrop] at hfirst
      exact hfirst
  have hv1 : chLt ∉ dropBlank v := fun hc => hv (dropWhile_subset _ hc)
  generalize dropBlank v = v1 at hw hspace hv1
  subst hw
  rw [append_assoc] at h ⊢
  obtain ⟨format, args, u, hrun⟩ := getSimpleTag_stray (g := g) (some (lit "key"))
    ((suffix_append _ _).trans h) hv1 hfuel
  unfold getKeyTagValue
  simp only [moveForwardUntilSignificant_before h w.property hspace hfuel, ok_bind, hrun]
  exact ⟨_, _, rfl⟩

theorem consumeOpeningTag_stray (h : v ++ closing n t <:+ s.buf) (hv : chLt ∉ v)
    (hfuel : s.size < fuel) :
    ∃ s', consumeOpeningTag fuel (s.before (v ++ closing n t)) x g = .ok (false, s') := by
  rcases getNextTag_stray (g := g) h hv hfuel with
    ⟨tag, u, hrun⟩ | ⟨format, args, v', -, -, hrun⟩
  · unfold consumeOpeningTag
    simp only [hrun, ok_bind, Bool.not_false, if_true]
    split
    · exact ⟨_, rfl⟩
    · exact ⟨_, rfl⟩
  · unfold consumeOpeningTag
    simp only [hrun, ok_bind]
    exact ⟨_, rfl⟩

theorem skipNextTag_stray (h : v ++ closing n t <:+ s.buf) (hv : chLt ∉ v)
    (hfuel : s.size < fuel) :
    ∃ s', skipNextTag fuel (s.before (v ++ closing n t)) g = .ok (false, s') := by
  rcases getNextTag_stray (g := g) h hv hfuel with
    ⟨tag, u, hrun⟩ | ⟨format, args, v', -, -, hrun⟩
  · unfold skipNextTag
    simp only [hrun, ok_bind, Bool.not_false, if_true]
    exact ⟨_, rfl⟩
  · unfold skipNextTag
    simp only [hrun, ok_bind]
    exact ⟨_, rfl⟩

/-- The text of an element is not taken for its closing tag: the end of an empty tag in it would
be that of a tag whose name goes back to the bracket of the element. -/
theorem nextTagIs_text {m : TagName}
    (h : chLt :: (m.val ++ chGt :: (v ++ closing n t)) <:+ s.buf) (hv : chLt ∉ v)
    (hblank : ∃ c ∈ v, isSpace c = false) (hx : chGt ∉ x) (hfuel : s.size < fuel) :
    ∃ v', chLt ∉ v' ∧ v' ++ closing n t <:+ s.buf ∧
      nextTagIs fuel (s.before (v ++ closing n t)) x false =
        .ok (false, s.before (v' ++ closing n t)) := by
  have htext : v ++ closing n t <:+ s.buf :=
    (((suffix_cons _ _).trans (suffix_append _ _)).trans (suffix_cons _ _)).trans h
  rcases getNextTag_stray (g := false) htext hv hfuel with
    ⟨tag, u, hrun⟩ | ⟨format, args, v', hv', h', hrun⟩
  · refine ⟨v, hv, htext, ?_⟩
    have hrestore : (s.before u).restorePosition (s.before (v ++ closing n t)).currentPos =
        s.before (v ++ closing n t) := restorePosition_before rfl
    have hname : strnIsEqual s tag x = false := by
      obtain ⟨w, hw⟩ := exists_dropBlank v
      have hspace := isSpace_dropBlank v
      generalize dropBlank v = v1 at hw hspace
      subst hw
      cases v1 with
      | nil =>
        obtain ⟨c, hc, hcs⟩ := hblank
        rw [append_nil] at hc
        rw [w.property c hc] at hcs
        exact absurd hcs (by decide)
      | cons c v2 =>
        have hc : c ≠ chLt := fun hc => hv (mem_append_right _ (hc ▸ mem_cons_self))
        rw [append_assoc, cons_append] at hrun htext h
        rw [getNextTag_blank htext w.property hspace hfuel, if_neg hc] at hrun
        by_cases hc' : c = chSlash
        · subst hc'
          rw [if_pos rfl] at hrun
          have hrest : chSlash :: (v2 ++ closing n t) <:+ s.buf :=
            (suffix_append _ _).trans htext
          by_cases hgt : (v2 ++ closing n t).getD 0 0 = chGt
          · obtain ⟨v3, hv3⟩ : ∃ v3, v2 = chGt :: v3 := by
              cases v2 with
              | nil =>
                have hlt : chLt = chGt := hgt
                exact absurd hlt (by decide)
              | cons d v3 => exact ⟨v3, congrArg (· :: v3) hgt⟩
            subst hv3
            have hname : ∀ c ∈ m.val ++ chGt :: w.val, c ≠ 0 ∧ c ≠ chLt := by
              intro c hc
              rcases mem_append.mp hc with hc | hc
              · exact ne_of_isTagchar (m.property.2 c hc)
              · rcases mem_cons.mp hc with rfl | hc
                · decide
                · exact ne_of_isSpace (w.property c hc)
            have hwhole : chLt :: ((m.val ++ chGt :: w.val) ++
                chSlash :: chGt :: (v3 ++ closing n t)) <:+ s.buf := by
              rw [append_assoc]
              exact h
            have hslashTag : getSlashTag fuel (s.before (chSlash :: (chGt :: v3 ++ closing n t)))
                false = _ := getSlashTag_before hwhole hname hfuel
            rw [hslashTag] at hrun
            have htag : s.sliceOf (m.val ++ chGt :: w.val)
                (chSlash :: chGt :: (v3 ++ closing n t)) = tag :=
              congrArg Tag.tag (Option.some.inj (Prod.mk.inj (Except.ok.inj hrun)).1)
            rw [← htag, strnIsEqual_sliceOf ((suffix_cons _ _).trans hwhole)]
            refine decide_eq_false fun heq => hx ?_
            rw [← heq]
            exact mem_append_right _ mem_cons_self
          · obtain ⟨tag', hslashTag⟩ := getSlashTag_eq (g := false) hrest hfuel
            rw [hslashTag, if_pos hgt] at hrun
            exact nomatch hrun
        · rw [if_neg hc'] at hrun
          exact nomatch hrun
    unfold nextTagIs
    simp only [hrun, ok_bind, hrestore]
    have hname' : strnIsEqual (s.before (v ++ closing n t)) tag x = false := hname
    rw [hname']
    rfl
  · refine ⟨v', hv', h', ?_⟩
    unfold nextTagIs
    simp only [hrun, ok_bind]
    rfl

end XmlLiteParser

end Clover.Xml
