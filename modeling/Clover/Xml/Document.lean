import Clover.Xml.Text

/-!
# Well-formed documents

Elements as trees, the text each of them is written as, and what the reader does at an element:
it finds the tag, reads the text of an element without children, or skips the whole element,
whatever its depth. White space, tag names and texts are subtypes, so that there are no other
elements than the well-formed ones.
-/

namespace Clover.Xml

open Clover.Lib Clover.Lib.Run List

variable {v : Bytes} {expected : Option Bytes}

/-- White space. -/
abbrev Blank := { w : Bytes // ∀ c ∈ w, isSpace c = true }

variable (w : Blank)

/-- No white space. -/
def noGap : Blank := ⟨[], nofun⟩

@[simp] theorem noGap_append (t : Bytes) : noGap.val ++ t = t := rfl

/-- The name of a tag. -/
abbrev TagName := { n : Bytes // n ≠ [] ∧ ∀ c ∈ n, isTagchar c = true }

/-- A text without tags, which is not taken for the end of an empty tag either. -/
abbrev TextRun := { v : Bytes // chLt ∉ v ∧ ¬ [chSlash, chGt] <+: v }

mutual

/-- An element: `<tag/>`, or a tag with a text, or one with children. -/
inductive Element where
  | empty (tag : TagName)
  | text (tag : TagName) (value : TextRun)
  | node (tag : TagName) (children : Children)

/-- Elements with the white space before each of them, and behind the last. -/
inductive Children where
  | nil (last : Blank)
  | cons (gap : Blank) (element : Element) (others : Children)

end

variable (e : Element) (t : Bytes) {x : Bytes}

/-- A closing tag, with the text `t` behind it. -/
def closing (n : TagName) (t : Bytes) : Bytes :=
  chLt :: chSlash :: (n.val ++ chGt :: t)

mutual

/-- The text of an element, with the text `t` behind it. -/
def Element.write : Element → Bytes → Bytes
  | .empty n, t => chLt :: (n.val ++ chSlash :: chGt :: t)
  | .text n v, t => chLt :: (n.val ++ chGt :: (v.val ++ closing n t))
  | .node n cs, t => chLt :: (n.val ++ chGt :: cs.write (closing n t))

def Children.write : Children → Bytes → Bytes
  | .nil w, t => w.val ++ t
  | .cons w e cs, t => w.val ++ e.write (cs.write t)

end

namespace Element

variable (e : Element) (t : Bytes)

def tag : Element → TagName
  | .empty n | .text n _ | .node n _ => n

/-- What stands behind the name of the tag. -/
def tail : Element → Bytes → Bytes
  | .empty _, t => chSlash :: chGt :: t
  | .text n v, t => chGt :: (v.val ++ closing n t)
  | .node n cs, t => chGt :: cs.write (closing n t)

/-- What is left when the tag has been read as an opening tag. -/
def inside : Element → Bytes → Bytes
  | .empty _, t => chSlash :: chGt :: t
  | .text n v, t => v.val ++ closing n t
  | .node n cs, t => cs.write (closing n t)

/-- What is left behind the text of an element without children. -/
def close : Element → Bytes → Bytes
  | .empty _, t => chSlash :: chGt :: t
  | .text n _, t | .node n _, t => closing n t

/-- The text of an element without children. -/
def simple : Element → Option Bytes
  | .empty _ => some []
  | .text _ v => some v.val
  | .node _ (.nil w) => some w.val
  | .node _ (.cons _ _ _) => none

/-- The text of a key. -/
def key (e : Element) : Option Bytes :=
  if e.tag.val = lit "key" then e.simple else none

theorem write_eq (e : Element) (t : Bytes) : e.write t = chLt :: (e.tag.val ++ e.tail t) := by
  cases e <;> rw [write] <;> rfl

theorem tail_suffix : e.tag.val ++ e.tail t <:+ e.write t := by
  rw [write_eq]
  exact suffix_cons _ _

theorem inside_suffix_tail : e.inside t <:+ e.tail t := by
  cases e with
  | empty n => exact suffix_refl _
  | text n v => exact suffix_cons _ _
  | node n cs => exact suffix_cons _ _

theorem inside_suffix : e.inside t <:+ e.write t :=
  ((e.inside_suffix_tail t).trans (suffix_append _ _)).trans (e.tail_suffix t)

end Element

theorem closing_suffix (n : TagName) (t : Bytes) : t <:+ closing n t := by
  have h : t <:+ n.val ++ chGt :: t := (suffix_cons chGt t).trans (suffix_append _ _)
  exact (h.trans (suffix_cons chSlash _)).trans (suffix_cons chLt _)

mutual

theorem Element.suffix_write : ∀ (e : Element) (t : Bytes), t <:+ e.write t
  | .empty n, t => by
    have h : t <:+ chSlash :: chGt :: t := (suffix_cons _ _).trans (suffix_cons _ _)
    rw [Element.write]
    exact (h.trans (suffix_append _ _)).trans (suffix_cons _ _)
  | .text n v, t => by
    have h : t <:+ v.val ++ closing n t := (closing_suffix n t).trans (suffix_append _ _)
    exact h.trans (Element.inside_suffix (.text n v) t)
  | .node n cs, t => by
    have h : t <:+ cs.write (closing n t) := (closing_suffix n t).trans (cs.suffix_write _)
    exact h.trans (Element.inside_suffix (.node n cs) t)

theorem Children.suffix_write : ∀ (cs : Children) (t : Bytes), t <:+ cs.write t
  | .nil w, t => by
    rw [Children.write]
    exact suffix_append _ _
  | .cons w e cs, t => by
    have h : t <:+ e.write (cs.write t) := (cs.suffix_write t).trans (e.suffix_write _)
    rw [Children.write]
    exact h.trans (suffix_append _ _)

end

/-- What is left behind an element is left of the text with the element. -/
theorem Element.suffix_of_behind {w : Blank} {t u : Bytes} (hu : u <:+ t)
    (h : w.val ++ e.write t <:+ x) : u <:+ x :=
  (hu.trans (e.suffix_write t)).trans ((suffix_append _ _).trans h)

theorem Element.close_suffix : e.close t <:+ e.inside t := by
  cases e with
  | empty n => exact suffix_refl _
  | text n v => exact suffix_append _ _
  | node n cs => exact cs.suffix_write _

theorem Element.suffix_close : t <:+ e.close t := by
  cases e with
  | empty n => exact (suffix_cons _ _).trans (suffix_cons _ _)
  | text n v => exact closing_suffix n t
  | node n cs => exact closing_suffix n t

theorem Element.length_lt_write : t.length < (e.write t).length := by
  have hclose := (e.suffix_close t).length_le
  have hinside := (e.close_suffix t).length_le
  have htail := (e.inside_suffix_tail t).length_le
  rw [e.write_eq, length_cons, length_append]
  omega

theorem Element.inside_eq {e : Element} (hv : e.simple = some v) (t : Bytes) :
    e.inside t = v ++ e.close t := by
  match e, hv with
  | .empty n, rfl => rfl
  | .text n v, rfl => rfl
  | .node n (.nil w), rfl =>
    rfl

theorem Element.exists_of_simple_eq_none {e : Element} (h : e.simple = none) :
    ∃ n w e' cs, e = .node n (.cons w e' cs) := by
  match e, h with
  | .node n (.cons w e' cs), _ => exact ⟨n, w, e', cs, rfl⟩

/-- A text without the white space it starts with. -/
def dropBlank (t : Bytes) : Bytes := t.dropWhile isSpace

theorem isSpace_dropBlank : isSpace ((dropBlank t).getD 0 0) = false := by
  unfold dropBlank
  induction t with
  | nil => rfl
  | cons c t ih =>
    rw [dropWhile_cons]
    split
    · exact ih
    · next hc => exact Bool.eq_false_iff.mpr hc

theorem dropBlank_append {c : UInt8} (hc : isSpace c = false) :
    dropBlank (w.val ++ c :: t) = c :: t := by
  unfold dropBlank
  rw [dropWhile_append_of_pos w.property, dropWhile_cons_of_neg (by rw [hc]; decide)]

theorem exists_dropBlank : ∃ w : Blank, t = w.val ++ dropBlank t :=
  ⟨⟨t.takeWhile isSpace, fun _ hc => mem_takeWhile_imp hc⟩,
    (takeWhile_append_dropWhile ..).symm⟩

/-- Behind a text and its white space there is a tag or nothing. -/
def Follows (t : Bytes) : Prop :=
  (dropBlank t).getD 0 0 = 0 ∨ (dropBlank t).getD 0 0 = chLt

theorem isSpace_chLt : isSpace chLt = false := rfl

theorem Blank.chLt_notMem : chLt ∉ w.val := fun hc => absurd (w.property _ hc) (by decide)

theorem follows_closing (n : TagName) (t : Bytes) : Follows (w.val ++ closing n t) := by
  unfold Follows closing
  rw [dropBlank_append w _ isSpace_chLt]
  exact Or.inr rfl

theorem dropBlank_write : dropBlank (w.val ++ e.write t) = e.write t := by
  rw [e.write_eq, dropBlank_append w _ isSpace_chLt]

theorem follows_children (cs : Children) (n : TagName) (t : Bytes) :
    Follows (cs.write (closing n t)) := by
  cases cs with
  | nil w =>
    exact follows_closing w n t
  | cons w e cs =>
    rw [Children.write]
    unfold Follows
    rw [dropBlank_write, e.write_eq]
    exact Or.inr rfl

namespace XmlLiteParser

variable {s : XmlLiteParser} {fuel : Nat} {g : Bool} {e : Element} {n : TagName} {w : Blank}
  {t : Bytes} (opening : Bool)

/-! ## The tags of an element -/

theorem getNextTag_element (h : w.val ++ e.write t <:+ s.buf) (hfuel : s.size < fuel) :
    getNextTag fuel (s.before (w.val ++ e.write t)) g =
      .ok (some ⟨s.sliceOf e.tag.val (e.tail t), true⟩, s.before (e.inside t)) := by
  match e with
  | .empty n =>
    -- an empty tag is first an opening tag, with the cursor left at the slash
    refine (getNextTag_blank h w.property rfl hfuel).trans ?_
    rw [if_pos rfl, getBracketTag_before ((suffix_append w.val _).trans h) n.property.1
      n.property.2 rfl hfuel, if_pos rfl]
    rfl
  | .text n v =>
    exact getNextTag_open h w.property n.property.1 n.property.2 hfuel
  | .node n cs =>
    exact getNextTag_open h w.property n.property.1 n.property.2 hfuel

theorem getNextTag_closing (h : w.val ++ closing n t <:+ s.buf) (hfuel : s.size < fuel) :
    getNextTag fuel (s.before (w.val ++ closing n t)) g =
      .ok (some ⟨s.sliceOf n.val (chGt :: t), false⟩, s.before t) := by
  rw [closing, getNextTag_blank h w.property rfl hfuel, if_pos rfl,
    getBracketTag_close ((suffix_append w.val _).trans h) n.property.1 n.property.2 hfuel]

theorem closing_name (h : w.val ++ closing n t <:+ s.buf) : n.val ++ chGt :: t <:+ s.buf := by
  have hname : n.val ++ chGt :: t <:+ closing n t :=
    (suffix_cons chSlash _).trans (suffix_cons chLt _)
  exact (hname.trans (suffix_append _ _)).trans h

theorem strnIsEqual_element (h : w.val ++ e.write t <:+ s.buf) (u x : Bytes) :
    strnIsEqual (s.before u) (s.sliceOf e.tag.val (e.tail t)) x = decide (e.tag.val = x) :=
  strnIsEqual_sliceOf ((e.tail_suffix t).trans ((suffix_append _ _).trans h)) x

theorem strnIsEqual_closing (h : w.val ++ closing n t <:+ s.buf) (u x : Bytes) :
    strnIsEqual (s.before u) (s.sliceOf n.val (chGt :: t)) x = decide (n.val = x) :=
  strnIsEqual_sliceOf (closing_name h) x

theorem getNextTag_element_close (h : e.write t <:+ s.buf) (hfuel : s.size < fuel) :
    ∃ u, e.tag.val ++ u <:+ s.buf ∧ getNextTag fuel (s.before (e.close t)) g =
      .ok (some ⟨s.sliceOf e.tag.val u, false⟩, s.before t) := by
  have hclosing : ∀ n : TagName, closing n t <:+ s.buf →
      ∃ u, n.val ++ u <:+ s.buf ∧ getNextTag fuel (s.before (closing n t)) g =
        .ok (some ⟨s.sliceOf n.val u, false⟩, s.before t) := by
    intro n hn
    have hn' : noGap.val ++ closing n t <:+ s.buf := hn
    have hnext := getNextTag_closing (g := g) hn' hfuel
    exact ⟨chGt :: t, closing_name hn', hnext⟩
  have hclose := ((e.close_suffix t).trans (e.inside_suffix t)).trans h
  match e with
  | .empty n =>
    exact ⟨_, (suffix_cons chLt _).trans h, getNextTag_closeEmpty h n.property.2 hfuel⟩
  | .text n v => exact hclosing n hclose
  | .node n cs => exact hclosing n hclose

/-! ## Elements without children -/

theorem getString_gap {r : Bytes} (h : w.val ++ chLt :: r <:+ s.buf) (hfuel : s.size < fuel) :
    getString fuel (s.before (w.val ++ chLt :: r)) =
      .ok (s.sliceOf w.val (chLt :: r), s.before (chLt :: r)) :=
  getString_before h w.chLt_notMem
    (fun hc => absurd (w.property _ (hc.subset mem_cons_self)) (by decide)) hfuel

theorem getString_element (hv : e.simple = some v) (h : e.write t <:+ s.buf)
    (hfuel : s.size < fuel) :
    getString fuel (s.before (e.inside t)) =
      .ok (s.sliceOf v (e.close t), s.before (e.close t)) := by
  have hinside := (e.inside_suffix t).trans h
  match e, hv with
  | .empty n, rfl => exact getString_empty hinside
  | .text n v, rfl => exact getString_before hinside v.property.1 v.property.2 hfuel
  | .node n (.nil w), rfl => exact getString_gap hinside hfuel

theorem any_expected (hexpected : ∀ x ∈ expected, e.tag.val = x) (h : e.write t <:+ s.buf)
    (u : Bytes) :
    (expected.any fun x => !strnIsEqual (s.before u) (s.sliceOf e.tag.val (e.tail t)) x) =
      false := by
  cases expected with
  | none => rfl
  | some x =>
    have hx : strnIsEqual s (s.sliceOf e.tag.val (e.tail t)) x = true := by
      rw [strnIsEqual_sliceOf ((e.tail_suffix t).trans h)]
      exact decide_eq_true (hexpected x rfl)
    show (!strnIsEqual s _ x) = false
    rw [hx]
    rfl

/-- An element without children is read as a simple tag, if the tag is the expected one. -/
theorem getSimpleTag_simple (hv : e.simple = some v) (hexpected : ∀ x ∈ expected, e.tag.val = x)
    (h : w.val ++ e.write t <:+ s.buf) (hfuel : s.size < fuel) :
    getSimpleTag fuel (s.before (w.val ++ e.write t)) expected g =
      .ok (some (s.sliceOf e.tag.val (e.tail t), s.sliceOf v (e.close t)), s.before t) := by
  have hwrite : e.write t <:+ s.buf := (suffix_append _ _).trans h
  have hname : e.tag.val ++ e.tail t <:+ s.buf := (e.tail_suffix t).trans hwrite
  obtain ⟨u, hu, hend⟩ := getNextTag_element_close (g := g) hwrite hfuel
  have hany := any_expected hexpected hwrite (e.inside t)
  have hsame : strnnIsEqual (s.before t) (s.sliceOf e.tag.val u)
      (s.sliceOf e.tag.val (e.tail t)) = true := by
    show strnnIsEqual s _ _ = true
    rw [strnnIsEqual_sliceOf hu hname]
    exact decide_eq_true rfl
  unfold getSimpleTag
  simp [getNextTag_element h hfuel, hany, getString_element hv hwrite hfuel, hend, hsame]

/-- An element with children is not a simple tag; the cursor is left at its first child. -/
theorem getSimpleTag_children {e' : Element} {cs : Children} {w' : Blank}
    (hexpected : ∀ x ∈ expected, n.val = x)
    (h : w.val ++ (Element.node n (.cons w' e' cs)).write t <:+ s.buf) (hfuel : s.size < fuel) :
    ∃ format args, getSimpleTag fuel
        (s.before (w.val ++ (Element.node n (.cons w' e' cs)).write t)) expected g =
      .ok (none, (s.addXmlError g format args).before (e'.write (cs.write (closing n t)))) := by
  have hwrite := (suffix_append _ _).trans h
  have hinside := (Element.inside_suffix (.node n (.cons w' e' cs)) t).trans hwrite
  have hin : (Element.node n (.cons w' e' cs)).inside t =
      w'.val ++ e'.write (cs.write (closing n t)) := by
    rw [Element.inside, Children.write]
  rw [hin] at hinside
  obtain ⟨r, hr⟩ : ∃ r, e'.write (cs.write (closing n t)) = chLt :: r := ⟨_, e'.write_eq _⟩
  have hstring : getString fuel (s.before (w'.val ++ e'.write (cs.write (closing n t)))) =
      .ok (s.sliceOf w'.val (e'.write (cs.write (closing n t))),
        s.before (e'.write (cs.write (closing n t)))) := by
    rw [hr] at hinside ⊢
    exact getString_gap hinside hfuel
  have hchild : getNextTag fuel (s.before (e'.write (cs.write (closing n t)))) g = _ :=
    getNextTag_element (w := noGap) ((suffix_append _ _).trans hinside)
      hfuel
  have hrestore : (s.before (e'.inside (cs.write (closing n t)))).restorePosition
      (s.before (e'.write (cs.write (closing n t)))).currentPos =
      s.before (e'.write (cs.write (closing n t))) := restorePosition_before rfl
  have hany := any_expected (e := .node n (.cons w' e' cs)) hexpected hwrite
    (w'.val ++ e'.write (cs.write (closing n t)))
  unfold getSimpleTag
  simp only [getNextTag_element h hfuel, ok_bind, Bool.not_true, Bool.false_eq_true, if_false,
    hin, hany, hstring, hchild, true_or, if_true, hrestore, before_addXmlError]
  exact ⟨_, _, rfl⟩

theorem getSimpleTag_unexpected (hx : e.tag.val ≠ x)
    (h : w.val ++ e.write t <:+ s.buf) (hfuel : s.size < fuel) :
    ∃ format args, getSimpleTag fuel (s.before (w.val ++ e.write t)) (some x) g =
      .ok (none, (s.addXmlError g format args).before (e.inside t)) := by
  have hne := (strnIsEqual_element h (e.inside t) x).trans (decide_eq_false hx)
  unfold getSimpleTag
  simp only [getNextTag_element h hfuel, ok_bind, Bool.not_true, Bool.false_eq_true, if_false,
    Option.any_some, hne, Bool.not_false, if_true, before_addXmlError]
  exact ⟨_, _, rfl⟩

/-! ## Skipping -/

theorem endSkip_before {pos : XmlParserPosition} {tag tagToSkip : Slice} (h : t <:+ s.buf)
    (hsame : strnnIsEqual s tag tagToSkip = true) (hfollows : Follows t) (hfuel : s.size < fuel) :
    endSkip fuel (s.before t) pos tag tagToSkip g = .ok (true, s.before (dropBlank t)) := by
  obtain ⟨w, hw⟩ := exists_dropBlank t
  have hskip : moveForwardUntilSignificant fuel (s.before t) =
      .ok ((dropBlank t).getD 0 0, s.before (dropBlank t)) := by
    have hmove := moveForwardUntilSignificant_before (hw ▸ h) w.property (isSpace_dropBlank t) hfuel
    rwa [← hw] at hmove
  have hsame' : strnnIsEqual (s.before t) tag tagToSkip = true := hsame
  have hchar : ¬ ((dropBlank t).getD 0 0 ≠ 0 ∧ (dropBlank t).getD 0 0 ≠ chLt) := by
    rintro ⟨h0, h1⟩
    exact hfollows.elim h0 h1
  unfold endSkip
  simp only [hsame', Bool.not_true, Bool.false_eq_true, if_false, hskip, ok_bind, if_neg hchar]

theorem getString_children (cs : Children) (h : cs.write (closing n t) <:+ s.buf)
    (hfuel : s.size < fuel) :
    ∃ v, getString fuel (s.before (cs.write (closing n t))) =
        .ok (v, s.before (dropBlank (cs.write (closing n t)))) ∧
      (s.bytes v).dropWhile isSpace = [] := by
  obtain ⟨w, r, hw, hdrop⟩ : ∃ (w : Blank) (r : Bytes),
      cs.write (closing n t) = w.val ++ chLt :: r ∧
        dropBlank (cs.write (closing n t)) = chLt :: r := by
    cases cs with
    | nil w =>
      exact ⟨w, _, rfl, dropBlank_append w _ isSpace_chLt⟩
    | cons w e cs =>
      rw [Children.write, e.write_eq]
      exact ⟨w, _, rfl, dropBlank_append w _ isSpace_chLt⟩
  rw [hdrop, hw]
  rw [hw] at h
  refine ⟨s.sliceOf w.val (chLt :: r), ?_, ?_⟩
  · exact getString_gap h hfuel
  · rw [bytes_sliceOf h, dropWhile_eq_nil_iff]
    exact w.property

theorem skipUntilClosingTag_simple {depth : Nat} (hv : e.simple = some v)
    (h : e.write t <:+ s.buf) (hfollows : Follows t) (hdepth : 0 < depth) (hfuel : s.size < fuel) :
    skipUntilClosingTag fuel depth (s.before (e.inside t)) (s.sliceOf e.tag.val (e.tail t)) g =
      .ok (true, s.before (dropBlank t)) := by
  obtain ⟨m, rfl⟩ : ∃ m, depth = m + 1 := ⟨depth - 1, by omega⟩
  have hname : e.tag.val ++ e.tail t <:+ s.buf := (e.tail_suffix t).trans h
  obtain ⟨u, hu, hend⟩ := getNextTag_element_close (g := g) h hfuel
  have hloop : Run.loop (skipChild fuel (skipUntilClosingTag fuel m) g) fuel
      (⟨s.sliceOf e.tag.val u, false⟩, s.before t) = .ok (some (s.sliceOf e.tag.val u),
        s.before t) :=
    loop_leave rfl (Nat.lt_of_le_of_lt (Nat.zero_le _) hfuel)
  have hsame : strnnIsEqual s (s.sliceOf e.tag.val u) (s.sliceOf e.tag.val (e.tail t)) = true := by
    rw [strnnIsEqual_sliceOf hu hname]
    exact decide_eq_true rfl
  unfold skipUntilClosingTag
  simp only [getString_element hv h hfuel, ok_bind, hend, Bool.false_eq_true, false_and, if_false,
    hloop]
  exact endSkip_before ((e.suffix_write t).trans h) hsame hfollows hfuel

/-- From the first tag on the children are skipped one by one, up to the closing tag, if a child
that is not longer than `m` is skipped as a whole. -/
theorem skipChildren_element (hfuel : s.size < fuel) {m : Nat}
    (hskip : ∀ (e : Element) (t : Bytes), e.write t <:+ s.buf → Follows t →
      (e.write t).length ≤ m →
      skipUntilClosingTag fuel m (s.before (e.inside t)) (s.sliceOf e.tag.val (e.tail t)) g =
        .ok (true, s.before (dropBlank t))) :
    ∀ (cs : Children) (n : TagName) (t : Bytes) (k : Nat),
      cs.write (closing n t) <:+ s.buf → (cs.write (closing n t)).length ≤ m →
      (cs.write (closing n t)).length < k →
      ∃ tag s1, getNextTag fuel (s.before (dropBlank (cs.write (closing n t)))) g =
          .ok (some tag, s1) ∧
        Run.loop (skipChild fuel (skipUntilClosingTag fuel m) g) k (tag, s1) =
          .ok (some (s.sliceOf n.val (chGt :: t)), s.before t)
  | .nil w, n, t, k, h, _, hk => by
    rw [Children.write] at h ⊢
    have hclosing : closing n t <:+ s.buf := (suffix_append _ _).trans h
    have hdrop : dropBlank (w.val ++ closing n t) = closing n t :=
      dropBlank_append w _ isSpace_chLt
    rw [hdrop]
    exact ⟨_, _, getNextTag_closing (w := noGap) hclosing hfuel,
      loop_leave rfl (by omega)⟩
  | .cons w e cs, n, t, k, h, hm, hk => by
    rw [Children.write] at h hm hk ⊢
    rw [dropBlank_write]
    have hwrite : e.write (cs.write (closing n t)) <:+ s.buf := (suffix_append _ _).trans h
    have hcs : cs.write (closing n t) <:+ s.buf := (e.suffix_write _).trans hwrite
    have hlength := e.length_lt_write (cs.write (closing n t))
    rw [length_append] at hm hk
    obtain ⟨j, rfl⟩ : ∃ j, k = j + 1 := ⟨k - 1, by omega⟩
    have hchild := hskip e (cs.write (closing n t)) hwrite (follows_children cs n t) (by omega)
    obtain ⟨tag, s1, htag, hloop⟩ := skipChildren_element hfuel hskip cs n t j hcs (by omega)
      (by omega)
    refine ⟨_, _, getNextTag_element (w := noGap) hwrite hfuel, ?_⟩
    refine (loop_again ?_ j).trans hloop
    unfold skipChild
    simp [hchild, htag]

/-- An element is skipped as a whole, once its tag has been read. -/
theorem skipUntilClosingTag_element (hfuel : s.size < fuel) (depth : Nat) :
    ∀ (e : Element) (t : Bytes), e.write t <:+ s.buf → Follows t →
      (e.write t).length ≤ depth →
      skipUntilClosingTag fuel depth (s.before (e.inside t)) (s.sliceOf e.tag.val (e.tail t)) g =
        .ok (true, s.before (dropBlank t)) := by
  -- an element is longer than its children are, and `depth` bounds its length
  induction depth with
  | zero =>
    intro e t _ _ hdepth
    rw [e.write_eq, length_cons] at hdepth
    omega
  | succ m ih =>
    intro e t h hfollows hdepth
    cases e with
    | empty n => exact skipUntilClosingTag_simple rfl h hfollows (Nat.succ_pos m) hfuel
    | text n v => exact skipUntilClosingTag_simple rfl h hfollows (Nat.succ_pos m) hfuel
    | node n cs =>
      have hinside : cs.write (closing n t) <:+ s.buf :=
        (Element.inside_suffix (.node n cs) t).trans h
      have hname : n.val ++ Element.tail (.node n cs) t <:+ s.buf :=
        (Element.tail_suffix (.node n cs) t).trans h
      have hlength : (cs.write (closing n t)).length ≤ m := by
        rw [Element.write, length_cons, length_append, length_cons] at hdepth
        omega
      obtain ⟨v, hstring, hblank⟩ := getString_children cs hinside hfuel
      have hsize : (cs.write (closing n t)).length < fuel :=
        lt_of_le_of_lt hinside.length_le hfuel
      obtain ⟨tag, s1, htag, hloop⟩ :=
        skipChildren_element hfuel ih cs n t fuel hinside hlength hsize
      have hclosing : closing n t <:+ s.buf := (cs.suffix_write _).trans hinside
      have hsame : strnnIsEqual s (s.sliceOf n.val (chGt :: t))
          (s.sliceOf n.val (Element.tail (.node n cs) t)) = true := by
        have hend : n.val ++ chGt :: t <:+ s.buf :=
          closing_name (w := noGap) hclosing
        rw [strnnIsEqual_sliceOf hend hname]
        exact decide_eq_true rfl
      have hblank' :
          ((s.before (dropBlank (cs.write (closing n t)))).bytes v).dropWhile isSpace = [] := hblank
      unfold skipUntilClosingTag Element.inside Element.tag
      simp only [hstring, ok_bind, htag, hblank', ne_eq, not_true_eq_false, and_false, if_false,
        hloop]
      exact endSkip_before ((closing_suffix n t).trans hclosing) hsame hfollows hfuel

theorem skipNextTag_element (h : w.val ++ e.write t <:+ s.buf) (hfollows : Follows t)
    (hfuel : s.size < fuel) :
    skipNextTag fuel (s.before (w.val ++ e.write t)) g = .ok (true, s.before (dropBlank t)) := by
  have hwrite : e.write t <:+ s.buf := (suffix_append _ _).trans h
  have hdepth : (e.write t).length ≤ fuel :=
    le_trans hwrite.length_le (le_of_lt hfuel)
  unfold skipNextTag
  simp only [getNextTag_element h hfuel, ok_bind, Bool.not_true, Bool.false_eq_true, if_false]
  exact skipUntilClosingTag_element hfuel fuel e t hwrite hfollows hdepth

/-! ## Expected tags -/

variable {x : Bytes}

theorem consumeOpeningTag_element (hx : e.tag.val = x) (h : w.val ++ e.write t <:+ s.buf)
    (hfuel : s.size < fuel) :
    consumeOpeningTag fuel (s.before (w.val ++ e.write t)) x g =
      .ok (true, s.before (e.inside t)) := by
  have heq := (strnIsEqual_element h (e.inside t) x).trans (decide_eq_true hx)
  unfold consumeOpeningTag
  simp [getNextTag_element h hfuel, heq]

theorem consumeOpeningTag_other (hx : e.tag.val ≠ x) (h : w.val ++ e.write t <:+ s.buf)
    (hfuel : s.size < fuel) :
    ∃ format args, consumeOpeningTag fuel (s.before (w.val ++ e.write t)) x g =
      .ok (false, (s.addXmlError g format args).before (w.val ++ e.write t)) := by
  have hne := (strnIsEqual_element h (e.inside t) x).trans (decide_eq_false hx)
  unfold consumeOpeningTag
  simp only [getNextTag_element h hfuel, ok_bind, hne, Bool.not_false, if_true, before_addXmlError]
  refine ⟨_, _, congrArg (fun s' => Except.ok (false, s')) (restorePosition_before ?_)⟩
  rw [before_buf, addXmlError_buf]

theorem nextTagIs_element (h : w.val ++ e.write t <:+ s.buf) (hfuel : s.size < fuel) :
    nextTagIs fuel (s.before (w.val ++ e.write t)) x opening =
      .ok (decide (e.tag.val = x) && opening, s.before (w.val ++ e.write t)) := by
  have hrestore : (s.before (e.inside t)).restorePosition
      (s.before (w.val ++ e.write t)).currentPos = s.before (w.val ++ e.write t) :=
        restorePosition_before rfl
  unfold nextTagIs
  simp [getNextTag_element h hfuel, hrestore, strnIsEqual_element h]

theorem nextTagIsClosingTag_element (h : w.val ++ e.write t <:+ s.buf)
    (hfuel : s.size < fuel) : nextTagIsClosingTag fuel (s.before (w.val ++ e.write t)) x =
      .ok (false, s.before (w.val ++ e.write t)) := by
  unfold nextTagIsClosingTag
  rw [nextTagIs_element false h hfuel, Bool.and_false]

theorem nextTagIs_closing (h : w.val ++ closing n t <:+ s.buf) (hfuel : s.size < fuel) :
    nextTagIs fuel (s.before (w.val ++ closing n t)) x opening =
      .ok (decide (n.val = x) && !opening, s.before (w.val ++ closing n t)) := by
  have hrestore : (s.before t).restorePosition (s.before (w.val ++ closing n t)).currentPos =
      s.before (w.val ++ closing n t) := restorePosition_before rfl
  unfold nextTagIs
  simp [getNextTag_closing h hfuel, hrestore, strnIsEqual_closing h]

theorem consumeClosingTag_closing (hx : n.val = x) (h : w.val ++ closing n t <:+ s.buf)
    (hfuel : s.size < fuel) :
    consumeClosingTag fuel (s.before (w.val ++ closing n t)) x g = .ok (true, s.before t) := by
  have heq := (strnIsEqual_closing h t x).trans (decide_eq_true hx)
  unfold consumeClosingTag
  simp [getNextTag_closing h hfuel, heq]

/-- The end of an empty tag is seen as a closing tag. -/
theorem nextTagIs_empty (h : (Element.empty n).write t <:+ s.buf) (hfuel : s.size < fuel) :
    nextTagIs fuel (s.before (chSlash :: chGt :: t)) x opening =
      .ok (decide (n.val = x) && !opening, s.before (chSlash :: chGt :: t)) := by
  obtain ⟨u, hu, hend⟩ := getNextTag_element_close (g := false) h hfuel
  have hend' : getNextTag fuel (s.before (chSlash :: chGt :: t)) false =
      .ok (some ⟨s.sliceOf n.val u, false⟩, s.before t) := hend
  have hrestore : (s.before t).restorePosition (s.before (chSlash :: chGt :: t)).currentPos =
      s.before (chSlash :: chGt :: t) := restorePosition_before rfl
  have hsame : strnIsEqual (s.before (chSlash :: chGt :: t)) (s.sliceOf n.val u) x =
      decide (n.val = x) := strnIsEqual_sliceOf hu x
  unfold nextTagIs
  simp [hend', hrestore, hsame]

theorem nextTagIsClosingTag_own (hn : n.val = x)
    (h : w.val ++ closing n t <:+ s.buf) (hfuel : s.size < fuel) :
    nextTagIsClosingTag fuel (s.before (w.val ++ closing n t)) x =
      .ok (true, s.before (w.val ++ closing n t)) := by
  unfold nextTagIsClosingTag
  rw [nextTagIs_closing false h hfuel, decide_eq_true hn]
  rfl

theorem nextTagIsClosingTag_empty (hn : n.val = x)
    (h : (Element.empty n).write t <:+ s.buf) (hfuel : s.size < fuel) :
    nextTagIsClosingTag fuel (s.before (chSlash :: chGt :: t)) x =
      .ok (true, s.before (chSlash :: chGt :: t)) := by
  unfold nextTagIsClosingTag
  rw [nextTagIs_empty false h hfuel, decide_eq_true hn]
  rfl

theorem consumeClosingTag_empty (hx : n.val = x) (h : (Element.empty n).write t <:+ s.buf)
    (hfuel : s.size < fuel) :
    consumeClosingTag fuel (s.before (chSlash :: chGt :: t)) x g = .ok (true, s.before t) := by
  obtain ⟨u, hu, hend⟩ := getNextTag_element_close (g := g) h hfuel
  have hend' : getNextTag fuel (s.before (chSlash :: chGt :: t)) g =
      .ok (some ⟨s.sliceOf n.val u, false⟩, s.before t) := hend
  have heq : strnIsEqual (s.before t) (s.sliceOf n.val u) x = true :=
    (strnIsEqual_sliceOf hu x).trans (decide_eq_true hx)
  unfold consumeClosingTag
  simp [hend', heq]

theorem moveForwardUntilSignificant_element (h : w.val ++ e.write t <:+ s.buf)
    (hfuel : s.size < fuel) :
    moveForwardUntilSignificant fuel (s.before (w.val ++ e.write t)) =
      .ok (chLt, s.before (e.write t)) := by
  rw [e.write_eq] at h ⊢
  exact moveForwardUntilSignificant_before h w.property isSpace_chLt hfuel

theorem getKeyTagValue_key {k : Bytes} (hk : e.key = some k)
    (h : w.val ++ e.write t <:+ s.buf) (hfuel : s.size < fuel) :
    getKeyTagValue fuel (s.before (w.val ++ e.write t)) g =
      .ok (some (s.sliceOf k (e.close t)), (s.before (e.write t)).currentPos, s.before t) := by
  unfold Element.key at hk
  split at hk
  · next htag =>
    have hwrite : noGap.val ++ e.write t <:+ s.buf := (suffix_append _ _).trans h
    have hname : e.tag.val ++ e.tail t <:+ s.buf := (e.tail_suffix t).trans hwrite
    have hexpected : ∀ x ∈ some (lit "key"), e.tag.val = x :=
      fun x hx => htag.trans (Option.some.inj hx)
    have hsimple := getSimpleTag_simple (g := g) hk hexpected hwrite hfuel
    rw [noGap_append] at hsimple
    have heq : strnIsEqualIC (s.before t) (s.sliceOf e.tag.val (e.tail t)) (lit "key") = true := by
      have hic := strnIsEqualIC_sliceOf hname (lit "key")
      rw [htag, decide_eq_true rfl] at hic
      rw [htag]
      exact hic
    unfold getKeyTagValue
    simp [moveForwardUntilSignificant_element h hfuel, hsimple, heq]
  · exact nomatch hk

theorem getKeyTagValue_other (hk : e.key = none) (h : w.val ++ e.write t <:+ s.buf)
    (hfuel : s.size < fuel) :
    ∃ format args, getKeyTagValue fuel (s.before (w.val ++ e.write t)) g =
      .ok (none, (s.before (e.write t)).currentPos,
        (s.addXmlError g format args).before (e.write t)) := by
  have hwrite : noGap.val ++ e.write t <:+ s.buf := (suffix_append _ _).trans h
  obtain ⟨format, args, u, hsimple⟩ : ∃ format args u,
      getSimpleTag fuel (s.before (e.write t)) (some (lit "key")) g =
        .ok (none, (s.addXmlError g format args).before u) := by
    by_cases htag : e.tag.val = lit "key"
    · unfold Element.key at hk
      rw [if_pos htag] at hk
      obtain ⟨m, w', e', cs, rfl⟩ := Element.exists_of_simple_eq_none hk
      obtain ⟨format, args, hrun⟩ := getSimpleTag_children (g := g)
        (fun x hx => htag.trans (Option.some.inj hx)) hwrite hfuel
      exact ⟨format, args, _, hrun⟩
    · obtain ⟨format, args, hrun⟩ := getSimpleTag_unexpected (g := g) htag hwrite hfuel
      exact ⟨format, args, _, hrun⟩
  have hrestore : ((s.addXmlError g format args).before u).restorePosition
      (s.before (e.write t)).currentPos = (s.addXmlError g format args).before (e.write t) :=
    restorePosition_before (by rw [before_buf, addXmlError_buf])
  unfold getKeyTagValue
  simp only [moveForwardUntilSignificant_element h hfuel, ok_bind, hsimple, hrestore]
  exact ⟨_, _, rfl⟩

end XmlLiteParser

end Clover.Xml
