import Clover.Xml.Loops

/-!
# The entries of a dictionary

What the loop of `XmlDict::parseFromXmlLite` makes of the children of a dictionary. An element
where a key is expected is skipped with an error, and so is the value of an unknown key, with a
warning. The value of a field is given to its class. If the class leaves the cursor before the
value, the loop takes the value for an element out of place and skips it; if it leaves the cursor
inside of the value, the loop goes through the children of the value first.
-/

namespace Clover.Xml

open Clover.Lib Clover.Lib.Run XmlLiteParser List

variable {keyPos : XmlParserPosition} {s : XmlLiteParser} {loud : Bool} {n : TagName} {e : Element}

/-- The name of the tag of a dictionary. -/
def dictTag : TagName := ⟨lit "dict", by decide⟩

/-- The first field with the name of a key. -/
def Fields.lookup (fields : Fields) (k : Bytes) : Option (Fin fields.length) :=
  (finRange fields.length).find? fun i =>
    decide (k.map toLower = (fields.get i).1.map toLower)

theorem Element.simple_of_key {k : Bytes} (hk : e.key = some k) : e.simple = some k := by
  unfold Element.key at hk
  split at hk
  · exact hk
  · exact nomatch hk

theorem dropBlank_suffix (t : Bytes) : dropBlank t <:+ t := dropWhile_suffix _

theorem Element.length_lt_of_suffix {u x : Bytes} (w : Blank) (e : Element) (h : u <:+ x) :
    u.length < (w.val ++ e.write x).length := by
  have hle := h.length_le
  have hlt := e.length_lt_write x
  rw [length_append]
  omega

namespace XmlLiteParser

variable {a a' : XmlLiteParser} {x y : Bytes}

theorem before_isEof (hx : x <:+ a.buf) (hne : x ≠ []) : (a.before x).isEof = false := by
  obtain ⟨c, y, rfl⟩ := exists_cons_of_ne_nil hne
  exact before_isEof_cons hx

theorem before_isEof_element {w : Blank} (h : w.val ++ e.write x <:+ a.buf) :
    (a.before (w.val ++ e.write x)).isEof = false := by
  refine before_isEof h ?_
  rw [e.write_eq]
  exact append_ne_nil_of_right_ne_nil _ (cons_ne_nil _ _)

theorem before_isEof_closing (h : y ++ closing n x <:+ a.buf) :
    (a.before (y ++ closing n x)).isEof = false :=
  before_isEof h (append_ne_nil_of_right_ne_nil _ (cons_ne_nil _ _))

theorem before_p_ne (hx : x <:+ a.buf) (hlt : y.length < x.length) (hbuf : a'.buf = a.buf) :
    (a'.before y).currentPos.p ≠ (a.before x).currentPos.p := by
  have hle := hx.length_le
  rw [before_p, before_p]
  unfold size
  rw [hbuf]
  omega

end XmlLiteParser

namespace XmlDict

variable {fields : Fields} {fuel : Nat} {a : XmlLiteParser} {w w' : Blank} {e v : Element}
  {st : DictState fields} {k t : Bytes} (xmlPath : Bytes)
  {entry : Option (Fin fields.length × Slice)}

/-! ## The parts of a pass -/

theorem endEntry_moved
    (hentry : ∀ p ∈ entry, (fields.class p.1).isDefined (st.field p.1) = false)
    (hne : s.currentPos.p ≠ keyPos.p) :
    endEntry fuel xmlPath true keyPos entry st s = .ok (true, st, s) := by
  have hfilter : (entry.filter fun p => (fields.class p.1).isDefined (st.field p.1)) = none := by
    cases entry with
    | none => rfl
    | some p =>
      rw [Option.filter_some, hentry p rfl]
      rfl
  unfold endEntry
  rw [hfilter]
  exact if_neg hne

theorem endEntry_none (hne : s.currentPos.p ≠ keyPos.p) :
    endEntry fuel xmlPath true keyPos none st s = .ok (true, st, s) :=
  endEntry_moved xmlPath nofun hne

theorem endEntry_defined {i : Fin fields.length} {key : Slice} {b : Bool}
    {f : (fields.class i).State} {s' : XmlLiteParser}
    (hdefined : (fields.class i).isDefined (st.field i) = true)
    (hvalidate : (fields.class i).validate (st.field i) s (subPath xmlPath (s.bytes key)) keyPos
      true = (b, f, s')) :
    endEntry fuel xmlPath true keyPos (some (i, key)) st s =
      .ok (true, setField st i (if b then f else (fields.class i).reset f), s') := by
  have hfilter : ((some (i, key)).filter fun p => (fields.class p.1).isDefined (st.field p.1)) =
      some (i, key) := by
    rw [Option.filter_some, hdefined]
    rfl
  unfold endEntry
  rw [hfilter]
  simp only [hvalidate]

theorem entry_moved {u x : Bytes} {a1 : XmlLiteParser} (h : w.val ++ e.write x <:+ a.buf)
    (hu : u <:+ x) (hbuf : a1.buf = a.buf) :
    (a1.before u).currentPos.p ≠ (a.before (w.val ++ e.write x)).currentPos.p :=
  before_p_ne h (e.length_lt_of_suffix w hu) hbuf

theorem dropBlank_behind (w : Blank) (v : Element) (t : Bytes) :
    dropBlank t <:+ w.val ++ v.write t :=
  ((dropBlank_suffix t).trans (v.suffix_write t)).trans (suffix_append _ _)

theorem pass_of_entry {st1 st2 : DictState fields}
    {s1 s2 : XmlLiteParser} (h : w.val ++ e.write t <:+ a.buf) (hfuel : a.size < fuel)
    (hentry : parseKeyAndValueFromXmlLite fuel st (a.before (w.val ++ e.write t)) xmlPath true =
      .ok (entry, st1, s1))
    (hend : endEntry fuel xmlPath true (a.before (w.val ++ e.write t)).currentPos entry st1 s1 =
      .ok (true, st2, s2)) :
    pass fuel xmlPath true (st, a.before (w.val ++ e.write t)) = .ok (.again (st2, s2)) := by
  unfold pass
  simp only [before_isEof_element h, Bool.false_eq_true, if_false,
    nextTagIsClosingTag_element h hfuel, ok_bind, hentry, hend, if_true]

theorem onward_endEntry (h : ∀ i, (fields.class i).Contract) (keyPos : XmlParserPosition)
    (entry : Option (Fin fields.length × Slice)) (st : DictState fields) (hs : s.Located)
    (hfuel : s.size < fuel) :
    Returns (endEntry fuel xmlPath true keyPos entry st s) fun r => Onward s r.2.2 := by
  unfold endEntry
  split
  · next i key _ =>
    exact returns_ok ((h i).validate (st.field i) hs (subPath xmlPath (s.bytes key)) keyPos true).1
  · split
    · refine returns_bind (returns_moveOn hs hfuel) ?_
      rintro ⟨b, s1⟩ ⟨h1, -⟩
      exact returns_ok h1
    · exact returns_ok (Onward.refl hs)

theorem alarmed_of_entry (h : ∀ i, (fields.class i).Contract) {s1 : XmlLiteParser}
    (heof : s.isEof = false) (hnext : nextTagIsClosingTag fuel s (lit "dict") = .ok (false, s1))
    (hs1 : s1.Located) (hfuel1 : s1.size < fuel)
    (hentry : Safe (parseKeyAndValueFromXmlLite fuel st s1 xmlPath true) fun r =>
      r.2.2.xmlParserMessageArray ≠ []) :
    Safe (pass fuel xmlPath true (st, s)) (Alarmed fuel) := by
  have hends : Ends False (parseKeyAndValueFromXmlLite fuel st s1 xmlPath true) _ :=
    ends_parseKeyAndValueFromXmlLite xmlPath h hs1 hfuel1 False.elim
  unfold pass
  simp only [heof, Bool.false_eq_true, if_false, hnext, ok_bind]
  refine safe_bind (hends.safe.and hentry) ?_
  rintro ⟨entry, st2, s2⟩ ⟨⟨h2, -, -⟩, hmessages2⟩
  have hfuel2 := h2.fuel hfuel1
  refine safe_bind (onward_endEntry xmlPath h s1.currentPos entry st2 h2.located hfuel2).safe ?_
  rintro ⟨b, st3, s3⟩ h3
  have hmessages3 := h3.messages_ne_nil hmessages2
  have hfuel3 := h3.fuel hfuel2
  cases b with
  | true => exact ⟨h3.located, hfuel3, hmessages3⟩
  | false => exact hmessages3

theorem alarmed_of_key (h : ∀ i, (fields.class i).Contract) (hsuffix : w.val ++ e.write t <:+ a.buf)
    (hfuel : a.size < fuel)
    (hentry : Safe (parseKeyAndValueFromXmlLite fuel st (a.before (w.val ++ e.write t)) xmlPath
      true) fun r => r.2.2.xmlParserMessageArray ≠ []) :
    Safe (pass fuel xmlPath true (st, a.before (w.val ++ e.write t))) (Alarmed fuel) := by
  exact alarmed_of_entry xmlPath h (before_isEof_element hsuffix)
    (nextTagIsClosingTag_element hsuffix hfuel) (located_before _ _) hfuel hentry

/-! ## The loop -/

/-- The loop over the entries, for fields with contracts. -/
def childLoop (h : ∀ i, (fields.class i).Contract) :
    ChildLoop (DictState fields) (DictState fields) where
  tag := dictTag
  body fuel xmlPath := pass fuel xmlPath true
  out := id
  advances _ xmlPath _ _ hs hfuel :=
    (ends_pass xmlPath h hs hfuel False.elim).mono fun _ hp => hp.weaken
  leaves_closing fuel xmlPath st a w t hfuel hclosing := by
    have hnext := nextTagIsClosingTag_own (x := lit "dict") rfl hclosing hfuel
    unfold pass
    simp only [before_isEof_closing hclosing, Bool.false_eq_true, if_false, hnext, ok_bind, if_true,
      id_eq]
  leaves_empty fuel xmlPath st a t hfuel hempty := by
    have hslash : chSlash :: chGt :: t <:+ a.buf :=
      (Element.inside_suffix (.empty dictTag) t).trans hempty
    have hnext := nextTagIsClosingTag_empty (x := lit "dict") rfl hempty hfuel
    unfold pass
    simp only [before_isEof_cons hslash, Bool.false_eq_true, if_false, hnext, ok_bind,
      if_true, id_eq]
  alarmed_text fuel xmlPath st a x t hfuel htext hx hblank := by
    have hsuffix : x ++ closing dictTag t <:+ a.buf :=
      (((suffix_cons _ _).trans (suffix_append _ _)).trans (suffix_cons _ _)).trans
        htext
    obtain ⟨y, hy, h₁, hnext⟩ := nextTagIs_text htext hx hblank
      (by decide : chGt ∉ lit "dict") hfuel
    refine alarmed_of_entry xmlPath h (before_isEof_closing hsuffix) hnext
      (located_before _ _) hfuel ?_
    obtain ⟨pos, s₂, hkey⟩ := getKeyTagValue_stray (g := true) h₁ hy hfuel
    obtain ⟨r, hr, h₂, -, hreported⟩ := returns_getKeyTagValue (g := true)
      (located_before a (y ++ closing dictTag t)) hfuel
    obtain rfl : (none, pos, s₂) = r := Except.ok.inj (hkey.symm.trans hr)
    unfold parseKeyAndValueFromXmlLite
    simp only [hkey, ok_bind]
    refine (returns_bind (returns_skipNextTag h₂.located (h₂.fuel hfuel)) ?_).safe
    rintro ⟨b, s₃⟩ ⟨h₃, -, -⟩
    exact returns_ok (h₃.messages_ne_nil (hreported rfl rfl).1)

/-! ## Elements out of place -/

theorem pass_other (st : DictState fields) (he : e.key = none) (h : w.val ++ e.write t <:+ a.buf)
    (hfollows : Follows t)
    (hfuel : a.size < fuel) :
    ∃ a', pass fuel xmlPath true (st, a.before (w.val ++ e.write t)) =
        .ok (.again (st, a'.before (dropBlank t))) ∧ Noted true a a' := by
  obtain ⟨format, args, hkey⟩ := getKeyTagValue_other (g := true) he h hfuel
  have hnoted := noted_addXmlError a true format args
  have hwrite : noGap.val ++ e.write t <:+ (a.addXmlError true format args).buf := by
    exact (suffix_append _ _).trans h
  have hskip := skipNextTag_element (g := false) hwrite hfollows (Scene.of_noted_fuel hnoted hfuel)
  rw [noGap_append] at hskip
  have hentry : parseKeyAndValueFromXmlLite fuel st (a.before (w.val ++ e.write t)) xmlPath true =
      .ok (none, st, (a.addXmlError true format args).before (dropBlank t)) := by
    unfold parseKeyAndValueFromXmlLite
    simp [hkey, hskip]
  have hmoved := entry_moved h (dropBlank_suffix t) hnoted.buf
  exact ⟨_, pass_of_entry xmlPath h hfuel hentry (endEntry_none xmlPath hmoved), hnoted⟩

end XmlDict

/-- No element is a key. -/
def Children.keyless : Children → Bool
  | .nil _ => true
  | .cons _ e cs => e.key.isNone && cs.keyless

/-- The loop of a dictionary can go through the children of the element, and over its closing
tag. -/
def Element.spills : Element → Bool
  | .node n cs => decide (n.val ≠ lit "dict") && cs.keyless
  | _ => true

namespace XmlDict

variable {fields : Fields} {fuel : Nat} {a : XmlLiteParser} {st : DictState fields}
  (xmlPath : Bytes)

variable {w w' : Blank} {e v : Element} {k t : Bytes}

/-- The key is read, and its value is passed on. -/
theorem parseKeyAndValue_key (st : DictState fields) (hk : e.key = some k) (hne : k ≠ [])
    (h : w.val ++ e.write t <:+ a.buf) (hfuel : a.size < fuel) :
    ∃ (key : Slice) (keyPos : XmlParserPosition), key.length = k.length ∧
      (∀ (b : XmlLiteParser) (u : Bytes), b.buf = a.buf → (b.before u).bytes key = k) ∧
      findField fields (a.before t) key = fields.lookup k ∧
      parseKeyAndValueFromXmlLite fuel st (a.before (w.val ++ e.write t)) xmlPath true =
        (do
          let (i, st, s) ← parseValueFromXmlLite fuel st (a.before t) (subPath xmlPath k) true
            keyPos key
          match i with
          | some i => .ok (some (i, key), st, s)
          | none => do
            let s ← skipUnknown fuel s xmlPath true keyPos key
            .ok (none, st, s)) := by
  have hkey : k ++ e.close t <:+ a.buf := by
    rw [← Element.inside_eq (Element.simple_of_key hk)]
    exact (e.inside_suffix t).trans ((suffix_append _ _).trans h)
  have hbytes : ∀ (b : XmlLiteParser) (u : Bytes), b.buf = a.buf →
      (b.before u).bytes (a.sliceOf k (e.close t)) = k := by
    intro b u hb
    have hown := bytes_sliceOf hkey
    unfold bytes at hown ⊢
    rw [before_buf, hb]
    exact hown
  have hlength : (a.sliceOf k (e.close t)).length = k.length := rfl
  refine ⟨a.sliceOf k (e.close t), (a.before (e.write t)).currentPos, hlength, hbytes,
    find?_congr fun i _ => strnIsEqualIC_sliceOf hkey (fields.get i).1, ?_⟩
  unfold parseKeyAndValueFromXmlLite
  have hnonempty : ¬ (a.sliceOf k (e.close t)).length = 0 :=
    fun hzero => hne (length_eq_zero_iff.mp (hlength.symm.trans hzero))
  rw [getKeyTagValue_key hk h hfuel]
  simp only [ok_bind, hbytes a t rfl]
  exact if_neg hnonempty

/-- An unknown key is mentioned, unless it is commented out. -/
def noisy (k : Bytes) : Bool := decide (k.getD 0 0 ≠ 35 ∧ k.getD (k.length - 1) 0 ≠ 63)

/-- The value of an unknown key is skipped; there is no error. -/
theorem pass_unknown (hk : e.key = some k) (hne : k ≠ []) (hlookup : fields.lookup k = none)
    (h : w.val ++ e.write (w'.val ++ v.write t) <:+ a.buf) (hfollows : Follows t)
    (hfuel : a.size < fuel) :
    ∃ a', pass fuel xmlPath true (st, a.before (w.val ++ e.write (w'.val ++ v.write t))) =
        .ok (.again (st, a'.before (dropBlank t))) ∧ Noted (noisy k) a a' ∧
      a'.xmlParsingError = a.xmlParsingError := by
  obtain ⟨key, keyPos, hlength, hbytes, hfind, hrun⟩ :=
    parseKeyAndValue_key xmlPath st hk hne h hfuel
  have hvalue := e.suffix_of_behind suffix_rfl h
  obtain ⟨a1, hnoted, hlatch, hskip⟩ : ∃ a1, Noted (noisy k) a a1 ∧
      a1.xmlParsingError = a.xmlParsingError ∧ skipUnknown fuel (a.before (w'.val ++ v.write t))
        xmlPath true keyPos key = .ok (a1.before (dropBlank t)) := by
    unfold skipUnknown noisy
    simp only [hbytes a _ rfl, hlength]
    by_cases hnoisy : k.getD 0 0 ≠ 35 ∧ k.getD (k.length - 1) 0 ≠ 63
    · simp only [if_pos hnoisy, before_addWarning, decide_eq_true hnoisy]
      generalize (if lastChar xmlPath = 47 then "Unknown key '%s%.*s:%d'. Skipped."
        else "Unknown key '%s/%.*s:%d'. Skipped.") = format
      have hnoted := noted_addWarning a true format [.str xmlPath, .str k, .int keyPos.line]
      refine ⟨_, hnoted, rfl, ?_⟩
      rw [skipNextTag_element (hnoted.buf ▸ hvalue) hfollows (Scene.of_noted_fuel hnoted hfuel)]
      rfl
    · simp only [if_neg hnoisy, decide_eq_false hnoisy]
      refine ⟨a, Noted.refl a, rfl, ?_⟩
      rw [skipNextTag_element hvalue hfollows hfuel]
      rfl
  have hentry : parseKeyAndValueFromXmlLite fuel st
      (a.before (w.val ++ e.write (w'.val ++ v.write t))) xmlPath true =
        .ok (none, st, a1.before (dropBlank t)) := by
    rw [hrun]
    unfold parseValueFromXmlLite
    simp [hfind, hlookup, hskip]
  have hmoved := entry_moved h (dropBlank_behind w' v t) hnoted.buf
  exact ⟨a1, pass_of_entry xmlPath h hfuel hentry (endEntry_none xmlPath hmoved), hnoted, hlatch⟩

theorem pass_empty (hk : e.key = some []) (h : w.val ++ e.write (w'.val ++ v.write t) <:+ a.buf)
    (hfollows : Follows t) (hfuel : a.size < fuel) :
    ∃ a', pass fuel xmlPath true (st, a.before (w.val ++ e.write (w'.val ++ v.write t))) =
        .ok (.again (st, a'.before (dropBlank t))) ∧ Noted true a a' := by
  have hvalue := e.suffix_of_behind suffix_rfl h
  obtain ⟨a1, hnoted, hentry⟩ : ∃ a1, Noted true a a1 ∧
      parseKeyAndValueFromXmlLite fuel st (a.before (w.val ++ e.write (w'.val ++ v.write t)))
        xmlPath true = .ok (none, st, a1.before (dropBlank t)) := by
    have hlength : (a.sliceOf [] (e.close (w'.val ++ v.write t))).length = 0 := rfl
    unfold parseKeyAndValueFromXmlLite
    simp only [getKeyTagValue_key hk h hfuel, ok_bind, hlength, if_true, before_addWarning]
    have hnoted := noted_addWarning a true "Key in '%s:%d' is empty. Skipped."
      [.str xmlPath, .int (a.before (e.write (w'.val ++ v.write t))).currentPos.line]
    refine ⟨_, hnoted, ?_⟩
    rw [skipNextTag_element (hnoted.buf ▸ hvalue) hfollows (Scene.of_noted_fuel hnoted hfuel)]
    rfl
  have hmoved := entry_moved h (dropBlank_behind w' v t) hnoted.buf
  exact ⟨a1, pass_of_entry xmlPath h hfuel hentry (endEntry_none xmlPath hmoved), hnoted⟩

/-! ## Fields -/

theorem setField_self {i : Fin fields.length} {f : (fields.class i).State} (hst : st.field i = f) :
    setField st i f = st := by
  unfold setField
  rw [← hst, Function.update_eq_self]

/-- Wherever an entry with the state `f` of its field ends, the field is left in the state `f'`. -/
def EndsAs (fields : Fields) (i : Fin fields.length) (f f' : (fields.class i).State)
    (loud : Bool) : Prop :=
  ∀ (fuel : Nat) (xmlPath : Bytes) (keyPos : XmlParserPosition) (key : Slice)
    (st : DictState fields) (a : XmlLiteParser) (u : Bytes), st.field i = f →
    (a.before u).currentPos.p ≠ keyPos.p →
    ∃ a', endEntry fuel xmlPath true keyPos (some (i, key)) st (a.before u) =
        .ok (true, setField st i f', a'.before u) ∧ Noted loud a a'

variable {h : ∀ i, (fields.class i).Contract} {i : Fin fields.length} {free : Bool}
  {takes : Element → Bool}  {f : (fields.class i).State} {f' : (fields.class i).State}

theorem exists_endsAs (o : (fields.class i).Outcomes (h i) takes) (hf : (h i).Inv f) :
    ∃ f' loud, (h i).Inv f' ∧ EndsAs fields i f f' loud := by
  cases hdefined : (fields.class i).isDefined f with
  | true =>
    obtain ⟨b, f1, loud, hvalidate⟩ := o.validate f
    have hinv : (h i).Inv f1 := by
      obtain ⟨a', hrun, -⟩ := hvalidate new [] [] ⟨0, 1, 1⟩
      have hspec := ((h i).validate f (located_before new []) [] ⟨0, 1, 1⟩ true).2.1 hf
      rw [hrun] at hspec
      exact hspec
    refine ⟨if b then f1 else (fields.class i).reset f1, loud, ?_, ?_⟩
    · split
      · exact hinv
      · exact (h i).inv_of_ready ((h i).reset hinv)
    · intro fuel xmlPath keyPos key st a u hst _
      subst hst
      obtain ⟨a', hrun, hnoted⟩ := hvalidate a u (subPath xmlPath ((a.before u).bytes key)) keyPos
      exact ⟨a', endEntry_defined xmlPath hdefined hrun, hnoted⟩
  | false =>
    refine ⟨f, false, hf, fun fuel xmlPath keyPos key st a u hst hmoved => ⟨a, ?_, Noted.refl a⟩⟩
    rw [setField_self hst]
    refine endEntry_moved xmlPath (fun p hp => ?_) hmoved
    obtain rfl : (i, key) = p := Option.some.inj hp
    rw [hst]
    exact hdefined

/-- The element is a key of the field `i`. -/
def Names (fields : Fields) (e : Element) (i : Fin fields.length) : Prop :=
  ∃ k, e.key = some k ∧ k ≠ [] ∧ fields.lookup k = some i

/-- The value of a field that is defined is skipped. -/
theorem pass_defined (hends : EndsAs fields i f f' loud)
    (hdefined : (fields.class i).isDefined f = true) (hst : st.field i = f)
    (he : Names fields e i) (hsuffix : w.val ++ e.write (w'.val ++ v.write t) <:+ a.buf)
    (hfollows : Follows t) (hfuel : a.size < fuel) :
    ∃ a', pass fuel xmlPath true (st, a.before (w.val ++ e.write (w'.val ++ v.write t))) =
        .ok (.again (setField st i f', a'.before (dropBlank t))) ∧ Noted true a a' := by
  obtain ⟨k, hk, hne, hlookup⟩ := he
  obtain ⟨key, keyPos, -, -, hfind, hrun⟩ :=
    parseKeyAndValue_key xmlPath st hk hne hsuffix hfuel
  have hvalue := e.suffix_of_behind suffix_rfl hsuffix
  obtain ⟨a1, hnoted, hentry⟩ : ∃ a1, Noted true a a1 ∧
      parseKeyAndValueFromXmlLite fuel st (a.before (w.val ++ e.write (w'.val ++ v.write t)))
        xmlPath true = .ok (some (i, key), st, a1.before (dropBlank t)) := by
    have hnoted := noted_addWarning a true "Tag '%s:%d' is previously defined. New value ignored."
      [.str (subPath xmlPath k), .int keyPos.line]
    have hskip := skipNextTag_element (g := false) (hnoted.buf ▸ hvalue) hfollows
      (Scene.of_noted_fuel hnoted hfuel)
    refine ⟨_, hnoted, ?_⟩
    rw [hrun]
    unfold parseValueFromXmlLite
    simp [hfind, hlookup, hst, hdefined, before_addWarning, hskip]
  have hmoved := entry_moved hsuffix (dropBlank_behind w' v t) hnoted.buf
  obtain ⟨a', hend, hnoted'⟩ := hends fuel xmlPath _ key st a1 (dropBlank t) hst hmoved
  refine ⟨a', pass_of_entry xmlPath hsuffix hfuel hentry hend, ?_⟩
  have hboth := hnoted.trans hnoted'
  rwa [Bool.true_or] at hboth

/-- The class of a field reads its value. -/
theorem pass_field {r : Reading (fields.class i).State} (hr : (fields.class i).ReadsAs free v f r)
    (hends : EndsAs fields i r.state f' loud) (hundefined : (fields.class i).isDefined f = false)
    (hst : st.field i = f) (he : Names fields e i)
    (hscene : Scene free fuel a (w.val ++ e.write (w'.val ++ v.write t))) (hfollows : Follows t) :
    ∃ a' u, pass fuel xmlPath true (st, a.before (w.val ++ e.write (w'.val ++ v.write t))) =
        .ok (.again (setField st i f', a'.before u)) ∧ Noted (r.loud || loud) a a' ∧
      r.ending.At w' v t u := by
  obtain ⟨k, hk, hne, hlookup⟩ := he
  obtain ⟨key, keyPos, -, -, hfind, hrun⟩ :=
    parseKeyAndValue_key xmlPath st hk hne hscene.suffix hscene.fuel
  have hvalue : Scene free fuel a (w'.val ++ v.write t) :=
    hscene.mono ((e.suffix_write _).trans (suffix_append _ _))
  obtain ⟨a1, u, hparse, hnoted1, hending⟩ := hr fuel a w' t (subPath xmlPath k) hvalue hfollows
  have hentry : parseKeyAndValueFromXmlLite fuel st
      (a.before (w.val ++ e.write (w'.val ++ v.write t))) xmlPath true =
        .ok (some (i, key), setField st i r.state, a1.before u) := by
    rw [hrun]
    unfold parseValueFromXmlLite
    simp [hfind, hlookup, hst, hundefined, hparse]
  obtain ⟨a', hend, hnoted'⟩ := hends fuel xmlPath _ key (setField st i r.state) a1 u
    (Function.update_self ..) (entry_moved hscene.suffix hending.suffix hnoted1.buf)
  simp only [setField, Function.update_idem] at hend
  exact ⟨a', u, pass_of_entry xmlPath hscene.suffix hscene.fuel hentry hend,
    hnoted1.trans hnoted', hending⟩

/-! ## Steps -/

variable {g g' : Blank} {cs : Children}

theorem core_entry (g : Blank) (e : Element) (g' : Blank) (v : Element) (cs : Children)
    (t : Bytes) :
    (Children.cons g e (.cons g' v cs)).core t = e.write (g'.val ++ v.write (cs.write t)) := by
  rw [Children.core, Children.write]

theorem steps_of_skip {st' : DictState fields} {cs0 : Children}
    (hpass : ∀ (fuel : Nat) (a : XmlLiteParser) (w : Blank) (t xmlPath : Bytes),
      Scene free fuel a (w.val ++ cs0.core (closing dictTag t)) → ∃ a', pass fuel xmlPath true
        (st, a.before (w.val ++ cs0.core (closing dictTag t))) =
          .ok (.again (st', a'.before (dropBlank (cs.write (closing dictTag t))))) ∧
            Noted loud a a')
    (hshort : ∀ t, cs.write t <:+ cs0.core t ∧ (cs.write t).length < (cs0.core t).length) :
    (childLoop h).Steps free st st' loud cs0 cs := by
  refine ChildLoop.steps_of_pass fun fuel a w t xmlPath x hx hscene => ?_
  obtain rfl : st = x := hx.symm
  obtain ⟨a', hrun, hnoted⟩ := hpass fuel a w t xmlPath hscene
  obtain ⟨hsuffix, hlt⟩ := hshort (closing dictTag t)
  have hcore := cs.core_suffix (closing dictTag t)
  rw [cs.dropBlank_write] at hrun
  refine ⟨a', noGap, st', rfl, hnoted, ?_, ?_, hrun⟩
  · exact (hcore.trans hsuffix).trans ((suffix_append _ _).trans hscene.suffix)
  · have hle := hcore.length_le
    show (cs.core (closing dictTag t)).length < (w.val ++ cs0.core (closing dictTag t)).length
    rw [length_append]
    omega

theorem short_entry (g : Blank) (e : Element) (g' : Blank) (v : Element) (cs : Children)
    (t : Bytes) :
    cs.write t <:+ (Children.cons g e (.cons g' v cs)).core t ∧
      (cs.write t).length < ((Children.cons g e (.cons g' v cs)).core t).length := by
  have hv : cs.write t <:+ g'.val ++ v.write (cs.write t) :=
    (v.suffix_write _).trans (suffix_append _ _)
  exact ⟨hv.trans (e.suffix_write _), e.length_lt_of_suffix noGap hv⟩

theorem steps_other (he : e.key = none) :
    (childLoop h).Steps free st st true (.cons g e cs) cs := by
  refine steps_of_skip (fun fuel a w t xmlPath hscene => ?_) fun _ =>
    ⟨e.suffix_write _, e.length_lt_write _⟩
  exact pass_other xmlPath st he hscene.suffix (follows_children cs dictTag t) hscene.fuel

theorem steps_unknown (hk : e.key = some k) (hne : k ≠ []) (hlookup : fields.lookup k = none) :
    (childLoop h).Steps free st st (noisy k) (.cons g e (.cons g' v cs)) cs := by
  refine steps_of_skip (fun fuel a w t xmlPath hscene => ?_) (short_entry g e g' v cs)
  obtain ⟨a', hrun, hnoted, -⟩ := pass_unknown xmlPath hk hne hlookup hscene.suffix
    (follows_children cs dictTag t) hscene.fuel
  exact ⟨a', hrun, hnoted⟩

theorem steps_empty (hk : e.key = some []) :
    (childLoop h).Steps free st st true (.cons g e (.cons g' v cs)) cs := by
  refine steps_of_skip (fun fuel a w t xmlPath hscene => ?_) (short_entry g e g' v cs)
  exact pass_empty xmlPath hk hscene.suffix (follows_children cs dictTag t) hscene.fuel

theorem steps_defined (hends : EndsAs fields i f f' loud)
    (hdefined : (fields.class i).isDefined f = true) (hst : st.field i = f)
    (he : Names fields e i) :
    (childLoop h).Steps free st (setField st i f') true (.cons g e (.cons g' v cs)) cs := by
  refine steps_of_skip (fun fuel a w t xmlPath hscene => ?_) (short_entry g e g' v cs)
  exact pass_defined xmlPath hends hdefined hst he hscene.suffix (follows_children cs dictTag t)
    hscene.fuel

section Read

variable {r : Reading (fields.class i).State} {f' : (fields.class i).State} {loud : Bool}
  (hr : (fields.class i).ReadsAs free v f r) (hends : EndsAs fields i r.state f' loud)
  (hundefined : (fields.class i).isDefined f = false) (hst : st.field i = f)
  (he : Names fields e i)

include hr hends hundefined hst he

/-- The value is left behind. -/
theorem steps_past (hending : r.ending = .past) :
    (childLoop h).Steps free st (setField st i f') (r.loud || loud) (.cons g e (.cons g' v cs))
      cs := by
  refine ChildLoop.steps_of_pass fun fuel a w t xmlPath x hx hscene => ?_
  obtain rfl : st = x := hx.symm
  obtain ⟨a', u, hrun, hnoted, hat⟩ := pass_field xmlPath hr hends hundefined hst he hscene
    (follows_children cs dictTag t)
  have hsuffix := hat.suffix
  rw [hending] at hat
  obtain ⟨w', hw'⟩ := hat
  obtain ⟨w1, rfl⟩ := Children.exists_gap hw'
  refine ⟨a', w1, _, rfl, hnoted, ?_, e.length_lt_of_suffix w hsuffix, hrun⟩
  exact e.suffix_of_behind hsuffix hscene.suffix

end Read

end XmlDict

end Clover.Xml
