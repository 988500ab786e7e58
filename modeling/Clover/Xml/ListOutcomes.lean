import Clover.Xml.DictOutcomes

/-!
# What becomes of arrays and repeating dictionaries

The loop of an array reads its elements one by one, and the loop of a repeating dictionary keys and
values. The latter looks at the latch, so that only what is read without messages can be told.
-/

namespace Clover.Xml

open Clover.Lib Clover.Lib.Run XmlLiteParser List Bool

variable {s s1 : XmlLiteParser} {takes : Element → Bool} {c : XmlClass} {key : Scalar KeyValue}

/-- The name of the tag of an array. -/
def arrayTag : TagName := ⟨lit "array", by decide⟩

/-! ## Arrays -/

namespace XmlArray

variable {c : XmlClass} {fuel : Nat} {a : XmlLiteParser} {w : Blank} {e : Element}
  {t : Bytes} (xmlPath : Bytes)

theorem alarmed_of_parse (h : c.Contract) {n : Nat} {st : ArrayState c}
    (hnext : nextTagIsClosingTag fuel s (lit "array") = .ok (false, s1)) (hs1 : s1.Located)
    (hfuel1 : s1.size < fuel)
    (halarms : Alarms (c.parseFromXmlLite fuel c.new s1 (subPath xmlPath n) true)) :
    Safe (pass fuel xmlPath true ((n, st), s)) (Alarmed fuel) := by
  have hends : Ends False (c.parseFromXmlLite fuel c.new s1 (subPath xmlPath n) true) _ :=
    h.parse (subPath xmlPath n) hs1 hfuel1 False.elim
  unfold pass
  simp only [hnext, ok_bind, false_eq_true, if_false]
  refine safe_bind (hends.safe.and halarms) ?_
  rintro ⟨b, v, s2⟩ ⟨⟨⟨h2, -⟩, -⟩, hmessages2⟩
  have hfuel2 := h2.fuel hfuel1
  cases b with
  | true => exact ⟨h2.located, hfuel2, hmessages2⟩
  | false =>
    rw [if_neg Bool.false_ne_true]
    split
    · refine safe_bind (XmlDict.returns_moveOn h2.located hfuel2).safe ?_
      rintro ⟨b, s3⟩ ⟨h3, -⟩
      cases b with
      | true => exact ⟨h3.located, h3.fuel hfuel2, h3.messages_ne_nil hmessages2⟩
      | false => exact h3.messages_ne_nil hmessages2
    · exact ⟨h2.located, hfuel2, hmessages2⟩

/-- Where there is no element, the class of the elements leaves a message. -/
def Stray (c : XmlClass) : Prop :=
  ∀ (fuel : Nat) (a : XmlLiteParser) (v : Bytes) (n : TagName) (t xmlPath : Bytes)
    (st : c.State), a.size < fuel → v ++ closing n t <:+ a.buf → chLt ∉ v →
    Alarms (c.parseFromXmlLite fuel st (a.before (v ++ closing n t)) xmlPath true)

/-- The loop over the elements. -/
def childLoop (h : c.Contract) (hstray : Stray c) :
    ChildLoop (Nat × ArrayState c) (ArrayState c) where
  tag := arrayTag
  body fuel xmlPath := pass fuel xmlPath true
  out x := x.2
  advances _ xmlPath x _ hs hfuel :=
    (ends_pass xmlPath h x.1 hs hfuel False.elim).mono fun _ hp => hp.weaken
  leaves_closing fuel xmlPath x a w t hfuel hclosing := by
    unfold pass
    simp only [nextTagIsClosingTag_own (x := lit "array") rfl hclosing hfuel, ok_bind, if_true]
  leaves_empty fuel xmlPath x a t hfuel hempty := by
    unfold pass
    simp only [nextTagIsClosingTag_empty (x := lit "array") rfl hempty hfuel, ok_bind, if_true]
  alarmed_text fuel xmlPath x a v t hfuel htext hv hblank := by
    obtain ⟨y, hy, h₁, hnext⟩ := nextTagIs_text htext hv hblank
      (by decide : chGt ∉ lit "array") hfuel
    exact alarmed_of_parse xmlPath h hnext (located_before _ _) hfuel
      (hstray fuel a y arrayTag t _ c.new hfuel h₁ hy)

/-- The elements with one more, if it was read. -/
def push (st : ArrayState c) (b : Bool) (v : c.State) : ArrayState c :=
  if b then { st with elements := st.elements ++ [v] } else st

theorem pass_past {b : Bool} {v : c.State} (n : Nat) (st : ArrayState c)
    (hr : c.ReadsAs false e c.new ⟨b, v, false, .past⟩)
    (hscene : Scene false fuel a (w.val ++ e.write t)) (hfollows : Follows t) :
    ∃ u, pass fuel xmlPath true ((n, st), a.before (w.val ++ e.write t)) =
        .ok (.again ((n + 1, push st b v), a.before u)) ∧ ∃ w' : Blank, t = w'.val ++ u := by
  obtain ⟨a', u, hparse, hnoted, w', rfl⟩ := hr fuel a w t (subPath xmlPath n) hscene hfollows
  have hmoved := XmlDict.entry_moved hscene.suffix (suffix_append w'.val u) hnoted.buf
  rw [hnoted.quiet rfl] at hparse hmoved
  refine ⟨u, ?_, w', rfl⟩
  unfold pass push
  simp only [nextTagIsClosingTag_element hscene.suffix hscene.fuel, ok_bind,
    false_eq_true, if_false, hparse, hmoved]
  cases b <;> rfl

variable {h : c.Contract} {hstray : Stray c} {st : ArrayState c} {g : Blank}
  {cs : Children} {b : Bool} {v : c.State}

theorem steps_past (hr : c.ReadsAs false e c.new ⟨b, v, false, .past⟩) :
    (childLoop h hstray).Steps false st (push st b v) false (.cons g e cs) cs := by
  refine ChildLoop.steps_of_pass fun fuel a w t xmlPath x hx hscene => ?_
  obtain ⟨n, st⟩ := x
  obtain rfl : st = _ := hx
  have hscene : Scene false fuel a (w.val ++ e.write (cs.write (closing arrayTag t))) := hscene
  obtain ⟨u, hrun, w', hw'⟩ := pass_past xmlPath n st hr hscene (follows_children cs arrayTag t)
  have hu : u <:+ cs.write (closing arrayTag t) := by
    rw [hw']
    exact suffix_append _ _
  obtain ⟨w1, rfl⟩ := Children.exists_gap hw'
  refine ⟨a, w1, _, rfl, Noted.refl a, ?_, e.length_lt_of_suffix w hu, hrun⟩
  exact e.suffix_of_behind hu hscene.suffix

theorem drops_of_derails (hderails : c.Derails e c.new) :
    (childLoop h hstray).Drops st (.cons g e cs) := by
  intro fuel a w t xmlPath x k hx hscene _
  have hscene : Scene false fuel a (w.val ++ e.write (cs.write (closing arrayTag t))) := hscene
  have hnext := nextTagIsClosingTag_element (x := lit "array") hscene.suffix hscene.fuel
  refine (childLoop h hstray).alarms_of_alarmed k ?_
  exact alarmed_of_parse xmlPath h hnext (located_before _ _) hscene.fuel
    (hderails fuel a w _ _ hscene (follows_children cs arrayTag t))

theorem covers (o : c.Outcomes h takes) :
    ∀ (cs : Children) (st : ArrayState c), (childLoop h hstray).Covers st cs
  | .nil w, st => ChildLoop.covers_nil _ _ _
  | .cons g e cs, st => by
    rcases o.parse e h.new with ⟨b, v, hr⟩ | hderails
    · exact (steps_past hr).covers (covers o cs _)
    · exact Or.inr (drops_of_derails hderails)

/-- The array that is read into: a defined one is reset. -/
def undefined (st : ArrayState c) : ArrayState c := if st.isDefined then ⟨false, []⟩ else st

theorem encloses (h : c.Contract) (hstray : Stray c) (st : ArrayState c) :
    Encloses (arrayClass c) (childLoop h hstray) st (0, { undefined st with isDefined := true })
      st.isDefined := by
  refine ⟨undefined st, fun _ => true, rfl, fun fuel a u xmlPath => ?_⟩
  obtain ⟨a1, hnoted, hlatch, hwarned⟩ := warned_before st.isDefined a u xmlPath st ⟨false, []⟩
  have hundefined : (if st.isDefined then ⟨false, []⟩ else st : ArrayState c).isDefined = false :=
    isDefined_reset ArrayState.isDefined rfl
  refine ⟨a1, hnoted, hlatch, ?_⟩
  show parseFromXmlLite fuel st (a.before u) xmlPath true = _
  unfold parseFromXmlLite
  simp only [hwarned, hundefined, false_eq_true, if_false]
  rfl

theorem validateElements_before (o : c.Outcomes h takes) (vs : List c.State) :
    ∃ vs' loud, ∀ (a : XmlLiteParser) (t xmlPath : Bytes) (pos : XmlParserPosition),
      ∃ a', validateElements c xmlPath pos true vs (a.before t) = (vs', a'.before t) ∧
        Noted loud a a' := by
  induction vs with
  | nil => exact ⟨[], false, fun a t xmlPath pos => ⟨a, rfl, Noted.refl a⟩⟩
  | cons v vs ih =>
    obtain ⟨b, v', loud, hv⟩ := o.validate v
    obtain ⟨vs', loud', hvs⟩ := ih
    refine ⟨if b then v' :: vs' else vs', loud || loud', fun a t xmlPath pos => ?_⟩
    obtain ⟨a1, hrun1, hnoted1⟩ := hv a t xmlPath pos
    obtain ⟨a2, hrun2, hnoted2⟩ := hvs a1 t xmlPath pos
    refine ⟨a2, ?_, hnoted1.trans hnoted2⟩
    unfold validateElements
    simp [hrun1, hrun2]

end XmlArray

theorem arrayOutcomes {h : c.Contract} (o : c.Outcomes h takes) :
    (arrayClass c).Outcomes (arrayContract h) fun e => decide (e.tag.val = lit "array") where
  parse e st _ := (XmlArray.encloses h o.parse_stray st).settles
    (fun cs => XmlArray.covers o cs _) e
  isTheNextTag e st hst := isTheNextTag_tag e st hst
  parse_stray _ _ _ _ _ _ st hfuel hsuffix hv :=
    (XmlArray.encloses h o.parse_stray st).parse_stray hfuel hsuffix hv
  isTheNextTag_stray _ _ _ _ _ st hfuel hsuffix hv := isTheNextTag_tag_stray st hfuel hsuffix hv
  validate st := by
    obtain ⟨elements, loud, hrun⟩ := XmlArray.validateElements_before o st.elements
    refine ⟨true, { st with elements := elements }, loud, fun a t xmlPath pos => ?_⟩
    obtain ⟨a', hvalidate, hnoted⟩ := hrun a t xmlPath pos
    refine ⟨a', ?_, hnoted⟩
    unfold arrayClass
    simp [hvalidate]

/-! ## Repeating dictionaries -/

namespace XmlRepeatingDict

variable {c : XmlClass} {fuel : Nat} {a : XmlLiteParser} {w : Blank} {e v : Element}
  {t : Bytes} (disablable ignoreCommented : Bool) (xmlPath : Bytes)
  {st : RepeatingDictState c}

/-- A key that has not been read. -/
def noKey : Scalar KeyValue := ⟨false, ⟨[], false⟩⟩

theorem key_settles (e : Element) :
    (∃ key : Scalar KeyValue, key.isDefined = true ∧
      (scalarClass (xmlKey disablable)).ReadsAs false e noKey ⟨true, key, false, .past⟩) ∨
    (scalarClass (xmlKey disablable)).Derails e noKey := by
  obtain ⟨⟨returned, key, loud, ending⟩, hr, hproper, -⟩ :=
    scalar_readsAs (ScalarClass.steady (.key disablable)) false e noKey
  cases loud with
  | true => exact Or.inr (hr.derails rfl)
  | false =>
    obtain rfl : ending = .past := by
      by_contra hne
      exact Bool.noConfusion (hproper hne)
    -- a key that is not read leaves an error, and one that is read is defined
    have hscene : Scene false _ _ (noGap.val ++ e.write []) := Scene.alone false (e.write [])
    obtain ⟨a', u, hrun, hnoted, -⟩ := hr _ _ noGap [] [] hscene (Or.inl rfl)
    obtain ⟨y, hy, -, hfalse, htrue⟩ := returns_parseKey disablable []
      (located_before ⟨e.write [], ⟨0, 1, 1⟩, [], false⟩ (noGap.val ++ e.write [])) hscene.fuel
    obtain rfl := Except.ok.inj (hrun.symm.trans hy)
    cases returned with
    | true => exact Or.inl ⟨key, htrue rfl, hr⟩
    | false =>
      have hmessages := (hfalse rfl).1
      rw [hnoted.quiet rfl] at hmessages
      exact absurd rfl hmessages

theorem alarmed_of_entry (h : c.Contract) {n : Nat}
    (hnext : nextTagIsClosingTag fuel s (lit "dict") = .ok (false, s1))
    (hs1 : s1.Located) (hfuel1 : s1.size < fuel)
    (hentry : Safe (parseKeyAndValueFromXmlLite fuel disablable st s1 (XmlArray.subPath xmlPath n)
      true) fun r => r.2.2.xmlParserMessageArray ≠ []) :
    Safe (pass fuel disablable ignoreCommented xmlPath true ((n, st), s)) (Alarmed fuel) := by
  have hends : Ends False (parseKeyAndValueFromXmlLite fuel disablable st s1
      (XmlArray.subPath xmlPath n) true) _ :=
    ends_parseKeyAndValueFromXmlLite disablable _ h hs1 hfuel1
  unfold pass
  simp only [hnext, ok_bind, false_eq_true, if_false]
  refine safe_bind (hends.safe.and hentry) ?_
  rintro ⟨value, st2, s2⟩ ⟨⟨h2, -⟩, hmessages2⟩
  split
  · exact hmessages2
  · split
    · trivial
    · have h3 := onward_endEntry ignoreCommented xmlPath h st2 s1.currentPos value h2.located
      exact ⟨h3.located, h3.fuel (h2.fuel hfuel1), h3.messages_ne_nil hmessages2⟩

theorem alarms_of_key (h : c.Contract) (hs : s.Located)
    (hfuel : s.size < fuel)
    (hkey : Alarms ((xmlKey disablable).parseFromXmlLite fuel noKey s xmlPath true)) :
    Safe (parseKeyAndValueFromXmlLite fuel disablable st s xmlPath true) fun r =>
      r.2.2.xmlParserMessageArray ≠ [] := by
  refine safe_bind ((returns_parseKey disablable xmlPath hs hfuel).safe.and hkey) ?_
  rintro ⟨b, key, s1⟩ ⟨⟨⟨h1, -⟩, -⟩, hmessages1⟩
  cases b with
  | false => exact hmessages1
  | true =>
    have hends : Ends False (c.parseFromXmlLite fuel c.new s1 xmlPath true) _ :=
      h.parse xmlPath h1.located (h1.fuel hfuel) False.elim
    refine safe_bind hends.safe ?_
    rintro ⟨b, v, s2⟩ ⟨⟨h2, -⟩, -⟩
    exact h2.messages_ne_nil hmessages1

/-- The loop over the entries. -/
def childLoop (h : c.Contract) : ChildLoop (Nat × RepeatingDictState c) (RepeatingDictState c) where
  tag := dictTag
  body fuel xmlPath := pass fuel disablable ignoreCommented xmlPath true
  out x := x.2
  advances _ xmlPath x _ hs hfuel := ends_pass disablable ignoreCommented xmlPath h x.1 hs hfuel
  leaves_closing fuel xmlPath x a w t hfuel hclosing := by
    unfold pass
    simp only [nextTagIsClosingTag_own (x := lit "dict") rfl hclosing hfuel, ok_bind, if_true]
  leaves_empty fuel xmlPath x a t hfuel hempty := by
    unfold pass
    simp only [nextTagIsClosingTag_empty (x := lit "dict") rfl hempty hfuel, ok_bind, if_true]
  alarmed_text fuel xmlPath x a v t hfuel htext hv hblank := by
    obtain ⟨y, hy, h₁, hnext⟩ := nextTagIs_text htext hv hblank
      (by decide : chGt ∉ lit "dict") hfuel
    refine alarmed_of_entry disablable ignoreCommented xmlPath h hnext (located_before _ _) hfuel ?_
    exact alarms_of_key disablable _ h (located_before _ _) hfuel
      (scalar_parse_stray (t := xmlKey disablable) _ noKey hfuel h₁ hy)

variable {disablable ignoreCommented} {h : c.Contract} {st : RepeatingDictState c} {g g' : Blank}
  {cs : Children}

theorem drops_of_entry
    (hentry : ∀ (fuel : Nat) (a : XmlLiteParser) (w : Blank) (t xmlPath : Bytes),
      Scene false fuel a (w.val ++ e.write (cs.write (closing dictTag t))) →
      Safe (parseKeyAndValueFromXmlLite fuel disablable st
        (a.before (w.val ++ e.write (cs.write (closing dictTag t)))) xmlPath true) fun r =>
          r.2.2.xmlParserMessageArray ≠ []) :
    (childLoop disablable ignoreCommented h).Drops st (.cons g e cs) := by
  intro fuel a w t xmlPath x k hx hscene _
  obtain ⟨n, st⟩ := x
  obtain rfl : st = _ := hx
  have hscene : Scene false fuel a (w.val ++ e.write (cs.write (closing dictTag t))) := hscene
  have hnext := nextTagIsClosingTag_element (x := lit "dict") hscene.suffix hscene.fuel
  refine (childLoop disablable ignoreCommented h).alarms_of_alarmed k ?_
  exact alarmed_of_entry disablable ignoreCommented xmlPath h hnext (located_before _ _) hscene.fuel
    (hentry fuel a w t _ hscene)

theorem drops_of_key (hkey : (scalarClass (xmlKey disablable)).Derails e noKey) :
    (childLoop disablable ignoreCommented h).Drops st (.cons g e cs) :=
  drops_of_entry fun fuel a w t xmlPath hscene =>
    alarms_of_key disablable xmlPath h (located_before _ _) hscene.fuel
      (hkey fuel a w _ xmlPath hscene (follows_children cs dictTag t))

theorem parseKeyAndValue_key (st : RepeatingDictState c)
    (hkey : (scalarClass (xmlKey disablable)).ReadsAs false e noKey ⟨true, key, false, .past⟩)
    (hscene : Scene false fuel a (w.val ++ e.write (cs.write (closing dictTag t)))) :
    ∃ w' : Blank, w'.val ++ cs.core (closing dictTag t) <:+ a.buf ∧
      parseKeyAndValueFromXmlLite fuel disablable st
        (a.before (w.val ++ e.write (cs.write (closing dictTag t)))) xmlPath true =
      (do
        let (b, v, s) ← c.parseFromXmlLite fuel c.new
          (a.before (w'.val ++ cs.core (closing dictTag t))) xmlPath true
        .ok (if b then some v else none, { st with keyTmp := key }, s)) := by
  obtain ⟨a', u, hrun, hnoted, w', hw'⟩ :=
    hkey fuel a w _ xmlPath hscene (follows_children cs dictTag t)
  have hu : u <:+ cs.write (closing dictTag t) := by
    rw [hw']
    exact suffix_append _ _
  obtain ⟨w1, rfl⟩ := Children.exists_gap hw'
  rw [hnoted.quiet rfl] at hrun
  refine ⟨w1, e.suffix_of_behind hu hscene.suffix, ?_⟩
  have hrun : (xmlKey disablable).parseFromXmlLite fuel ⟨false, ⟨[], false⟩⟩
      (a.before (w.val ++ e.write (cs.write (closing dictTag t)))) xmlPath true =
        .ok (true, key, a.before (w1.val ++ cs.core (closing dictTag t))) := hrun
  unfold parseKeyAndValueFromXmlLite
  simp [hrun]

theorem alarms_value (hvalue : Alarms (c.parseFromXmlLite fuel c.new s xmlPath true)) :
    Safe (do
      let (b, v, s) ← c.parseFromXmlLite fuel c.new s xmlPath true
      .ok (if b then some v else none, { st with keyTmp := key }, s) :
        Run (Option c.State × RepeatingDictState c × XmlLiteParser)) fun r =>
      r.2.2.xmlParserMessageArray ≠ [] := by
  refine safe_bind hvalue ?_
  rintro ⟨b, v, s1⟩ hmessages
  exact hmessages

theorem drops_of_value
    (hkey : (scalarClass (xmlKey disablable)).ReadsAs false e noKey ⟨true, key, false, .past⟩)
    (hvalue : c.Derails v c.new) :
    (childLoop disablable ignoreCommented h).Drops st (.cons g e (.cons g' v cs)) := by
  refine drops_of_entry fun fuel a w t xmlPath hscene => ?_
  obtain ⟨w', hsuffix, hrun⟩ := parseKeyAndValue_key xmlPath st hkey hscene
  rw [hrun]
  exact alarms_value xmlPath (hvalue fuel a w' _ xmlPath ⟨hscene.fuel, hsuffix, hscene.latch⟩
    (follows_children cs dictTag t))

theorem drops_dangling (o : c.Outcomes h takes) {w' : Blank}
    (hkey : (scalarClass (xmlKey disablable)).ReadsAs false e noKey ⟨true, key, false, .past⟩) :
    (childLoop disablable ignoreCommented h).Drops st (.cons g e (.nil w')) := by
  refine drops_of_entry fun fuel a w t xmlPath hscene => ?_
  obtain ⟨w1, hsuffix, hrun⟩ := parseKeyAndValue_key xmlPath st hkey hscene
  rw [hrun]
  exact alarms_value xmlPath
    (o.parse_stray fuel a w1.val dictTag t xmlPath c.new hscene.fuel hsuffix w1.chLt_notMem)

theorem endEntry_before (ignoreCommented : Bool) (o : c.Outcomes h takes)
    (st : RepeatingDictState c) (value : Option c.State) :
    ∃ st' loud, ∀ (a : XmlLiteParser) (u xmlPath : Bytes) (keyPos : XmlParserPosition),
      ∃ a', endEntry ignoreCommented xmlPath true keyPos value st (a.before u) =
        (st', a'.before u) ∧ Noted loud a a' := by
  unfold endEntry
  dsimp only
  split
  · split
    · cases value with
      | none => exact ⟨st, false, fun a u xmlPath keyPos => ⟨a, rfl, Noted.refl a⟩⟩
      | some v =>
        obtain ⟨b, v', loud, hvalidate⟩ := o.validate v
        refine ⟨if b then { st with valueArray := st.valueArray ++ [(st.keyTmp, v')] }
          else st, loud, fun a u xmlPath keyPos => ?_⟩
        obtain ⟨a', hrun, hnoted⟩ := hvalidate a u (xmlPath ++ lit "/" ++ st.keyTmp.value.xstring8)
          keyPos
        refine ⟨a', ?_, hnoted⟩
        simp only [hrun]
        cases b <;> rfl
    · exact ⟨st, false, fun a u xmlPath keyPos => ⟨a, rfl, Noted.refl a⟩⟩
  · refine ⟨st, true, fun a u xmlPath keyPos => ?_⟩
    exact ⟨_, rfl, noted_addWarning a true _ _⟩

/-- An entry that is read without messages, but perhaps for its end. -/
theorem exists_steps (o : c.Outcomes h takes) (hdefined : key.isDefined = true)
    (st : RepeatingDictState c)
    (hkey : (scalarClass (xmlKey disablable)).ReadsAs false e noKey ⟨true, key, false, .past⟩)
    {b : Bool} {f : c.State} (hr : c.ReadsAs false v c.new ⟨b, f, false, .past⟩) (g g' : Blank)
    (cs : Children) :
    ∃ st' loud, (childLoop disablable ignoreCommented h).Steps false st st' loud
      (.cons g e (.cons g' v cs)) cs := by
  obtain ⟨st', loud, hend⟩ := endEntry_before ignoreCommented o
    { st with keyTmp := key } (if b then some f else none)
  refine ⟨st', loud, ChildLoop.steps_of_pass fun fuel a w t xmlPath x hx hscene => ?_⟩
  obtain ⟨n, st⟩ := x
  obtain rfl : st = _ := hx
  have hscene : Scene false fuel a
    (w.val ++ e.write ((Children.cons g' v cs).write (closing dictTag t))) := hscene
  obtain ⟨w1, hsuffix, hrun⟩ :=
    parseKeyAndValue_key (XmlArray.subPath xmlPath n) st hkey hscene
  obtain ⟨a1, u, hparse, hnoted1, hat⟩ := hr fuel a w1 (cs.write (closing dictTag t))
    (XmlArray.subPath xmlPath n) ⟨hscene.fuel, hsuffix, hscene.latch⟩
      (follows_children cs dictTag t)
  have hu := hat.suffix
  obtain ⟨w', hw'⟩ := hat
  obtain rfl := hnoted1.quiet rfl
  obtain ⟨w2, rfl⟩ := Children.exists_gap hw'
  obtain ⟨a', hentry, hnoted⟩ := hend a1 (w2.val ++ cs.core (closing dictTag t)) xmlPath
    (a1.before (w.val ++ e.write ((Children.cons g' v cs).write (closing dictTag t)))).currentPos
  have hlatch : (a1.before (w2.val ++ cs.core (closing dictTag t))).xmlParsingError = false :=
    hscene.latch rfl
  have hcore : (Children.cons g' v cs).core (closing dictTag t) =
    v.write (cs.write (closing dictTag t)) := rfl
  have hbehind : w2.val ++ cs.core (closing dictTag t) <:+
      (Children.cons g' v cs).write (closing dictTag t) := by
    have hown : w2.val ++ cs.core (closing dictTag t) <:+ cs.write (closing dictTag t) := by
      rw [hw']
      exact suffix_append _ _
    exact v.suffix_of_behind hown suffix_rfl
  refine ⟨a', w2, (n + 1, st'), rfl, hnoted, hu.trans hsuffix, e.length_lt_of_suffix w hbehind, ?_⟩
  show pass fuel disablable ignoreCommented xmlPath true ((n, st),
    a1.before (w.val ++ e.write ((Children.cons g' v cs).write (closing dictTag t)))) = _
  rw [hcore] at hrun
  unfold pass
  simp only [nextTagIsClosingTag_element hscene.suffix hscene.fuel, ok_bind,
    false_eq_true, if_false, hrun, hparse, hlatch, hdefined, Bool.not_true, hentry]
  rfl

/-- As long as there are no messages, what the loop makes of the entries can be told. -/
theorem covers (o : c.Outcomes h takes) :
    ∀ (cs : Children) (st : RepeatingDictState c),
      (childLoop disablable ignoreCommented h).Covers st cs
  | .nil w, st => ChildLoop.covers_nil _ _ _
  | .cons g e (.nil w), st => by
    rcases key_settles disablable e with ⟨key, -, hkey⟩ | hderails
    · exact Or.inr (drops_dangling o hkey)
    · exact Or.inr (drops_of_key hderails)
  | .cons g e (.cons g' v cs), st => by
    rcases key_settles disablable e with ⟨key, hdefined, hkey⟩ | hderails
    · rcases o.parse v h.new with ⟨b, f, hr⟩ | hderails
      · obtain ⟨st', loud, hsteps⟩ := exists_steps o hdefined st hkey hr g g' cs
        exact hsteps.covers (covers o cs st')
      · exact Or.inr (drops_of_value hkey hderails)
    · exact Or.inr (drops_of_key hderails)

/-- The dictionary that is read into: a defined one is emptied. -/
def undefined (st : RepeatingDictState c) : RepeatingDictState c :=
  if st.isDefined then { st with isDefined := false, valueArray := [] } else st

theorem encloses (disablable ignoreCommented : Bool) (h : c.Contract)
    (st : RepeatingDictState c) :
    Encloses (repeatingDictClass disablable ignoreCommented c)
      (childLoop disablable ignoreCommented h) st (0, { undefined st with isDefined := true })
      st.isDefined := by
  refine ⟨undefined st, id, rfl, fun fuel a u xmlPath => ?_⟩
  obtain ⟨a1, hnoted, hlatch, hwarned⟩ := warned_before st.isDefined a u xmlPath st
    { st with isDefined := false, valueArray := [] }
  have hundefined : (if st.isDefined then { st with isDefined := false, valueArray := [] }
      else st : RepeatingDictState c).isDefined = false :=
    isDefined_reset RepeatingDictState.isDefined rfl
  refine ⟨a1, hnoted, hlatch, ?_⟩
  show parseFromXmlLite fuel disablable ignoreCommented st (a.before u) xmlPath true = _
  unfold parseFromXmlLite
  simp only [hwarned, hundefined, false_eq_true, if_false]
  rfl

end XmlRepeatingDict

/-- The outcomes of a repeating dictionary, from those of its values. -/
theorem repeatingDictOutcomes {h : c.Contract} (disablable ignoreCommented : Bool)
    (o : c.Outcomes h takes) :
    (repeatingDictClass disablable ignoreCommented c).Outcomes
      (repeatingDictContract disablable ignoreCommented h)
      fun e => decide (e.tag.val = lit "dict") where
  parse e st _ := (XmlRepeatingDict.encloses disablable ignoreCommented h st).settles
    (fun cs => XmlRepeatingDict.covers o cs _) e
  isTheNextTag e st hst := isTheNextTag_tag e st hst
  parse_stray _ _ _ _ _ _ st hfuel hsuffix hv :=
    (XmlRepeatingDict.encloses disablable ignoreCommented h st).parse_stray hfuel hsuffix hv
  isTheNextTag_stray _ _ _ _ _ st hfuel hsuffix hv := isTheNextTag_tag_stray st hfuel hsuffix hv
  validate st := ⟨true, st, false, fun a _ _ _ => ⟨a, rfl, Noted.refl a⟩⟩

end Clover.Xml
