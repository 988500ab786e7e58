import Clover.Xml.Entries

/-!
# What becomes of a dictionary

An entry is read without messages, whatever follows it (`XmlDict.Takes`), or the loop leaves one.
From this the outcomes of a dictionary class follow from those of the classes of its fields.
-/

namespace Clover.Xml

open Clover.Lib Clover.Lib.Run XmlLiteParser List

/-- A key and its value, with the white space before each of them. -/
structure Entry where
  gap : Blank
  key : Element
  between : Blank
  value : Element

namespace XmlDict

variable {fields : Fields} {fuel : Nat} {a : XmlLiteParser} {w w' g g' : Blank} {e v : Element}
  {st : DictState fields} {k t : Bytes} {cs : Children} (xmlPath : Bytes)
  {h : ∀ i, (fields.class i).Contract} {i : Fin fields.length} {free : Bool}
  {f : (fields.class i).State}

/-! ## What becomes of an entry -/

theorem alarmed_field (h : ∀ i, (fields.class i).Contract) (hst : st.field i = f)
    (hundefined : (fields.class i).isDefined f = false)
    (he : Names fields e i) (hsuffix : w.val ++ e.write t <:+ a.buf) (hfuel : a.size < fuel)
    (halarms : ∀ xmlPath,
      Alarms ((fields.class i).parseFromXmlLite fuel f (a.before t) xmlPath true)) :
    Safe (pass fuel xmlPath true (st, a.before (w.val ++ e.write t))) (Alarmed fuel) := by
  obtain ⟨k, hk, hne, hlookup⟩ := he
  obtain ⟨key, keyPos, -, -, hfind, hrun⟩ :=
    parseKeyAndValue_key xmlPath st hk hne hsuffix hfuel
  refine alarmed_of_key xmlPath h hsuffix hfuel ?_
  rw [hrun]
  unfold parseValueFromXmlLite
  simp only [hfind, hlookup, hst, hundefined, Bool.false_eq_true, if_false]
  have hmessages := halarms (subPath xmlPath k)
  cases hparse : (fields.class i).parseFromXmlLite fuel f (a.before t) (subPath xmlPath k) true with
  | error _ => trivial
  | ok r =>
    rw [hparse] at hmessages
    exact hmessages

/-- The loop leaves a message at an entry whose value the class of the field does not read
without one. -/
theorem drops_of_derails (hderails : (fields.class i).Derails v f)
    (hundefined : (fields.class i).isDefined f = false) (hst : st.field i = f)
    (he : Names fields e i) : (childLoop h).Drops st (.cons g e (.cons g' v cs)) := by
  intro fuel a w t xmlPath x k hx hscene _
  obtain rfl : st = x := hx.symm
  have hcore : (Children.cons g e (.cons g' v cs)).core (closing (childLoop h).tag t) =
      e.write (g'.val ++ v.write (cs.write (closing dictTag t))) := core_entry g e g' v cs _
  rw [hcore] at hscene ⊢
  have hvalue : Scene false fuel a (g'.val ++ v.write (cs.write (closing dictTag t))) :=
    hscene.mono ((e.suffix_write _).trans (suffix_append _ _))
  refine (childLoop h).alarms_of_alarmed k ?_
  exact alarmed_field xmlPath h hst hundefined he hscene.suffix hscene.fuel fun xmlPath =>
    hderails fuel a g' _ xmlPath hvalue (follows_children cs dictTag t)

/-- The loop reads the entry without messages, whatever follows it. -/
def Takes (x : Entry) (st st' : DictState fields) : Prop :=
  ∀ (fuel : Nat) (a : XmlLiteParser) (w : Blank) (u xmlPath : Bytes),
    Scene false fuel a (w.val ++ x.key.write (x.between.val ++ x.value.write u)) → Follows u →
    ∃ (w' : Blank) (u' : Bytes), u = w'.val ++ u' ∧
      pass fuel xmlPath true
          (st, a.before (w.val ++ x.key.write (x.between.val ++ x.value.write u))) =
        .ok (.again (st', a.before u'))

variable {st' : DictState fields} {x : Entry} {takes : Fin fields.length → Element → Bool}

theorem Takes.steps (hx : Takes x st st') (h : ∀ i, (fields.class i).Contract) (cs : Children) :
    (childLoop h).Steps false st st' false (.cons x.gap x.key (.cons x.between x.value cs)) cs := by
  refine ChildLoop.steps_of_pass fun fuel a w t xmlPath y hy hscene => ?_
  obtain rfl : st = y := hy.symm
  have htag : (childLoop h).tag = dictTag := rfl
  rw [core_entry, htag] at hscene ⊢
  obtain ⟨w', u', hu', hrun⟩ := hx fuel a w _ xmlPath hscene (follows_children cs dictTag t)
  have hsuffix : u' <:+ x.between.val ++ x.value.write (cs.write (closing dictTag t)) := by
    have hu : u' <:+ cs.write (closing dictTag t) := by
      rw [hu']
      exact suffix_append _ _
    exact x.value.suffix_of_behind hu suffix_rfl
  obtain ⟨w1, rfl⟩ := Children.exists_gap hu'
  refine ⟨a, w1, st', rfl, Noted.refl a, ?_, x.key.length_lt_of_suffix w hsuffix, hrun⟩
  exact x.key.suffix_of_behind hsuffix hscene.suffix

theorem takes_field {b : Bool} {f f' : (fields.class i).State}
    (hr : (fields.class i).ReadsAs false x.value (st.field i) ⟨b, f, false, .past⟩)
    (hends : EndsAs fields i f f' false)
    (hundefined : (fields.class i).isDefined (st.field i) = false) (he : Names fields x.key i) :
    Takes x st (setField st i f') := by
  intro fuel a w u xmlPath hscene hfollows
  obtain ⟨a', u', hrun, hnoted, w', hw'⟩ :=
    pass_field xmlPath hr hends hundefined rfl he hscene hfollows
  rw [hnoted.quiet rfl] at hrun
  exact ⟨w', u', hw', hrun⟩

/-- Every entry is read without messages, or the loop leaves one. -/
theorem entry_cases (o : ∀ i, (fields.class i).Outcomes (h i) (takes i)) (hst : Inv h st)
    (x : Entry) :
    (∃ st', Inv h st' ∧ Takes x st st') ∨
      ∀ cs, (childLoop h).Drops st (.cons x.gap x.key (.cons x.between x.value cs)) := by
  cases hk : x.key.key with
  | none => exact Or.inr fun cs => (steps_other hk).drops
  | some k =>
    by_cases hne : k = []
    · subst hne
      exact Or.inr fun cs => (steps_empty hk).drops
    cases hlookup : fields.lookup k with
    | none =>
      cases hnoisy : noisy k with
      | true =>
        refine Or.inr fun cs => ?_
        have hsteps : (childLoop h).Steps false st st (noisy k)
            (.cons x.gap x.key (.cons x.between x.value cs)) cs := steps_unknown hk hne hlookup
        rw [hnoisy] at hsteps
        exact hsteps.drops
      | false =>
        refine Or.inl ⟨st, hst, fun fuel a w u xmlPath hscene hfollows => ?_⟩
        obtain ⟨a', hrun, hnoted, -⟩ :=
          pass_unknown xmlPath hk hne hlookup hscene.suffix hfollows hscene.fuel
        rw [hnoisy] at hnoted
        rw [hnoted.quiet rfl] at hrun
        obtain ⟨w', hw'⟩ := exists_dropBlank u
        exact ⟨w', _, hw', hrun⟩
    | some i =>
      have he : Names fields x.key i := ⟨k, hk, hne, hlookup⟩
      cases hdefined : (fields.class i).isDefined (st.field i) with
      | true =>
        obtain ⟨f', loud, -, hends⟩ := exists_endsAs (o i) (hst i)
        exact Or.inr fun cs => (steps_defined hends hdefined rfl he).drops
      | false =>
        have hready := (h i).ready_of_undefined (hst i) hdefined
        rcases (o i).parse x.value hready with ⟨b, f, hr⟩ | hderails
        · obtain ⟨hinv, -⟩ := hr.spec (h i) hready
          obtain ⟨f', loud, hinv', hends⟩ := exists_endsAs (o i) hinv
          cases loud with
          | false => exact Or.inl ⟨_, hst.setField hinv', takes_field hr hends hdefined he⟩
          | true => exact Or.inr fun cs => (steps_past hr hends hdefined rfl he rfl).drops
        · exact Or.inr fun cs => drops_of_derails hderails hdefined rfl he

/-! ## A key without a value -/

theorem skipUnknown_stray {key : Slice} {keyPos : XmlParserPosition} {n : TagName}
    (hsuffix : w.val ++ closing n t <:+ a.buf) (hfuel : a.size < fuel) :
    Safe (skipUnknown fuel (a.before (w.val ++ closing n t)) xmlPath true keyPos key) fun s =>
      s.xmlParserMessageArray ≠ [] := by
  have hskip : ∀ b : XmlLiteParser, b.buf = a.buf →
      Safe (skipNextTag fuel (b.before (w.val ++ closing n t)) true) fun r =>
        r.2.xmlParserMessageArray ≠ [] := by
    intro b hb
    have hfuel' : b.size < fuel := by
      show b.buf.length < fuel
      rw [hb]
      exact hfuel
    obtain ⟨s', hrun⟩ := skipNextTag_stray (g := true) (hb ▸ hsuffix) w.chLt_notMem hfuel'
    obtain ⟨r, hr, -, -, hreported⟩ := returns_skipNextTag (g := true)
      (located_before b (w.val ++ closing n t)) hfuel'
    obtain rfl : (false, s') = r := Except.ok.inj (hrun.symm.trans hr)
    rw [hrun]
    exact (hreported rfl rfl).1
  unfold skipUnknown
  dsimp only
  split
  · rw [before_addWarning]
    refine safe_bind (hskip _ (addWarning_buf ..)) ?_
    rintro ⟨b, s'⟩ hs'
    exact hs'
  · refine safe_bind (hskip a rfl) ?_
    rintro ⟨b, s'⟩ hs'
    exact hs'

/-- A warning stays where the rest is skipped. -/
theorem skipNextTag_warned (hfuel : a.size < fuel) (rest : Bytes) (g : Bool) (format : String)
    (args : List MsgArg) : Safe (skipNextTag fuel ((a.addWarning true format args).before rest) g)
      fun r => r.2.xmlParserMessageArray ≠ [] := by
  have hnoted := noted_addWarning a true format args
  have hmessages : ((a.addWarning true format args).before rest).xmlParserMessageArray ≠ [] :=
    hnoted.messages rfl
  have hlocated := located_before (a.addWarning true format args) rest
  have hfuel' : (a.addWarning true format args).size < fuel := Scene.of_noted_fuel hnoted hfuel
  exact (returns_skipNextTag hlocated hfuel').safe.mono fun r hr => hr.1.messages_ne_nil hmessages

/-- A key without a value behind it is reported. -/
theorem drops_dangling (o : ∀ i, (fields.class i).Outcomes (h i) (takes i))
    (hk : e.key = some k) : (childLoop h).Drops st (.cons g e (.nil w')) := by
  intro fuel a w t xmlPath x j hx hscene _
  obtain rfl : st = x := hx.symm
  refine (childLoop h).alarms_of_alarmed j ?_
  have hcore : (Children.cons g e (.nil w')).core (closing (childLoop h).tag t) =
      e.write (w'.val ++ closing dictTag t) := by
    rw [Children.core, Children.write]
    rfl
  rw [hcore] at hscene ⊢
  have hsuffix := hscene.suffix
  have hrest := e.suffix_of_behind suffix_rfl hsuffix
  by_cases hne : k = []
  · subst hne
    have hlength : (a.sliceOf [] (e.close (w'.val ++ closing dictTag t))).length = 0 := rfl
    refine alarmed_of_key xmlPath h hsuffix hscene.fuel ?_
    unfold parseKeyAndValueFromXmlLite
    simp only [getKeyTagValue_key hk hsuffix hscene.fuel, ok_bind, hlength, if_true,
      before_addWarning]
    refine safe_bind (skipNextTag_warned hscene.fuel _ true _ _) ?_
    rintro ⟨b, s'⟩ hs'
    exact hs'
  · cases hlookup : fields.lookup k with
    | none =>
      obtain ⟨key, keyPos, -, -, hfind, hrun⟩ :=
        parseKeyAndValue_key xmlPath st hk hne hsuffix hscene.fuel
      refine alarmed_of_key xmlPath h hsuffix hscene.fuel ?_
      rw [hrun]
      unfold parseValueFromXmlLite
      simp only [hfind, hlookup, ok_bind]
      refine safe_bind (skipUnknown_stray xmlPath hrest hscene.fuel) ?_
      intro s' hs'
      exact hs'
    | some i =>
      cases hdefined : (fields.class i).isDefined (st.field i) with
      | true =>
        obtain ⟨key, keyPos, -, -, hfind, hrun⟩ :=
          parseKeyAndValue_key xmlPath st hk hne hsuffix hscene.fuel
        refine alarmed_of_key xmlPath h hsuffix hscene.fuel ?_
        rw [hrun]
        unfold parseValueFromXmlLite
        simp only [hfind, hlookup, hdefined, if_true, before_addWarning]
        refine safe_bind (safe_bind (skipNextTag_warned hscene.fuel _ false _ _) (P := fun r =>
          r.1 = some i ∧ r.2.2.xmlParserMessageArray ≠ []) ?_) ?_
        · rintro ⟨b, s'⟩ hs'
          exact ⟨rfl, hs'⟩
        · rintro ⟨_, st', s'⟩ ⟨rfl, hs'⟩
          exact hs'
      | false =>
        exact alarmed_field xmlPath h rfl hdefined ⟨k, hk, hne, hlookup⟩ hsuffix hscene.fuel
          fun xmlPath =>
            (o i).parse_stray fuel a w'.val dictTag t xmlPath _ hscene.fuel hrest w'.chLt_notMem

/-! ## All entries -/

theorem covers (o : ∀ i, (fields.class i).Outcomes (h i) (takes i)) :
    ∀ (cs : Children) {st : DictState fields}, Inv h st → (childLoop h).Covers st cs
  | .nil w, st, _ => ChildLoop.covers_nil _ _ _
  | .cons g e (.nil w), st, hst => by
    cases hk : e.key with
    | none => exact Or.inr (steps_other hk).drops
    | some k => exact Or.inr (drops_dangling o hk)
  | .cons g e (.cons g' v cs), st, hst => by
    rcases entry_cases o hst ⟨g, e, g', v⟩ with ⟨st', hst', hx⟩ | hdrops
    · exact (hx.steps h cs).covers (covers o cs hst')
    · exact Or.inr (hdrops cs)

/-- The dictionary that is read into: a defined one is reset. -/
def undefined (st : DictState fields) : DictState fields := if st.isDefined then reset st else st

theorem Inv.undefined {st : DictState fields} (hst : Inv h st) : Inv h (undefined st) := by
  unfold XmlDict.undefined
  split
  · exact fun i => (h i).inv_of_ready ((h i).reset (hst i))
  · exact hst

theorem encloses (h : ∀ i, (fields.class i).Contract) (st : DictState fields) :
    Encloses (dictClass fields) (childLoop h) st { undefined st with isDefined := true }
      st.isDefined := by
  refine ⟨undefined st, id, rfl, fun fuel a u xmlPath => ?_⟩
  obtain ⟨a1, hnoted, hlatch, hwarned⟩ := warned_before st.isDefined a u xmlPath st (reset st)
  have hundefined : (if st.isDefined then reset st else st).isDefined = false :=
    isDefined_reset DictState.isDefined rfl
  refine ⟨a1, hnoted, hlatch, ?_⟩
  show parseFromXmlLite fuel st (a.before u) xmlPath true = _
  unfold parseFromXmlLite
  simp only [hwarned, hundefined, Bool.false_eq_true, if_false]
  rfl

end XmlDict

theorem dictOutcomes {fields : Fields} {h : ∀ i, (fields.class i).Contract}
    {takes : Fin fields.length → Element → Bool}
    (o : ∀ i, (fields.class i).Outcomes (h i) (takes i)) :
    (dictClass fields).Outcomes (dictContract h) fun e => decide (e.tag.val = lit "dict") where
  parse e st hst := by
    have hinv : XmlDict.Inv h { XmlDict.undefined st with isDefined := true } :=
      XmlDict.Inv.undefined (h := h) hst
    exact (XmlDict.encloses h st).settles (fun cs => XmlDict.covers o cs hinv) e
  isTheNextTag e st hst := isTheNextTag_tag e st hst
  parse_stray _ _ _ _ _ _ st hfuel hsuffix hv :=
    (XmlDict.encloses h st).parse_stray hfuel hsuffix hv
  isTheNextTag_stray _ _ _ _ _ st hfuel hsuffix hv := isTheNextTag_tag_stray st hfuel hsuffix hv
  validate st := ⟨true, st, false, fun a _ _ _ => ⟨a, rfl, Noted.refl a⟩⟩

end Clover.Xml
