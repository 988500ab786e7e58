import Clover.Xml.Contracts

/-!
# Parsing ends

A configuration of any schema, read from any bytes, is parsed to an end: no loop runs on, and no
fatal error is met. Each way of building a class keeps contracts, so that the class of every
schema has one.
-/

namespace Clover.Xml

open Clover.Lib Clover.Lib.Run XmlLiteParser List

variable {s : XmlLiteParser} {fuel : Nat}

/-! ## Dictionaries -/

theorem forall_update {n : Nat} {α : Fin n → Type} {P : ∀ i, α i → Prop} {f : ∀ i, α i}
    {i : Fin n} {v : α i} (hf : ∀ j, P j (f j)) (hv : P i v) (j : Fin n) :
    P j (Function.update f i v j) := by
  by_cases h : j = i
  · subst h
    rw [Function.update_self]
    exact hv
  · rw [Function.update_of_ne h]
    exact hf j

namespace XmlDict

variable {fields : Fields} {calm : Prop} {st : DictState fields} (xmlPath : Bytes)
  (h : ∀ i, (fields.class i).Contract) (keyPos : XmlParserPosition)

/-- Every field is consistent. -/
def Inv (st : DictState fields) : Prop := ∀ i, (h i).Inv (st.field i)

variable {h} in
theorem Inv.setField (hst : Inv h st) {i : Fin fields.length} {v : (fields.class i).State}
    (hv : (h i).Inv v) : Inv h (setField st i v) :=
  forall_update (P := fun j v => (h j).Inv v) hst hv

theorem ends_parseValueFromXmlLite (key : Slice) (hs : s.Located) (hfuel : s.size < fuel)
    (hst : calm → Inv h st) :
    Ends calm (parseValueFromXmlLite fuel st s xmlPath true keyPos key) fun r =>
      Onward s r.2.2 ∧ (calm → Inv h r.2.1) := by
  unfold parseValueFromXmlLite
  split
  · exact ends_ok ⟨Onward.refl hs, hst⟩
  · next i _ =>
    split
    · -- a field that has a value keeps it
      have h1 : ∀ format args, Onward s (s.addWarning true format args) :=
        fun format args => (Onward.refl hs).addWarning
      refine ends_bind (returns_skipNextTag (h1 _ _).located ((h1 _ _).fuel hfuel)).ends ?_
      rintro ⟨b, s2⟩ ⟨h2, -, -⟩
      exact ends_ok ⟨(h1 _ _).trans h2, hst⟩
    · next hundefined =>
      have hready : calm → (h i).Ready (st.field i) := fun hcalm =>
        (h i).ready_of_undefined (hst hcalm i) (Bool.eq_false_iff.mpr hundefined)
      refine ends_bind ((h i).parse xmlPath hs hfuel hready) ?_
      rintro ⟨b, v, s1⟩ ⟨⟨h1, -⟩, hv⟩
      exact ends_ok ⟨h1, fun hcalm => (hst hcalm).setField (hv hcalm).1⟩

theorem returns_skipUnknown (key : Slice) (hs : s.Located) (hfuel : s.size < fuel) :
    Returns (skipUnknown fuel s xmlPath true keyPos key) fun s' => Onward s s' := by
  unfold skipUnknown
  dsimp only
  split
  · generalize (if lastChar xmlPath = 47 then "Unknown key '%s%.*s:%d'. Skipped."
      else "Unknown key '%s/%.*s:%d'. Skipped.") = format
    have h1 : ∀ args, Onward s (s.addWarning true format args) :=
      fun args => (Onward.refl hs).addWarning
    refine returns_bind (returns_skipNextTag (h1 _).located ((h1 _).fuel hfuel)) ?_
    rintro ⟨b, s2⟩ ⟨h2, -, -⟩
    exact returns_ok ((h1 _).trans h2)
  · refine returns_bind (returns_skipNextTag hs hfuel) ?_
    rintro ⟨b, s2⟩ ⟨h2, -, -⟩
    exact returns_ok h2

theorem ends_parseKeyAndValueFromXmlLite (hs : s.Located) (hfuel : s.size < fuel)
    (hst : calm → Inv h st) :
    Ends calm (parseKeyAndValueFromXmlLite fuel st s xmlPath true) fun r =>
      Onward s r.2.2 ∧ (r.1.isSome → s.currentPos.p < r.2.2.currentPos.p) ∧
        (calm → Inv h r.2.1) := by
  refine ends_bind (returns_getKeyTagValue hs hfuel).ends ?_
  rintro ⟨key, keyPos, s1⟩ ⟨h1, hsome, -⟩
  have hfuel1 := h1.fuel hfuel
  cases key with
  | none =>
    refine ends_bind (returns_skipNextTag h1.located hfuel1).ends ?_
    rintro ⟨b, s2⟩ ⟨h2, -, -⟩
    exact ends_ok ⟨h1.trans h2, fun hnone => Bool.noConfusion hnone, hst⟩
  | some key =>
    have hlt : s.currentPos.p < s1.currentPos.p := hsome rfl
    dsimp only
    split
    · have h2 : ∀ format args, Onward s (s1.addWarning true format args) :=
        fun format args => h1.addWarning
      refine ends_bind (returns_skipNextTag (h2 _ _).located ((h2 _ _).fuel hfuel)).ends ?_
      rintro ⟨b, s3⟩ ⟨h3, -, -⟩
      exact ends_ok ⟨(h2 _ _).trans h3, fun hnone => Bool.noConfusion hnone, hst⟩
    · refine ends_bind (ends_parseValueFromXmlLite _ h keyPos key h1.located hfuel1 hst) ?_
      rintro ⟨i, st2, s2⟩ ⟨h2, hst2⟩
      have h12 := h1.trans h2
      cases i with
      | some i => exact ends_ok ⟨h12, fun _ => lt_of_lt_of_le hlt h2.le, hst2⟩
      | none =>
        refine ends_bind
          (returns_skipUnknown xmlPath keyPos key h2.located (h12.fuel hfuel)).ends ?_
        intro s3 h3
        exact ends_ok ⟨h12.trans h3, fun hnone => Bool.noConfusion hnone, hst2⟩

theorem returns_moveOn (hs : s.Located) (hfuel : s.size < fuel) :
    Returns (moveOn fuel s) fun r =>
      Onward s r.2 ∧ (r.1 = true → s.currentPos.p < r.2.currentPos.p) := by
  have hmoved : ∀ {s' : XmlLiteParser}, Onward s s' →
      Onward s s' ∧ (decide (s'.currentPos.p ≠ s.currentPos.p) = true →
        s.currentPos.p < s'.currentPos.p) := by
    intro s' h1
    refine ⟨h1, fun hne => ?_⟩
    exact lt_of_le_of_ne h1.le (Ne.symm (of_decide_eq_true hne))
  unfold moveOn
  split
  · refine returns_bind (returns_skipNextTag hs hfuel) ?_
    rintro ⟨b, s1⟩ ⟨h1, -, -⟩
    exact returns_ok (hmoved h1)
  · refine returns_bind (returns_moveForwardUntil chLt hs hfuel) ?_
    rintro ⟨c, s1⟩ h1
    exact returns_ok (hmoved h1)

theorem ends_endEntry {entry : Option (Fin fields.length × Slice)} {s' : XmlLiteParser}
    (hkeyPos : keyPos.p = s.currentPos.p) (h1 : Onward s s')
    (hsome : entry.isSome → s.currentPos.p < s'.currentPos.p) (hfuel : s.size < fuel)
    (hst : calm → Inv h st) :
    Ends calm (endEntry fuel xmlPath true keyPos entry st s') fun r =>
      Onward s r.2.2 ∧ (r.1 = true → s.currentPos.p < r.2.2.currentPos.p) ∧
        (calm → Inv h r.2.1) := by
  unfold endEntry
  split
  · next i key heq =>
    have hentry : entry.isSome := by
      cases entry with
      | none => exact nomatch heq
      | some _ => rfl
    obtain ⟨h2, hv, -⟩ := (h i).validate (st.field i) h1.located
      (subPath xmlPath (s'.bytes key)) keyPos true
    refine ends_ok ⟨h1.trans h2, fun _ => lt_of_lt_of_le (hsome hentry) h2.le, fun hcalm => ?_⟩
    refine (hst hcalm).setField ?_
    split
    · exact hv (hst hcalm i)
    · exact (h i).inv_of_ready ((h i).reset (hv (hst hcalm i)))
  · split
    · -- nothing was read: the loop has to be moved on
      refine ends_bind (returns_moveOn h1.located (h1.fuel hfuel)).ends ?_
      rintro ⟨b, s2⟩ ⟨h2, hb⟩
      exact ends_ok ⟨h1.trans h2, fun hb' => lt_of_le_of_lt h1.le (hb hb'), hst⟩
    · next hne =>
      have hlt : s.currentPos.p < s'.currentPos.p := by
        have := h1.le
        omega
      exact ends_ok ⟨h1, fun _ => hlt, hst⟩

theorem ends_pass (hs : s.Located) (hfuel : s.size < fuel) (hst : calm → Inv h st) :
    Ends calm (pass fuel xmlPath true (st, s))
      (Advances s (fun st => calm → Inv h st) (fun st => calm → Inv h st)) := by
  unfold pass
  dsimp only
  split
  · exact ends_ok ⟨Onward.refl hs, hst⟩
  · refine ends_bind (returns_nextTagIs (lit "dict") false hs hfuel).ends ?_
    rintro ⟨closing, s1⟩ h1
    cases closing with
    | true => exact ends_ok ⟨h1, hst⟩
    | false =>
      have hfuel1 := h1.fuel hfuel
      refine ends_bind (ends_parseKeyAndValueFromXmlLite xmlPath h h1.located hfuel1 hst) ?_
      rintro ⟨entry, st2, s2⟩ ⟨h2, hsome, hst2⟩
      refine ends_bind (ends_endEntry xmlPath h s1.currentPos rfl h2 hsome hfuel1 hst2) ?_
      rintro ⟨b, st3, s3⟩ ⟨h3, hb, hst3⟩
      cases b with
      | true => exact ends_ok ⟨h1.trans h3, lt_of_le_of_lt h1.le (hb rfl), hst3⟩
      | false => exact ends_ok ⟨h1.trans h3, hst3⟩

theorem ends_parseFromXmlLite (hs : s.Located) (hfuel : s.size < fuel) (hst : calm → Inv h st) :
    Ends calm (parseFromXmlLite fuel st s xmlPath true) fun r =>
      Moves s r ∧ (calm → Inv h r.2.1) := by
  unfold parseFromXmlLite
  have hreset : calm → Inv h (reset st) :=
    fun hcalm i => (h i).inv_of_ready ((h i).reset (hst hcalm i))
  obtain ⟨st1, s1, heq, h1, hundefined, hst1⟩ := warned_spec xmlPath hs
    (P := fun st => st.isDefined = false ∧ (calm → Inv h st)) st _
    ⟨rfl, hreset⟩ fun hd => ⟨hd, hst⟩
  simp only [heq, hundefined, Bool.false_eq_true, if_false]
  refine ends_enclosed (J := fun st => calm → Inv h st) (lit "dict")
    (fun s => Run.loop (pass fuel xmlPath true) fuel ({ st1 with isDefined := true }, s)) id h1
    hfuel hst1 fun s2 hs2 hfuel2 => ?_
  refine ends_passes (I := fun st => calm → Inv h st) (J := fun st => calm → Inv h st)
    (x := { st1 with isDefined := true }) ?_ hs2 hfuel2 hst1
  exact fun st s hs hfuel hst => ends_pass xmlPath h hs hfuel hst

end XmlDict

def dictContract {fields : Fields} (h : ∀ i, (fields.class i).Contract) :
    (dictClass fields).Contract where
  Inv := XmlDict.Inv h
  Ready := XmlDict.Inv h
  inv_of_ready := id
  ready_of_undefined hst _ := hst
  new i := (h i).inv_of_ready (h i).new
  reset hst i := (h i).inv_of_ready ((h i).reset (hst i))
  getDescription := id
  isTheNextTag hs hfuel hst :=
    ends_bind (returns_nextTagIs (lit "dict") true hs hfuel).ends fun _ h₁ => ends_ok ⟨h₁, hst⟩
  parse xmlPath hs hfuel hst :=
    (XmlDict.ends_parseFromXmlLite xmlPath h hs hfuel hst).mono fun _ hr =>
      ⟨hr.1, fun hcalm => ⟨hr.2 hcalm, fun _ => hr.2 hcalm⟩⟩
  validate _ _ hs _ _ _ := ⟨Onward.refl hs, id, id⟩

/-! ## Arrays -/

namespace XmlArray

variable {c : XmlClass} {calm : Prop} {st : ArrayState c} (xmlPath : Bytes)
  (h : c.Contract)

/-- Every element is consistent. -/
def Inv (st : ArrayState c) : Prop := ∀ v ∈ st.elements, h.Inv v

theorem ends_pass (n : Nat) (hs : s.Located) (hfuel : s.size < fuel) (hst : calm → Inv h st) :
    Ends calm (pass fuel xmlPath true ((n, st), s))
      (Advances s (fun x => calm → Inv h x.2) (fun st => calm → Inv h st)) := by
  refine ends_bind (returns_nextTagIs (lit "array") false hs hfuel).ends ?_
  rintro ⟨closing, s1⟩ h1
  cases closing with
  | true => exact ends_ok ⟨h1, hst⟩
  | false =>
    refine ends_bind (h.parse (subPath xmlPath n) h1.located (h1.fuel hfuel) fun _ => h.new) ?_
    rintro ⟨b, v, s2⟩ ⟨⟨h2, hb⟩, hv⟩
    dsimp only at h1 h2 hb hv ⊢
    have h12 := h1.trans h2
    cases b with
    | true =>
      refine ends_ok ⟨h12, lt_of_le_of_lt h1.le (hb rfl), fun hcalm w hw => ?_⟩
      rcases mem_append.mp hw with hw | hw
      · exact hst hcalm w hw
      · rw [mem_singleton.mp hw]
        exact (hv hcalm).1
    | false =>
      split
      · next hfalse => cases hfalse
      split
      · refine ends_bind (XmlDict.returns_moveOn h2.located (h12.fuel hfuel)).ends ?_
        rintro ⟨b, s3⟩ ⟨h3, hmoved⟩
        have h13 := h12.trans h3
        cases b with
        | true => exact ends_ok ⟨h13, lt_of_le_of_lt h12.le (hmoved rfl), hst⟩
        | false => exact ends_ok ⟨h13, hst⟩
      · next hne =>
        refine ends_ok ⟨h12, ?_, hst⟩
        have hlt : s1.currentPos.p < s2.currentPos.p := lt_of_le_of_ne h2.le (Ne.symm hne)
        exact lt_of_le_of_lt h1.le hlt

theorem ends_parseFromXmlLite (hs : s.Located) (hfuel : s.size < fuel) (hst : calm → Inv h st) :
    Ends calm (parseFromXmlLite fuel st s xmlPath true) fun r =>
      Moves s r ∧ (calm → Inv h r.2.1) := by
  unfold parseFromXmlLite
  obtain ⟨st1, s1, heq, h1, hundefined, hst1⟩ := warned_spec xmlPath hs
    (P := fun st => st.isDefined = false ∧ (calm → Inv h st))
    st ⟨false, []⟩ ⟨rfl, fun _ _ hv => absurd hv not_mem_nil⟩ fun hd => ⟨hd, hst⟩
  simp only [heq, hundefined, Bool.false_eq_true, if_false]
  refine ends_enclosed (J := fun st => calm → Inv h st) (lit "array")
    (fun s => Run.loop (pass fuel xmlPath true) fuel ((0, { st1 with isDefined := true }), s))
    (fun _ => true) h1 hfuel hst1 fun s2 hs2 hfuel2 => ?_
  refine ends_passes (I := fun x : Nat × ArrayState c => calm → Inv h x.2)
    (J := fun st => calm → Inv h st) (x := (0, { st1 with isDefined := true })) ?_ hs2 hfuel2 hst1
  exact fun x s hs hfuel hst => ends_pass xmlPath h x.1 hs hfuel hst

theorem validateElements_spec (pos : XmlParserPosition) (g : Bool) (vs : List c.State) :
    ∀ {s : XmlLiteParser}, s.Located →
      Onward s (validateElements c xmlPath pos g vs s).2 ∧
      ((∀ v ∈ vs, h.Inv v) → ∀ v ∈ (validateElements c xmlPath pos g vs s).1, h.Inv v) := by
  induction vs with
  | nil =>
    intro s hs
    exact ⟨Onward.refl hs, id⟩
  | cons v vs ih =>
    intro s hs
    obtain ⟨h1, hv, -⟩ := h.validate v hs xmlPath pos g
    obtain ⟨h2, hvs⟩ := ih h1.located
    refine ⟨h1.trans h2, fun hall w hw => ?_⟩
    have hrest : ∀ w ∈ vs, h.Inv w := fun w hw => hall w (mem_cons_of_mem _ hw)
    unfold validateElements at hw
    dsimp only at hw
    split at hw
    · rcases mem_cons.mp hw with rfl | hw
      · exact hv (hall v mem_cons_self)
      · exact hvs hrest w hw
    · exact hvs hrest w hw

end XmlArray

def arrayContract {c : XmlClass} (h : c.Contract) : (arrayClass c).Contract where
  Inv := XmlArray.Inv h
  Ready := XmlArray.Inv h
  inv_of_ready := id
  ready_of_undefined hst _ := hst
  new _ hv := absurd hv not_mem_nil
  reset _ _ hv := absurd hv not_mem_nil
  getDescription := id
  isTheNextTag hs hfuel hst :=
    ends_bind (returns_nextTagIs (lit "array") true hs hfuel).ends fun _ h₁ => ends_ok ⟨h₁, hst⟩
  parse xmlPath hs hfuel hst :=
    (XmlArray.ends_parseFromXmlLite xmlPath h hs hfuel hst).mono fun _ hr =>
      ⟨hr.1, fun hcalm => ⟨hr.2 hcalm, fun _ => hr.2 hcalm⟩⟩
  validate st _ hs xmlPath pos g :=
    have hspec := XmlArray.validateElements_spec xmlPath h pos g st.elements hs
    ⟨hspec.1, hspec.2, hspec.2⟩

/-! ## Repeating dictionaries -/

theorem returns_parseKey (disablable : Bool) (xmlPath : Bytes) (hs : s.Located)
    (hfuel : s.size < fuel) :
    Returns ((xmlKey disablable).parseFromXmlLite fuel ⟨false, ⟨[], false⟩⟩ s xmlPath true)
      fun r => Moves s r ∧ (r.1 = false → r.2.2.Reported) ∧ (r.1 = true → r.2.1.isDefined) := by
  refine returns_bind (returns_getSimpleTag none hs hfuel) ?_
  rintro ⟨r, s1⟩ ⟨h1, hsome, hnone⟩
  cases r with
  | none => exact returns_ok ⟨moves_false h1, fun _ => hnone rfl rfl, Bool.noConfusion⟩
  | some r =>
    obtain ⟨tag, value⟩ := r
    unfold xmlKey tagContent
    dsimp only
    by_cases htag : strnIsEqual s1 tag (lit "key")
    · rw [if_pos htag]
      exact returns_ok ⟨⟨h1, fun _ => hsome rfl⟩, Bool.noConfusion, fun _ => rfl⟩
    · rw [if_neg htag]
      refine returns_ok ⟨moves_false h1.addXmlError,
        fun _ => reported_addXmlError rfl, Bool.noConfusion⟩

namespace XmlRepeatingDict

variable {c : XmlClass} {calm : Prop} {st : RepeatingDictState c} (disablable : Bool)
  (ignoreCommented : Bool) (xmlPath : Bytes)

/-- A value whose key was not read has left the latch set. -/
theorem ends_parseKeyAndValueFromXmlLite (h : c.Contract) (hs : s.Located) (hfuel : s.size < fuel) :
    Ends calm (parseKeyAndValueFromXmlLite fuel disablable st s xmlPath true) fun r =>
      Onward s r.2.2 ∧ (r.2.2.xmlParsingError = false →
        s.currentPos.p < r.2.2.currentPos.p ∧ r.2.1.keyTmp.isDefined) := by
  refine ends_bind (returns_parseKey disablable xmlPath hs hfuel).ends ?_
  rintro ⟨b, key, s1⟩ ⟨⟨h1, hlt⟩, hfalse, htrue⟩
  cases b with
  | false =>
    refine ends_ok ⟨h1, fun hlatch => ?_⟩
    have hreported : s1.xmlParsingError = true := (hfalse rfl).2
    exact absurd hlatch (by simp [hreported])
  | true =>
    refine ends_bind (h.parse xmlPath h1.located (h1.fuel hfuel) fun _ => h.new) ?_
    rintro ⟨b, v, s2⟩ ⟨⟨h2, -⟩, -⟩
    exact ends_ok ⟨h1.trans h2, fun _ => ⟨lt_of_lt_of_le (hlt rfl) h2.le, htrue rfl⟩⟩

theorem onward_endEntry (h : c.Contract) (st : RepeatingDictState c) (keyPos : XmlParserPosition)
    (value : Option c.State)
    (hs : s.Located) :
    Onward s (endEntry ignoreCommented xmlPath true keyPos value st s).2 := by
  unfold endEntry
  dsimp only
  split
  · split
    · split
      · exact Onward.refl hs
      · next v =>
        obtain ⟨h1, -⟩ := h.validate v hs (xmlPath ++ lit "/" ++ st.keyTmp.value.xstring8)
          keyPos true
        split
        · exact h1
        · exact h1
    · exact Onward.refl hs
  · dsimp only
    exact (Onward.refl hs).addWarning

/-- One pass: the loop is left, or the next one starts behind this one. -/
theorem ends_pass (h : c.Contract) (n : Nat) (hs : s.Located) (hfuel : s.size < fuel) :
    Ends calm (pass fuel disablable ignoreCommented xmlPath true ((n, st), s))
      (Advances s (fun _ => True) (fun _ => True)) := by
  refine ends_bind (returns_nextTagIs (lit "dict") false hs hfuel).ends ?_
  rintro ⟨closing, s1⟩ h1
  cases closing with
  | true => exact ends_ok ⟨h1, trivial⟩
  | false =>
    refine ends_bind
      (ends_parseKeyAndValueFromXmlLite disablable _ h h1.located (h1.fuel hfuel)) ?_
    rintro ⟨value, st2, s2⟩ ⟨h2, hread⟩
    dsimp only at h2 hread
    have h12 := h1.trans h2
    cases hlatch : s2.xmlParsingError with
    | true =>
      simp only [hlatch, if_true]
      exact ends_ok ⟨h12, trivial⟩
    | false =>
      obtain ⟨hlt, hdefined⟩ := hread hlatch
      simp only [hlatch, hdefined, Bool.not_true, Bool.false_eq_true, if_false]
      have h3 := onward_endEntry ignoreCommented xmlPath h st2 s1.currentPos value h2.located
      refine ends_ok ⟨h12.trans h3, ?_, trivial⟩
      exact lt_of_le_of_lt h1.le (lt_of_lt_of_le hlt h3.le)

theorem ends_parseFromXmlLite (h : c.Contract) (hs : s.Located) (hfuel : s.size < fuel) :
    Ends calm (parseFromXmlLite fuel disablable ignoreCommented st s xmlPath true) (Moves s) := by
  unfold parseFromXmlLite
  obtain ⟨st1, s1, heq, h1, hundefined⟩ := warned_spec xmlPath hs
    (P := fun st : RepeatingDictState c => st.isDefined = false)
    st { st with isDefined := false, valueArray := [] } rfl fun hd => hd
  simp only [heq, hundefined, Bool.false_eq_true, if_false]
  refine (ends_enclosed (J := fun _ => True) (lit "dict")
    (fun s => Run.loop (pass fuel disablable ignoreCommented xmlPath true) fuel
      ((0, { st1 with isDefined := true }), s)) id h1 hfuel trivial
    fun s2 hs2 hfuel2 => ?_).mono fun r hr => hr.1
  refine ends_passes (I := fun _ => True) (J := fun _ => True) ?_ hs2 hfuel2 trivial
  exact fun x s hs hfuel _ => ends_pass disablable ignoreCommented xmlPath h x.1 hs hfuel

end XmlRepeatingDict

/-- A repeating dictionary is always consistent: keys and values are parsed into new objects. -/
def repeatingDictContract (disablable ignoreCommented : Bool) {c : XmlClass} (h : c.Contract) :
    (repeatingDictClass disablable ignoreCommented c).Contract where
  Inv _ := True
  Ready _ := True
  inv_of_ready := id
  ready_of_undefined h _ := h
  new := trivial
  reset := id
  getDescription := id
  isTheNextTag hs hfuel hst :=
    ends_bind (returns_nextTagIs (lit "dict") true hs hfuel).ends fun _ h₁ => ends_ok ⟨h₁, hst⟩
  parse xmlPath hs hfuel _ :=
    (XmlRepeatingDict.ends_parseFromXmlLite disablable ignoreCommented xmlPath h hs hfuel).mono
      fun _ hr => ⟨hr, fun _ => ⟨trivial, fun _ => trivial⟩⟩
  validate _ _ hs _ _ _ := ⟨Onward.refl hs, id, id⟩

/-! ## Unions -/

namespace XmlUnion

variable {members : List XmlClass} {calm : Prop} {st : UnionState members}
  (xmlPath : Bytes) (h : ∀ i, (members.get i).Contract) (is : List (Fin members.length))

/-- Nothing has been read: every member can be parsed. -/
def Ready (st : UnionState members) : Prop :=
  st.isDefined = false ∧ ∀ i, (h i).Ready (st.member i)

/-- Every member is consistent, and they can all be parsed until one has been. -/
def Inv (st : UnionState members) : Prop :=
  (∀ i, (h i).Inv (st.member i)) ∧ (st.isDefined = false → ∀ i, (h i).Ready (st.member i))

variable {h} in
theorem Ready.inv (hst : Ready h st) : Inv h st :=
  ⟨fun i => (h i).inv_of_ready (hst.2 i), fun _ => hst.2⟩

variable {h} in
theorem Ready.setMember (hst : Ready h st) {i : Fin members.length}
    {v : (members.get i).State} (hv : (h i).Ready v) : Ready h (setMember st i v) :=
  ⟨hst.1, forall_update (P := fun j v => (h j).Ready v) hst.2 hv⟩

theorem ready_describe : ∀ {st : UnionState members}, Ready h st → Ready h (describe is st) := by
  induction is with
  | nil => exact id
  | cons i is ih =>
    intro st hst
    have hset := hst.setMember ((h i).getDescription (hst.2 i))
    exact ih ⟨hset.1, hset.2⟩

theorem ready_getDescription (overriding : Option Bytes) (hst : Ready h st) :
    Ready h (getDescription overriding st).2 := by
  cases overriding with
  | some text => exact hst
  | none => exact ready_describe h _ hst

theorem ends_findMember :
    ∀ {st : UnionState members} {s : XmlLiteParser}, s.Located → s.size < fuel →
      (calm → Ready h st) →
      Ends calm (findMember fuel is st s) fun r => Onward s r.2.2 ∧ (calm → Ready h r.2.1) := by
  induction is with
  | nil =>
    intro st s hs _ hst
    exact ends_ok ⟨Onward.refl hs, hst⟩
  | cons i is ih =>
    intro st s hs hfuel hst
    refine ends_bind ((h i).isTheNextTag hs hfuel fun hcalm => (hst hcalm).2 i) ?_
    rintro ⟨b, v, s1⟩ ⟨h1, hv⟩
    have hst1 : calm → Ready h (setMember st i v) :=
      fun hcalm => (hst hcalm).setMember (hv hcalm)
    cases b with
    | true => exact ends_ok ⟨h1, hst1⟩
    | false =>
      exact (ih h1.located (h1.fuel hfuel) hst1).mono fun r hr => ⟨h1.trans hr.1, hr.2⟩

theorem ends_parseFromXmlLite (overriding : Option Bytes) (hs : s.Located)
    (hfuel : s.size < fuel) (hst : calm → Ready h st) :
    Ends calm (parseFromXmlLite fuel overriding st s xmlPath true) fun r =>
      Moves s r ∧ (calm → Inv h r.2.1 ∧ (r.1 = false → Ready h r.2.1)) := by
  refine ends_bind (ends_findMember h _ hs hfuel hst) ?_
  rintro ⟨i, st1, s1⟩ ⟨h1, hst1⟩
  have hrefused : ∀ {st' : UnionState members}, Ready h st' → Inv h st' ∧ (false = false →
      Ready h st') := fun hst' => ⟨hst'.inv, fun _ => hst'⟩
  cases i with
  | none =>
    exact ends_ok ⟨moves_false h1.addError,
      fun hcalm => hrefused (ready_getDescription h overriding (hst1 hcalm))⟩
  | some i =>
    refine ends_bind
      ((h i).parse xmlPath h1.located (h1.fuel hfuel) fun hcalm => (hst1 hcalm).2 i) ?_
    rintro ⟨b, v, s2⟩ ⟨hmoves, hv⟩
    cases b with
    | false =>
      refine ends_ok ⟨moves_false (h1.trans hmoves.1), fun hcalm => hrefused ?_⟩
      exact (hst1 hcalm).setMember ((hv hcalm).2 rfl)
    | true =>
      simp only [Bool.not_true, Bool.false_eq_true, if_false]
      split
      · next hdefined =>
        -- a union that can be parsed is not defined
        refine ends_panic fun hcalm => ?_
        have hundefined : (setMember st1 i v).isDefined = false := (hst1 hcalm).1
        exact absurd hdefined (by simp [hundefined])
      · refine ends_ok ⟨Moves.trans h1 hmoves, fun hcalm => ⟨⟨?_, ?_⟩, ?_⟩⟩
        · exact forall_update (P := fun j v => (h j).Inv v) (hst1 hcalm).inv.1 (hv hcalm).1
        · exact nofun
        · exact nofun

theorem validateMembers_spec (pos : XmlParserPosition) (g : Bool)
    (is : List (Fin members.length)) :
    ∀ (st : UnionState members) {s : XmlLiteParser}, s.Located →
      Onward s (validateMembers xmlPath pos g is st s).2.2 ∧
      (Inv h st → Inv h (validateMembers xmlPath pos g is st s).2.1) ∧
      (Ready h st → Ready h (validateMembers xmlPath pos g is st s).2.1) := by
  induction is with
  | nil =>
    intro st s hs
    exact ⟨Onward.refl hs, id, id⟩
  | cons i is ih =>
    intro st s hs
    unfold validateMembers
    split
    · obtain ⟨h1, hinv, hready⟩ := (h i).validate (st.member i) hs xmlPath pos g
      generalize (members.get i).validate (st.member i) s xmlPath pos g = r at h1 hinv hready
      obtain ⟨b, v, s1⟩ := r
      have hinv1 : Inv h st → Inv h (setMember st i v) := fun hst =>
        ⟨forall_update (P := fun j v => (h j).Inv v) hst.1 (hinv (hst.1 i)), fun hd =>
          forall_update (P := fun j v => (h j).Ready v) (hst.2 hd) (hready (hst.2 hd i))⟩
      have hready1 : Ready h st → Ready h (setMember st i v) := fun hst =>
        hst.setMember (hready (hst.2 i))
      dsimp only at h1 ⊢
      split
      · obtain ⟨h2, hinv2, hready2⟩ := ih (setMember st i v) h1.located
        exact ⟨h1.trans h2, fun hst => hinv2 (hinv1 hst), fun hst => hready2 (hready1 hst)⟩
      · exact ⟨h1, hinv1, hready1⟩
    · exact ih st hs

end XmlUnion

def unionContract (overriding : Option Bytes) {first : XmlClass} {others : List XmlClass}
    (h : ∀ i, ((first :: others).get i).Contract) :
    (unionClass overriding first others).Contract where
  Inv := XmlUnion.Inv h
  Ready := XmlUnion.Ready h
  inv_of_ready := XmlUnion.Ready.inv
  ready_of_undefined hst hd := ⟨hd, hst.2 hd⟩
  new := ⟨rfl, fun i => (h i).new⟩
  reset hst := ⟨rfl, fun i => (h i).reset (hst.1 i)⟩
  getDescription := XmlUnion.ready_getDescription h overriding
  isTheNextTag hs hfuel hst :=
    ends_bind (XmlUnion.ends_findMember h _ hs hfuel hst) fun _ hr => ends_ok hr
  parse xmlPath hs hfuel hst := XmlUnion.ends_parseFromXmlLite xmlPath h overriding hs hfuel hst
  validate st _ hs xmlPath pos g := XmlUnion.validateMembers_spec xmlPath h pos g _ st hs

/-! ## Schemas -/

mutual

/-- Every class of the schemas keeps the contract. -/
theorem XmlSchema.contract : ∀ x : XmlSchema, Nonempty x.toClass.Contract
  | .scalar c => ⟨scalarContract c.tame⟩
  | .dict fields =>
    ⟨dictContract fun i => (XmlSchema.contract_toFields fields _ (get_mem _ i)).some⟩
  | .array element => (XmlSchema.contract element).map arrayContract
  | .repeatingDict disablable ignoreCommented value =>
    (XmlSchema.contract value).map (repeatingDictContract disablable ignoreCommented)
  | .union description first others => by
    have hall : ∀ c ∈ first.toClass :: XmlSchema.toClasses others, Nonempty c.Contract := by
      intro c hc
      rcases mem_cons.mp hc with rfl | hc
      · exact XmlSchema.contract first
      · exact XmlSchema.contract_toClasses others c hc
    exact ⟨unionContract description fun i => (hall _ (get_mem _ i)).some⟩

theorem XmlSchema.contract_toFields :
    ∀ (fields : List (Bytes × XmlSchema)), ∀ f ∈ XmlSchema.toFields fields,
      Nonempty f.2.Contract
  | [], _, hf => absurd hf not_mem_nil
  | (name, x) :: fields, f, hf => by
    rcases mem_cons.mp hf with rfl | hf
    · exact XmlSchema.contract x
    · exact XmlSchema.contract_toFields fields f hf

theorem XmlSchema.contract_toClasses :
    ∀ (xs : List XmlSchema), ∀ c ∈ XmlSchema.toClasses xs, Nonempty c.Contract
  | [], _, hc => absurd hc not_mem_nil
  | x :: xs, c, hc => by
    rcases mem_cons.mp hc with rfl | hc
    · exact XmlSchema.contract x
    · exact XmlSchema.contract_toClasses xs c hc

end

/-! ## Whole configurations -/

theorem init_spec (previous : XmlLiteParser) (buf : Bytes) :
    (previous.init buf).currentPos = ⟨0, 1, 1⟩ ∧ (previous.init buf).size = buf.length := by
  refine foldlRecOn (motive := fun s : XmlLiteParser =>
    s.currentPos = ⟨0, 1, 1⟩ ∧ s.size = buf.length) _ _ ⟨rfl, rfl⟩ ?_
  rintro s ⟨hpos, hsize⟩ i -
  unfold replaceZero
  split
  · refine ⟨hpos, ?_⟩
    show (s.buf.set i 0x20).length = buf.length
    rw [length_set]
    exact hsize
  · exact ⟨hpos, hsize⟩

theorem located_init (previous : XmlLiteParser) (buf : Bytes) : (previous.init buf).Located := by
  obtain ⟨hpos, -⟩ := init_spec previous buf
  refine ⟨?_, ?_⟩
  · rw [hpos]
    rfl
  · rw [hpos]
    exact Nat.zero_le _

theorem returns_parseConfig {c : XmlClass} (h : c.Contract) (xmlPath : Bytes) (hs : s.Located)
    (hfuel : s.size < fuel) :
    Returns (parseConfig fuel c c.new s xmlPath) fun r => Onward s r.2.2 := by
  refine returns_bind (returns_moveForwardUntilSignificant hs hfuel) ?_
  rintro ⟨_, s1⟩ h1
  refine returns_bind (returns_skipHeader h1.located (h1.fuel hfuel)) fun s2 h2 => ?_
  have h12 := h1.trans h2
  have hparse : Ends True (c.parseFromXmlLite fuel c.new s2 xmlPath true) _ :=
    h.parse xmlPath h2.located (h12.fuel hfuel) fun _ => h.new
  refine returns_bind (hparse.returns trivial) ?_
  rintro ⟨b, st, s3⟩ ⟨⟨h3, -⟩, -⟩
  have h13 := h12.trans h3
  cases b with
  | false => exact returns_ok h13
  | true => exact returns_ok (h13.trans (h.validate st h3.located xmlPath s2.currentPos true).1)

/-- Parsing ends, for every schema and every buffer, with the position in the buffer. Each pass
of the loops over the entries of a dictionary, the elements of an array and the entries of a
repeating dictionary leaves or advances, and so does each call of `skipUntilClosingTag`; the
depth of these calls is bounded by what is left of the buffer. -/
theorem parse_terminates (x : XmlSchema) (previous : XmlLiteParser) (buf xmlPath : Bytes)
    (fuel : Nat) (hfuel : buf.length < fuel) :
    (∃ b st s, parseBuffer fuel x.toClass x.toClass.new previous buf xmlPath = .ok (b, st, s) ∧
      s.size = buf.length ∧ s.currentPos.p ≤ s.size) ∧
    ∀ s : XmlLiteParser, s.Located → s.size = buf.length →
      (∀ fields (st : DictState (XmlSchema.toFields fields)),
        Ends False (XmlDict.pass fuel xmlPath true (st, s))
          (Advances s (fun _ => True) (fun _ => True))) ∧
      (∀ (element : XmlSchema) n (st : ArrayState element.toClass),
        Ends False (XmlArray.pass fuel xmlPath true ((n, st), s))
          (Advances s (fun _ => True) (fun _ => True))) ∧
      (∀ disablable ignoreCommented (value : XmlSchema) n (st : RepeatingDictState value.toClass),
        Ends False (XmlRepeatingDict.pass fuel disablable ignoreCommented xmlPath true ((n, st), s))
          (Advances s (fun _ => True) (fun _ => True))) ∧
      (∀ depth tag generateErrors, s.size - s.currentPos.p < depth →
        Returns (skipUntilClosingTag fuel depth s tag generateErrors)
          (Skips s generateErrors)) := by
  refine ⟨?_, fun s hs hsize => ?_⟩
  · obtain ⟨h⟩ := x.contract
    obtain ⟨-, hsize⟩ := init_spec previous buf
    have hfuel₁ : (previous.init buf).size < fuel := by rwa [hsize]
    obtain ⟨⟨b, st, s⟩, hrun, honward⟩ := returns_parseConfig h xmlPath
      (located_init previous buf) hfuel₁
    refine ⟨b, st, s, hrun, ?_, honward.located.le⟩
    rw [← hsize]
    exact honward.size
  · have hfuel₁ : s.size < fuel := by rwa [hsize]
    -- nothing is assumed of the objects, so a pass may also meet a fatal error
    refine ⟨fun fields st => ?_, fun element n st => ?_,
      fun disablable ignoreCommented value n st => ?_, fun depth tag g hdepth => ?_⟩
    · have h := fun i => (XmlSchema.contract_toFields fields _ (get_mem _ i)).some
      exact (XmlDict.ends_pass xmlPath h hs hfuel₁ False.elim).mono fun p hp => hp.weaken
    · obtain ⟨h⟩ := element.contract
      exact (XmlArray.ends_pass xmlPath h n hs hfuel₁ False.elim).mono fun p hp => hp.weaken
    · obtain ⟨h⟩ := value.contract
      exact XmlRepeatingDict.ends_pass disablable ignoreCommented xmlPath h n hs hfuel₁
    · exact returns_skipUntilClosingTag hfuel₁ depth s (Onward.refl hs) hdepth tag

theorem parse_terminates_sample :
    (lit "<dict><key>A</key><integer>").length < 100 ∧
      ∃ b st s, parseBuffer 100 (XmlSchema.dict [(lit "A", .scalar (.integer .uint8))]).toClass
        (XmlSchema.dict [(lit "A", .scalar (.integer .uint8))]).toClass.new new
        (lit "<dict><key>A</key><integer>") [] = .ok (b, st, s) ∧
        s.size = (lit "<dict><key>A</key><integer>").length ∧ s.currentPos.p ≤ s.size := by
  have hfuel : (lit "<dict><key>A</key><integer>").length < 100 := by decide
  exact ⟨hfuel, (parse_terminates _ _ _ _ 100 hfuel).1⟩

end Clover.Xml
