import Clover.Xml.Stray
import Clover.Xml.Values
import Clover.Xml.Termination

/-!
# What becomes of an element

What a class makes of an element does not depend on where the element stands: it returns the
same, leaves the object in the same state, and leaves the cursor behind the element, before it,
or inside of it (`Ending`). The loop of a repeating dictionary alone looks at the latch; what is
said `free` of the latch holds whether it is set or not.

As long as there are no messages, every class `Settles` every element: it is read without one and
left behind, or there is a message.
-/

namespace Clover.Xml

open Clover.Lib Clover.Lib.Run XmlLiteParser List

variable {e : Element} {loud : Bool} {σ : Type}

/-- Where reading an element leaves the cursor. -/
inductive Ending where
  /-- Behind the element, and perhaps behind white space that follows it. -/
  | past
  /-- Before the element, where it was. -/
  | stays
  /-- Before the first child of the element. -/
  | inside
  deriving DecidableEq, Repr

/-- The text `u` is left after reading the element `e` with `w` before it and `t` behind it. -/
def Ending.At (w : Blank) (e : Element) (t u : Bytes) : Ending → Prop
  | .past => ∃ w' : Blank, t = w'.val ++ u
  | .stays => u = w.val ++ e.write t
  | .inside => ∃ n w' e' cs, e = .node n (.cons w' e' cs) ∧ u = e'.write (cs.write (closing n t))

theorem Ending.At.suffix {ending : Ending} {w : Blank} {t u : Bytes} (h : ending.At w e t u) :
    u <:+ w.val ++ e.write t := by
  cases ending with
  | past =>
    obtain ⟨w', rfl⟩ := h
    exact ((suffix_append _ _).trans (e.suffix_write _)).trans (suffix_append _ _)
  | stays => rw [h]
  | inside =>
    obtain ⟨n, w', e', cs, rfl, rfl⟩ := h
    have hinside : e'.write (cs.write (closing n t)) <:+
        (Element.node n (.cons w' e' cs)).inside t := by
      exact suffix_append _ _
    exact (hinside.trans (Element.inside_suffix _ t)).trans (suffix_append _ _)

/-- What reading an element comes to. -/
structure Reading (σ : Type) where
  returned : Bool
  state : σ
  /-- There are messages. -/
  loud : Bool
  ending : Ending

/-- Only an element that is left behind is read without a message. -/
def Reading.Proper {σ : Type} (r : Reading σ) : Prop := r.ending ≠ .past → r.loud = true

/-- The text `t` is left of the buffer, the bound on the passes is large enough and, unless we
are free of it, the latch is not set. -/
structure Scene (free : Bool) (fuel : Nat) (a : XmlLiteParser) (t : Bytes) : Prop where
  fuel : a.size < fuel
  suffix : t <:+ a.buf
  latch : free = false → a.xmlParsingError = false

namespace Scene

variable {free loud : Bool} {fuel : Nat} {a a' : XmlLiteParser} {t u : Bytes}

theorem mono (h : Scene free fuel a t) (hu : u <:+ t) : Scene free fuel a u :=
  ⟨h.fuel, hu.trans h.suffix, h.latch⟩

theorem noted (h : Scene free fuel a t) (hn : Noted loud a a') (hl : free = false → loud = false) :
    Scene free fuel a' t := by
  refine ⟨?_, ?_, fun hfree => ?_⟩
  · show a'.buf.length < fuel
    rw [hn.buf]
    exact h.fuel
  · rw [hn.buf]
    exact h.suffix
  · rw [hn.quiet (hl hfree)]
    exact h.latch hfree

theorem alone (free : Bool) (t : Bytes) : Scene free (t.length + 1) ⟨t, ⟨0, 1, 1⟩, [], false⟩ t :=
  ⟨Nat.lt_succ_self _, suffix_refl _, fun _ => rfl⟩

end Scene

/-- Messages are left, if the run returns at all. -/
def Alarms {σ : Type} (x : Run (Bool × σ × XmlLiteParser)) : Prop :=
  Safe x fun r => r.2.2.xmlParserMessageArray ≠ []

theorem alarms_of_onward {x : Run (Bool × σ × XmlLiteParser)} {s : XmlLiteParser}
    {P : Bool × σ × XmlLiteParser → Prop} (hs : s.xmlParserMessageArray ≠ [])
    (h : Ends False x P) (hP : ∀ r, P r → Onward s r.2.2) : Alarms x := by
  match x, h with
  | .ok r, h => exact (hP r h).messages_ne_nil hs
  | .error (.panic _), _ => trivial

namespace XmlClass

variable (c : XmlClass)

/-- Wherever the element stands, reading it comes to `r`. -/
def ReadsAs (free : Bool) (e : Element) (st : c.State) (r : Reading c.State) : Prop :=
  ∀ (fuel : Nat) (a : XmlLiteParser) (w : Blank) (t xmlPath : Bytes),
    Scene free fuel a (w.val ++ e.write t) → Follows t →
    ∃ a' u, c.parseFromXmlLite fuel st (a.before (w.val ++ e.write t)) xmlPath true =
        .ok (r.returned, r.state, a'.before u) ∧
      Noted r.loud a a' ∧ r.ending.At w e t u

/-- Wherever the element stands, reading it leaves a message. -/
def Derails (e : Element) (st : c.State) : Prop :=
  ∀ (fuel : Nat) (a : XmlLiteParser) (w : Blank) (t xmlPath : Bytes),
    Scene false fuel a (w.val ++ e.write t) → Follows t →
    Alarms (c.parseFromXmlLite fuel st (a.before (w.val ++ e.write t)) xmlPath true)

/-- Wherever the element stands, it is read without messages, or there is one. -/
def Settles (e : Element) (st : c.State) : Prop :=
  (∃ b st', c.ReadsAs false e st ⟨b, st', false, .past⟩) ∨ c.Derails e st

end XmlClass

variable {c : XmlClass} {free : Bool} {r : Reading c.State} {st : c.State}

theorem XmlClass.ReadsAs.derails (h : c.ReadsAs false e st r) (hloud : r.loud = true) :
    c.Derails e st := by
  intro fuel a w t xmlPath hscene hfollows
  obtain ⟨a', u, hrun, hnoted, -⟩ := h fuel a w t xmlPath hscene hfollows
  rw [hrun]
  exact hnoted.messages hloud

theorem XmlClass.ReadsAs.settles (h : c.ReadsAs false e st r) (hr : r.Proper) : c.Settles e st := by
  obtain ⟨b, st', loud, ending⟩ := r
  cases loud with
  | true => exact Or.inr (h.derails rfl)
  | false =>
    obtain rfl : ending = .past := by
      by_contra hne
      exact Bool.noConfusion (hr hne)
    exact Or.inl ⟨b, st', h⟩

/-- Where the element stands alone, the contract of the class tells about the object. -/
theorem XmlClass.ReadsAs.spec (h : c.Contract) (hr : c.ReadsAs free e st r) (hst : h.Ready st) :
    h.Inv r.state ∧ (r.returned = false → h.Ready r.state) := by
  have hscene : Scene free _ _ (noGap.val ++ e.write []) := Scene.alone free (e.write [])
  obtain ⟨a', u, hrun, -, -⟩ := hr _ _ noGap [] [] hscene (Or.inl rfl)
  have hlocated := located_before ⟨e.write [], ⟨0, 1, 1⟩, [], false⟩ (noGap.val ++ e.write [])
  have hends : Ends True _ _ := h.parse [] hlocated hscene.fuel fun _ => hst
  rw [hrun] at hends
  exact hends.2 trivial

/-- What is known of the outcomes of a class; `takes` says of which elements it takes them for its
own. -/
structure XmlClass.Outcomes (c : XmlClass) (h : c.Contract) (takes : Element → Bool) : Prop where
  parse : ∀ (e : Element) {st : c.State}, h.Ready st → c.Settles e st
  isTheNextTag : ∀ (e : Element) (st : c.State), h.Ready st → ∃ st' loud, h.Ready st' ∧
    ∀ (fuel : Nat) (a : XmlLiteParser) (w : Blank) (t : Bytes), a.size < fuel →
      w.val ++ e.write t <:+ a.buf → Follows t →
      ∃ a', c.isTheNextTag fuel st (a.before (w.val ++ e.write t)) =
          .ok (takes e, st', a'.before (w.val ++ e.write t)) ∧ Noted loud a a'
  /-- Where there is no element, a message is left. -/
  parse_stray : ∀ (fuel : Nat) (a : XmlLiteParser) (v : Bytes) (n : TagName)
    (t xmlPath : Bytes) (st : c.State), a.size < fuel → v ++ closing n t <:+ a.buf →
    chLt ∉ v → Alarms (c.parseFromXmlLite fuel st (a.before (v ++ closing n t)) xmlPath true)
  isTheNextTag_stray : ∀ (fuel : Nat) (a : XmlLiteParser) (v : Bytes) (n : TagName)
    (t : Bytes) (st : c.State), a.size < fuel → v ++ closing n t <:+ a.buf → chLt ∉ v →
    Safe (c.isTheNextTag fuel st (a.before (v ++ closing n t))) fun r =>
      ∃ (a' : XmlLiteParser) (v' : Bytes), a'.buf = a.buf ∧ chLt ∉ v' ∧
        v' ++ closing n t <:+ a.buf ∧ r.2.2 = a'.before (v' ++ closing n t)
  validate : ∀ st : c.State, ∃ b st' loud,
    ∀ (a : XmlLiteParser) (t xmlPath : Bytes) (pos : XmlParserPosition),
      ∃ a', c.validate st (a.before t) xmlPath pos true = (b, st', a'.before t) ∧ Noted loud a a'

/-! ## Scalars -/

section Scalars

variable {t : ScalarType} {fuel : Nat} {a : XmlLiteParser} {w : Blank} {e : Element}
  {u : Bytes} (xmlPath : Bytes) {g : Bool}

/-- The object that `warningIfDefined` leaves. -/
def ScalarType.undefined (t : ScalarType) (v : Scalar t.Value) : Scalar t.Value :=
  if v.isDefined then ⟨false, t.zero⟩ else v

theorem isDefined_reset {st empty : σ} (isDefined : σ → Bool)
    (h : isDefined empty = false) : isDefined (if isDefined st then empty else st) = false := by
  split
  · exact h
  · next hd => exact Bool.eq_false_iff.mpr hd

theorem ScalarType.undefined_isDefined (v : Scalar t.Value) : (t.undefined v).isDefined = false :=
  isDefined_reset Scalar.isDefined rfl

theorem warningIfDefined_before (v : Scalar t.Value) (a : XmlLiteParser) (u xmlPath : Bytes) :
    ∃ a', t.warningIfDefined v (a.before u) xmlPath = (t.undefined v, a'.before u) ∧
      Noted v.isDefined a a' := by
  unfold ScalarType.warningIfDefined ScalarType.undefined warnDefined
  cases v.isDefined with
  | true =>
    exact ⟨_, rfl, noted_addWarning a true _ _⟩
  | false => exact ⟨a, rfl, Noted.refl a⟩

/-- What is returned and what becomes of an undefined object when `o` is stored. -/
def Scalar.outcome {α : Type} (v : Scalar α) : Option (Stored α) → Bool × Scalar α
  | none => (false, v)
  | some s => (s.returned, if s.defines then ⟨true, s.value⟩ else { v with value := s.value })

variable (v : Scalar t.Value) {o : Option (Stored t.Value)}

theorem parseSimple_simple {v : Scalar t.Value} {x : Bytes}
    (hv : v.isDefined = false) (hx : e.simple = some x)
    (hmade : MadeOf t.content e.tag.val x o loud) (pos : XmlParserPosition)
    (h : w.val ++ e.write u <:+ a.buf) (hfuel : a.size < fuel) :
    ∃ a', t.parseSimple fuel v (a.before (w.val ++ e.write u)) xmlPath g pos =
        .ok ((v.outcome o).1, (v.outcome o).2, a'.before u) ∧ Noted (loud && g) a a' := by
  have hwrite : e.write u <:+ a.buf := (suffix_append _ _).trans h
  have hvalue : x ++ e.close u <:+ a.buf := by
    rw [← Element.inside_eq hx]
    exact (e.inside_suffix u).trans hwrite
  obtain ⟨a', hnoted, hcontent⟩ := hmade a g u (e.tail u) (e.close u) xmlPath pos
    ((e.tail_suffix u).trans hwrite) hvalue (Element.closed hx u)
  have hany : ∀ y ∈ (none : Option Bytes), e.tag.val = y := nofun
  refine ⟨a', ?_, hnoted⟩
  unfold ScalarType.parseSimple
  simp only [getSimpleTag_simple hx hany h hfuel, ok_bind, hcontent]
  obtain ⟨isDefined, value⟩ := v
  subst hv
  match o with
  | none => rfl
  | some ⟨_, true, _⟩ => rfl
  | some ⟨_, false, _⟩ => rfl

theorem parseSimple_children {v : Scalar t.Value} (hx : e.simple = none)
    (pos : XmlParserPosition) (h : w.val ++ e.write u <:+ a.buf) (hfuel : a.size < fuel) :
    ∃ a' u', t.parseSimple fuel v (a.before (w.val ++ e.write u)) xmlPath g pos =
        .ok (false, v, a'.before u') ∧ Noted g a a' ∧ Ending.inside.At w e u u' := by
  obtain ⟨n, w', e', cs, rfl⟩ := Element.exists_of_simple_eq_none hx
  have hnone : ∀ y ∈ (none : Option Bytes), n.val = y := nofun
  obtain ⟨format, args, hrun⟩ := getSimpleTag_children (g := g) hnone h hfuel
  refine ⟨_, _, ?_, noted_addXmlError a g format args, n, w', e', cs, rfl, rfl⟩
  unfold ScalarType.parseSimple
  simp [hrun]

theorem nextTagIsAny_element (tags : List Bytes) (h : w.val ++ e.write u <:+ a.buf)
    (hfuel : a.size < fuel) :
    nextTagIsAny fuel (a.before (w.val ++ e.write u)) tags =
      .ok (decide (e.tag.val ∈ tags), a.before (w.val ++ e.write u)) := by
  induction tags with
  | nil => rfl
  | cons tag tags ih =>
    unfold nextTagIsAny nextTagIsOpeningTag
    simp only [nextTagIs_element true h hfuel, ok_bind, Bool.and_true, ih, mem_cons]
    by_cases htag : e.tag.val = tag
    · simp [htag]
    · simp [htag]

theorem skipUnexpected_element {v : Scalar t.Value} (pos : XmlParserPosition)
    (h : w.val ++ e.write u <:+ a.buf) (hfollows : Follows u) (hfuel : a.size < fuel) :
    ∃ a', t.skipUnexpected fuel v (a.before (w.val ++ e.write u)) g pos =
        .ok (false, v, a'.before (dropBlank u)) ∧ Noted g a a' := by
  refine ⟨_, ?_, noted_addError a g "Expecting boolean value at line %d." [.int pos.line]⟩
  unfold ScalarType.skipUnexpected
  simp [skipNextTag_element h hfollows hfuel, before_addError]

/-- The element is one that the type reads, if it has no children. -/
def ScalarType.expects (t : ScalarType) (e : Element) : Bool :=
  match t.expected with
  | none => true
  | some tags => decide (e.tag.val ∈ tags)

/-- Where reading an element leaves the cursor. -/
def ScalarType.ending (t : ScalarType) (e : Element) : Ending :=
  if t.expects e ∧ e.simple = none then .inside else .past

theorem parseFromXmlLite_expected {v : Scalar t.Value} (hexpects : t.expects e = true)
    (h : w.val ++ e.write u <:+ a.buf) (hfuel : a.size < fuel) :
    ∃ a' pos, Noted v.isDefined a a' ∧
      t.parseFromXmlLite fuel v (a.before (w.val ++ e.write u)) xmlPath g =
        t.parseSimple fuel (t.undefined v) (a'.before (w.val ++ e.write u)) xmlPath g pos := by
  obtain ⟨a', hwarn, hnoted⟩ := warningIfDefined_before v a (w.val ++ e.write u) xmlPath
  have h' : w.val ++ e.write u <:+ a'.buf := by rwa [hnoted.buf]
  have hfuel' : a'.size < fuel := by
    show a'.buf.length < fuel
    rwa [hnoted.buf]
  refine ⟨a', (a'.before (w.val ++ e.write u)).currentPos, hnoted, ?_⟩
  unfold ScalarType.parseFromXmlLite
  simp only [hwarn]
  unfold ScalarType.expects at hexpects
  cases hexpected : t.expected with
  | none => rfl
  | some tags =>
    rw [hexpected] at hexpects
    dsimp only at hexpects ⊢
    rw [nextTagIsAny_element tags h' hfuel', ok_bind, hexpects]
    rfl

theorem Scene.of_noted_fuel {a' : XmlLiteParser} (hn : Noted loud a a') (hfuel : a.size < fuel) :
    a'.size < fuel := by
  show a'.buf.length < fuel
  rwa [hn.buf]

theorem parse_simple {v : Scalar t.Value} {x : Bytes}
    (hexpects : t.expects e = true) (hx : e.simple = some x)
    (hmade : MadeOf t.content e.tag.val x o loud) (h : w.val ++ e.write u <:+ a.buf)
    (hfuel : a.size < fuel) :
    ∃ a', t.parseFromXmlLite fuel v (a.before (w.val ++ e.write u)) xmlPath g =
        .ok (((t.undefined v).outcome o).1, ((t.undefined v).outcome o).2, a'.before u) ∧
      Noted (v.isDefined || (loud && g)) a a' := by
  obtain ⟨a1, pos, hnoted1, hrun⟩ :=
    parseFromXmlLite_expected (v := v) xmlPath (g := g) hexpects h hfuel
  obtain ⟨a2, hsimple, hnoted2⟩ := parseSimple_simple xmlPath (g := g)
    (t.undefined_isDefined v) hx hmade pos (hnoted1.buf ▸ h) (Scene.of_noted_fuel hnoted1 hfuel)
  exact ⟨a2, hrun.trans hsimple, hnoted1.trans hnoted2⟩

/-- An element with children: the cursor is left inside of it. -/
theorem parse_children {v : Scalar t.Value} (hexpects : t.expects e = true)
    (hx : e.simple = none) (h : w.val ++ e.write u <:+ a.buf) (hfuel : a.size < fuel) :
    ∃ a' u', t.parseFromXmlLite fuel v (a.before (w.val ++ e.write u)) xmlPath g =
        .ok (false, t.undefined v, a'.before u') ∧
      Noted (v.isDefined || g) a a' ∧ Ending.inside.At w e u u' := by
  obtain ⟨a1, pos, hnoted1, hrun⟩ :=
    parseFromXmlLite_expected (v := v) xmlPath (g := g) hexpects h hfuel
  obtain ⟨a2, u', hsimple, hnoted2, hinside⟩ := parseSimple_children xmlPath (g := g)
    hx pos (hnoted1.buf ▸ h) (Scene.of_noted_fuel hnoted1 hfuel)
  exact ⟨a2, u', hrun.trans hsimple, hnoted1.trans hnoted2, hinside⟩

/-- A value with another tag is skipped. -/
theorem parse_unexpected {v : Scalar t.Value} (hexpects : t.expects e = false)
    (h : w.val ++ e.write u <:+ a.buf) (hfollows : Follows u) (hfuel : a.size < fuel) :
    ∃ a', t.parseFromXmlLite fuel v (a.before (w.val ++ e.write u)) xmlPath g =
        .ok (false, t.undefined v, a'.before (dropBlank u)) ∧
      Noted (v.isDefined || g) a a' := by
  obtain ⟨a1, hwarn, hnoted1⟩ := warningIfDefined_before v a (w.val ++ e.write u) xmlPath
  have h1 : w.val ++ e.write u <:+ a1.buf := hnoted1.buf ▸ h
  have hfuel1 := Scene.of_noted_fuel hnoted1 hfuel
  obtain ⟨a2, hskip, hnoted2⟩ := skipUnexpected_element (g := g) (v := t.undefined v)
    (a1.before (w.val ++ e.write u)).currentPos h1 hfollows hfuel1
  refine ⟨a2, ?_, hnoted1.trans hnoted2⟩
  unfold ScalarType.expects at hexpects
  unfold ScalarType.parseFromXmlLite
  simp only [hwarn]
  cases hexpected : t.expected with
  | none =>
    rw [hexpected] at hexpects
    exact nomatch hexpects
  | some tags =>
    rw [hexpected] at hexpects
    dsimp only at hexpects ⊢
    rw [nextTagIsAny_element tags h1 hfuel1, ok_bind, hexpects]
    exact hskip

/-- A scalar type gets over every element, if what it makes of a text does not depend on where
that stands. -/
theorem scalar_readsAs (hsteady : Steady t.content) (free : Bool) (e : Element)
    (v : Scalar t.Value) :
    ∃ r, (scalarClass t).ReadsAs free e v r ∧ r.Proper ∧ r.ending = t.ending e := by
  cases hexpects : t.expects e with
  | false =>
    refine ⟨⟨false, t.undefined v, true, .past⟩, ?_, fun _ => rfl, ?_⟩
    · intro fuel a w u xmlPath hscene hfollows
      obtain ⟨a', hrun, hnoted⟩ := parse_unexpected (v := v) xmlPath (g := true)
        hexpects hscene.suffix hfollows hscene.fuel
      rw [Bool.or_true] at hnoted
      exact ⟨a', _, hrun, hnoted, exists_dropBlank u⟩
    · unfold ScalarType.ending
      rw [if_neg fun hin => Bool.false_ne_true (hexpects.symm.trans hin.1)]
  | true =>
    cases hx : e.simple with
    | none =>
      refine ⟨⟨false, t.undefined v, true, .inside⟩, ?_, fun _ => rfl, ?_⟩
      · intro fuel a w u xmlPath hscene hfollows
        obtain ⟨a', u', hrun, hnoted, hinside⟩ := parse_children (v := v) xmlPath
          (g := true) hexpects hx hscene.suffix hscene.fuel
        rw [Bool.or_true] at hnoted
        exact ⟨a', u', hrun, hnoted, hinside⟩
      · exact (if_pos ⟨hexpects, hx⟩).symm
    | some x =>
      obtain ⟨o, loud, hmade⟩ := hsteady e.tag.val x
      refine ⟨⟨((t.undefined v).outcome o).1, ((t.undefined v).outcome o).2, v.isDefined || loud,
        .past⟩, ?_, fun hne => absurd rfl hne, ?_⟩
      · intro fuel a w u xmlPath hscene hfollows
        obtain ⟨a', hrun, hnoted⟩ := parse_simple (v := v) xmlPath (g := true)
          hexpects hx hmade hscene.suffix hscene.fuel
        rw [Bool.and_true] at hnoted
        exact ⟨a', u, hrun, hnoted, noGap, rfl⟩
      · unfold ScalarType.ending
        rw [if_neg fun hin => Option.some_ne_none x (hx.symm.trans hin.2)]

/-! ## Where no element follows -/

variable {x : Bytes} {n : TagName}

theorem nextTagIsAny_stray (tags : List Bytes) (hfuel : a.size < fuel) :
    ∀ {x : Bytes}, x ++ closing n u <:+ a.buf → chLt ∉ x →
      ∃ y, chLt ∉ y ∧ y ++ closing n u <:+ a.buf ∧
        nextTagIsAny fuel (a.before (x ++ closing n u)) tags =
          .ok (false, a.before (y ++ closing n u)) := by
  induction tags with
  | nil =>
    intro x h hx
    exact ⟨x, hx, h, rfl⟩
  | cons tag tags ih =>
    intro x h hx
    obtain ⟨x1, hx1, h1, hrun1⟩ := nextTagIs_stray (x := tag) h hx hfuel
    obtain ⟨y, hy, h2, hrun2⟩ := ih h1 hx1
    refine ⟨y, hy, h2, ?_⟩
    unfold nextTagIsAny nextTagIsOpeningTag
    simp [hrun1, hrun2]

theorem scalar_parse_stray (hfuel : a.size < fuel) (h : x ++ closing n u <:+ a.buf)
    (hx : chLt ∉ x) :
    Alarms (t.parseFromXmlLite fuel v (a.before (x ++ closing n u)) xmlPath true) := by
  obtain ⟨a1, hwarn, hnoted1⟩ := warningIfDefined_before v a (x ++ closing n u) xmlPath
  have h1 : x ++ closing n u <:+ a1.buf := hnoted1.buf ▸ h
  have hfuel1 := Scene.of_noted_fuel hnoted1 hfuel
  unfold ScalarType.parseFromXmlLite
  simp only [hwarn]
  cases t.expected with
  | none =>
    obtain ⟨format, args, u', hrun⟩ := getSimpleTag_stray (g := true) none h1 hx hfuel1
    unfold ScalarType.parseSimple
    simp only [hrun, ok_bind]
    exact (reported_addXmlError rfl).1
  | some tags =>
    obtain ⟨y, hy, h2, hany⟩ := nextTagIsAny_stray tags hfuel1 h1 hx
    obtain ⟨s', hskip⟩ := skipNextTag_stray (g := true) h2 hy hfuel1
    unfold ScalarType.skipUnexpected
    simp only [hany, ok_bind, Bool.false_eq_true, if_false, hskip]
    exact (reported_addXmlError rfl).1

theorem isInteger_restores (u : Bytes) (hfuel : a.size < fuel) :
    Returns (t.isInteger fuel v (a.before u)) fun r =>
      ∃ a' : XmlLiteParser, a'.buf = a.buf ∧ r.2.2 = a'.before u := by
  obtain ⟨a1, hwarn, hnoted1⟩ := warningIfDefined_before v a u []
  have hfuel1 := Scene.of_noted_fuel hnoted1 hfuel
  have hrestore : ∀ {s' : XmlLiteParser}, Onward (a1.before u) s' →
      ∃ a' : XmlLiteParser, a'.buf = a.buf ∧
        s'.restorePosition (a.before u).currentPos = a'.before u := by
    intro s' hs'
    have hbuf : s'.buf = a.buf := hs'.buf.trans hnoted1.buf
    exact ⟨s', hbuf, restorePosition_before hbuf⟩
  unfold ScalarType.isInteger
  simp only [hwarn]
  refine returns_bind (returns_getSimpleTag none (located_before a1 u) hfuel1) ?_
  rintro ⟨r, s2⟩ ⟨h2, -, -⟩
  cases r with
  | none => exact returns_ok (hrestore h2)
  | some r =>
    obtain ⟨tag, value⟩ := r
    have h3 := h2.trans (ScalarType.onward_integerContent (-2 ^ 63) (2 ^ 64 - 1) []
      (a1.before u).currentPos tag value false h2.located)
    exact returns_ok (hrestore h3)

theorem scalar_isTheNextTag_stray (ht : t.Tame) (v : Scalar t.Value) (hfuel : a.size < fuel)
    (h : x ++ closing n u <:+ a.buf) (hx : chLt ∉ x) :
    Safe (t.isTheNextTag fuel v (a.before (x ++ closing n u))) fun r =>
      ∃ (a' : XmlLiteParser) (y : Bytes), a'.buf = a.buf ∧ chLt ∉ y ∧
        y ++ closing n u <:+ a.buf ∧ r.2.2 = a'.before (y ++ closing n u) := by
  unfold ScalarType.isTheNextTag
  cases t.lookahead with
  | tags tags =>
    obtain ⟨y, hy, h1, hrun⟩ := nextTagIsAny_stray tags hfuel h hx
    simp only [hrun, ok_bind]
    exact ⟨a, y, rfl, hy, h1, rfl⟩
  | trial =>
    have hparse := ScalarType.returns_parseFromXmlLite ht ⟨false, t.zero⟩ [] false
      (located_before a (x ++ closing n u)) hfuel
    refine (returns_bind hparse ?_).safe
    rintro ⟨b, v', s'⟩ ⟨h1, -⟩
    exact returns_ok ⟨s', x, h1.buf, hx, h, restorePosition_before h1.buf⟩
  | integer =>
    obtain ⟨y, hy, h1, hrun⟩ := nextTagIs_stray (x := lit "integer") h hx hfuel
    unfold nextTagIsOpeningTag
    simp only [hrun, ok_bind, Bool.false_eq_true, if_false]
    refine ((isInteger_restores v (y ++ closing n u) hfuel).mono ?_).safe
    rintro r ⟨a', hbuf, hr⟩
    exact ⟨a', y, hbuf, hy, h1, hr⟩

/-! ## Which elements a scalar class takes -/

/-- What `takes` says of an element, a scalar type finds out wherever the element stands. -/
def ScalarType.Discerns (t : ScalarType) (takes : Element → Bool) : Prop :=
  ∀ (e : Element) (v : Scalar t.Value), ∃ v' loud,
    ∀ (fuel : Nat) (a : XmlLiteParser) (w : Blank) (u : Bytes), a.size < fuel →
      w.val ++ e.write u <:+ a.buf → Follows u →
      ∃ a', t.isTheNextTag fuel v (a.before (w.val ++ e.write u)) =
          .ok (takes e, v', a'.before (w.val ++ e.write u)) ∧ Noted loud a a'

theorem discerns_tags {tags : List Bytes} (ht : t.lookahead = .tags tags) :
    t.Discerns fun e => decide (e.tag.val ∈ tags) := by
  intro e v
  refine ⟨v, false, fun fuel a w u hfuel h _ => ⟨a, ?_, Noted.refl a⟩⟩
  unfold ScalarType.isTheNextTag
  simp [ht, nextTagIsAny_element tags h hfuel]

/-- The elements that a boolean type reads. -/
def boolTakes (mode : BoolString) (e : Element) : Bool :=
  decide (e.tag.val ∈ [lit "string", lit "true", lit "false"]) &&
    match e.simple with
    | none => false
    | some x => (boolText mode e.tag.val x).1.isSome

theorem discerns_trial (mode : BoolString) :
    (xmlBoolean mode .trial).Discerns (boolTakes mode) := by
  intro e v
  refine ⟨v, false, fun fuel a w u hfuel h hfollows => ⟨a, ?_, Noted.refl a⟩⟩
  -- without errors the trial leaves nothing behind, and the cursor goes back
  obtain ⟨v', u', hrun⟩ : ∃ v' u', (xmlBoolean mode .trial).parseFromXmlLite fuel
      ⟨false, false⟩ (a.before (w.val ++ e.write u)) [] false =
        .ok (boolTakes mode e, v', a.before u') := by
    unfold boolTakes
    cases hexpects : (xmlBoolean mode .trial).expects e with
    | false =>
      obtain ⟨a', hparse, hnoted⟩ := parse_unexpected (t := xmlBoolean mode .trial)
        (v := ⟨false, false⟩) [] (g := false) hexpects h hfollows hfuel
      have htag : decide (e.tag.val ∈ [lit "string", lit "true", lit "false"]) = false := hexpects
      rw [hnoted.quiet rfl] at hparse
      rw [htag]
      exact ⟨_, _, hparse⟩
    | true =>
      have htag : decide (e.tag.val ∈ [lit "string", lit "true", lit "false"]) = true := hexpects
      rw [htag]
      cases hx : e.simple with
      | none =>
        obtain ⟨a', u', hparse, hnoted, -⟩ := parse_children (t := xmlBoolean mode .trial)
          (v := ⟨false, false⟩) [] (g := false) hexpects hx h hfuel
        rw [hnoted.quiet rfl] at hparse
        exact ⟨_, _, hparse⟩
      | some x =>
        obtain ⟨a', hparse, hnoted⟩ := parse_simple (t := xmlBoolean mode .trial)
          (v := ⟨false, false⟩) [] (g := false) hexpects hx
          (madeOf_boolContent mode e.tag.val x) h hfuel
        rw [Bool.and_false] at hnoted
        rw [hnoted.quiet rfl] at hparse
        dsimp only
        generalize (boolText mode e.tag.val x).1 = o at hparse ⊢
        cases o <;> exact ⟨_, _, hparse⟩
  have hrestore : (a.before u').restorePosition (a.before (w.val ++ e.write u)).currentPos =
      a.before (w.val ++ e.write u) := restorePosition_before rfl
  show (do
    let (b, _, s) ← (xmlBoolean mode .trial).parseFromXmlLite fuel ⟨false, false⟩
      (a.before (w.val ++ e.write u)) [] false
    .ok (b, v, s.restorePosition (a.before (w.val ++ e.write u)).currentPos)) = _
  simp [hrun, hrestore]

/-- The elements that an integer type takes: with the tag, or read with the widest bounds. -/
def integerTakes (e : Element) : Bool :=
  decide (e.tag.val = lit "integer") ||
    match e.simple with
    | none => false
    | some x => (integerValue (-2 ^ 63) (2 ^ 64 - 1) e.tag.val x).1.isSome

theorem isInteger_element (h : w.val ++ e.write u <:+ a.buf) (hfuel : a.size < fuel) :
    ∃ a', t.isInteger fuel v (a.before (w.val ++ e.write u)) =
        .ok ((match e.simple with
          | none => false
          | some x => (integerValue (-2 ^ 63) (2 ^ 64 - 1) e.tag.val x).1.isSome),
          t.undefined v, a'.before (w.val ++ e.write u)) ∧ Noted v.isDefined a a' := by
  obtain ⟨a1, hwarn, hnoted1⟩ := warningIfDefined_before v a (w.val ++ e.write u) []
  have h1 : w.val ++ e.write u <:+ a1.buf := hnoted1.buf ▸ h
  have hfuel1 := Scene.of_noted_fuel hnoted1 hfuel
  have hrestore : ∀ y, (a1.before y).restorePosition (a.before (w.val ++ e.write u)).currentPos =
      a1.before (w.val ++ e.write u) := fun y => restorePosition_before hnoted1.buf
  refine ⟨a1, ?_, hnoted1⟩
  unfold ScalarType.isInteger
  simp only [hwarn]
  cases hx : e.simple with
  | none =>
    obtain ⟨m, w', e', cs, rfl⟩ := Element.exists_of_simple_eq_none hx
    have hany : ∀ y ∈ (none : Option Bytes), m.val = y := nofun
    obtain ⟨format, args, hrun⟩ := getSimpleTag_children (g := false) hany h1 hfuel1
    have hquiet : a1.addXmlError false format args = a1 := rfl
    rw [hquiet] at hrun
    simp only [hrun, ok_bind, hrestore]
  | some x =>
    have hany : ∀ y ∈ (none : Option Bytes), e.tag.val = y := nofun
    have hwrite : e.write u <:+ a1.buf := (suffix_append _ _).trans h1
    have hvalue : x ++ e.close u <:+ a1.buf := by
      rw [← Element.inside_eq hx]
      exact (e.inside_suffix u).trans hwrite
    obtain ⟨a2, hnoted2, hcontent⟩ := integerContent_eq u []
      (a1.before (w.val ++ e.write u)).currentPos false (-2 ^ 63) (2 ^ 64 - 1)
      ((e.tail_suffix u).trans hwrite) hvalue
    rw [Bool.and_false] at hnoted2
    rw [hnoted2.quiet rfl] at hcontent
    simp only [getSimpleTag_simple hx hany h1 hfuel1, ok_bind, hcontent, hrestore]

def integerTag : TagName := ⟨lit "integer", by decide⟩

theorem isTheNextTag_integer (i : IntegerType) (fuel : Nat) (v : Scalar (xmlInteger i).Value)
    (s : XmlLiteParser) :
    (xmlInteger i).isTheNextTag fuel v s = (do
      let (b, s) ← nextTagIsOpeningTag fuel s (lit "integer")
      if b then .ok (true, v, s) else (xmlInteger i).isInteger fuel v s) := rfl

theorem discerns_integer (i : IntegerType) : (xmlInteger i).Discerns integerTakes := by
  intro e v
  unfold integerTakes
  by_cases htag : e.tag.val = lit "integer"
  · refine ⟨v, false, fun fuel a w u hfuel h _ => ⟨a, ?_, Noted.refl a⟩⟩
    rw [isTheNextTag_integer, nextTagIsOpeningTag]
    simp [nextTagIs_element true h hfuel, htag]
  · refine ⟨(xmlInteger i).undefined v, v.isDefined, fun fuel a w u hfuel h _ => ?_⟩
    obtain ⟨a', hrun, hnoted⟩ := isInteger_element (t := xmlInteger i) v h hfuel
    refine ⟨a', ?_, hnoted⟩
    rw [isTheNextTag_integer, nextTagIsOpeningTag]
    simp only [nextTagIs_element true h hfuel, ok_bind, htag, decide_false, Bool.false_and,
      Bool.false_eq_true, if_false, Bool.false_or]
    exact hrun

/-! ## Checks -/

/-- The check of a value does not depend on where it is made. -/
def ScalarType.Checks (t : ScalarType) : Prop :=
  ∀ x : t.Value, ∃ b loud,
    ∀ (a : XmlLiteParser) (u xmlPath : Bytes) (pos : XmlParserPosition),
      ∃ a', t.validate x (a.before u) xmlPath pos true = (b, a'.before u) ∧ Noted loud a a'

theorem validateNotEmpty_before (canBeEmpty isEmpty : Bool) (format : String) :
    ∃ b loud, ∀ (a : XmlLiteParser) (u xmlPath : Bytes) (pos : XmlParserPosition),
      ∃ a', validateNotEmpty canBeEmpty isEmpty format (a.before u) xmlPath pos true =
        (b, a'.before u) ∧ Noted loud a a' := by
  unfold validateNotEmpty
  cases hempty : !canBeEmpty && isEmpty with
  | true =>
    refine ⟨false, true, fun a u xmlPath pos => ?_⟩
    exact ⟨_, rfl, noted_addWarning a true format _⟩
  | false => exact ⟨true, false, fun a u xmlPath pos => ⟨a, rfl, Noted.refl a⟩⟩

theorem checks_xmlKey (disablable : Bool) : (xmlKey disablable).Checks := by
  intro x
  obtain ⟨b, loud, hempty⟩ := validateNotEmpty_before false x.xstring8.isEmpty
    "String cannot be empty at tag '%s:%d'"
  by_cases hkey : disablable ∧ x.xstring8 = lit "!"
  · refine ⟨false, loud || true, fun a u xmlPath pos => ?_⟩
    obtain ⟨a1, hrun, hnoted⟩ := hempty a u xmlPath pos
    unfold xmlKey
    simp only [hrun, if_pos hkey, before_addWarning]
    exact ⟨_, rfl, hnoted.trans (noted_addWarning a1 true _ _)⟩
  · refine ⟨b, loud, fun a u xmlPath pos => ?_⟩
    obtain ⟨a1, hrun, hnoted⟩ := hempty a u xmlPath pos
    unfold xmlKey
    simp only [hrun, if_neg hkey]
    exact ⟨_, rfl, hnoted⟩

end Scalars

/-- Whether a scalar class takes an element for its own. -/
def ScalarClass.takes (c : ScalarClass) (e : Element) : Bool :=
  match c with
  | .strictBool => decide (e.tag.val ∈ [lit "true", lit "false"])
  | .bool => boolTakes .warn e
  | .boolYesNo => boolTakes .accept e
  | .string8 _ _ | .stringW _ => decide (e.tag.val ∈ [lit "string"])
  | .key _ => decide (e.tag.val ∈ [lit "key"])
  | .data => decide (e.tag.val ∈ [lit "string", lit "data"])
  | .integer _ => integerTakes e

theorem ScalarClass.discerns (c : ScalarClass) : c.type.Discerns c.takes := by
  cases c with
  | strictBool => exact discerns_tags rfl
  | bool => exact discerns_trial .warn
  | boolYesNo => exact discerns_trial .accept
  | string8 canBeEmpty trimmed => exact discerns_tags rfl
  | stringW canBeEmpty => exact discerns_tags rfl
  | key disablable => exact discerns_tags rfl
  | data => exact discerns_tags rfl
  | integer i => exact discerns_integer i

theorem ScalarClass.checks (c : ScalarClass) : c.type.Checks := by
  have hany : ∀ {α : Type} (x : α), ∃ b loud,
      ∀ (a : XmlLiteParser) (u xmlPath : Bytes) (pos : XmlParserPosition),
        ∃ a', validateAny x (a.before u) xmlPath pos true = (b, a'.before u) ∧ Noted loud a a' :=
    fun x => ⟨true, false, fun a u xmlPath pos => ⟨a, rfl, Noted.refl a⟩⟩
  cases c with
  | strictBool => exact hany
  | bool => exact hany
  | boolYesNo => exact hany
  | string8 canBeEmpty trimmed => exact fun x => validateNotEmpty_before _ _ _
  | stringW canBeEmpty => exact fun x => validateNotEmpty_before _ _ _
  | key disablable => exact checks_xmlKey disablable
  | data => exact hany
  | integer i => exact hany

/-- What each scalar class does with a value. -/
theorem ScalarClass.outcomes (c : ScalarClass) :
    (scalarClass c.type).Outcomes (scalarContract c.tame) c.takes where
  parse e st _ := by
    obtain ⟨r, hr, hproper, -⟩ := scalar_readsAs c.steady false e st
    exact hr.settles hproper
  isTheNextTag e st _ := by
    obtain ⟨v', loud, hrun⟩ := c.discerns e st
    exact ⟨v', loud, trivial, hrun⟩
  parse_stray _ _ _ _ _ xmlPath st hfuel h hv := scalar_parse_stray xmlPath st hfuel h hv
  isTheNextTag_stray _ _ _ _ _ st hfuel h hv := scalar_isTheNextTag_stray c.tame st hfuel h hv
  validate st := by
    obtain ⟨b, loud, hrun⟩ := c.checks st.value
    refine ⟨b, st, loud, fun a t xmlPath pos => ?_⟩
    obtain ⟨a', hvalidate, hnoted⟩ := hrun a t xmlPath pos
    refine ⟨a', ?_, hnoted⟩
    unfold scalarClass
    simp only [hvalidate]

end Clover.Xml
