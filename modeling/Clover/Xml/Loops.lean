import Clover.Xml.Outcomes

/-!
# Loops over children

Dictionaries, arrays and repeating dictionaries read their children in a loop (`ChildLoop`). Some
passes of it get over some of the children (`ChildLoop.Steps`), wherever they stand, or there
will be a message in the end (`ChildLoop.Drops`). If the loop gets to the closing tag, the element
is read.
-/

namespace Clover.Xml

open Clover.Lib Clover.Lib.Run XmlLiteParser List

/-! ## Children -/

theorem exists_blank {g w : Blank} {r u : Bytes} (h : g.val ++ chLt :: r = w.val ++ u) :
    ∃ w' : Blank, u = w'.val ++ chLt :: r := by
  rcases append_eq_append_iff.mp h with ⟨x, hx, hcore⟩ | ⟨x, hx, hu⟩
  · cases x with
    | nil => exact ⟨noGap, hcore.symm⟩
    | cons c x =>
      have hc : c = chLt := (cons.inj hcore).1.symm
      have hspace := w.property c (hx ▸ mem_append_right _ mem_cons_self)
      rw [hc] at hspace
      exact absurd hspace (by decide)
  · refine ⟨⟨x, fun c hc => ?_⟩, hu⟩
    exact g.property c (hx ▸ mem_append_right _ hc)

namespace Children

variable (cs : Children)

/-- The children without the white space before the first of them. -/
def core : Children → Bytes → Bytes
  | .nil _, t => t
  | .cons _ e cs, t => e.write (cs.write t)

/-- The white space before the first child. -/
def gap : Children → Blank
  | .nil w | .cons w _ _ => w

theorem write_eq (cs : Children) (t : Bytes) : cs.write t = cs.gap.val ++ cs.core t := by
  cases cs <;> rw [write] <;> rfl

theorem core_suffix (t : Bytes) : cs.core t <:+ cs.write t := by
  rw [write_eq]
  exact suffix_append _ _

theorem exists_core (n : TagName) (t : Bytes) : ∃ r, cs.core (closing n t) = chLt :: r := by
  cases cs with
  | nil w => exact ⟨_, rfl⟩
  | cons w e cs => exact ⟨_, e.write_eq _⟩

theorem dropBlank_write (n : TagName) (t : Bytes) :
    dropBlank (cs.write (closing n t)) = cs.core (closing n t) := by
  obtain ⟨r, hr⟩ := cs.exists_core n t
  rw [write_eq, hr, dropBlank_append _ _ isSpace_chLt]

theorem exists_gap {cs : Children} {n : TagName} {t u : Bytes} {w : Blank}
    (h : cs.write (closing n t) = w.val ++ u) :
    ∃ w' : Blank, u = w'.val ++ cs.core (closing n t) := by
  obtain ⟨r, hr⟩ := cs.exists_core n t
  rw [write_eq, hr] at h
  rw [hr]
  exact exists_blank h

end Children

/-! ## Loops -/

/-- What a pass leaves when there is a message. -/
def Alarmed {σ τ : Type} (fuel : Nat) : Pass (σ × XmlLiteParser) (Bool × τ × XmlLiteParser) → Prop
  | .again (_, s) => s.Located ∧ s.size < fuel ∧ s.xmlParserMessageArray ≠ []
  | .leave (_, _, s) => s.xmlParserMessageArray ≠ []

/-- A loop over the children of the elements with some tag. -/
structure ChildLoop (σ τ : Type) where
  tag : TagName
  body : (fuel : Nat) → (xmlPath : Bytes) → σ × XmlLiteParser →
    Run (Pass (σ × XmlLiteParser) (Bool × τ × XmlLiteParser))
  /-- What the loop is left with at the closing tag. -/
  out : σ → τ
  advances : ∀ (fuel : Nat) (xmlPath : Bytes) (x : σ) (s : XmlLiteParser), s.Located →
    s.size < fuel →
    Ends False (body fuel xmlPath (x, s)) (Advances s (fun _ => True) (fun _ => True))
  leaves_closing : ∀ (fuel : Nat) (xmlPath : Bytes) (x : σ) (a : XmlLiteParser) (w : Blank)
    (t : Bytes), a.size < fuel → w.val ++ closing tag t <:+ a.buf →
    body fuel xmlPath (x, a.before (w.val ++ closing tag t)) =
      .ok (.leave (true, out x, a.before (w.val ++ closing tag t)))
  leaves_empty : ∀ (fuel : Nat) (xmlPath : Bytes) (x : σ) (a : XmlLiteParser)
    (t : Bytes), a.size < fuel → (Element.empty tag).write t <:+ a.buf →
    body fuel xmlPath (x, a.before (chSlash :: chGt :: t)) =
      .ok (.leave (true, out x, a.before (chSlash :: chGt :: t)))
  alarmed_text : ∀ (fuel : Nat) (xmlPath : Bytes) (x : σ) (a : XmlLiteParser)
    (v t : Bytes), a.size < fuel → chLt :: (tag.val ++ chGt :: (v ++ closing tag t)) <:+ a.buf →
    chLt ∉ v → (∃ c ∈ v, isSpace c = false) →
    Safe (body fuel xmlPath (x, a.before (v ++ closing tag t))) (Alarmed fuel)

namespace ChildLoop

variable {σ τ : Type} (L : ChildLoop σ τ) {fuel : Nat} {xmlPath : Bytes} {x : σ}
  {s : XmlLiteParser} {P : XmlLiteParser → Prop}

/-- The loop keeps what every later parser keeps. -/
theorem keeps (hP : ∀ {s s'}, Onward s s' → P s → P s') (k : Nat)
    (hs : s.Located) (hfuel : s.size < fuel) (h : P s) :
    Safe (Run.loop (L.body fuel xmlPath) k (x, s)) fun r => P r.2.2 := by
  refine safe_loop (fun y => y.2.Located ∧ y.2.size < fuel ∧ P y.2) ?_ k (x, s) ⟨hs, hfuel, h⟩
  rintro ⟨x1, s1⟩ ⟨hs1, hfuel1, h1⟩
  refine (L.advances fuel xmlPath x1 s1 hs1 hfuel1).safe.mono fun p hp => ?_
  match p, hp with
  | .again _, hp => exact ⟨hp.1.located, hp.1.fuel hfuel1, hP hp.1 h1⟩
  | .leave _, hp => exact hP hp.1 h1

theorem keeps_of_pass (hP : ∀ {s s'}, Onward s s' → P s → P s')
    (k : Nat) {y : σ × XmlLiteParser}
    (h : Safe (L.body fuel xmlPath y) fun p => match p with
      | .again (_, s) => s.Located ∧ s.size < fuel ∧ P s
      | .leave (_, _, s) => P s) :
    Safe (Run.loop (L.body fuel xmlPath) k y) fun r => P r.2.2 := by
  cases k with
  | zero => trivial
  | succ k =>
    unfold Run.loop
    cases hbody : L.body fuel xmlPath y with
    | error e => trivial
    | ok p =>
      rw [hbody] at h
      cases p with
      | again _ => exact L.keeps hP k h.1 h.2.1 h.2.2
      | leave _ => exact h

theorem alarms_of_alarmed (k : Nat) (h : Safe (L.body fuel xmlPath (x, s)) (Alarmed fuel)) :
    Alarms (Run.loop (L.body fuel xmlPath) k (x, s)) := by
  refine L.keeps_of_pass (fun h hs => h.messages_ne_nil hs) k (h.mono fun p hp => ?_)
  cases p <;> exact hp

/-- The loop gets from the children `cs` to the last `cs'` of them. Of its state we follow what
the loop is left with. -/
def Steps (free : Bool) (y y' : τ) (loud : Bool) (cs cs' : Children) : Prop :=
  ∀ (fuel : Nat) (a : XmlLiteParser) (w : Blank) (t xmlPath : Bytes) (x : σ), L.out x = y →
    Scene free fuel a (w.val ++ cs.core (closing L.tag t)) →
    ∃ (a' : XmlLiteParser) (w' : Blank) (x' : σ), L.out x' = y' ∧
      w'.val ++ cs'.core (closing L.tag t) <:+ a.buf ∧ Noted loud a a' ∧
      Leads (L.body fuel xmlPath)
        (w.val ++ cs.core (closing L.tag t)).length
          (x, a.before (w.val ++ cs.core (closing L.tag t)))
        (w'.val ++ cs'.core (closing L.tag t)).length
        (x', a'.before (w'.val ++ cs'.core (closing L.tag t)))

/-- At the children `cs` the loop will leave a message. -/
def Drops (y : τ) (cs : Children) : Prop :=
  ∀ (fuel : Nat) (a : XmlLiteParser) (w : Blank) (t xmlPath : Bytes) (x : σ) (k : Nat),
    L.out x = y → Scene false fuel a (w.val ++ cs.core (closing L.tag t)) →
    (w.val ++ cs.core (closing L.tag t)).length < k →
    Alarms (Run.loop (L.body fuel xmlPath) k (x, a.before (w.val ++ cs.core (closing L.tag t))))

variable {L} {free l l' : Bool} {y y' y'' : τ} {cs cs' cs'' : Children}

theorem Steps.refl (L : ChildLoop σ τ) (free : Bool) (y : τ) (cs : Children) :
    L.Steps free y y false cs cs :=
  fun _ a w _ _ x hx hscene => ⟨a, w, x, hx, hscene.suffix, Noted.refl a, Leads.refl _ _ _⟩

theorem Steps.trans (h : L.Steps free y y' l cs cs') (hl : free = false → l = false)
    (h' : L.Steps free y' y'' l' cs' cs'') : L.Steps free y y'' (l || l') cs cs'' := by
  intro fuel a w t xmlPath x hx hscene
  obtain ⟨a1, w1, x1, hx1, hsuffix1, hnoted1, hleads1⟩ := h fuel a w t xmlPath x hx hscene
  have hscene1 : Scene free fuel a (w1.val ++ cs'.core (closing L.tag t)) :=
    ⟨hscene.fuel, hsuffix1, hscene.latch⟩
  obtain ⟨a2, w2, x2, hx2, hsuffix2, hnoted2, hleads2⟩ :=
    h' fuel a1 w1 t xmlPath x1 hx1 (hscene1.noted hnoted1 hl)
  exact ⟨a2, w2, x2, hx2, hnoted1.buf ▸ hsuffix2, hnoted1.trans hnoted2, hleads1.trans hleads2⟩

theorem steps_of_pass
    (h : ∀ (fuel : Nat) (a : XmlLiteParser) (w : Blank) (t xmlPath : Bytes) (x : σ),
      L.out x = y → Scene free fuel a (w.val ++ cs.core (closing L.tag t)) →
      ∃ (a' : XmlLiteParser) (w' : Blank) (x' : σ), L.out x' = y' ∧ Noted l a a' ∧
        w'.val ++ cs'.core (closing L.tag t) <:+ a.buf ∧
        (w'.val ++ cs'.core (closing L.tag t)).length <
          (w.val ++ cs.core (closing L.tag t)).length ∧
        L.body fuel xmlPath (x, a.before (w.val ++ cs.core (closing L.tag t))) =
          .ok (.again (x', a'.before (w'.val ++ cs'.core (closing L.tag t))))) :
    L.Steps free y y' l cs cs' := by
  intro fuel a w t xmlPath x hx hscene
  obtain ⟨a', w', x', hx', hnoted, hsuffix, hlt, hpass⟩ := h fuel a w t xmlPath x hx hscene
  exact ⟨a', w', x', hx', hsuffix, hnoted, leads_again hpass hlt⟩

theorem Steps.drops (h : L.Steps false y y' true cs cs') : L.Drops y cs := by
  intro fuel a w t xmlPath x k hx hscene hk
  obtain ⟨a1, w1, x1, -, hsuffix1, hnoted1, hleads1⟩ := h fuel a w t xmlPath x hx hscene
  obtain ⟨k1, -, hloop⟩ := hleads1 k hk
  have hfuel1 : a1.size < fuel := Scene.of_noted_fuel hnoted1 hscene.fuel
  rw [hloop]
  exact L.keeps (fun h hs => h.messages_ne_nil hs) k1 (located_before _ _) hfuel1
    (hnoted1.messages rfl)

theorem Steps.drops_trans (h : L.Steps false y y' false cs cs') (h' : L.Drops y' cs') :
    L.Drops y cs := by
  intro fuel a w t xmlPath x k hx hscene hk
  obtain ⟨a1, w1, x1, hx1, hsuffix1, hnoted1, hleads1⟩ := h fuel a w t xmlPath x hx hscene
  obtain ⟨k1, hk1, hloop⟩ := hleads1 k hk
  rw [hloop, hnoted1.quiet rfl]
  exact h' fuel a w1 t xmlPath x1 k1 hx1 ⟨hscene.fuel, hsuffix1, hscene.latch⟩ hk1

/-- The loop gets over the children without a message, or it leaves one. -/
def Covers (L : ChildLoop σ τ) (y : τ) (cs : Children) : Prop :=
  (∃ y' last, L.Steps false y y' false cs (.nil last)) ∨ L.Drops y cs

theorem Steps.covers (h : L.Steps false y y' l cs cs') (h' : L.Covers y' cs') : L.Covers y cs := by
  cases l with
  | true => exact Or.inr h.drops
  | false =>
    rcases h' with ⟨y'', last, hsteps⟩ | hdrops
    · exact Or.inl ⟨y'', last, h.trans (fun _ => rfl) hsteps⟩
    · exact Or.inr (h.drops_trans hdrops)

theorem covers_nil (L : ChildLoop σ τ) (y : τ) (w : Blank) : L.Covers y (.nil w) :=
  Or.inl ⟨y, w, Steps.refl L false y _⟩

/-! ## Elements with children -/

variable {a : XmlLiteParser} {w : Blank} {e : Element} {t : Bytes}

/-- Steps to the end of the children read the whole value. -/
theorem Steps.enclosed {w' : Blank} (h : L.Steps free (L.out x) y l cs (.nil w'))
    (xmlPath : Bytes) (last : Bool → Bool) (st1 : τ)
    (hscene : Scene free fuel a (w.val ++ (Element.node L.tag cs).write t)) :
    ∃ a', enclosed fuel L.tag.val (fun s => Run.loop (L.body fuel xmlPath) fuel (x, s)) last st1
        (a.before (w.val ++ (Element.node L.tag cs).write t)) =
        .ok (last true, y, a'.before t) ∧ Noted l a a' := by
  have hinside : (Element.node L.tag cs).inside t =
      cs.gap.val ++ cs.core (closing L.tag t) := cs.write_eq _
  have hsuffix : (Element.node L.tag cs).inside t <:+ a.buf :=
    (Element.inside_suffix _ t).trans ((suffix_append _ _).trans hscene.suffix)
  rw [hinside] at hsuffix
  obtain ⟨a1, w1, x', rfl, hsuffix1, hnoted1, hleads1⟩ := h fuel a cs.gap t xmlPath x rfl
    ⟨hscene.fuel, hsuffix, hscene.latch⟩
  obtain ⟨k, hk, hloop⟩ := hleads1 fuel (lt_of_le_of_lt hsuffix.length_le hscene.fuel)
  have hfuel1 : a1.size < fuel := Scene.of_noted_fuel hnoted1 hscene.fuel
  have hclosing : w1.val ++ closing L.tag t <:+ a1.buf := by
    rw [hnoted1.buf]
    exact hsuffix1
  have hleave := L.leaves_closing fuel xmlPath x' a1 w1 t hfuel1 hclosing
  have hrun : Run.loop (L.body fuel xmlPath) fuel
      (x, a.before (cs.gap.val ++ cs.core (closing L.tag t))) =
        .ok (true, L.out x', a1.before (w1.val ++ closing L.tag t)) :=
    hloop.trans (loop_leave hleave (Nat.lt_of_le_of_lt (Nat.zero_le _) hk))
  have htag : (Element.node L.tag cs).tag.val = L.tag.val := rfl
  refine ⟨a1, ?_, hnoted1⟩
  unfold Clover.Xml.enclosed
  simp [consumeOpeningTag_element htag hscene.suffix hscene.fuel, hinside, hrun,
    consumeClosingTag_closing rfl hclosing hfuel1]

theorem alarms_enclosed {last : Bool → Bool} {st1 : τ} (htag : e.tag.val = L.tag.val)
    (hsuffix : w.val ++ e.write t <:+ a.buf)
    (hfuel : a.size < fuel)
    (h : Alarms (Run.loop (L.body fuel xmlPath) fuel (x, a.before (e.inside t)))) :
    Alarms (enclosed fuel L.tag.val (fun s => Run.loop (L.body fuel xmlPath) fuel (x, s)) last st1
      (a.before (w.val ++ e.write t))) := by
  have hends : Ends False (Run.loop (L.body fuel xmlPath) fuel (x, a.before (e.inside t))) _ :=
    ends_passes (fun x s hs hfuel _ => L.advances fuel xmlPath x s hs hfuel)
      (located_before a (e.inside t)) hfuel trivial
  unfold enclosed
  simp only [consumeOpeningTag_element htag hsuffix hfuel, ok_bind, Bool.not_true,
    Bool.false_eq_true, if_false]
  match Run.loop (L.body fuel xmlPath) fuel (x, a.before (e.inside t)), h, hends with
  | .error _, _, _ => trivial
  | .ok (false, st, s), h, _ => exact h
  | .ok (true, st, s), h, hends =>
    have hclose := returns_consumeClosingTag (g := true) L.tag.val hends.1.located
      (hends.1.fuel hfuel)
    refine (returns_bind hclose fun r hr => ?_).safe
    exact returns_ok (hr.1.messages_ne_nil h)

end ChildLoop

/-! ## Classes with a loop over children -/

/-- Between the tags of its elements the class reads in a loop over the children, from `x₀` on;
`warned` says whether there was a value already. -/
structure Encloses {σ : Type} (c : XmlClass) (L : ChildLoop σ c.State) (st : c.State) (x₀ : σ)
    (warned : Bool) : Prop where
  parse : ∃ st₁ last, last true = true ∧
    ∀ (fuel : Nat) (a : XmlLiteParser) (u xmlPath : Bytes),
      ∃ a₁, Noted warned a a₁ ∧ a₁.xmlParsingError = a.xmlParsingError ∧
        c.parseFromXmlLite fuel st (a.before u) xmlPath true =
          enclosed fuel L.tag.val (fun s => Run.loop (L.body fuel xmlPath) fuel (x₀, s)) last st₁
            (a₁.before u)

namespace Encloses

variable {σ : Type} {c : XmlClass} {L : ChildLoop σ c.State} {st : c.State} {x₀ : σ}
  {warned free : Bool} (h : Encloses c L st x₀ warned) {e : Element}

include h

theorem readsAs_other (free : Bool) (htag : e.tag.val ≠ L.tag.val) :
    ∃ st1, c.ReadsAs free e st ⟨false, st1, true, .stays⟩ := by
  obtain ⟨st1, last, -, hparse⟩ := h.parse
  refine ⟨st1, fun fuel a w t xmlPath hscene _ => ?_⟩
  obtain ⟨a1, hnoted1, -, hrun⟩ := hparse fuel a (w.val ++ e.write t) xmlPath
  obtain ⟨format, args, hopen⟩ := consumeOpeningTag_other (g := true) htag
    (hnoted1.buf ▸ hscene.suffix) (Scene.of_noted_fuel hnoted1 hscene.fuel)
  refine ⟨a1.addXmlError true format args, w.val ++ e.write t, ?_, ?_, rfl⟩
  · rw [hrun]
    unfold enclosed
    simp [hopen]
  · have hnoted := hnoted1.trans (noted_addXmlError a1 true format args)
    rwa [Bool.or_true] at hnoted

theorem readsAs_empty (free : Bool) :
    c.ReadsAs free (.empty L.tag) st ⟨true, L.out x₀, warned, .past⟩ := by
  obtain ⟨st1, last, hlast, hparse⟩ := h.parse
  intro fuel a w t xmlPath hscene _
  obtain ⟨a1, hnoted1, -, hrun⟩ := hparse fuel a (w.val ++ (Element.empty L.tag).write t) xmlPath
  have hsuffix : w.val ++ (Element.empty L.tag).write t <:+ a1.buf := hnoted1.buf ▸ hscene.suffix
  have hwrite : (Element.empty L.tag).write t <:+ a1.buf := (suffix_append _ _).trans hsuffix
  have hfuel1 := Scene.of_noted_fuel hnoted1 hscene.fuel
  have htag : (Element.empty L.tag).tag.val = L.tag.val := rfl
  have hinside : (Element.empty L.tag).inside t = chSlash :: chGt :: t := rfl
  have hloop : Run.loop (L.body fuel xmlPath) fuel (x₀, a1.before (chSlash :: chGt :: t)) = _ :=
    loop_leave (L.leaves_empty fuel xmlPath x₀ a1 t hfuel1 hwrite)
      (Nat.lt_of_le_of_lt (Nat.zero_le _) hfuel1)
  refine ⟨a1, t, ?_, hnoted1, noGap, rfl⟩
  rw [hrun]
  unfold enclosed
  simp [consumeOpeningTag_element htag hsuffix hfuel1, hinside, hloop,
    consumeClosingTag_empty rfl hwrite hfuel1, hlast]

theorem readsAs_children {cs : Children} {y : c.State} {loud : Bool} {w' : Blank}
    (hwrite : ∀ t, e.write t = (Element.node L.tag cs).write t)
    (hsteps : L.Steps free (L.out x₀) y loud cs (.nil w')) :
    c.ReadsAs free e st ⟨true, y, warned || loud, .past⟩ := by
  obtain ⟨st1, last, hlast, hparse⟩ := h.parse
  intro fuel a w t xmlPath hscene _
  rw [hwrite] at hscene ⊢
  obtain ⟨a1, hnoted1, hlatch, hrun⟩ := hparse fuel a (w.val ++ (Element.node L.tag cs).write t)
    xmlPath
  have hscene1 : Scene free fuel a1 (w.val ++ (Element.node L.tag cs).write t) :=
    ⟨Scene.of_noted_fuel hnoted1 hscene.fuel, hnoted1.buf ▸ hscene.suffix,
      fun hfree => hlatch.trans (hscene.latch hfree)⟩
  obtain ⟨a2, hclosed, hnoted2⟩ := hsteps.enclosed xmlPath last st1 hscene1
  refine ⟨a2, t, ?_, hnoted1.trans hnoted2, noGap, rfl⟩
  rw [hrun, hclosed, hlast]

/-- Children that are dropped derail the value. -/
theorem derails_children {cs : Children} (hwrite : ∀ t, e.write t = (Element.node L.tag cs).write t)
    (hdrops : L.Drops (L.out x₀) cs) : c.Derails e st := by
  obtain ⟨st1, last, hlast, hparse⟩ := h.parse
  intro fuel a w t xmlPath hscene _
  rw [hwrite] at hscene ⊢
  obtain ⟨a1, hnoted1, hlatch, hrun⟩ := hparse fuel a (w.val ++ (Element.node L.tag cs).write t)
    xmlPath
  have hsuffix : w.val ++ (Element.node L.tag cs).write t <:+ a1.buf :=
    hnoted1.buf ▸ hscene.suffix
  have hfuel1 := Scene.of_noted_fuel hnoted1 hscene.fuel
  have hinside : (Element.node L.tag cs).inside t =
      cs.gap.val ++ cs.core (closing L.tag t) := cs.write_eq _
  have hin : cs.gap.val ++ cs.core (closing L.tag t) <:+ a1.buf := by
    rw [← hinside]
    exact (Element.inside_suffix _ t).trans ((suffix_append _ _).trans hsuffix)
  rw [hrun]
  refine ChildLoop.alarms_enclosed rfl hsuffix hfuel1 ?_
  rw [hinside]
  exact hdrops fuel a1 cs.gap t xmlPath x₀ fuel rfl
    ⟨hfuel1, hin, fun hfree => hlatch.trans (hscene.latch hfree)⟩
    (lt_of_le_of_lt hin.length_le hfuel1)

theorem derails_text {v : TextRun} (hv : v.val.all isSpace = false) :
    c.Derails (.text L.tag v) st := by
  obtain ⟨st1, last, hlast, hparse⟩ := h.parse
  intro fuel a w t xmlPath hscene _
  obtain ⟨a1, hnoted1, -, hrun⟩ := hparse fuel a (w.val ++ (Element.text L.tag v).write t) xmlPath
  have hsuffix : w.val ++ (Element.text L.tag v).write t <:+ a1.buf :=
    hnoted1.buf ▸ hscene.suffix
  have hwrite : (Element.text L.tag v).write t <:+ a1.buf := (suffix_append _ _).trans hsuffix
  have hfuel1 := Scene.of_noted_fuel hnoted1 hscene.fuel
  have hblank : ∃ c ∈ v.val, isSpace c = false := by
    obtain ⟨c, hc, hspace⟩ := all_eq_false.mp hv
    exact ⟨c, hc, Bool.eq_false_iff.mpr hspace⟩
  rw [hrun]
  refine ChildLoop.alarms_enclosed rfl hsuffix hfuel1 (L.alarms_of_alarmed fuel ?_)
  exact L.alarmed_text fuel xmlPath x₀ a1 v.val t hfuel1 hwrite v.property.1 hblank

theorem parse_stray {fuel : Nat} {a : XmlLiteParser} {v t xmlPath : Bytes} {n : TagName}
    (hfuel : a.size < fuel) (hsuffix : v ++ closing n t <:+ a.buf) (hv : chLt ∉ v) :
    Alarms (c.parseFromXmlLite fuel st (a.before (v ++ closing n t)) xmlPath true) := by
  obtain ⟨st1, last, -, hparse⟩ := h.parse
  obtain ⟨a1, hnoted1, -, hrun⟩ := hparse fuel a (v ++ closing n t) xmlPath
  have hfuel1 := Scene.of_noted_fuel hnoted1 hfuel
  obtain ⟨s', hopen⟩ := consumeOpeningTag_stray (x := L.tag.val) (g := true)
    (hnoted1.buf ▸ hsuffix) hv hfuel1
  obtain ⟨r, hr, -, -, hreported⟩ := returns_consumeOpeningTag (g := true) L.tag.val
    (located_before a1 (v ++ closing n t)) hfuel1
  obtain rfl : (false, s') = r := Except.ok.inj (hopen.symm.trans hr)
  rw [hrun]
  unfold enclosed
  simp only [hopen, ok_bind, Bool.not_false, if_true]
  exact (hreported rfl rfl).1

/-- A class whose loop covers the children settles all elements. -/
theorem settles (hcovers : ∀ cs, L.Covers (L.out x₀) cs) (e : Element) : c.Settles e st := by
  have hpast : ∀ (state : c.State) (loud : Bool),
      (⟨true, state, loud, .past⟩ : Reading c.State).Proper :=
    fun _ _ hne => absurd rfl hne
  by_cases htag : e.tag.val = L.tag.val
  · cases e with
    | empty n =>
      obtain rfl : n = L.tag := Subtype.ext htag
      exact (h.readsAs_empty false).settles (hpast _ _)
    | text n v =>
      obtain rfl : n = L.tag := Subtype.ext htag
      cases hv : v.val.all isSpace with
      | true =>
        -- white space is written as no children are
        have hwrite : ∀ t, (Element.text L.tag v).write t =
            (Element.node L.tag (.nil ⟨v.val, all_eq_true.mp hv⟩)).write t := by
          intro t
          rw [Element.write, Element.write, Children.write]
        exact (h.readsAs_children hwrite
          (ChildLoop.Steps.refl L false (L.out x₀) _)).settles (hpast _ _)
      | false => exact Or.inr (h.derails_text hv)
    | node n cs =>
      obtain rfl : n = L.tag := Subtype.ext htag
      rcases hcovers cs with ⟨y, last, hsteps⟩ | hdrops
      · exact (h.readsAs_children (fun _ => rfl) hsteps).settles (hpast _ _)
      · exact Or.inr (h.derails_children (fun _ => rfl) hdrops)
  · obtain ⟨st1, hreads⟩ := h.readsAs_other false htag
    exact hreads.settles fun _ => rfl

end Encloses

section Shared

variable {σ : Type} {fuel : Nat} {a : XmlLiteParser}

theorem warned_before (defined : Bool) (a : XmlLiteParser) (u xmlPath : Bytes) (st st' : σ) :
    ∃ a1, Noted defined a a1 ∧ a1.xmlParsingError = a.xmlParsingError ∧
      (if defined = true then (st', warnDefined (a.before u) xmlPath) else (st, a.before u)) =
        (if defined = true then st' else st, a1.before u) := by
  cases defined with
  | true =>
    exact ⟨_, noted_addWarning a true _ _, rfl, rfl⟩
  | false => exact ⟨a, Noted.refl a, rfl, rfl⟩

variable {P : σ → Prop} {tag : Bytes}

theorem isTheNextTag_tag (e : Element) (st : σ) (hst : P st) :
    ∃ st' loud, P st' ∧
      ∀ (fuel : Nat) (a : XmlLiteParser) (w : Blank) (t : Bytes), a.size < fuel →
        w.val ++ e.write t <:+ a.buf → Follows t →
        ∃ a', (do
            let (b, s) ← nextTagIsOpeningTag fuel (a.before (w.val ++ e.write t)) tag
            .ok (b, st, s) : Run (Bool × σ × XmlLiteParser)) =
          .ok (decide (e.tag.val = tag), st', a'.before (w.val ++ e.write t)) ∧
            Noted loud a a' := by
  refine ⟨st, false, hst, fun fuel a w t hfuel hsuffix _ => ⟨a, ?_, Noted.refl a⟩⟩
  unfold nextTagIsOpeningTag
  simp [nextTagIs_element true hsuffix hfuel]

theorem isTheNextTag_tag_stray (st : σ) {v t : Bytes} {n : TagName} (hfuel : a.size < fuel)
    (hsuffix : v ++ closing n t <:+ a.buf) (hv : chLt ∉ v) :
    Safe (do
        let (b, s) ← nextTagIsOpeningTag fuel (a.before (v ++ closing n t)) tag
        .ok (b, st, s) : Run (Bool × σ × XmlLiteParser)) fun r =>
      ∃ (a' : XmlLiteParser) (v' : Bytes), a'.buf = a.buf ∧ chLt ∉ v' ∧
        v' ++ closing n t <:+ a.buf ∧ r.2.2 = a'.before (v' ++ closing n t) := by
  obtain ⟨v', hv', h', hrun⟩ := nextTagIs_stray (x := tag) hsuffix hv hfuel
  unfold nextTagIsOpeningTag
  simp only [hrun, ok_bind]
  exact ⟨a, v', rfl, hv', h', rfl⟩

end Shared

end Clover.Xml
