import Clover.Xml.Composites
import Clover.Xml.Progress

/-!
# Contracts of classes

A class has a `Contract`: its objects keep an invariant, parsing one that is `Ready` ends with
the parser moved on, and behind where it was if the object was read. In the proofs `calm` says
whether the objects are known to be consistent; where they are, fatal errors are excluded too,
and where they are not a pass of a loop still moves on.

This module has the contracts of the scalar classes, and what the composite ones share.
-/

namespace Clover.Xml

open Clover.Lib Clover.Lib.Run XmlLiteParser

variable {α σ τ : Type} {s s' : XmlLiteParser} {J : τ → Prop} (xmlPath : Bytes)

/-! ## Scalars -/

/-- What a scalar type makes of a text leaves the cursor where it is. -/
structure ScalarType.Tame (t : ScalarType) : Prop where
  content : ∀ {s : XmlLiteParser}, s.Located → ∀ xmlPath pos tag value g,
    Onward s (t.content s xmlPath pos tag value g).2
  validate : ∀ {s : XmlLiteParser}, s.Located → ∀ v xmlPath pos g,
    Onward s (t.validate v s xmlPath pos g).2

/-- What parsing an object guarantees: the parser has moved on, and behind the start when the
object was read. -/
def Moves {α : Type} (s : XmlLiteParser) (r : Bool × α × XmlLiteParser) : Prop :=
  Onward s r.2.2 ∧ (r.1 = true → s.currentPos.p < r.2.2.currentPos.p)

theorem moves_false {a : α} (h : Onward s s') : Moves s (false, a, s') :=
  ⟨h, nofun⟩

theorem Moves.trans {r : Bool × α × XmlLiteParser} (h : Onward s s')
    (hr : Moves s' r) : Moves s r :=
  ⟨h.trans hr.1, fun hb => lt_of_le_of_lt h.le (hr.2 hb)⟩

variable {s : XmlLiteParser} {fuel : Nat} {I : σ → Prop} {calm : Prop}

theorem onward_warnDefined (hs : s.Located) :
    Onward s (warnDefined s xmlPath) := (Onward.refl hs).addWarning

theorem returns_nextTagIsAny (tags : List Bytes) :
    ∀ {s : XmlLiteParser}, s.Located → s.size < fuel →
      Returns (nextTagIsAny fuel s tags) fun r => Onward s r.2 := by
  induction tags with
  | nil =>
    intro s hs _
    exact returns_ok (Onward.refl hs)
  | cons tag tags ih =>
    intro s hs hfuel
    refine returns_bind (returns_nextTagIs tag true hs hfuel) ?_
    rintro ⟨b, s1⟩ h1
    cases b with
    | true => exact returns_ok h1
    | false =>
      exact (ih h1.located (h1.fuel hfuel)).mono fun r h2 => h1.trans h2

namespace ScalarType

variable {t : ScalarType} (v : Scalar t.Value)

theorem warningIfDefined_spec (xmlPath : Bytes) (hs : s.Located) :
    (t.warningIfDefined v s xmlPath).1.isDefined = false ∧
      Onward s (t.warningIfDefined v s xmlPath).2 := by
  unfold warningIfDefined
  split
  · exact ⟨rfl, onward_warnDefined xmlPath hs⟩
  · next h => exact ⟨Bool.not_eq_true _ ▸ h, Onward.refl hs⟩

theorem returns_parseSimple (ht : t.Tame) {v : Scalar t.Value} (hv : v.isDefined = false)
    (xmlPath : Bytes) (g : Bool) (pos : XmlParserPosition) (hs : s.Located)
    (hfuel : s.size < fuel) :
    Returns (t.parseSimple fuel v s xmlPath g pos) (Moves s) := by
  refine returns_bind (returns_getSimpleTag none hs hfuel) ?_
  rintro ⟨r, s1⟩ ⟨h1, hsome, -⟩
  cases r with
  | none => exact returns_ok (moves_false h1)
  | some r =>
    obtain ⟨tag, value⟩ := r
    have h2 := ht.content h1.located xmlPath pos tag value g
    dsimp only
    split
    · next s2 heq =>
      rw [heq] at h2
      exact returns_ok (moves_false (h1.trans h2))
    · next w s2 heq =>
      rw [heq] at h2
      have hstore : Returns (v.store w) fun _ => True := by
        unfold Scalar.store
        rw [hv]
        split
        · exact returns_ok trivial
        · exact returns_ok trivial
      refine returns_bind hstore fun v' _ => returns_ok ⟨h1.trans h2, fun _ => ?_⟩
      exact lt_of_lt_of_le (hsome rfl) h2.le

theorem returns_skipUnexpected (g : Bool) (pos : XmlParserPosition) (hs : s.Located)
    (hfuel : s.size < fuel) : Returns (t.skipUnexpected fuel v s g pos) (Moves s) := by
  refine returns_bind (returns_skipNextTag hs hfuel) ?_
  rintro ⟨b, s1⟩ ⟨h1, -, -⟩
  cases b with
  | true => exact returns_ok (moves_false h1.addError)
  | false => exact returns_ok (moves_false h1.addXmlError)

/-- A scalar returns and never moves back. -/
theorem returns_parseFromXmlLite (ht : t.Tame) (v : Scalar t.Value) (xmlPath : Bytes)
    (g : Bool) (hs : s.Located) (hfuel : s.size < fuel) :
    Returns (t.parseFromXmlLite fuel v s xmlPath g) (Moves s) := by
  unfold parseFromXmlLite
  obtain ⟨hv, h1⟩ := t.warningIfDefined_spec v xmlPath hs
  generalize t.warningIfDefined v s xmlPath = w at hv h1
  obtain ⟨v', s1⟩ := w
  have hfuel1 := h1.fuel hfuel
  dsimp only
  split
  · exact (returns_parseSimple ht hv xmlPath g _ h1.located hfuel1).mono fun r => Moves.trans h1
  · next tags _ =>
    refine returns_bind (returns_nextTagIsAny tags h1.located hfuel1) ?_
    rintro ⟨b, s2⟩ h2
    have h12 := h1.trans h2
    have hfuel2 := h12.fuel hfuel
    cases b with
    | true =>
      exact (returns_parseSimple ht hv xmlPath g _ h2.located hfuel2).mono fun r =>
        Moves.trans h12
    | false =>
      exact (returns_skipUnexpected v' g _ h2.located hfuel2).mono fun r => Moves.trans h12

theorem onward_integerContent (minimum : Int) (maximum : Nat) (xmlPath : Bytes)
    (pos : XmlParserPosition) (tag value : Slice) (g : Bool) (hs : s.Located) :
    Onward s (integerContent minimum maximum s xmlPath pos tag value g).2 := by
  unfold integerContent
  split
  · split
    · exact (Onward.refl hs).addError
    · exact (Onward.refl hs).addError
    · split
      · exact (Onward.refl hs).addWarning
      · exact Onward.refl hs
  · split
    · dsimp only
      split
      · exact (Onward.refl hs).addWarning
      · exact (Onward.refl hs).addWarning.addWarning
    · exact (Onward.refl hs).addError

theorem returns_isInteger (hs : s.Located) (hfuel : s.size < fuel) :
    Returns (t.isInteger fuel v s) fun r => Onward s r.2.2 := by
  unfold isInteger
  obtain ⟨-, h1⟩ := t.warningIfDefined_spec v [] hs
  generalize t.warningIfDefined v s [] = w at h1
  obtain ⟨v', s1⟩ := w
  refine returns_bind (returns_getSimpleTag none h1.located (h1.fuel hfuel)) ?_
  rintro ⟨r, s2⟩ ⟨h2, -, -⟩
  have h12 := h1.trans h2
  cases r with
  | none => exact returns_ok (h12.restorePosition hs)
  | some r =>
    obtain ⟨tag, value⟩ := r
    have h3 := h12.trans (onward_integerContent (-2 ^ 63) (2 ^ 64 - 1) [] s1.currentPos tag value
      false h2.located)
    exact returns_ok (h3.restorePosition hs)

theorem returns_isTheNextTag (ht : t.Tame) (v : Scalar t.Value) (hs : s.Located)
    (hfuel : s.size < fuel) :
    Returns (t.isTheNextTag fuel v s) fun r => Onward s r.2.2 := by
  unfold isTheNextTag
  split
  · refine returns_bind (returns_nextTagIsAny _ hs hfuel) ?_
    rintro ⟨b, s1⟩ h1
    exact returns_ok h1
  · refine returns_bind (returns_parseFromXmlLite ht _ _ _ hs hfuel) ?_
    rintro ⟨b, v', s1⟩ ⟨h1, -⟩
    exact returns_ok (h1.restorePosition hs)
  · refine returns_bind (returns_nextTagIs _ true hs hfuel) ?_
    rintro ⟨b, s1⟩ h1
    cases b with
    | true => exact returns_ok h1
    | false =>
      exact (returns_isInteger v h1.located (h1.fuel hfuel)).mono fun r h2 => h1.trans h2

end ScalarType

theorem onward_validateNotEmpty (canBeEmpty isEmpty : Bool) (format : String)
    (xmlPath : Bytes) (pos : XmlParserPosition) (g : Bool) (hs : s.Located) :
    Onward s (validateNotEmpty canBeEmpty isEmpty format s xmlPath pos g).2 := by
  unfold validateNotEmpty
  split
  · exact (Onward.refl hs).addWarning
  · exact Onward.refl hs

theorem onward_tagContent (name : Bytes) (format : String)
    (read : Bytes → Nat → Stored α) (xmlPath : Bytes) (pos : XmlParserPosition)
    (tag value : Slice) (g : Bool) (hs : s.Located) :
    Onward s (tagContent name format read s xmlPath pos tag value g).2 := by
  unfold tagContent
  split
  · exact Onward.refl hs
  · exact (Onward.refl hs).addXmlError

theorem onward_boolContent (mode : BoolString) (xmlPath : Bytes) (pos : XmlParserPosition)
    (tag value : Slice) (g : Bool) (hs : s.Located) :
    Onward s (boolContent mode s xmlPath pos tag value g).2 := by
  unfold boolContent
  split
  · split
    · exact Onward.refl hs
    · exact (Onward.refl hs).addError.addError
  split
  · split
    · exact Onward.refl hs
    · exact (Onward.refl hs).addError.addError
  split
  · split
    · exact (Onward.refl hs).addWarning
    · exact (Onward.refl hs).addError
  · exact (Onward.refl hs).addError

theorem onward_dataContent (pos : XmlParserPosition) (tag value : Slice) (g : Bool)
    (hs : s.Located) : Onward s (dataContent s xmlPath pos tag value g).2 := by
  unfold dataContent
  split
  · split
    · exact (Onward.refl hs).addError
    · exact Onward.refl hs
  split
  · exact Onward.refl hs
  · exact (Onward.refl hs).addError

theorem tame_xmlBoolean (mode : BoolString) (lookahead : Lookahead) :
    (xmlBoolean mode lookahead).Tame :=
  ⟨fun hs xmlPath pos tag value g => onward_boolContent mode xmlPath pos tag value g hs,
    fun hs _ _ _ _ => Onward.refl hs⟩

theorem tame_xmlInteger (t : IntegerType) : (xmlInteger t).Tame := by
  refine ⟨fun {s} hs xmlPath pos tag value g => ?_, fun hs _ _ _ _ => Onward.refl hs⟩
  have hcontent := ScalarType.onward_integerContent t.minimum t.maximum xmlPath pos tag value g hs
  dsimp only [xmlInteger]
  split
  · next heq =>
    rw [heq] at hcontent
    exact hcontent
  · next heq =>
    rw [heq] at hcontent
    exact hcontent

theorem tame_xmlKey (disablable : Bool) : (xmlKey disablable).Tame := by
  refine ⟨fun {s} hs xmlPath pos tag value g => onward_tagContent _ _ _ xmlPath pos tag value g hs,
    fun {s} hs v xmlPath pos g => ?_⟩
  have hempty := onward_validateNotEmpty false v.xstring8.isEmpty
    "String cannot be empty at tag '%s:%d'" xmlPath pos g hs
  show Onward s (if disablable ∧ v.xstring8 = lit "!" then _ else _ : Bool × XmlLiteParser).2
  split
  · exact hempty.addWarning
  · exact hempty

theorem ScalarClass.tame (c : ScalarClass) : c.type.Tame := by
  cases c with
  | strictBool => exact tame_xmlBoolean _ _
  | bool => exact tame_xmlBoolean _ _
  | boolYesNo => exact tame_xmlBoolean _ _
  | string8 canBeEmpty trimmed =>
    exact ⟨fun hs _ _ _ _ _ => onward_tagContent _ _ _ _ _ _ _ _ hs,
      fun hs _ _ _ _ => onward_validateNotEmpty _ _ _ _ _ _ hs⟩
  | stringW canBeEmpty =>
    exact ⟨fun hs _ _ _ _ _ => onward_tagContent _ _ _ _ _ _ _ _ hs,
      fun hs _ _ _ _ => onward_validateNotEmpty _ _ _ _ _ _ hs⟩
  | key disablable => exact tame_xmlKey disablable
  | data =>
    exact ⟨fun hs _ _ _ _ _ => onward_dataContent _ _ _ _ _ hs,
      fun hs _ _ _ _ => Onward.refl hs⟩
  | integer t => exact tame_xmlInteger t

/-! ## Contracts -/

/-- What a class guarantees of its objects. -/
structure XmlClass.Contract (c : XmlClass) where
  /-- The consistent objects. -/
  Inv : c.State → Prop
  /-- The objects that can be parsed. -/
  Ready : c.State → Prop
  inv_of_ready : ∀ {st}, Ready st → Inv st
  ready_of_undefined : ∀ {st}, Inv st → c.isDefined st = false → Ready st
  new : Ready c.new
  reset : ∀ {st}, Inv st → Ready (c.reset st)
  getDescription : ∀ {st}, Ready st → Ready (c.getDescription st).2
  isTheNextTag : ∀ {calm : Prop} {fuel : Nat} {st : c.State} {s : XmlLiteParser}, s.Located →
    s.size < fuel → (calm → Ready st) →
    Ends calm (c.isTheNextTag fuel st s) fun r => Onward s r.2.2 ∧ (calm → Ready r.2.1)
  parse : ∀ {calm : Prop} {fuel : Nat} {st : c.State} {s : XmlLiteParser} (xmlPath : Bytes),
    s.Located → s.size < fuel → (calm → Ready st) →
    Ends calm (c.parseFromXmlLite fuel st s xmlPath true) fun r =>
      Moves s r ∧ (calm → Inv r.2.1 ∧ (r.1 = false → Ready r.2.1))
  validate : ∀ (st : c.State) {s : XmlLiteParser}, s.Located → ∀ xmlPath pos g,
    Onward s (c.validate st s xmlPath pos g).2.2 ∧
      (Inv st → Inv (c.validate st s xmlPath pos g).2.1) ∧
      (Ready st → Ready (c.validate st s xmlPath pos g).2.1)

/-- Scalars are always consistent: an object is reset before it is parsed again. -/
def scalarContract {t : ScalarType} (ht : t.Tame) : (scalarClass t).Contract where
  Inv _ := True
  Ready _ := True
  inv_of_ready := id
  ready_of_undefined h _ := h
  new := trivial
  reset := id
  getDescription := id
  isTheNextTag hs hfuel _ :=
    (ScalarType.returns_isTheNextTag ht _ hs hfuel).ends.mono fun _ h => ⟨h, fun _ => trivial⟩
  parse xmlPath hs hfuel _ :=
    (ScalarType.returns_parseFromXmlLite ht _ xmlPath true hs hfuel).ends.mono fun _ h =>
      ⟨h, fun _ => ⟨trivial, fun _ => trivial⟩⟩
  validate _ _ hs xmlPath pos g := ⟨ht.validate hs _ xmlPath pos g, id, id⟩

/-! ## Loops and redefinitions -/

/-- What a pass of a loop guarantees: the parser has moved on, behind the start of the pass if
there is to be another one. The object keeps `I` from pass to pass, and the result has `J`. -/
def Advances {σ τ : Type} (s : XmlLiteParser) (I : σ → Prop) (J : τ → Prop) :
    Pass (σ × XmlLiteParser) (Bool × τ × XmlLiteParser) → Prop
  | .again (x, s') => Onward s s' ∧ s.currentPos.p < s'.currentPos.p ∧ I x
  | .leave (_, y, s') => Onward s s' ∧ J y

theorem Advances.weaken {p : Pass (σ × XmlLiteParser) (Bool × τ × XmlLiteParser)}
    (h : Advances s I J p) : Advances s (fun _ => True) (fun _ => True) p := by
  match p, h with
  | .again _, h => exact ⟨h.1, h.2.1, trivial⟩
  | .leave _, h => exact ⟨h.1, trivial⟩

/-- A loop whose passes all advance ends. -/
theorem ends_passes
    {body : σ × XmlLiteParser → Run (Pass (σ × XmlLiteParser) (Bool × τ × XmlLiteParser))}
    (hbody : ∀ x s, s.Located → s.size < fuel → I x → Ends calm (body (x, s)) (Advances s I J))
    {x : σ} (hs : s.Located) (hfuel : s.size < fuel) (hx : I x) :
    Ends calm (Run.loop body fuel (x, s)) fun r => Onward s r.2.2 ∧ J r.2.1 := by
  refine ends_loop (fun y => Onward s y.2 ∧ I y.1) (fun y => s.size - y.2.currentPos.p) ?_ fuel
    (x, s) ⟨Onward.refl hs, hx⟩ (lt_of_le_of_lt (Nat.sub_le _ _) hfuel)
  rintro ⟨x1, s1⟩ ⟨h1, hx1⟩
  refine (hbody x1 s1 h1.located (h1.fuel hfuel) hx1).mono ?_
  rintro (⟨x2, s2⟩ | ⟨b, y, s2⟩) h2
  · have h12 := h1.trans h2.1
    have hlt : s1.currentPos.p < s2.currentPos.p := h2.2.1
    have hin := h12.located.le
    rw [h12.size] at hin
    refine ⟨⟨h12, h2.2.2⟩, ?_⟩
    show s.size - s2.currentPos.p < s.size - s1.currentPos.p
    omega
  · exact ⟨h1.trans h2.1, h2.2⟩

theorem warned_spec (hs : s.Located) {P : σ → Prop} {defined : Bool} (st st' : σ) (hreset : P st')
    (hkeep : defined = false → P st) :
    ∃ st1 s1, (if defined = true then (st', warnDefined s xmlPath) else (st, s)) = (st1, s1) ∧
      Onward s s1 ∧ P st1 := by
  cases defined with
  | true => exact ⟨_, _, if_pos rfl, onward_warnDefined xmlPath hs, hreset⟩
  | false => exact ⟨_, _, if_neg Bool.false_ne_true, Onward.refl hs, hkeep rfl⟩

/-- What the classes with children share: between the tags of the element `body` reads them, and
what is returned in the end is `last` of whether the closing tag was there. -/
def enclosed {τ : Type} (fuel : Nat) (tag : Bytes)
    (body : XmlLiteParser → Run (Bool × τ × XmlLiteParser)) (last : Bool → Bool) (st₁ : τ)
    (s₁ : XmlLiteParser) : Run (Bool × τ × XmlLiteParser) := do
  let (b, s₂) ← consumeOpeningTag fuel s₁ tag true
  if !b then .ok (false, st₁, s₂)
  else do
    let (b, st, s₃) ← body s₂
    if !b then .ok (false, st, s₃)
    else do
      let (b, s₄) ← consumeClosingTag fuel s₃ tag true
      .ok (last b, st, s₄)

theorem ends_enclosed (tag : Bytes)
    (body : XmlLiteParser → Run (Bool × τ × XmlLiteParser)) (last : Bool → Bool) {st1 : τ}
    {s1 : XmlLiteParser} (h1 : Onward s s1) (hfuel : s.size < fuel) (hst1 : J st1)
    (hbody : ∀ s2, s2.Located → s2.size < fuel → Ends calm (body s2) fun r =>
      Onward s2 r.2.2 ∧ J r.2.1) :
    Ends calm (enclosed fuel tag body last st1 s1) fun r => Moves s r ∧ J r.2.1 := by
  refine ends_bind (returns_consumeOpeningTag tag h1.located (h1.fuel hfuel)).ends ?_
  rintro ⟨b, s2⟩ ⟨h2, hb, -⟩
  have h12 := h1.trans h2
  cases b with
  | false => exact ends_ok ⟨moves_false h12, hst1⟩
  | true =>
    have hlt : s.currentPos.p < s2.currentPos.p := lt_of_le_of_lt h1.le (hb rfl)
    refine ends_bind (hbody s2 h2.located (h12.fuel hfuel)) ?_
    rintro ⟨b, st3, s3⟩ ⟨h3, hst3⟩
    have h13 := h12.trans h3
    cases b with
    | false => exact ends_ok ⟨moves_false h13, hst3⟩
    | true =>
      refine ends_bind (returns_consumeClosingTag tag h3.located (h13.fuel hfuel)).ends ?_
      rintro ⟨b, s4⟩ ⟨h4, -, -⟩
      refine ends_ok ⟨⟨h13.trans h4, fun _ => ?_⟩, hst3⟩
      exact lt_of_lt_of_le hlt (le_trans h3.le h4.le)

end Clover.Xml
