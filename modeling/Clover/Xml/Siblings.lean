import Clover.Xml.UnknownKeys

/-!
# Values of the wrong type

A value that the class of its field refuses is to be left behind, so that the other fields come out
as without the entry. What the loop of the dictionary does next depends on where the class has left
the cursor. Behind the value all is well. A class that has not touched the value leaves it to the
loop, which skips it, unless it is a `<key>`. A scalar class leaves the cursor inside of a value
with children; the loop then takes the children for entries, so that there has to be no `<key>`
among them, and the value must not be a `<dict>`, whose closing tag would end the dictionary. The
value of a field that is defined already is skipped as a whole.
-/

namespace Clover.Xml

open Clover.Lib Clover.Lib.Run XmlLiteParser List Function

namespace XmlDict

variable {fields : Fields} {h : ∀ i, (fields.class i).Contract}
  {takes : Fin fields.length → Element → Bool} {st st' : DictState fields} {x : Entry}
  {i : Fin fields.length}

/-- The loop gets behind the value `v`, if its class has left the cursor at `ending`. -/
def goesOn (ending : Ending) (v : Element) : Bool :=
  match ending with
  | .past => true
  | .stays => v.key.isNone
  | .inside => v.spills

/-- The loop gets over the entry when the object is in the state `st`: the entry has a key, and if
this names a field that is not defined, the class of the field leaves the cursor at a place from
where the loop gets behind the value. -/
def Passes (st : DictState fields) (x : Entry) : Prop :=
  x.key.key ≠ none ∧ ∀ i, Names fields x.key i → (fields.class i).isDefined (st.field i) = true ∨
    ∃ r, (fields.class i).ReadsAs true x.value (st.field i) r ∧ goesOn r.ending x.value = true

/-- All fields but `i` are in the same state. -/
def AgreeOff (i : Fin fields.length) (st st' : DictState fields) : Prop :=
  st.isDefined = st'.isDefined ∧ ∀ j, j ≠ i → st.field j = st'.field j

theorem AgreeOff.setField (st : DictState fields) (i : Fin fields.length)
    (f : (fields.class i).State) : AgreeOff i (setField st i f) st := by
  refine ⟨rfl, fun j hj => ?_⟩
  exact update_of_ne hj f st.field

end XmlDict

/-- A dictionary of entries. -/
def dictEntries (xs : List Entry) (last : Blank) : Element :=
  .node dictTag (Children.prepend xs (.nil last))

/-- Wherever the dictionary stands, it is read into a new object with success, the object is then
in the state `st`, and the cursor is just behind the dictionary. -/
def ReadsDict (fields : List (Bytes × XmlSchema)) (xs : List Entry) (last : Blank)
    (st : DictState (XmlSchema.toFields fields)) : Prop :=
  ∀ (fuel : Nat) (a : XmlLiteParser) (w : Blank) (t xmlPath : Bytes), a.size < fuel →
    w.val ++ (dictEntries xs last).write t <:+ a.buf →
    ∃ a' : XmlLiteParser, a'.buf = a.buf ∧
      XmlDict.parseFromXmlLite fuel (dictNew fields)
        (a.before (w.val ++ (dictEntries xs last).write t)) xmlPath true =
          .ok (true, st, a'.before t)

/-- Steps over all entries read the dictionary. -/
theorem readsDict_of_steps {fields : List (Bytes × XmlSchema)} {xs : List Entry}
    {last : Blank} {st : DictState (XmlSchema.toFields fields)}
    {h : ∀ i, ((XmlSchema.toFields fields).class i).Contract} {loud : Bool}
    (hsteps : (XmlDict.childLoop h).Steps true { dictNew fields with isDefined := true } st loud
      (Children.prepend xs (.nil last)) (.nil last)) : ReadsDict fields xs last st := by
  intro fuel a w t xmlPath hfuel hsuffix
  obtain ⟨st1, last', hlast, hparse⟩ := (XmlDict.encloses h (dictNew fields)).parse
  obtain ⟨a1, hnoted1, -, hrun⟩ := hparse fuel a (w.val ++ (dictEntries xs last).write t) xmlPath
  have hscene : Scene true fuel a1 (w.val ++ (dictEntries xs last).write t) :=
    ⟨Scene.of_noted_fuel hnoted1 hfuel, hnoted1.buf ▸ hsuffix, nofun⟩
  obtain ⟨a2, hclosed, hnoted2⟩ := hsteps.enclosed xmlPath last' st1 hscene
  refine ⟨a2, hnoted2.buf.trans hnoted1.buf, ?_⟩
  rw [hlast] at hclosed
  exact hrun.trans hclosed

/-- The loop gets over each of the entries, when the object is in the state that reading the entries
before leaves it in. -/
def Fine (fields : List (Bytes × XmlSchema)) (xs : List Entry) : Prop :=
  ∀ (n : Nat) (x : Entry), xs[n]? = some x →
    ∀ st, ReadsDict fields (xs.take n) noGap st → XmlDict.Passes st x

section Siblings

variable {fields : List (Bytes × XmlSchema)}
  {h : ∀ i, ((XmlSchema.toFields fields).class i).Contract}
  {takes : Fin (XmlSchema.toFields fields).length → Element → Bool}
  {i : Fin (XmlSchema.toFields fields).length} {y y' z : DictState (XmlSchema.toFields fields)}
  {xs xs' : List Entry} {x : Entry}

/-- From a new object the loop comes to the state `y` behind the entries `xs`. -/
def Reaches (h : ∀ i, ((XmlSchema.toFields fields).class i).Contract) (xs : List Entry)
    (y : DictState (XmlSchema.toFields fields)) : Prop :=
  XmlDict.Inv h y ∧ ∃ loud, ∀ cs, (XmlDict.childLoop h).Steps true
    { dictNew fields with isDefined := true } y loud (Children.prepend xs cs) cs

theorem Reaches.readsDict (hy : Reaches h xs y) (last : Blank) : ReadsDict fields xs last y := by
  obtain ⟨-, loud, hsteps⟩ := hy
  exact readsDict_of_steps (hsteps (.nil last))

theorem Reaches.passes (hy : Reaches h xs y) (hfine : Fine fields (xs ++ x :: xs')) :
    XmlDict.Passes y x := by
  refine hfine xs.length x (by simp) y ?_
  rw [take_left]
  exact hy.readsDict noGap

end Siblings

end Clover.Xml
