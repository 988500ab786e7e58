import Clover.Xml.ListOutcomes

/-!
# What becomes of the elements of a schema

A union asks its members one after the other whether the next element is theirs, and the first
that takes it reads it. With this the outcomes of every way to build a class are known, and so the
class of every schema has outcomes.
-/

namespace Clover.Xml

open Clover.Lib Clover.Lib.Run XmlLiteParser

/-! ## Unions -/

namespace XmlUnion

variable {members : List XmlClass} {fuel : Nat} {a : XmlLiteParser} {w : Blank} {e : Element}
  {t : Bytes} (xmlPath : Bytes) {h : ∀ i, (members.get i).Contract}
  {takes : Fin members.length → Element → Bool} {st st' : UnionState members} {s s1 : XmlLiteParser}
  {overriding : Option Bytes} {i : Fin members.length}

/-- The first of the members `is` that takes an element for its own is found, wherever the element
stands. -/
theorem findMember_element (o : ∀ i, (members.get i).Outcomes (h i) (takes i)) (e : Element)
    (is : List (Fin members.length)) :
    ∀ {st : UnionState members}, Ready h st → ∃ st' loud, Ready h st' ∧
      ∀ (fuel : Nat) (a : XmlLiteParser) (w : Blank) (t : Bytes), a.size < fuel →
        w.val ++ e.write t <:+ a.buf → Follows t →
        ∃ a', findMember fuel is st (a.before (w.val ++ e.write t)) =
            .ok (is.find? fun i => takes i e, st', a'.before (w.val ++ e.write t)) ∧
          Noted loud a a' := by
  induction is with
  | nil =>
    intro st hst
    exact ⟨st, false, hst, fun fuel a w t _ _ _ => ⟨a, rfl, Noted.refl a⟩⟩
  | cons i is ih =>
    intro st hst
    obtain ⟨v, loud, hv, hasks⟩ := (o i).isTheNextTag e (st.member i) (hst.2 i)
    have hst1 := hst.setMember hv
    cases htakes : takes i e with
    | true =>
      refine ⟨setMember st i v, loud, hst1, fun fuel a w t hfuel hsuffix hfollows => ?_⟩
      obtain ⟨a', hrun, hnoted⟩ := hasks fuel a w t hfuel hsuffix hfollows
      refine ⟨a', ?_, hnoted⟩
      unfold findMember
      simp only [hrun, ok_bind, htakes, if_true, List.find?_cons]
    | false =>
      obtain ⟨st', loud', hst', hfinds⟩ := ih hst1
      refine ⟨st', loud || loud', hst', fun fuel a w t hfuel hsuffix hfollows => ?_⟩
      obtain ⟨a1, hrun1, hnoted1⟩ := hasks fuel a w t hfuel hsuffix hfollows
      obtain ⟨a2, hrun2, hnoted2⟩ := hfinds fuel a1 w t (Scene.of_noted_fuel hnoted1 hfuel)
        (hnoted1.buf ▸ hsuffix) hfollows
      refine ⟨a2, ?_, hnoted1.trans hnoted2⟩
      unfold findMember
      simp only [hrun1, ok_bind, htakes, Bool.false_eq_true, if_false, hrun2, List.find?_cons]

theorem findMember_stray (o : ∀ i, (members.get i).Outcomes (h i) (takes i)) {n : TagName}
    (is : List (Fin members.length)) :
    ∀ {a : XmlLiteParser} {v : Bytes} (st : UnionState members), a.size < fuel →
      v ++ closing n t <:+ a.buf → chLt ∉ v →
      Safe (findMember fuel is st (a.before (v ++ closing n t))) fun r =>
        ∃ (a' : XmlLiteParser) (v' : Bytes), a'.buf = a.buf ∧ chLt ∉ v' ∧
          v' ++ closing n t <:+ a.buf ∧ r.2.2 = a'.before (v' ++ closing n t) := by
  induction is with
  | nil =>
    intro a v st _ hsuffix hv
    exact ⟨a, v, rfl, hv, hsuffix, rfl⟩
  | cons i is ih =>
    intro a v st hfuel hsuffix hv
    refine safe_bind ((o i).isTheNextTag_stray fuel a v n t (st.member i) hfuel hsuffix hv) ?_
    rintro ⟨b, m, s1⟩ ⟨a1, v1, hbuf1, hv1, hsuffix1, hs1⟩
    subst hs1
    cases b with
    | true => exact ⟨a1, v1, hbuf1, hv1, hsuffix1, rfl⟩
    | false =>
      have hfuel1 : a1.size < fuel := by
        show a1.buf.length < fuel
        rw [hbuf1]
        exact hfuel
      refine (ih (setMember st i m) hfuel1 (hbuf1 ▸ hsuffix1) hv1).mono ?_
      rintro r ⟨a2, v2, hbuf2, hv2, hsuffix2, hr⟩
      exact ⟨a2, v2, hbuf2.trans hbuf1, hv2, hbuf1 ▸ hsuffix2, hr⟩

/-- A union takes an element that one of its members takes. -/
def anyTakes (takes : Fin members.length → Element → Bool) (e : Element) : Bool :=
  ((List.finRange members.length).find? fun i => takes i e).isSome

/-- The union that is left when the member `i` has been read as `r`. -/
def read (st : UnionState members) (i : Fin members.length)
    (r : Reading (members.get i).State) : UnionState members :=
  if r.returned then { setMember st i r.state with isDefined := true } else setMember st i r.state

theorem parse_none (overriding : Option Bytes)
    (hfind : findMember fuel (List.finRange members.length) st s = .ok (none, st', s1)) :
    parseFromXmlLite fuel overriding st s xmlPath true =
      .ok (false, (getDescription overriding st').2, s1.addError true "Expecting %s for tag '%s:%d'"
        [.str (getDescription overriding st').1, .str xmlPath, .int s.currentPos.line]) := by
  unfold parseFromXmlLite
  simp [hfind]

theorem parse_member
    {r : Reading (members.get i).State} {s2 : XmlLiteParser} (hundefined : st'.isDefined = false)
    (hfind : findMember fuel (List.finRange members.length) st s = .ok (some i, st', s1))
    (hparse : (members.get i).parseFromXmlLite fuel (st'.member i) s1 xmlPath true =
      .ok (r.returned, r.state, s2)) :
    parseFromXmlLite fuel overriding st s xmlPath true = .ok (r.returned, read st' i r, s2) := by
  have hset : (setMember st' i r.state).isDefined = false := hundefined
  unfold parseFromXmlLite read
  simp only [hfind, ok_bind, hparse]
  cases r.returned with
  | true => simp [hset]
  | false => simp

theorem alarms_member
    (hfind : findMember fuel (List.finRange members.length) st s = .ok (some i, st', s1))
    (hparse : Alarms ((members.get i).parseFromXmlLite fuel (st'.member i) s1 xmlPath true)) :
    Alarms (parseFromXmlLite fuel overriding st s xmlPath true) := by
  unfold parseFromXmlLite
  simp only [hfind, ok_bind]
  refine safe_bind hparse ?_
  rintro ⟨b, v, s2⟩ hmessages
  split
  · exact hmessages
  · split
    · trivial
    · exact hmessages

theorem validateMembers_before (o : ∀ i, (members.get i).Outcomes (h i) (takes i))
    (is : List (Fin members.length)) :
    ∀ st : UnionState members, ∃ b st' loud,
      ∀ (a : XmlLiteParser) (t xmlPath : Bytes) (pos : XmlParserPosition),
        ∃ a', validateMembers xmlPath pos true is st (a.before t) = (b, st', a'.before t) ∧
          Noted loud a a' := by
  induction is with
  | nil => exact fun st => ⟨true, st, false, fun a _ _ _ => ⟨a, rfl, Noted.refl a⟩⟩
  | cons i is ih =>
    intro st
    unfold validateMembers
    cases hdefined : (members.get i).isDefined (st.member i) with
    | false =>
      exact ih st
    | true =>
      obtain ⟨b, v, loud, hv⟩ := (o i).validate (st.member i)
      simp only [if_true]
      cases b with
      | false =>
        refine ⟨false, setMember st i v, loud, fun a t xmlPath pos => ?_⟩
        obtain ⟨a', hrun, hnoted⟩ := hv a t xmlPath pos
        refine ⟨a', ?_, hnoted⟩
        simp only [hrun, Bool.false_eq_true, if_false]
      | true =>
        obtain ⟨b, st', loud', his⟩ := ih (setMember st i v)
        refine ⟨b, st', loud || loud', fun a t xmlPath pos => ?_⟩
        obtain ⟨a1, hrun1, hnoted1⟩ := hv a t xmlPath pos
        obtain ⟨a2, hrun2, hnoted2⟩ := his a1 t xmlPath pos
        refine ⟨a2, ?_, hnoted1.trans hnoted2⟩
        simp only [hrun1, if_true, hrun2]

end XmlUnion

section Unions

variable {overriding : Option Bytes} {first : XmlClass} {others : List XmlClass}
  {h : ∀ i, ((first :: others).get i).Contract}
  {takes : Fin (first :: others).length → Element → Bool} {st : UnionState (first :: others)}

theorem union_none (overriding : Option Bytes)
    (o : ∀ i, ((first :: others).get i).Outcomes (h i) (takes i)) (e : Element)
    (hst : XmlUnion.Ready h st)
    (hnone : ((List.finRange (first :: others).length).find? fun i => takes i e) = none) :
    ∃ st', (unionClass overriding first others).ReadsAs false e st ⟨false, st', true, .stays⟩ := by
  obtain ⟨st', loud, -, hfind⟩ := XmlUnion.findMember_element o e (List.finRange _) hst
  refine ⟨(XmlUnion.getDescription overriding st').2, fun fuel a w t xmlPath hscene hfollows => ?_⟩
  obtain ⟨a', hrun, hnoted⟩ := hfind fuel a w t hscene.fuel hscene.suffix hfollows
  rw [hnone] at hrun
  have hreads := XmlUnion.parse_none xmlPath overriding hrun
  rw [before_addError] at hreads
  refine ⟨_, _, hreads, ?_, rfl⟩
  have hboth := hnoted.trans (noted_addError a' true "Expecting %s for tag '%s:%d'"
    [.str (XmlUnion.getDescription overriding st').1, .str xmlPath,
      .int (a.before (w.val ++ e.write t)).currentPos.line])
  rwa [Bool.or_true] at hboth

theorem union_some (o : ∀ i, ((first :: others).get i).Outcomes (h i) (takes i)) (e : Element)
    (hst : XmlUnion.Ready h st) {i : Fin (first :: others).length}
    (hsome : ((List.finRange (first :: others).length).find? fun i => takes i e) = some i) :
    (unionClass overriding first others).Settles e st := by
  obtain ⟨st', loud, hst', hfind⟩ := XmlUnion.findMember_element o e (List.finRange _) hst
  rw [hsome] at hfind
  cases loud with
  | true =>
    -- asking has left a message, which stays
    refine Or.inr fun fuel a w t xmlPath hscene hfollows => ?_
    obtain ⟨a', hrun, hnoted⟩ := hfind fuel a w t hscene.fuel hscene.suffix hfollows
    refine XmlUnion.alarms_member xmlPath hrun ?_
    have hfuel' : a'.size < fuel := Scene.of_noted_fuel hnoted hscene.fuel
    refine alarms_of_onward (s := a'.before (w.val ++ e.write t)) (hnoted.messages rfl)
      ((h i).parse xmlPath (located_before _ _) hfuel' False.elim) fun r hr => hr.1.1
  | false =>
    rcases (o i).parse e (hst'.2 i) with ⟨b, v, hr⟩ | hderails
    · refine Or.inl ⟨b, XmlUnion.read st' i ⟨b, v, false, .past⟩, ?_⟩
      intro fuel a w t xmlPath hscene hfollows
      obtain ⟨a1, hrun1, hnoted1⟩ := hfind fuel a w t hscene.fuel hscene.suffix hfollows
      obtain ⟨a2, u, hrun2, hnoted2, hat⟩ := hr fuel a1 w t xmlPath
        (hscene.noted hnoted1 fun _ => rfl) hfollows
      exact ⟨a2, u, XmlUnion.parse_member xmlPath hst'.1 hrun1 hrun2, hnoted1.trans hnoted2, hat⟩
    · refine Or.inr fun fuel a w t xmlPath hscene hfollows => ?_
      obtain ⟨a', hrun, hnoted⟩ := hfind fuel a w t hscene.fuel hscene.suffix hfollows
      exact XmlUnion.alarms_member xmlPath hrun
        (hderails fuel a' w t xmlPath (hscene.noted hnoted fun _ => rfl) hfollows)

/-- A union does what the first member that takes the value does. -/
theorem unionOutcomes (overriding : Option Bytes)
    (o : ∀ i, ((first :: others).get i).Outcomes (h i) (takes i)) :
    (unionClass overriding first others).Outcomes (unionContract overriding h)
      (XmlUnion.anyTakes takes) where
  parse e st hst := by
    cases hfind : (List.finRange (first :: others).length).find? fun i => takes i e with
    | none =>
      obtain ⟨st', hreads⟩ := union_none overriding o e hst hfind
      exact hreads.settles fun _ => rfl
    | some i => exact union_some o e hst hfind
  isTheNextTag e st hst := by
    obtain ⟨st', loud, hst', hfind⟩ := XmlUnion.findMember_element o e (List.finRange _) hst
    refine ⟨st', loud, hst', fun fuel a w t hfuel hsuffix hfollows => ?_⟩
    obtain ⟨a', hrun, hnoted⟩ := hfind fuel a w t hfuel hsuffix hfollows
    refine ⟨a', ?_, hnoted⟩
    show XmlUnion.isTheNextTag fuel st _ = _
    unfold XmlUnion.isTheNextTag
    simp only [hrun, ok_bind]
    rfl
  parse_stray fuel a v n t xmlPath st hfuel hsuffix hv := by
    refine safe_bind (XmlUnion.findMember_stray o _ st hfuel hsuffix hv) ?_
    rintro ⟨i, st1, s1⟩ ⟨a1, v1, hbuf1, hv1, hsuffix1, hs1⟩
    subst hs1
    cases i with
    | none => exact (noted_addError _ true _ _).messages rfl
    | some i =>
      have hfuel1 : a1.size < fuel := by
        show a1.buf.length < fuel
        rw [hbuf1]
        exact hfuel
      refine safe_bind ((o i).parse_stray fuel a1 v1 n t xmlPath (st1.member i) hfuel1
        (hbuf1 ▸ hsuffix1) hv1) ?_
      rintro ⟨b, m, s2⟩ hmessages
      dsimp only
      split
      · exact hmessages
      · split
        · trivial
        · exact hmessages
  isTheNextTag_stray fuel a v n t st hfuel hsuffix hv := by
    refine safe_bind (XmlUnion.findMember_stray o _ st hfuel hsuffix hv) ?_
    rintro ⟨i, st1, s1⟩ hs1
    exact hs1
  validate st := XmlUnion.validateMembers_before o _ st

end Unions

/-! ## Schemas -/

mutual

/-- The class of every schema has outcomes. -/
theorem XmlSchema.outcomes : ∀ x : XmlSchema,
    ∃ (h : x.toClass.Contract) (takes : Element → Bool), x.toClass.Outcomes h takes
  | .scalar c => ⟨scalarContract c.tame, _, c.outcomes⟩
  | .dict fields => by
    choose h takes o using XmlSchema.outcomes_toFields fields
    exact ⟨dictContract h, _, dictOutcomes o⟩
  | .array element => by
    obtain ⟨h, takes, o⟩ := XmlSchema.outcomes element
    exact ⟨arrayContract h, _, arrayOutcomes o⟩
  | .repeatingDict disablable ignoreCommented value => by
    obtain ⟨h, takes, o⟩ := XmlSchema.outcomes value
    exact ⟨repeatingDictContract disablable ignoreCommented h, _,
      repeatingDictOutcomes disablable ignoreCommented o⟩
  | .union description first others => by
    have hall : ∀ i : Fin (first.toClass :: XmlSchema.toClasses others).length,
        ∃ (h : ((first.toClass :: XmlSchema.toClasses others).get i).Contract)
          (takes : Element → Bool),
          ((first.toClass :: XmlSchema.toClasses others).get i).Outcomes h takes := by
      rintro ⟨n, hn⟩
      cases n with
      | zero => exact XmlSchema.outcomes first
      | succ n => exact XmlSchema.outcomes_toClasses others ⟨n, Nat.lt_of_succ_lt_succ hn⟩
    choose h takes o using hall
    exact ⟨unionContract description h, _, unionOutcomes description o⟩

theorem XmlSchema.outcomes_toFields :
    ∀ (fields : List (Bytes × XmlSchema)) (i : Fin (XmlSchema.toFields fields).length),
      ∃ (h : ((XmlSchema.toFields fields).class i).Contract) (takes : Element → Bool),
        ((XmlSchema.toFields fields).class i).Outcomes h takes
  | [], i => i.elim0
  | (_, x) :: _, ⟨0, _⟩ => XmlSchema.outcomes x
  | _ :: fields, ⟨n + 1, hn⟩ =>
    XmlSchema.outcomes_toFields fields ⟨n, Nat.lt_of_succ_lt_succ hn⟩

theorem XmlSchema.outcomes_toClasses :
    ∀ (xs : List XmlSchema) (i : Fin (XmlSchema.toClasses xs).length),
      ∃ (h : ((XmlSchema.toClasses xs).get i).Contract) (takes : Element → Bool),
        ((XmlSchema.toClasses xs).get i).Outcomes h takes
  | [], i => i.elim0
  | x :: _, ⟨0, _⟩ => XmlSchema.outcomes x
  | _ :: xs, ⟨n + 1, hn⟩ => XmlSchema.outcomes_toClasses xs ⟨n, Nat.lt_of_succ_lt_succ hn⟩

end

end Clover.Xml
