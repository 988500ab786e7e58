import Clover.Plist.Bounds

/-!
# What a call of the parser can do

The parser as a relation, without the number of steps: `Fixes` for `FixDataMatchingTag`, `Returns`
for `XMLParseNextTag` and `ReturnsList` for `__ParseTagList`. More steps do not change a result, so
that the three are functions of the buffer, and each is given by one rule: behind the first tag
there is nothing to parse, or the content of a list, or a content that ends at an end tag
(`Outcome`).
-/

namespace Clover.Plist

open Clover.Lib Clover.Xml

variable {fixes : Bytes → Bytes → Bytes × Nat → Prop} {t : NextTag} {e : Element}
  {fuel : Nat} {b : Bytes}

variable {F : Type}

/-! ## The kinds of elements -/

/-- The tag of an element without content. -/
def Element.constant : Element → Option (Tag F)
  | .dict true => some (.dict [])
  | .array true => some (.array [])
  | .bool value => some (.bool value)
  | _ => none

/-- The tag of an element from the tags in it. -/
def Element.list : Element → Option (List (Tag F) → Tag F)
  | .dict false => some .dict
  | .array false => some .array
  | _ => none

/-- The name in the end tag, and what is made of the content and the length. -/
structure Reader (F : Type) where
  name : Bytes
  read : Bytes × Nat → Except Stop (Parsed (Tag F))

/-- What the functions `ParseTag…` do behind `FixDataMatchingTag`. -/
def Element.reader (lib : FloatLib F) (lenPtr : Nat) : Element → Option (Reader F)
  | .key => some ⟨lit "key", fun p =>
      .ok ⟨.key (strncpy p.1 (cString p.1).length), p.2, p.1⟩⟩
  | .string => some ⟨lit "string", fun p =>
      let out := xmlDecode p.1 (cString p.1).length (cString p.1).length
      .ok ⟨.string (strncpy (decoded p.1 out) out.length), p.2, decoded p.1 out⟩⟩
  | .integer => some ⟨lit "integer", fun p =>
      if p.1.getD 0 0 = 60 then .ok ⟨.int64 0, lenPtr, p.1⟩
      else do
        let integer ← readInteger p.1 p.2
        return ⟨.int64 integer, p.2, p.1⟩⟩
  | .float => some ⟨lit "real", fun p =>
      .ok ⟨.float (lib.asciiStrToFloat (cString p.1)), p.2, p.1⟩⟩
  | .data => some ⟨lit "data", fun p =>
      .ok ⟨.data ((base64DecodeClover (cString p.1)).getD []), p.2, p.1⟩⟩
  | .date => some ⟨lit "date", fun p => .ok ⟨.date (strncpy p.1 p.2), p.2, p.1⟩⟩
  | _ => none

/-- What a call can do behind the first tag, where `fixes` says how contents end, and `lists` how
lists are parsed. -/
inductive Outcome (lib : FloatLib F) (fixes : Bytes → Bytes → Bytes × Nat → Prop)
    (lists : Bytes → Parsed (List (Tag F)) → Prop) (t : NextTag) :
    Parsed (Option (Tag F)) → Prop where
  | nothing (h : element t.tag = .plist ∨ element t.tag = .unknown) :
      Outcome lib fixes lists t ⟨none, t.length, t.buffer⟩
  | constant {tag : Tag F} (h : (element t.tag).constant = some tag) :
      Outcome lib fixes lists t (t.result ⟨tag, 0, t.buffer.drop t.length⟩)
  | list {make : List (Tag F) → Tag F} {parsed : Parsed (List (Tag F))}
      (h : (element t.tag).list = some make) (hlist : lists (t.buffer.drop t.length) parsed) :
      Outcome lib fixes lists t (t.result { parsed with tag := make parsed.tag })
  | content {reader : Reader F} {p : Bytes × Nat} {parsed : Parsed (Tag F)}
      (h : (element t.tag).reader lib t.length = some reader)
      (hfix : fixes reader.name (t.buffer.drop t.length) p) (hread : reader.read p = .ok parsed) :
      Outcome lib fixes lists t (t.result parsed)

section Rules

variable {lib : FloatLib F}
  {r : Parsed (Option (Tag F))} {lists : Bytes → Parsed (List (Tag F)) → Prop}
  {make : List (Tag F) → Tag F} {reader : Reader F}

theorem Outcome.mono {fixes' : Bytes → Bytes → Bytes × Nat → Prop}
    {lists' : Bytes → Parsed (List (Tag F)) → Prop}
    (hfixes : ∀ name b p, fixes name b p → fixes' name b p)
    (hlists : ∀ b parsed, lists b parsed → lists' b parsed) (h : Outcome lib fixes lists t r) :
    Outcome lib fixes' lists' t r := by
  cases h with
  | nothing h => exact .nothing h
  | constant h => exact .constant h
  | list h hlist => exact .list h (hlists _ _ hlist)
  | content h hfix hread => exact .content h (hfixes _ _ _ hfix) hread

theorem Element.of_reader {lenPtr : Nat}
    (h : e.reader lib lenPtr = some reader) :
    ¬ (e = .plist ∨ e = .unknown) ∧ e.constant (F := F) = none ∧ e.list (F := F) = none := by
  cases e with
  | plist | dict | bool | array | unknown => cases h
  | _ => exact ⟨fun h => (nomatch h), rfl, rfl⟩

theorem Element.of_list (h : e.list = some make) (lib : FloatLib F) (lenPtr : Nat) :
    ¬ (e = .plist ∨ e = .unknown) ∧ e.constant (F := F) = none ∧ e.reader lib lenPtr = none := by
  cases e with
  | dict empty | array empty =>
    cases empty with
    | true => cases h
    | false => exact ⟨fun h => (nomatch h), rfl, rfl⟩
  | _ => cases h

theorem Element.constant_cases {tag : Tag F} (h : e.constant = some tag) :
    tag = .dict [] ∨ tag = .array [] ∨ ∃ value, tag = .bool value := by
  cases e with
  | dict empty =>
    cases empty with
    | true => exact .inl (Option.some.inj h).symm
    | false => cases h
  | array empty =>
    cases empty with
    | true => exact .inr (.inl (Option.some.inj h).symm)
    | false => cases h
  | bool value => exact .inr (.inr ⟨value, (Option.some.inj h).symm⟩)
  | _ => cases h

theorem Element.list_cases (h : e.list = some make) : make = .dict ∨ make = .array := by
  cases e with
  | dict empty =>
    cases empty with
    | true => cases h
    | false => exact .inl (Option.some.inj h).symm
  | array empty =>
    cases empty with
    | true => cases h
    | false => exact .inr (Option.some.inj h).symm
  | _ => cases h

theorem Outcome.of_reader
    (hreader : (element t.tag).reader lib t.length = some reader)
    (h : Outcome lib fixes lists t r) : ∃ p parsed, fixes reader.name (t.buffer.drop t.length) p ∧
      reader.read p = .ok parsed ∧ r = t.result parsed := by
  obtain ⟨hnothing, hconstant, hlist⟩ := Element.of_reader hreader
  cases h with
  | nothing h => exact absurd h hnothing
  | constant h => exact nomatch hconstant.symm.trans h
  | list h _ => exact nomatch hlist.symm.trans h
  | content h hfix hread =>
    obtain rfl := Option.some.inj (hreader.symm.trans h)
    exact ⟨_, _, hfix, hread, rfl⟩

theorem Outcome.of_list (hmake : (element t.tag).list = some make)
    (h : Outcome lib fixes lists t r) :
    ∃ parsed, lists (t.buffer.drop t.length) parsed ∧
      r = t.result { parsed with tag := make parsed.tag } := by
  obtain ⟨hnothing, hconstant, hreader⟩ := Element.of_list hmake lib t.length
  cases h with
  | nothing h => exact absurd h hnothing
  | constant h => exact nomatch hconstant.symm.trans h
  | list h hlist =>
    obtain rfl := Option.some.inj (hmake.symm.trans h)
    exact ⟨_, hlist, rfl⟩
  | content h _ _ => exact nomatch hreader.symm.trans h

/-- A call, in terms of the calls it makes. -/
theorem xmlParseNextTag_iff :
    xmlParseNextTag lib (fuel + 1) b = .ok r ↔ ∃ t, getNextTag b = .ok t ∧
      Outcome lib (fun name b p => fixDataMatchingTag name fuel b = .ok p)
        (fun b parsed => parseTagList lib fuel b = .ok parsed) t r := by
  rw [xmlParseNextTag, bind_eq_ok]
  apply exists_congr
  intro t
  apply and_congr_right
  intro _
  constructor
  · intro h
    cases helement : element t.tag with
    | plist =>
      rw [helement] at h
      obtain rfl := Except.ok.inj h
      exact .nothing (.inl helement)
    | unknown =>
      rw [helement] at h
      obtain rfl := Except.ok.inj h
      exact .nothing (.inr helement)
    | bool value =>
      rw [helement] at h
      obtain rfl := Except.ok.inj h
      exact .constant (by rw [helement]; rfl)
    | dict empty | array empty =>
      rw [helement] at h
      cases empty with
      | true =>
        obtain rfl := Except.ok.inj h
        exact .constant (by rw [helement]; rfl)
      | false =>
        obtain ⟨parsed, hlist, h⟩ := bind_eq_ok.mp h
        obtain rfl := Except.ok.inj h
        exact .list (by rw [helement]; rfl) hlist
    | key | string | integer | float | data | date =>
      rw [helement] at h
      obtain ⟨parsed, hparsed, rfl⟩ := map_eq_ok.mp h
      obtain ⟨p, hfix, hread⟩ := bind_eq_ok.mp hparsed
      exact .content (by rw [helement]; rfl) hfix hread
  · intro h
    cases h with
    | nothing h => obtain h | h := h <;> rw [h] <;> rfl
    | constant h =>
      revert h
      cases element t.tag with
      | dict empty | array empty => cases empty <;> rintro ⟨⟩; rfl
      | bool value => rintro ⟨⟩; rfl
      | _ => rintro ⟨⟩
    | list h hlist =>
      revert h
      cases element t.tag with
      | dict empty | array empty =>
        cases empty <;> rintro ⟨⟩
        exact bind_eq_ok.mpr ⟨_, hlist, rfl⟩
      | _ => rintro ⟨⟩
    | content h hfix hread =>
      revert h
      cases element t.tag with
      | key | string | integer | float | data | date =>
        rintro ⟨⟩
        exact map_eq_ok.mpr ⟨_, bind_eq_ok.mpr ⟨_, hfix, hread⟩, rfl⟩
      | _ => rintro ⟨⟩

/-! ## More steps -/

theorem fixDataMatchingTag_mono {tag : Bytes} {p : Bytes × Nat} {fuel' : Nat}
    (hle : fuel ≤ fuel') (h : fixDataMatchingTag tag fuel b = .ok p) :
    fixDataMatchingTag tag fuel' b = .ok p := by
  induction fuel generalizing fuel' b p with
  | zero => cases h
  | succ fuel ih =>
    obtain ⟨fuel', rfl⟩ : ∃ m, fuel' = m + 1 := ⟨fuel' - 1, by omega⟩
    rw [fixDataMatchingTag, bind_eq_ok] at h ⊢
    obtain ⟨t, ht, h⟩ := h
    refine ⟨t, ht, ?_⟩
    split
    · next htag => rwa [if_pos htag] at h
    · next htag =>
      rw [if_neg htag] at h
      obtain ⟨rest, hrest, h⟩ := bind_eq_ok.mp h
      exact bind_eq_ok.mpr ⟨rest, ih (Nat.le_of_succ_le_succ hle) hrest, h⟩

theorem parseTagList_iff {r : Parsed (List (Tag F))} :
    parseTagList lib (fuel + 1) b = .ok r ↔
    ∃ parsed, xmlParseNextTag lib fuel b = .ok parsed ∧
      (parsed.tag = none ∧ r = ⟨[], parsed.length, parsed.buffer⟩ ∨
        ∃ tag others, parsed.tag = some tag ∧
          parseTagList lib fuel (parsed.buffer.drop parsed.length) = .ok others ∧
          r = ⟨tag :: others.tag, parsed.length + others.length,
            parsed.buffer.take parsed.length ++ others.buffer⟩) := by
  refine ⟨parseTagList_succ, ?_⟩
  rintro ⟨parsed, hparsed, h⟩
  rw [parseTagList, bind_eq_ok]
  refine ⟨parsed, hparsed, ?_⟩
  obtain ⟨htag, rfl⟩ | ⟨tag, others, htag, hothers, rfl⟩ := h
  · rw [htag]
    rfl
  · rw [htag]
    exact bind_eq_ok.mpr ⟨others, hothers, rfl⟩

theorem parse_mono (fuel : Nat) :
    (∀ b r, xmlParseNextTag lib fuel b = .ok r → ∀ fuel', fuel ≤ fuel' →
      xmlParseNextTag lib fuel' b = .ok r) ∧
    ∀ b r, parseTagList lib fuel b = .ok r → ∀ fuel', fuel ≤ fuel' →
      parseTagList lib fuel' b = .ok r := by
  induction fuel with
  | zero =>
    refine ⟨fun b r h => ?_, fun b r h => ?_⟩
    · cases h
    · cases h
  | succ fuel ih =>
    refine ⟨fun b r h fuel' hle => ?_, fun b r h fuel' hle => ?_⟩
    · obtain ⟨fuel', rfl⟩ : ∃ m, fuel' = m + 1 := ⟨fuel' - 1, by omega⟩
      have hle := Nat.le_of_succ_le_succ hle
      obtain ⟨t, ht, h⟩ := xmlParseNextTag_iff.mp h
      refine xmlParseNextTag_iff.mpr ⟨t, ht, h.mono ?_ ?_⟩
      · exact fun name b p hp => fixDataMatchingTag_mono hle hp
      · exact fun b parsed hparsed => ih.2 b parsed hparsed fuel' hle
    · obtain ⟨fuel', rfl⟩ : ∃ m, fuel' = m + 1 := ⟨fuel' - 1, by omega⟩
      have hle := Nat.le_of_succ_le_succ hle
      obtain ⟨parsed, hparsed, h⟩ := parseTagList_iff.mp h
      refine parseTagList_iff.mpr ⟨parsed, ih.1 b parsed hparsed fuel' hle, h.imp_right ?_⟩
      rintro ⟨tag, others, htag, hothers, hr⟩
      exact ⟨tag, others, htag, ih.2 _ _ hothers fuel' hle, hr⟩

/-! ## The rules -/

/-- `FixDataMatchingTag` succeeds on the buffer. -/
def Fixes (tag b : Bytes) (p : Bytes × Nat) : Prop :=
  ∃ fuel, fixDataMatchingTag tag fuel b = .ok p

/-- `__ParseTagList` succeeds on the buffer. -/
def ReturnsList (lib : FloatLib F) (b : Bytes) (r : Parsed (List (Tag F))) : Prop :=
  ∃ fuel, parseTagList lib fuel b = .ok r

theorem returns_iff :
    Returns lib b r ↔ ∃ t, getNextTag b = .ok t ∧ Outcome lib Fixes (ReturnsList lib) t r := by
  constructor
  · rintro ⟨fuel, h⟩
    cases fuel with
    | zero =>
      cases h
    | succ fuel =>
      obtain ⟨t, ht, h⟩ := xmlParseNextTag_iff.mp h
      exact ⟨t, ht, h.mono (fun _ _ _ hp => ⟨fuel, hp⟩) fun _ _ hparsed => ⟨fuel, hparsed⟩⟩
  · rintro ⟨t, ht, h⟩
    cases h with
    | nothing h => exact ⟨1, xmlParseNextTag_iff.mpr ⟨t, ht, .nothing h⟩⟩
    | constant h => exact ⟨1, xmlParseNextTag_iff.mpr ⟨t, ht, .constant h⟩⟩
    | list h hlist =>
      obtain ⟨fuel, hlist⟩ := hlist
      exact ⟨fuel + 1, xmlParseNextTag_iff.mpr ⟨t, ht, .list h hlist⟩⟩
    | content h hfix hread =>
      obtain ⟨fuel, hfix⟩ := hfix
      exact ⟨fuel + 1, xmlParseNextTag_iff.mpr ⟨t, ht, .content h hfix hread⟩⟩

theorem returnsList_iff {r : Parsed (List (Tag F))} :
    ReturnsList lib b r ↔ ∃ parsed, Returns lib b parsed ∧
      (parsed.tag = none ∧ r = ⟨[], parsed.length, parsed.buffer⟩ ∨
        ∃ tag others, parsed.tag = some tag ∧
          ReturnsList lib (parsed.buffer.drop parsed.length) others ∧
          r = ⟨tag :: others.tag, parsed.length + others.length,
            parsed.buffer.take parsed.length ++ others.buffer⟩) := by
  constructor
  · rintro ⟨fuel, h⟩
    cases fuel with
    | zero =>
      cases h
    | succ fuel =>
      obtain ⟨parsed, hparsed, h⟩ := parseTagList_succ h
      refine ⟨parsed, ⟨fuel, hparsed⟩, h.imp_right ?_⟩
      rintro ⟨tag, others, htag, hothers, hr⟩
      exact ⟨tag, others, htag, ⟨fuel, hothers⟩, hr⟩
  · rintro ⟨parsed, ⟨fuel, hparsed⟩, hnone | ⟨tag, others, htag, ⟨fuel', hothers⟩, hr⟩⟩
    · exact ⟨fuel + 1, parseTagList_iff.mpr ⟨parsed, hparsed, .inl hnone⟩⟩
    · have hparsed := (parse_mono fuel).1 b parsed hparsed _ (le_max_left fuel fuel')
      have hothers := (parse_mono fuel').2 _ others hothers _ (le_max_right fuel fuel')
      exact ⟨max fuel fuel' + 1,
        parseTagList_iff.mpr ⟨parsed, hparsed, .inr ⟨tag, others, htag, hothers, hr⟩⟩⟩

theorem Returns.unique {r' : Parsed (Option (Tag F))} (h : Returns lib b r)
    (h' : Returns lib b r') : r = r' := by
  obtain ⟨fuel, h⟩ := h
  obtain ⟨fuel', h'⟩ := h'
  have h := (parse_mono fuel).1 b r h _ (le_max_left fuel fuel')
  have h' := (parse_mono fuel').1 b r' h' _ (le_max_right fuel fuel')
  exact Except.ok.inj (h.symm.trans h')

/-- Induction on the calls: a property of calls and one of lists hold if they hold for a call whose
list has its property, and for a list whose calls have theirs. -/
theorem returns_induction {P : Bytes → Parsed (Option (Tag F)) → Prop}
    {Q : Bytes → Parsed (List (Tag F)) → Prop}
    (call : ∀ b t r, getNextTag b = .ok t →
      Outcome lib Fixes (fun b parsed => ReturnsList lib b parsed ∧ Q b parsed) t r → P b r)
    (nil : ∀ b r, P b r → r.tag = none → Q b ⟨[], r.length, r.buffer⟩)
    (cons : ∀ b r tag others, P b r → r.tag = some tag → Q (r.buffer.drop r.length) others →
      Q b ⟨tag :: others.tag, r.length + others.length, r.buffer.take r.length ++ others.buffer⟩) :
    (∀ b r, Returns lib b r → P b r) ∧ ∀ b r, ReturnsList lib b r → Q b r := by
  have h : ∀ fuel, (∀ b r, xmlParseNextTag lib fuel b = .ok r → P b r) ∧
      ∀ b r, parseTagList lib fuel b = .ok r → Q b r := by
    intro fuel
    induction fuel with
    | zero =>
      refine ⟨fun b r h => ?_, fun b r h => ?_⟩
      · cases h
      · cases h
    | succ fuel ih =>
      refine ⟨fun b r h => ?_, fun b r h => ?_⟩
      · obtain ⟨t, ht, h⟩ := xmlParseNextTag_iff.mp h
        exact call b t r ht (h.mono (fun _ _ _ hp => ⟨fuel, hp⟩)
          fun b parsed hparsed => ⟨⟨fuel, hparsed⟩, ih.2 b parsed hparsed⟩)
      · obtain ⟨parsed, hparsed, ⟨htag, rfl⟩ | ⟨tag, others, htag, hothers, rfl⟩⟩ :=
          parseTagList_succ h
        · exact nil b parsed (ih.1 b parsed hparsed) htag
        · exact cons b parsed tag others (ih.1 b parsed hparsed) htag (ih.2 _ _ hothers)
  refine ⟨fun b r hr => ?_, fun b r hr => ?_⟩
  · obtain ⟨fuel, hr⟩ := hr
    exact (h fuel).1 b r hr
  · obtain ⟨fuel, hr⟩ := hr
    exact (h fuel).2 b r hr

end Rules

end Clover.Plist
