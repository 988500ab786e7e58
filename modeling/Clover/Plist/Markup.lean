import Clover.Plist.RoundTrip

/-!
# What is lost in printing

The converse of the round trip: a dictionary that was read and has a leaf that is not plain is not
read again from what is printed. In a printed key or string the first `<` starts a tag, at which the
content ends, or which becomes part of the content together with what was printed behind it; a `&`
is gone after decoding. A float or a date is printed without its tags, so that the first tag behind
it is that of another element. The string of a date may have a `<` in it, but not the end of a tag;
the name of the tag that starts there goes on into what is printed behind the date, and is not the
name of a float or of a date.

The strings of tags, and everything that is printed, are texts of whole characters, whatever bytes
were read (`Tag.Written`).
-/

namespace Clover.Plist

open Clover.Lib Clover.Xml List

variable {b blank name rest s : Bytes} {t : NextTag}

variable {F : Type} {lib : FloatLib F}

/-! ## Strings that were read are texts -/

/-- The tags that are printed without their tags. -/
def Tag.untagged : Tag F → Bool
  | .float _ | .date _ => true
  | _ => false

variable {r : Parsed (Option (Tag F))} {content D : List (Tag F)} {tag : Tag F}
  {make : List (Tag F) → Tag F} {p : Bytes × Nat} {q : Bytes} {ident : Nat}

/-- The elements that are printed without their tags. -/
def Element.untagged (e : Element) : Prop := e = .float ∨ e = .date

instance : DecidablePred Element.untagged := fun e =>
  inferInstanceAs (Decidable (e = .float ∨ e = .date))

theorem reader_spec {e : Element} {lenPtr : Nat} {reader : Reader F}
    (h : e.reader lib lenPtr = some reader) {parsed : Parsed (Tag F)}
    (hread : reader.read p = .ok parsed) :
    parsed.tag.isList = false ∧ parsed.tag.Written ∧
      (parsed.tag.untagged = true → e.untagged) := by
  cases e with
  | key | string =>
    obtain rfl := Option.some.inj h
    obtain rfl := Except.ok.inj hread
    exact ⟨rfl, canonical_strncpy _ _, nofun⟩
  | date =>
    obtain rfl := Option.some.inj h
    obtain rfl := Except.ok.inj hread
    exact ⟨rfl, canonical_strncpy _ _, fun _ => .inr rfl⟩
  | float =>
    obtain rfl := Option.some.inj h
    obtain rfl := Except.ok.inj hread
    exact ⟨rfl, trivial, fun _ => .inl rfl⟩
  | data =>
    obtain rfl := Option.some.inj h
    obtain rfl := Except.ok.inj hread
    exact ⟨rfl, trivial, nofun⟩
  | integer =>
    obtain rfl := Option.some.inj h
    dsimp only at hread
    split at hread
    · obtain rfl := Except.ok.inj hread
      exact ⟨rfl, trivial, nofun⟩
    · obtain ⟨integer, -, hreturn⟩ := bind_eq_ok.mp hread
      obtain rfl := Except.ok.inj hreturn
      exact ⟨rfl, trivial, nofun⟩
  | _ => cases h

/-- What was read has texts of whole characters. -/
theorem written_of_returns (h : Returns lib b r) (htag : r.tag = some tag) :
    ∀ leaf ∈ tag.leaves, leaf.Written := by
  refine (returns_induction
    (P := fun _ r => ∀ tag, r.tag = some tag → ∀ leaf ∈ tag.leaves, leaf.Written)
    (Q := fun _ r => ∀ leaf ∈ leavesAll r.tag, leaf.Written) ?_ ?_ ?_).1 b r h tag htag
  · intro b t r _ h tag htag
    cases h with
    | nothing h => cases htag
    | constant h =>
      obtain rfl := Option.some.inj htag
      obtain rfl | rfl | ⟨value, rfl⟩ := Element.constant_cases h
      · exact nofun
      · exact nofun
      · intro leaf hleaf
        rw [mem_singleton.mp hleaf]
        trivial
    | list h hlist =>
      obtain rfl := Option.some.inj htag
      obtain rfl | rfl := Element.list_cases h
      · exact hlist.2
      · exact hlist.2
    | content h hfix hread =>
      obtain rfl := Option.some.inj htag
      obtain ⟨hleaf, hwritten, -⟩ := reader_spec h hread
      rw [Tag.leaves_of_isList hleaf]
      intro leaf hleaf
      rwa [mem_singleton.mp hleaf]
  · exact nofun
  · intro b r tag others hr htag hothers leaf hleaf
    rw [leavesAll, mem_append] at hleaf
    exact hleaf.elim (hr tag htag leaf) (hothers leaf)

/-! ## What is printed is a text -/

theorem Canonical.append {s' : Bytes} (h : Canonical s) (h' : Canonical s') :
    Canonical (s ++ s') := by
  obtain ⟨cs, hcs, rfl⟩ := h
  obtain ⟨cs', hcs', rfl⟩ := h'
  exact ⟨cs ++ cs', hcs.append hcs', (utf8_append cs cs').symm⟩

theorem canonical_enclosed (ident : Nat) (hname : Clean name) (hs : Canonical s) :
    Canonical (enclosed ident name s) := by
  have hopen := (canonical_ascii (s := [60]) (by decide)).append hname.canonical
  have hgt : Canonical [62] := canonical_ascii (by decide)
  have hend := (canonical_ascii (s := [60, 47]) (by decide)).append hname.canonical
  have hclose := hend.append (canonical_ascii (s := [62, 10]) (by decide))
  have h := ((clean_spaces ident).canonical.append hopen).append (hgt.append (hs.append hclose))
  simpa [enclosed] using h

/-- What is printed is a text of whole characters. -/
theorem canonical_sprintf (lib : FloatLib F) :
    (∀ tag : Tag F, (∀ leaf ∈ tag.leaves, leaf.Written) → ∀ ident,
      Canonical (tag.sprintf lib ident)) ∧
    ∀ content : List (Tag F), (∀ leaf ∈ leavesAll content, leaf.Written) → ∀ ident,
      Canonical (sprintfAll lib ident content) := by
  have hnewline : Canonical [10] := canonical_ascii (by decide)
  apply Tag.induction
  · intro make name hmake content ih hleaves ident
    rw [hmake.leaves] at hleaves
    rw [sprintf_list lib ident hmake]
    apply canonical_enclosed ident hmake.named.2.1
    exact hnewline.append ((ih hleaves _).append (clean_spaces ident).canonical)
  · intro tag htag hleaves ident
    have hspaces := (clean_spaces ident).canonical
    have hwritten := hleaves tag (by
      rw [Tag.leaves_of_isList htag]
      exact mem_singleton_self tag)
    cases tag with
    | dict | array => cases htag
    | key s =>
      rw [sprintf_key]
      exact canonical_enclosed ident (by decide) hwritten
    | string s =>
      rw [sprintf_string]
      exact canonical_enclosed ident (by decide) hwritten
    | int64 value =>
      rw [sprintf_int64]
      exact canonical_enclosed ident (by decide) (clean_printInt64 value).canonical
    | float value =>
      exact hspaces.append (Clean.canonical (lib.plain value))
    | data data =>
      rw [sprintf_data]
      exact canonical_enclosed ident (by decide) (clean_dataText ident data).canonical
    | date s =>
      exact hspaces.append hwritten
    | bool value =>
      apply hspaces.append
      cases value with
      | false => exact canonical_ascii (by decide)
      | true => exact canonical_ascii (by decide)
  · intro _ ident
    exact ⟨[], fun c hc => (nomatch hc), rfl⟩
  · intro tag content htag ih hleaves ident
    exact (htag (fun leaf h => hleaves leaf (mem_append_left _ h)) ident).append
      (ih (fun leaf h => hleaves leaf (mem_append_right _ h)) ident)

/-- A buffer with a text. -/
def HoldsText (b : Bytes) : Prop := ∃ cs r, IsText cs ∧ b = utf8 cs ++ 0 :: r

theorem HoldsText.append (hs : Canonical s) (hb : HoldsText b) : HoldsText (s ++ b) := by
  obtain ⟨cs, hcs, rfl⟩ := hs
  obtain ⟨cs', r, hcs', rfl⟩ := hb
  exact ⟨cs ++ cs', r, hcs.append hcs', by rw [utf8_append, append_assoc]⟩

/-! ## Keys and strings -/

theorem eq_of_first {α : Type} {c : α} {a a' b b' : List α} (ha : c ∉ a) (ha' : c ∉ a')
    (h : a ++ c :: b = a' ++ c :: b') : a = a' ∧ b = b' := by
  obtain ⟨u, rfl, hu⟩ | ⟨u, rfl, hu⟩ := append_eq_append_iff.mp h
  · cases u with
    | nil => exact ⟨(append_nil a).symm, (cons.inj hu).2⟩
    | cons d u =>
      rw [← (cons.inj hu).1] at ha'
      exact absurd (mem_append_right a mem_cons_self) ha'
  · cases u with
    | nil => exact ⟨append_nil a', (cons.inj hu).2.symm⟩
    | cons d u =>
      rw [← (cons.inj hu).1] at ha
      exact absurd (mem_append_right a' mem_cons_self) ha

/-- The content of an element that was printed around the text `cs`: the text itself if there is no
tag in it, and otherwise less than that or more. -/
theorem fixes_printed {cs : List UInt32} (hcs : IsText cs) {tag : Bytes} (htag : Clean tag)
    (hgt : 62 ∉ tag) (hb : HoldsText b)
    (h : Fixes tag (utf8 cs ++ 60 :: 47 :: (tag ++ 62 :: b)) p) :
    ∃ kc y, IsText kc ∧ p.1 = utf8 kc ++ 0 :: y ∧
      (60 ∉ cs ∧ kc = cs ∨ 60 ∈ cs ∧ (kc.length < cs.length ∨ ∃ u, kc = cs ++ 60 :: u)) := by
  obtain ⟨cs', r, hcs', rfl⟩ := hb
  obtain ⟨fuel, h⟩ := h
  obtain ⟨endName, hend, rfl⟩ : Canonical tag := htag.canonical
  have hgt : 62 ∉ endName := mt (mem_utf8_ascii (b := 62) (by decide)).mpr hgt
  have hbuffer : utf8 cs ++ 60 :: 47 :: (utf8 endName ++ 62 :: (utf8 cs' ++ 0 :: r)) =
      utf8 (cs ++ 60 :: 47 :: (endName ++ 62 :: cs')) ++ 0 :: r := by
    rw [utf8_append, utf8_lt, utf8_slash, utf8_append, utf8_gt]
    simp
  rw [hbuffer] at h
  have htext : IsText (cs ++ 60 :: 47 :: (endName ++ 62 :: cs')) :=
    hcs.append (.cons (by decide) (.cons (by decide)
      (hend.append (.cons (by decide) hcs'))))
  obtain ⟨blank, name, rest, -, y, hfirst, -, hp, -, -⟩ := fixDataMatchingTag_text htext h
  refine ⟨_, y, ?_, hp, ?_⟩
  · split
    · exact hfirst.blank_text
    · exact hfirst.blank_text.append (.cons (by decide) hfirst.name_text)
  · by_cases hlt : 60 ∈ cs
    · refine .inr ⟨hlt, ?_⟩
      split
      · left
        obtain ⟨a, q, rfl, ha⟩ := eq_append_cons_of_mem hlt
        have heq := hfirst.eq
        rw [append_assoc, cons_append] at heq
        obtain ⟨rfl, -⟩ := eq_of_first ha hfirst.blank_lt heq
        simp
      · obtain ⟨u, hu, hu'⟩ | ⟨u, hu, hu'⟩ := append_eq_append_iff.mp
          (hfirst.eq.trans (append_assoc blank (60 :: name) (62 :: rest)).symm)
        · cases u with
          | nil => cases hu'
          | cons d u =>
            rw [← (cons.inj hu').1] at hu
            exact .inr ⟨u, hu⟩
        · cases u with
          | nil => cases hu'
          | cons d u =>
            left
            rw [hu]
            simp
    · left
      obtain ⟨rfl, hrest⟩ := eq_of_first hlt hfirst.blank_lt hfirst.eq
      rw [← cons_append] at hrest
      obtain ⟨rfl, -⟩ := eq_of_first (by simpa using hgt) hfirst.name_gt hrest
      exact ⟨hlt, if_pos (utf8_slash endName)⟩

theorem returns_content (endName : Bytes) {reader : Nat → Reader F} (hblank : Passed blank)
    (hname : Named name)
    (hreader : ∀ lenPtr, (element name).reader lib lenPtr = some (reader lenPtr))
    (hend : ∀ lenPtr, (reader lenPtr).name = endName)
    (h : Returns lib (blank ++ 60 :: (name ++ 62 :: rest)) r) :
    ∃ p parsed lenPtr, Fixes endName rest p ∧ (reader lenPtr).read p = .ok parsed ∧
      r.tag = some parsed.tag := by
  obtain ⟨t, ht, h⟩ := returns_iff.mp h
  rw [getNextTag_tag hblank hname] at ht
  obtain rfl := Except.ok.inj ht
  obtain ⟨p, parsed, hfix, hread, rfl⟩ := h.of_reader (hreader _)
  rw [drop_tag, hend] at hfix
  exact ⟨p, parsed, _, hfix, hread, rfl⟩

theorem returns_list (hblank : Passed blank) (hname : Named name)
    (hmake : (element name).list = some make)
    (h : Returns lib (blank ++ 60 :: (name ++ 62 :: rest)) r) :
    ∃ parsed, ReturnsList lib rest parsed ∧ r.tag = some (make parsed.tag) := by
  obtain ⟨t, ht, h⟩ := returns_iff.mp h
  rw [getNextTag_tag hblank hname] at ht
  obtain rfl := Except.ok.inj ht
  obtain ⟨parsed, hlist, rfl⟩ := h.of_list hmake
  rw [drop_tag] at hlist
  exact ⟨parsed, hlist, rfl⟩

/-- A key with a `<` in it is not read back. -/
theorem returns_key (hs : Canonical s) (hlt : 60 ∈ s) (hblank : Passed blank)
    (hrest : HoldsText rest)
    (h : Returns lib
      (blank ++ 60 :: (lit "key" ++ 62 :: (s ++ 60 :: 47 :: (lit "key" ++ 62 :: rest)))) r) :
    r.tag ≠ some (.key s) := by
  obtain ⟨cs, hcs, rfl⟩ := hs
  obtain ⟨p, parsed, lenPtr, hfix, hread, htag⟩ :=
    returns_content (lit "key") hblank (by decide) (fun _ => rfl) (fun _ => rfl) h
  obtain ⟨kc, y, hkc, hp, hshape⟩ := fixes_printed hcs (by decide) (by decide)
    hrest hfix
  obtain rfl := Except.ok.inj hread
  rw [htag]
  intro heq
  have hcopy : strncpy p.1 (cString p.1).length = utf8 kc := by
    rw [hp, cString_append (zero_notMem_utf8 hkc), strncpy_utf8 hkc (length_le_utf8 kc)]
  have hkey := Tag.key.inj (Option.some.inj heq)
  obtain rfl := utf8_inj hkc hcs (hcopy.symm.trans hkey)
  obtain ⟨hnot, -⟩ | ⟨-, hlength | ⟨u, hu⟩⟩ := hshape
  · exact hnot ((mem_utf8_ascii (b := 60) (by decide)).mp hlt)
  · exact lt_irrefl _ hlength
  · simpa using congrArg length hu

theorem strncpy_decoded {kc : List UInt32} (hkc : IsText kc) (y : Bytes) :
    ∃ ds, Decodes kc ds ∧
      let b := utf8 kc ++ 0 :: y
      let out := xmlDecode b (cString b).length (cString b).length
      strncpy (decoded b out) out.length = utf8 ds := by
  obtain ⟨ds, z, hds, hz, hout⟩ := xmlDecode_text hkc y
  have hcString := cString_append (zero_notMem_utf8 hkc) y
  have hle := length_xmlDecode_le (utf8 kc ++ 0 :: y) (utf8 kc).length (utf8 kc).length
  refine ⟨ds, hds, ?_⟩
  dsimp only
  rw [hcString, hout]
  rw [hout] at hle
  obtain ⟨y', hdecoded⟩ :
      ∃ y', decoded (utf8 kc ++ 0 :: y) (utf8 ds ++ z) = utf8 ds ++ z ++ 0 :: y' := by
    rw [decoded, hcString]
    split
    · exact ⟨_, rfl⟩
    · next hge =>
      rw [le_antisymm hle (Nat.le_of_not_lt hge), drop_left]
      exact ⟨_, rfl⟩
  have hlength : ds.length ≤ (utf8 ds ++ z).length :=
    Nat.le_trans (length_le_utf8 ds) (length_append ▸ Nat.le_add_right _ _)
  rw [hdecoded]
  obtain rfl | rfl := hz
  · rw [append_nil] at *
    exact strncpy_utf8 (hds.isText hkc) hlength y'
  · rw [append_assoc]
    exact strncpy_utf8 (hds.isText hkc) hlength (0 :: y')

/-- A string with markup in it is not read back. -/
theorem returns_string (hs : Canonical s) (hmarkup : ¬ (60 ∉ s ∧ 38 ∉ s)) (hblank : Passed blank)
    (hrest : HoldsText rest)
    (h : Returns lib
      (blank ++ 60 :: (lit "string" ++ 62 :: (s ++ 60 :: 47 :: (lit "string" ++ 62 :: rest)))) r) :
    r.tag ≠ some (.string s) := by
  obtain ⟨cs, hcs, rfl⟩ := hs
  obtain ⟨p, parsed, lenPtr, hfix, hread, htag⟩ :=
    returns_content (lit "string") hblank (by decide) (fun _ => rfl) (fun _ => rfl) h
  obtain ⟨kc, y, hkc, hp, hshape⟩ := fixes_printed hcs (by decide) (by decide)
    hrest hfix
  obtain rfl := Except.ok.inj hread
  rw [htag]
  intro heq
  obtain ⟨ds, hds, hcopy⟩ := strncpy_decoded hkc y
  rw [← hp] at hcopy
  have hstring := Tag.string.inj (Option.some.inj heq)
  obtain rfl := utf8_inj (hds.isText hkc) hcs (hcopy.symm.trans hstring)
  have hle := hds.length_le
  obtain ⟨hnot, rfl⟩ | ⟨-, hlength | ⟨u, rfl⟩⟩ := hshape
  · have hamp : 38 ∈ kc := by
      by_contra hamp
      exact hmarkup ⟨mt (mem_utf8_ascii (by decide)).mp hnot,
        mt (mem_utf8_ascii (by decide)).mp hamp⟩
    exact lt_irrefl _ (hds.length_lt hamp)
  · omega
  · have hcount := hds.count_le
    rw [count_append, count_cons_self] at hcount
    omega

/-! ## Floats and dates -/

/-- No tag ends in the string. -/
def Unclosed (s : Bytes) : Prop := ∀ a q, s = a ++ 60 :: q → 60 ∉ a → 62 ∉ q

theorem element_of_untagged {fixes : Bytes → Bytes → Bytes × Nat → Prop}
    {lists : Bytes → Parsed (List (Tag F)) → Prop} (h : Outcome lib fixes lists t r)
    (htag : r.tag = some tag) (huntagged : tag.untagged = true) : (element t.tag).untagged := by
  cases h with
  | nothing h => cases htag
  | constant h =>
    obtain rfl := Option.some.inj htag
    obtain rfl | rfl | ⟨value, rfl⟩ := Element.constant_cases h
    · cases huntagged
    · cases huntagged
    · cases huntagged
  | list h hlist =>
    obtain rfl := Option.some.inj htag
    obtain rfl | rfl := Element.list_cases h
    · cases huntagged
    · cases huntagged
  | content h hfix hread =>
    obtain rfl := Option.some.inj htag
    exact (reader_spec h hread).2.2 huntagged

/-- A float or a date is read from the first tag, and a text is left behind it. -/
theorem returns_untagged (hb : HoldsText b) (h : Returns lib b r) (htag : r.tag = some tag)
    (huntagged : tag.untagged = true) :
    (∃ t, getNextTag b = .ok t ∧ (element t.tag).untagged) ∧
      HoldsText (r.buffer.drop r.length) ∧ ∀ s, tag = .date s → Unclosed s := by
  obtain ⟨t, ht, h⟩ := returns_iff.mp h
  have helement := element_of_untagged h htag huntagged
  refine ⟨⟨t, ht, helement⟩, ?_⟩
  obtain ⟨cs, y, hcs, rfl⟩ := hb
  obtain ⟨blank, name, rest, hfirst, rfl⟩ := getNextTag_text hcs ht
  have hlength := length_tag (utf8 blank) 60 (utf8 name) 0 (utf8 rest ++ 0 :: y)
  obtain helement | helement := helement
  · obtain ⟨p, parsed, ⟨fuel, hfix⟩, hread, rfl⟩ := h.of_reader (by rw [helement]; rfl)
    rw [drop_tag] at hfix
    obtain ⟨-, -, -, left, -, -, hleft, -, hdrop, -⟩ :=
      fixDataMatchingTag_text hfirst.rest_text hfix
    obtain rfl := Except.ok.inj hread
    obtain rfl := Option.some.inj htag
    refine ⟨⟨left, y, hleft, ?_⟩, nofun⟩
    exact (drop_take_append hlength).trans hdrop
  · obtain ⟨p, parsed, ⟨fuel, hfix⟩, hread, rfl⟩ := h.of_reader (by rw [helement]; rfl)
    rw [drop_tag] at hfix
    obtain ⟨blank', name', rest', left, y', hfirst', hleft, hp, hdrop, hle⟩ :=
      fixDataMatchingTag_text hfirst.rest_text hfix
    obtain rfl := Except.ok.inj hread
    obtain rfl := Option.some.inj htag
    refine ⟨⟨left, y, hleft, ?_⟩, ?_⟩
    · exact (drop_take_append hlength).trans hdrop
    · intro s hs
      obtain rfl := Tag.date.inj hs
      obtain ⟨kc, hkc, hkc', hlength', hshape⟩ : ∃ kc, IsText kc ∧ p.1 = utf8 kc ++ 0 :: y' ∧
          kc.length ≤ p.2 ∧ (kc = blank' ∨ kc = blank' ++ 60 :: name') := by
        have hblank' := length_le_utf8 blank'
        have hname' := length_le_utf8 name'
        by_cases hend : utf8 name' = 47 :: lit "date"
        · rw [if_pos hend] at hp
          exact ⟨blank', hfirst'.blank_text, hp, by omega, .inl rfl⟩
        · rw [if_neg hend] at hp
          refine ⟨blank' ++ 60 :: name', ?_, hp, ?_, .inr rfl⟩
          · exact hfirst'.blank_text.append (.cons (by decide) hfirst'.name_text)
          · rw [length_append, length_cons]
            omega
      rw [hkc', strncpy_utf8 hkc hlength']
      intro a q ha hlt
      obtain rfl | rfl := hshape
      · exact absurd (ha ▸ mem_append_right a mem_cons_self)
          (passed_utf8 hkc hfirst'.blank_lt).2
      · rw [utf8_append, utf8_lt] at ha
        obtain ⟨-, rfl⟩ := eq_of_first (passed_utf8 hfirst'.blank_text hfirst'.blank_lt).2 hlt ha
        exact (named_utf8 hfirst'.name_text hfirst'.name_gt).2

/-- The dates at the start of a list that is read from a text, with floats between them. -/
theorem returnsList_unclosed (hb : HoldsText b) {r : Parsed (List (Tag F))}
    (h : ReturnsList lib b r) (hcontent : r.tag = content) :
    ∀ s, .date s ∈ content.takeWhile Tag.untagged → Unclosed s := by
  induction content generalizing b r with
  | nil => exact nofun
  | cons tag content ih =>
    intro s hs
    by_cases huntagged : tag.untagged = true
    · rw [takeWhile_cons_of_pos huntagged] at hs
      obtain ⟨parsed, hparsed, ⟨-, rfl⟩ | ⟨tag', others, htag, hothers, rfl⟩⟩ :=
        returnsList_iff.mp h
      · cases hcontent
      · obtain rfl := (cons.inj hcontent).1
        obtain ⟨-, htext, hdate⟩ := returns_untagged hb hparsed htag huntagged
        obtain hs | hs := mem_cons.mp hs
        · exact hdate s hs.symm
        · exact ih htext hothers (cons.inj hcontent).2 s hs
    · rw [takeWhile_cons_of_neg huntagged] at hs
      cases hs

theorem untagged_ite {p : Prop} [Decidable p] {x y : Element} {q : Prop}
    (hx : p → x.untagged → q) (hy : y.untagged → q) : (if p then x else y).untagged → q := by
  split
  · next h => exact hx h
  · exact hy

theorem element_names (h : (element name).untagged) :
    name ∈ [lit "real", lit "real ", lit "date"] := by
  have hother : ∀ {p : Prop} {e : Element}, e ≠ .float ∧ e ≠ .date → p → e.untagged →
      name ∈ [lit "real", lit "real ", lit "date"] :=
    fun hne _ he => (he.elim hne.1 hne.2).elim
  have hreal : sameUpTo 8 name (lit "real ") = true → name = lit "real " := by
    intro hsame
    have htake : name.take 8 = lit "real " := of_decide_eq_true hsame
    have hlength : (name.take 8).length = 5 := congrArg length htake
    rw [length_take] at hlength
    rwa [take_of_length_le (by omega)] at htake
  revert h
  iterate 9 refine untagged_ite (hother (by decide)) ?_
  refine untagged_ite (fun hname _ => by simp [hname]) ?_
  refine untagged_ite (fun hname _ => by simp [hreal hname]) ?_
  iterate 2 refine untagged_ite (hother (by decide)) ?_
  refine untagged_ite (fun hname _ => by simp [hname]) ?_
  iterate 5 refine untagged_ite (hother (by decide)) ?_
  exact hother (by decide) trivial

theorem element_of_long (h : 8 ≤ name.length ∨ 60 ∈ name) : ¬ (element name).untagged := by
  have hshort : ∀ s ∈ [lit "real", lit "real ", lit "date"], ¬ (8 ≤ s.length ∨ 60 ∈ s) := by decide
  exact fun he => hshort name (element_names he) h

theorem upTo_named (hq : Named q) (w : Bytes) : upTo 62 (q ++ w) = q ++ upTo 62 w := by
  rw [upTo, takeWhile_append_of_pos]
  · rfl
  · intro c hc
    exact decide_eq_true ⟨fun h => hq.1 (h ▸ hc), fun h => hq.2 (h ▸ hc)⟩

theorem getNextTag_name {w : Bytes} (hblank : Passed blank)
    (h : getNextTag (blank ++ 60 :: w) = .ok t) : t.tag = upTo 62 w := by
  have hdrop : (blank ++ 60 :: w).drop (blank.length + 1) = w := by
    rw [← drop_drop, drop_left]
    rfl
  rw [getNextTag, upTo_append hblank.1 hblank.2 (.inr rfl), getD_length_append] at h
  dsimp only at h
  rw [if_neg (by decide), hdrop] at h
  split at h
  · cases h
  · obtain rfl := Except.ok.inj h
    rfl

theorem sprintf_tagged (lib : FloatLib F) (h : tag.untagged = false) (ident : Nat) :
    ∃ name s, Named name ∧ ¬ (element name).untagged ∧
      tag.sprintf lib ident = spaces ident ++ 60 :: (name ++ 62 :: s) := by
  cases tag with
  | float | date => cases h
  | dict content =>
    exact ⟨_, _, by decide, by decide, sprintf_list lib ident .dict content⟩
  | array content =>
    exact ⟨_, _, by decide, by decide, sprintf_list lib ident .array content⟩
  | key s =>
    exact ⟨_, _, by decide, by decide, sprintf_key ..⟩
  | string s =>
    exact ⟨_, _, by decide, by decide, sprintf_string ..⟩
  | int64 value =>
    exact ⟨_, _, by decide, by decide, sprintf_int64 ..⟩
  | data data =>
    exact ⟨_, _, by decide, by decide, sprintf_data ..⟩
  | bool value =>
    cases value with
    | false =>
      exact ⟨lit "false/", [10], by decide, by decide, rfl⟩
    | true =>
      exact ⟨lit "true/", [10], by decide, by decide, rfl⟩

theorem sprintf_spaces (lib : FloatLib F) (tag : Tag F) (ident : Nat) :
    ∃ s, tag.sprintf lib ident = spaces ident ++ s := by
  by_cases h : tag.untagged = false
  · obtain ⟨name, s, -, -, hs⟩ := sprintf_tagged lib h ident
    exact ⟨_, hs⟩
  · cases tag with
    | float value => exact ⟨lib.printed value, by rw [Tag.sprintf]⟩
    | date s => exact ⟨s, by rw [Tag.sprintf]⟩
    | _ => exact absurd rfl h

theorem named_spaces (ident : Nat) : Named (spaces ident) := by
  refine ⟨(clean_spaces ident).passed.1, fun h => ?_⟩
  exact absurd (eq_of_mem_replicate h) (by decide)

/-- The name of a tag that starts in a date is long, or has a `<` in it. -/
theorem upTo_crossing (content : List (Tag F)) (hident : 8 ≤ ident) (k : Nat)
    (w : Bytes) (hq : Named q) :
    let name := upTo 62 (q ++ (sprintfAll lib ident content ++ (spaces k ++ 60 :: w)))
    8 ≤ name.length ∨ 60 ∈ name := by
  cases content with
  | nil =>
    right
    have hlt : Named [60] := by decide
    rw [sprintfAll, nil_append, upTo_named hq, upTo_named (named_spaces k),
      ← singleton_append, upTo_named hlt]
    simp
  | cons tag content =>
    left
    obtain ⟨s, hs⟩ := sprintf_spaces lib tag ident
    rw [sprintfAll, hs, upTo_named hq, append_assoc, append_assoc,
      upTo_named (named_spaces ident)]
    simp only [length_append, spaces, length_replicate]
    omega

/-- The first tag behind floats and dates is not that of a float or a date. -/
theorem getNextTag_untagged (hident : 8 ≤ ident)
    (hdates : ∀ s, .date s ∈ content.takeWhile Tag.untagged → Unclosed s ∧ 0 ∉ s) {k : Nat}
    (hname : Named name) (hend : element (47 :: name) = .unknown) (hblank : Passed blank)
    (h : getNextTag
      (blank ++ (sprintfAll lib ident content ++ (spaces k ++ 60 :: 47 :: (name ++ 62 :: rest)))) =
        .ok t) :
    ¬ (element t.tag).untagged := by
  have hspaces := (clean_spaces ident).passed
  induction content generalizing blank with
  | nil =>
    have hname' : Named (47 :: name) := ⟨by simpa using hname.1, by simpa using hname.2⟩
    rw [sprintfAll, nil_append, ← append_assoc, ← cons_append,
      getNextTag_tag (hblank.append (clean_spaces k).passed) hname'] at h
    obtain rfl := Except.ok.inj h
    rw [hend]
    simp [Element.untagged]
  | cons tag content ih =>
    rw [sprintfAll, append_assoc] at h
    cases huntagged : tag.untagged with
    | false =>
      obtain ⟨name', s, hname', helement, hs⟩ := sprintf_tagged lib huntagged ident
      rw [hs, append_assoc, cons_append, append_assoc, cons_append,
        ← append_assoc blank, getNextTag_tag (hblank.append hspaces) hname'] at h
      obtain rfl := Except.ok.inj h
      exact helement
    | true =>
      rw [takeWhile_cons_of_pos huntagged] at hdates
      have hothers := fun s hs => hdates s (mem_cons_of_mem _ hs)
      cases tag with
      | float value =>
        rw [Tag.sprintf, ← append_assoc blank, ← append_assoc blank] at h
        exact ih hothers ((hblank.append hspaces).append (Clean.passed (lib.plain value))) h
      | date s =>
        obtain ⟨hunclosed, hzero⟩ := hdates s mem_cons_self
        rw [Tag.sprintf, ← append_assoc blank, ← append_assoc blank] at h
        by_cases hlt : 60 ∈ s
        · obtain ⟨a, q, rfl, ha⟩ := eq_append_cons_of_mem hlt
          have hblank' : Passed (blank ++ spaces ident ++ a) :=
            (hblank.append hspaces).append ⟨fun h => hzero (mem_append_left _ h), ha⟩
          have hq : Named q := ⟨fun h => hzero
            (mem_append_right _ (mem_cons_of_mem _ h)), hunclosed a q rfl ha⟩
          rw [← append_assoc _ a, append_assoc _ (60 :: q), cons_append] at h
          rw [getNextTag_name hblank' h]
          exact element_of_long (upTo_crossing content hident k _ hq)
        · exact ih hothers ((hblank.append hspaces).append ⟨hzero, hlt⟩) h
      | _ => cases huntagged

/-! ## Tags and lists -/

section Lists

variable {ident k : Nat} {blank name rest : Bytes} {content : List (Tag F)}

/-- A printed list with an end tag behind it. -/
def listText (lib : FloatLib F) (ident k : Nat) (content : List (Tag F)) (name rest : Bytes) :
    Bytes :=
  sprintfAll lib ident content ++ (spaces k ++ 60 :: 47 :: (name ++ 62 :: rest))

theorem holdsText_listText (lib : FloatLib F) (ident k : Nat)
    (hwritten : ∀ leaf ∈ leavesAll content, leaf.Written) (hname : Clean name)
    (hrest : HoldsText rest) : HoldsText (listText lib ident k content name rest) := by
  have hend := (canonical_ascii (s := [60, 47]) (by decide)).append
    (hname.canonical.append (canonical_ascii (s := [62]) (by decide)))
  have h := HoldsText.append ((canonical_sprintf lib).2 content hwritten ident)
    (.append (clean_spaces k).canonical (.append hend hrest))
  simpa [listText] using h

theorem mem_leavesAll (h : tag ∈ content) (hleaf : tag.isList = false) :
    tag ∈ leavesAll content := by
  induction content with
  | nil => cases h
  | cons tag' content ih =>
    rw [leavesAll, mem_append]
    obtain rfl | h := mem_cons.mp h
    · left
      rw [Tag.leaves_of_isList hleaf]
      exact mem_singleton_self tag
    · exact .inr (ih h)

theorem returnsList_untagged (hident : 8 ≤ ident) (huntagged : tag.untagged = true)
    (hwritten : ∀ leaf ∈ leavesAll (tag :: content), leaf.Written) (hclean : Clean name)
    (hname : Named name) (hend : element (47 :: name) = .unknown) (hblank : Clean blank)
    (hrest : HoldsText rest) {r : Parsed (List (Tag F))}
    (h : ReturnsList lib (blank ++ listText lib ident k (tag :: content) name rest) r) :
    r.tag ≠ tag :: content := by
  intro hcontent
  have htext := HoldsText.append hblank.canonical
    (holdsText_listText lib ident k hwritten hclean hrest)
  have hunclosed := returnsList_unclosed htext h hcontent
  have hzero : ∀ s, .date s ∈ (tag :: content).takeWhile Tag.untagged → 0 ∉ s := by
    intro s hs
    have hdate : (Tag.date s : Tag F).Written :=
      hwritten _ (mem_leavesAll ((takeWhile_sublist _).subset hs) rfl)
    exact hdate.zero_notMem
  obtain ⟨parsed, hparsed, ⟨-, rfl⟩ | ⟨tag', others, htag, hothers, rfl⟩⟩ := returnsList_iff.mp h
  · cases hcontent
  · obtain rfl := (cons.inj hcontent).1
    obtain ⟨⟨t, ht, helement⟩, -⟩ := returns_untagged htext hparsed htag huntagged
    exact getNextTag_untagged hident (fun s hs => ⟨hunclosed s hs, hzero s hs⟩) hname hend
      hblank.passed ht helement

end Lists

theorem returns_leaf (hleaf : tag.isList = false) (huntagged : tag.untagged = false)
    (hwritten : tag.Written) (hplain : ¬ tag.Plain) (hblank : Clean blank)
    (hrest : HoldsText rest) (ident : Nat)
    (h : Returns lib (blank ++ (tag.sprintf lib ident ++ rest)) r) : r.tag ≠ some tag := by
  have hblank := (hblank.append (clean_spaces ident)).passed
  have hrest : HoldsText (10 :: rest) :=
    HoldsText.append (canonical_ascii (s := [10]) (by decide)) hrest
  cases tag with
  | key s =>
    rw [sprintf_key, enclosed_append] at h
    exact returns_key hwritten (not_not.mp hplain) hblank hrest h
  | string s =>
    rw [sprintf_string, enclosed_append] at h
    exact returns_string hwritten hplain hblank hrest h
  | dict | array => cases hleaf
  | float | date => cases huntagged
  | int64 | data | bool => exact absurd trivial hplain

theorem ListTag.injective {name : Bytes}
    (h : ListTag make name) {content' : List (Tag F)} (heq : make content = make content') :
    content = content' := by
  cases h <;> cases heq <;> rfl

/-- A tag with a leaf that is not plain is not read back. -/
theorem not_rereads (lib : FloatLib F) :
    (∀ tag : Tag F, tag.untagged = false → (∀ leaf ∈ tag.leaves, leaf.Written) →
      ¬ (∀ leaf ∈ tag.leaves, leaf.Plain) → ∀ {blank rest : Bytes}, Clean blank →
      HoldsText rest → ∀ (ident : Nat) (r : Parsed (Option (Tag F))),
      Returns lib (blank ++ (tag.sprintf lib ident ++ rest)) r → r.tag ≠ some tag) ∧
    ∀ content : List (Tag F), (∀ leaf ∈ leavesAll content, leaf.Written) →
      ¬ (∀ leaf ∈ leavesAll content, leaf.Plain) → ∀ {blank : Bytes} (name : Bytes)
      {rest : Bytes}, Clean blank → Clean name → Named name → element (47 :: name) = .unknown →
      HoldsText rest → ∀ (ident k : Nat) (r : Parsed (List (Tag F))), 8 ≤ ident →
      ReturnsList lib (blank ++ listText lib ident k content name rest) r → r.tag ≠ content := by
  have hnewline : Clean [10] := by decide
  apply Tag.induction
  · intro make name hmake content ih _ hwritten hplain blank rest hblank hrest ident r h htag
    obtain ⟨hname, hclean, hlist, hend⟩ := hmake.named
    rw [hmake.leaves] at hwritten hplain
    rw [sprintf_list lib ident hmake, enclosed_append] at h
    obtain ⟨parsed, hparsed, hr⟩ := returns_list (hblank.append (clean_spaces ident)).passed
      hname hlist h
    refine ih hwritten hplain name hnewline hclean hname hend
      (HoldsText.append hnewline.canonical hrest) (ident + 8) ident parsed
        (Nat.le_add_left _ _) ?_ ?_
    · simpa [listText] using hparsed
    · exact hmake.injective (Option.some.inj (hr.symm.trans htag))
  · intro tag hleaf huntagged hwritten hplain blank rest hblank hrest ident r h
    rw [Tag.leaves_of_isList hleaf] at hwritten hplain
    exact returns_leaf hleaf huntagged (hwritten tag (mem_singleton_self tag))
      (fun hp => hplain fun leaf hl => mem_singleton.mp hl ▸ hp) hblank hrest ident h
  · exact fun _ hplain => absurd nofun hplain
  · intro tag content htag ih hwritten hplain blank name rest hblank hclean hname hend
      hrest ident k r
      hident h hr
    have hwritten1 := fun leaf hl => hwritten leaf (mem_append_left _ hl)
    have hwritten2 := fun leaf hl => hwritten leaf (mem_append_right _ hl)
    cases huntagged : tag.untagged with
    | true =>
      exact returnsList_untagged hident huntagged hwritten hclean hname hend hblank hrest h hr
    | false =>
      have htext := holdsText_listText lib ident k hwritten2 hclean hrest
      obtain ⟨parsed, hparsed, ⟨-, rfl⟩ | ⟨tag', others, htag', hothers, rfl⟩⟩ :=
        returnsList_iff.mp h
      · cases hr
      · obtain ⟨rfl, hcontent⟩ := cons.inj hr
        rw [listText, sprintfAll, append_assoc] at hparsed
        by_cases hplain1 : ∀ leaf ∈ tag'.leaves, leaf.Plain
        · have hplain2 : ¬ ∀ leaf ∈ leavesAll content, leaf.Plain := fun hplain2 =>
            hplain fun leaf hl => (mem_append.mp hl).elim (hplain1 leaf) (hplain2 leaf)
          obtain ⟨r', hr', -, -, hdrop⟩ := (rereads lib).1 tag'
            (fun leaf hl => ⟨hplain1 leaf hl, hwritten1 leaf hl⟩) hblank.passed ident
            (listText lib ident k content name rest)
          obtain rfl := hr'.unique hparsed
          rw [hdrop] at hothers
          exact ih hwritten2 hplain2 name hnewline hclean hname hend hrest ident k others
            hident hothers
            hcontent
        · exact htag huntagged hwritten1 hplain1 hblank htext ident parsed hparsed htag'

/-! ## Documents -/

theorem returns_of_parseXMLLoop {fuel : Nat}
    (h : parseXMLLoop lib fuel b = .ok (some D)) : ∃ b' r, Returns lib b' r ∧ r.tag =
      some (.dict D) := by
  induction fuel generalizing b with
  | zero => cases h
  | succ fuel ih =>
    rw [parseXMLLoop, bind_eq_ok] at h
    obtain ⟨parsed, hparsed, h⟩ := h
    split at h
    · next content htag =>
      obtain rfl := Option.some.inj (Except.ok.inj h)
      exact ⟨b, parsed, ⟨fuel, hparsed⟩, htag⟩
    · cases h
    · cases h
    · exact ih h

theorem configBuffer_eq {text : Bytes} (h : 0 ∉ text) (behind : Bytes) :
    configBuffer text behind = text ++ 0 :: behind := by
  have hmap : text.map (fun c => if c = 0 then 0x20 else c) = text.map id := by
    apply map_congr_left
    rintro c hc
    rw [if_neg]
    · rfl
    · rintro rfl
      exact h hc
  rw [configBuffer, hmap, map_id]

/-- A printed dictionary is the first thing that `ParseXML` finds in it. -/
theorem parseXML_sprintf (hwritten : ∀ leaf ∈ leavesAll D, leaf.Written)
    (behind : Bytes) (D' : List (Tag F)) :
    (∃ fuel, parseXML lib fuel ((Tag.dict D).sprintf lib 0) behind = .ok (some D')) ↔
      ∃ r, Returns lib ((Tag.dict D).sprintf lib 0 ++ 0 :: behind) r ∧ r.tag = some (.dict D') := by
  have hzero := Canonical.zero_notMem ((canonical_sprintf lib).1 (.dict D) hwritten 0)
  constructor
  · rintro ⟨fuel, h⟩
    rw [parseXML, configBuffer_eq hzero] at h
    cases fuel with
    | zero => cases h
    | succ fuel =>
      rw [parseXMLLoop, bind_eq_ok] at h
      obtain ⟨parsed, hparsed, h⟩ := h
      have hreturns := hparsed
      rw [sprintf_list lib 0 .dict, ← nil_append (enclosed _ _ _ ++ _), enclosed_append] at hreturns
      obtain ⟨list, -, hlist⟩ := returns_list (clean_spaces 0).passed (by decide) rfl
        ⟨fuel, hreturns⟩
      rw [hlist] at h
      obtain rfl := Option.some.inj (Except.ok.inj h)
      exact ⟨parsed, ⟨fuel, hparsed⟩, hlist⟩
  · rintro ⟨r, ⟨fuel, hr⟩, htag⟩
    refine ⟨fuel + 1, ?_⟩
    rw [parseXML, configBuffer_eq hzero, parseXMLLoop, bind_eq_ok]
    refine ⟨r, hr, ?_⟩
    rw [htag]
    rfl

/-- For every text from which `ParseXML` returns a dictionary, what is printed of the dictionary is
parsed as the same dictionary if and only if all of its leaves are plain. -/
theorem parseXML_sprintf_iff (lib : FloatLib F) {fuel : Nat} {text behind : Bytes}
    {D : List (Tag F)} (h : parseXML lib fuel text behind = .ok (some D)) (behind' : Bytes) :
    (∃ fuel', parseXML lib fuel' ((Tag.dict D).sprintf lib 0) behind' = .ok (some D)) ↔
      ∀ leaf ∈ (Tag.dict D).leaves, leaf.Plain := by
  obtain ⟨b, r, hr, htag⟩ := returns_of_parseXMLLoop h
  have hwritten := written_of_returns hr htag
  have hrest : HoldsText (0 :: behind') := ⟨[], behind', fun c hc => (nomatch hc), rfl⟩
  have hblank : Clean [] := nofun
  rw [parseXML_sprintf hwritten]
  constructor
  · rintro ⟨r', hr', htag'⟩
    by_contra hplain
    exact (not_rereads lib).1 (.dict D) rfl hwritten hplain hblank hrest 0 r' hr' htag'
  · intro hplain
    obtain ⟨r', hr', htag', -, -⟩ := (rereads lib).1 (.dict D)
      (fun leaf hleaf => ⟨hplain leaf hleaf, hwritten leaf hleaf⟩) hblank.passed 0 (0 :: behind')
    exact ⟨r', hr', htag'⟩

/-- A dictionary with a negative integer and one octet of data. -/
theorem parseXML_sprintf_iff_sample :
    let D : List (Tag Unit) := [.key (lit "a"), .int64 (-7), .key (lit "b"), .data [1]]
    parseXML noFloats 10
      (lit "<dict><key>a</key><integer>-7</integer><key>b</key><data>AQ==</data></dict>") [] =
        .ok (some D) ∧
    ∃ fuel, parseXML noFloats fuel ((Tag.dict D).sprintf noFloats 0) [] = .ok (some D) := by
  have hread : parseXML noFloats 10
      (lit "<dict><key>a</key><integer>-7</integer><key>b</key><data>AQ==</data></dict>") [] =
        .ok (some [.key (lit "a"), .int64 (-7), .key (lit "b"), .data [1]]) := by
    decide +kernel
  exact ⟨hread, (parseXML_sprintf_iff noFloats hread []).mpr (by decide)⟩

/-- The string `<b>` is written with entities, printed without them, and read again as `<b`. -/
theorem parseXML_sprintf_markup :
    let D : List (Tag Unit) := [.key (lit "a"), .string (lit "<b>")]
    parseXML noFloats 10 (lit "<dict><key>a</key><string>&lt;b&gt;</string></dict>") [] =
        .ok (some D) ∧
    parseXML noFloats 10 ((Tag.dict D).sprintf noFloats 0) [] =
      .ok (some [.key (lit "a"), .string (lit "<b")]) := by
  decide +kernel

end Clover.Plist
