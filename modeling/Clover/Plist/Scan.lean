import Clover.Plist.Bounds
import Clover.Plist.Utf8

/-!
# Finding tags in a text

What `GetNextTag` and `FixDataMatchingTag` do on a text whose tags are known: the first `<` starts a
tag, and the first `>` behind it ends it. The content of an element ends at the first tag in it,
because the `>` of a tag is replaced by a zero even if it is not the end tag.
-/

namespace Clover.Plist

open Clover.Xml List

variable {blank s : Bytes} {b : UInt8} {cs : List UInt32}

/-! ## From the bytes -/

/-- Bytes that `GetNextTag` passes on its way to a tag. -/
def Passed (blank : Bytes) : Prop := 0 ∉ blank ∧ 60 ∉ blank

/-- Bytes that can stand in the name of a tag. -/
def Named (name : Bytes) : Prop := 0 ∉ name ∧ 62 ∉ name

instance : DecidablePred Passed := fun blank => inferInstanceAs (Decidable (0 ∉ blank ∧ 60 ∉ blank))

instance : DecidablePred Named := fun name => inferInstanceAs (Decidable (0 ∉ name ∧ 62 ∉ name))

theorem upTo_append {c : UInt8} (hzero : 0 ∉ s) (hc : c ∉ s) (hb : b = 0 ∨ b = c)
    (rest : Bytes) : upTo c (s ++ b :: rest) = s := by
  rw [upTo, takeWhile_append_of_pos]
  · rw [takeWhile_cons_of_neg, append_nil]
    rw [decide_eq_true_eq]
    exact fun h => hb.elim h.1 h.2
  · intro a ha
    rw [decide_eq_true_eq]
    exact ⟨fun h => hzero (h ▸ ha), fun h => hc (h ▸ ha)⟩

theorem getD_length_append (s : Bytes) (b : UInt8) (rest : Bytes) :
    (s ++ b :: rest).getD s.length 0 = b := by
  rw [getD_append_right _ _ _ _ (Nat.le_refl _), Nat.sub_self]
  rfl

theorem getNextTag_tag {name : Bytes} (hblank : Passed blank) (hname : Named name)
    (rest : Bytes) : getNextTag (blank ++ 60 :: (name ++ 62 :: rest)) =
      .ok ⟨blank ++ 60 :: (name ++ 0 :: rest), name, blank.length,
        blank.length + 1 + name.length + 1⟩ := by
  have hdrop : (blank ++ 60 :: (name ++ 62 :: rest)).drop (blank.length + 1) =
      name ++ 62 :: rest := by
    rw [← drop_drop, drop_left]
    rfl
  have hlength : (blank ++ 60 :: name).length = blank.length + 1 + name.length := by
    rw [length_append, length_cons]
    omega
  have hmem : blank ++ 60 :: (name ++ 62 :: rest) = (blank ++ 60 :: name) ++ 62 :: rest := by
    rw [append_assoc, cons_append]
  rw [getNextTag, upTo_append hblank.1 hblank.2 (.inr rfl), getD_length_append]
  dsimp only
  rw [if_neg (by decide), hdrop, upTo_append hname.1 hname.2 (.inr rfl), hmem, ← hlength,
    getD_length_append, if_neg (by decide), set_append_right _ _ (Nat.le_refl _), Nat.sub_self,
    set_cons_zero, append_assoc, cons_append]

theorem getNextTag_end (hblank : Passed blank) (rest : Bytes) :
    getNextTag (blank ++ 0 :: rest) = .error .unsupported := by
  rw [getNextTag, upTo_append hblank.1 hblank.2 (.inl rfl), getD_length_append]
  exact if_pos rfl

theorem getNextTag_open {name : Bytes} (hblank : Passed blank) (hname : Named name)
    (rest : Bytes) :
    getNextTag (blank ++ 60 :: (name ++ 0 :: rest)) = .error .unsupported := by
  have hdrop : (blank ++ 60 :: (name ++ 0 :: rest)).drop (blank.length + 1) =
      name ++ 0 :: rest := by
    rw [← drop_drop, drop_left]
    rfl
  have hlength : (blank ++ 60 :: name).length = blank.length + 1 + name.length := by
    rw [length_append, length_cons]
    omega
  have hmem : blank ++ 60 :: (name ++ 0 :: rest) = (blank ++ 60 :: name) ++ 0 :: rest := by
    rw [append_assoc, cons_append]
  rw [getNextTag, upTo_append hblank.1 hblank.2 (.inr rfl), getD_length_append]
  dsimp only
  rw [if_neg (by decide), hdrop, upTo_append hname.1 hname.2 (.inl rfl), hmem, ← hlength,
    getD_length_append]
  exact if_pos rfl

theorem fixDataMatchingTag_content {tag : Bytes} (hs : Passed s) (htag : Named tag)
    (fuel : Nat) (rest : Bytes) :
    fixDataMatchingTag tag (fuel + 1) (s ++ 60 :: 47 :: (tag ++ 62 :: rest)) =
      .ok (s ++ 0 :: 47 :: (tag ++ 0 :: rest), s.length + tag.length + 3) := by
  have hname : Named (47 :: tag) :=
    ⟨by simpa using htag.1, by simpa using htag.2⟩
  rw [fixDataMatchingTag, ← cons_append, getNextTag_tag hs hname]
  refine (if_pos rfl).trans ?_
  dsimp only
  rw [set_append_right _ _ (Nat.le_refl _), Nat.sub_self]
  refine congrArg Except.ok (Prod.ext rfl ?_)
  dsimp only
  rw [length_cons]
  omega

/-! ## From the text -/

theorem utf8_cons_ascii (hb : b < 0x80) (cs : List UInt32) :
    utf8 (b.toUInt32 :: cs) = b :: utf8 cs := by
  rw [utf8_cons, utf8Bytes_ascii (toUInt32_le hb), UInt8.toUInt8_toUInt32]
  rfl

theorem utf8_ascii (hs : ∀ c ∈ s, c < 0x80) : utf8 (s.map UInt8.toUInt32) = s := by
  induction s with
  | nil => rfl
  | cons c s ih =>
    rw [map_cons, utf8_cons_ascii (hs c mem_cons_self),
      ih fun c hc => hs c (mem_cons_of_mem _ hc)]

theorem utf8_lt (cs : List UInt32) : utf8 (60 :: cs) = 60 :: utf8 cs :=
  utf8_cons_ascii (by decide : (60 : UInt8) < 0x80) cs

theorem utf8_gt (cs : List UInt32) : utf8 (62 :: cs) = 62 :: utf8 cs :=
  utf8_cons_ascii (by decide : (62 : UInt8) < 0x80) cs

theorem utf8_slash (cs : List UInt32) : utf8 (47 :: cs) = 47 :: utf8 cs :=
  utf8_cons_ascii (by decide : (47 : UInt8) < 0x80) cs

theorem passed_utf8 (h : IsText cs) (hlt : 60 ∉ cs) : Passed (utf8 cs) :=
  ⟨zero_notMem_utf8 h, mt (mem_utf8_ascii (by decide)).mp hlt⟩

theorem named_utf8 (h : IsText cs) (hgt : 62 ∉ cs) : Named (utf8 cs) :=
  ⟨zero_notMem_utf8 h, mt (mem_utf8_ascii (by decide)).mp hgt⟩

/-- Printed values: ASCII without markup. -/
def Clean (s : Bytes) : Prop := ∀ c ∈ s, c ≠ 0 ∧ c < 0x80 ∧ c ≠ 60

instance : DecidablePred Clean := fun s =>
  inferInstanceAs (Decidable (∀ c ∈ s, c ≠ 0 ∧ c < 0x80 ∧ c ≠ 60))

theorem Clean.append {s' : Bytes} (h : Clean s) (h' : Clean s') : Clean (s ++ s') :=
  fun c hc => (mem_append.mp hc).elim (h c) (h' c)

theorem Clean.passed (h : Clean s) : Passed s :=
  ⟨fun hzero => (h 0 hzero).1 rfl, fun hlt => (h 60 hlt).2.2 rfl⟩

theorem isChar_toUInt32 (hzero : b ≠ 0) : IsChar b.toUInt32 := by
  refine ⟨fun h => hzero (UInt8.toUInt32_inj.mp h), ?_⟩
  rw [UInt32.le_iff_toNat_le, UInt8.toNat_toUInt32]
  exact le_trans (le_of_lt b.toNat_lt) (by decide)

theorem canonical_ascii (h : ∀ c ∈ s, c ≠ 0 ∧ c < 0x80) : Canonical s := by
  refine ⟨s.map UInt8.toUInt32, fun c hc => ?_, (utf8_ascii fun c hc => (h c hc).2).symm⟩
  obtain ⟨b, hb, rfl⟩ := mem_map.mp hc
  exact isChar_toUInt32 (h b hb).1

theorem Clean.canonical (h : Clean s) : Canonical s :=
  canonical_ascii fun c hc => ⟨(h c hc).1, (h c hc).2.1⟩

/-- The first tag of a text. -/
structure FirstTag (cs blank name rest : List UInt32) : Prop where
  eq : cs = blank ++ 60 :: (name ++ 62 :: rest)
  blank_lt : 60 ∉ blank
  name_gt : 62 ∉ name
  blank_text : IsText blank
  name_text : IsText name
  rest_text : IsText rest

theorem getNextTag_text (hcs : IsText cs) {r : Bytes} {t : NextTag}
    (h : getNextTag (utf8 cs ++ 0 :: r) = .ok t) :
    ∃ blank name rest, FirstTag cs blank name rest ∧
      t = ⟨utf8 blank ++ 60 :: (utf8 name ++ 0 :: (utf8 rest ++ 0 :: r)), utf8 name,
        (utf8 blank).length, (utf8 blank).length + 1 + (utf8 name).length + 1⟩ := by
  by_cases hlt : 60 ∈ cs
  · obtain ⟨blank, w, rfl, hblank⟩ := eq_append_cons_of_mem hlt
    have hblank_text : IsText blank := fun c hc => hcs c (mem_append_left _ hc)
    have hw : IsText w := fun c hc => hcs c (mem_append_right _ (mem_cons_of_mem _ hc))
    rw [utf8_append, utf8_lt, append_assoc, cons_append] at h
    by_cases hgt : 62 ∈ w
    · obtain ⟨name, rest, rfl, hname⟩ := eq_append_cons_of_mem hgt
      have hname_text : IsText name := fun c hc => hw c (mem_append_left _ hc)
      have hrest : IsText rest :=
        fun c hc => hw c (mem_append_right _ (mem_cons_of_mem _ hc))
      refine ⟨blank, name, rest, ⟨rfl, hblank, hname, hblank_text, hname_text, hrest⟩, ?_⟩
      rw [utf8_append, utf8_gt, append_assoc, cons_append,
        getNextTag_tag (passed_utf8 hblank_text hblank) (named_utf8 hname_text hname)] at h
      exact (Except.ok.inj h).symm
    · rw [getNextTag_open (passed_utf8 hblank_text hblank) (named_utf8 hw hgt)] at h
      cases h
  · rw [getNextTag_end (passed_utf8 hcs hlt)] at h
    cases h

theorem drop_tag (a : Bytes) (x : UInt8) (s : Bytes) (y : UInt8) (rest : Bytes) :
    (a ++ x :: (s ++ y :: rest)).drop (a.length + 1 + s.length + 1) = rest := by
  rw [show a ++ x :: (s ++ y :: rest) = (a ++ x :: (s ++ [y])) ++ rest by simp]
  apply drop_left'
  simp only [length_append, length_cons, length_nil]
  omega

theorem take_tag (a : Bytes) (x : UInt8) (s : Bytes) (y : UInt8) (rest : Bytes) :
    (a ++ x :: (s ++ y :: rest)).take (a.length + 1 + s.length + 1) = a ++ x :: (s ++ [y]) := by
  rw [show a ++ x :: (s ++ y :: rest) = (a ++ x :: (s ++ [y])) ++ rest by simp]
  apply take_left'
  simp only [length_append, length_cons, length_nil]
  omega

theorem fixDataMatchingTag_text (hcs : IsText cs) {tag r b : Bytes} {fuel length : Nat}
    (h : fixDataMatchingTag tag fuel (utf8 cs ++ 0 :: r) = .ok (b, length)) :
    ∃ blank name rest left y, FirstTag cs blank name rest ∧ IsText left ∧
      b = utf8 (if utf8 name = 47 :: tag then blank else blank ++ 60 :: name) ++ 0 :: y ∧
      b.drop length = utf8 left ++ 0 :: r ∧ (utf8 blank).length + 2 +
        (utf8 name).length ≤ length := by
  induction fuel generalizing cs b length with
  | zero => cases h
  | succ fuel ih =>
    obtain ⟨t, ht, h⟩ := fixDataMatchingTag_succ h
    obtain ⟨blank, name, rest, hfirst, rfl⟩ := getNextTag_text hcs ht
    obtain ⟨htag, rfl, rfl⟩ | ⟨htag, rest', length', hrest, rfl, rfl⟩ := h
    · refine ⟨blank, name, rest, rest, utf8 name ++ 0 :: (utf8 rest ++ 0 :: r), hfirst,
        hfirst.rest_text, ?_, ?_, ?_⟩
      · rw [if_pos htag, set_append_right _ _ (Nat.le_refl _), Nat.sub_self,
          set_cons_zero]
      · rw [set_append_right _ _ (Nat.le_refl _), Nat.sub_self, set_cons_zero]
        exact drop_tag ..
      · dsimp only
        omega
    · dsimp only at htag hrest ⊢
      rw [drop_tag] at hrest
      obtain ⟨-, -, -, left, -, -, hleft, -, hdrop, -⟩ := ih hfirst.rest_text hrest
      refine ⟨blank, name, rest, left, rest', hfirst, hleft, ?_, ?_, ?_⟩
      · rw [if_neg htag, take_tag, utf8_append, utf8_lt]
        simp
      · have hlength : (utf8 blank ++ 60 :: (utf8 name ++ [0])).length =
            (utf8 blank).length + 1 + (utf8 name).length + 1 := by
          simp only [length_append, length_cons, length_nil]
          omega
        rw [take_tag, ← hlength, ← drop_drop, drop_left, hdrop]
      · omega

end Clover.Plist
