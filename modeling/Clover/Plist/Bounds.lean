import Clover.Plist.Parser

/-!
# The parser of property lists stays in its buffer

A buffer ends with a zero, behind which the memory belongs to others. No function writes anything
but zeros over a zero (`Keeps`), so that the zero at the end stays where it is, and `GetNextTag`
never passes a zero. A call of `XMLParseNextTag` that returns has therefore not gone past the end,
with one exception: for an integer whose content starts with a tag `ParseTagInteger` returns without
a length, and `XMLParseNextTag` adds the length of what it has read to itself.

Every round of a loop and every level of the recursion starts further on in the buffer, so that the
parser terminates on every text.
-/

namespace Clover.Plist

open Clover.Lib Clover.Xml List

variable {α β : Type} {b out : Bytes} {fuel i behind : Nat} {x : Except Stop α} {f : α → β}

/-! ## Zeros stay zeros -/

/-- The buffer `b'` has the length of `b`, and a zero wherever `b` has one. -/
structure Keeps (b b' : Bytes) : Prop where
  length_eq : b'.length = b.length
  zero : ∀ i, b.getD i 0 = 0 → b'.getD i 0 = 0

namespace Keeps

variable {b b' b'' : Bytes}

theorem refl (b : Bytes) : Keeps b b := ⟨rfl, fun _ h => h⟩

theorem trans (h : Keeps b b') (h' : Keeps b' b'') : Keeps b b'' :=
  ⟨h'.length_eq.trans h.length_eq, fun i hi => h'.zero i (h.zero i hi)⟩

theorem set_zero (b : Bytes) (i : Nat) : Keeps b (b.set i 0) where
  length_eq := length_set
  zero j hj := by
    rw [getD_eq_getElem?_getD, getElem?_set] at *
    split
    · split <;> rfl
    · exact hj

theorem take_append {k : Nat} (h : Keeps (b.drop k) b') : Keeps b (b.take k ++ b') where
  length_eq := by
    rw [length_append, h.length_eq, length_take, length_drop]
    omega
  zero i hi := by
    by_cases hik : i < (b.take k).length
    · rw [getD_append _ _ _ _ hik]
      rw [length_take] at hik
      rwa [getD_eq_getElem?_getD, getElem?_take_of_lt (by omega),
        ← getD_eq_getElem?_getD]
    · rw [getD_append_right _ _ _ _ (Nat.le_of_not_lt hik)]
      apply h.zero
      rw [length_take] at hik ⊢
      rw [getD_eq_getElem?_getD, getElem?_drop, ← getD_eq_getElem?_getD]
      by_cases hk : k ≤ b.length
      · rwa [min_eq_left hk, Nat.add_sub_cancel' (by omega)]
      · exact getD_eq_default _ _ (by omega)

end Keeps

/-! ## The end of the buffer -/

/-- The buffer ends with a zero, and `behind` bytes follow it in memory. -/
structure Ended (behind : Nat) (b : Bytes) : Prop where
  lt_length : behind < b.length
  zero : b.getD (b.length - 1 - behind) 0 = 0

namespace Ended

variable {behind : Nat} {b b' : Bytes}

theorem keeps (h : Ended behind b) (hkeeps : Keeps b b') : Ended behind b' where
  lt_length := hkeeps.length_eq ▸ h.lt_length
  zero := hkeeps.length_eq ▸ hkeeps.zero _ h.zero

theorem drop {k : Nat} (h : Ended behind b) (hk : k + behind < b.length) :
    Ended behind (b.drop k) where
  lt_length := by
    rw [length_drop]
    omega
  zero := by
    rw [length_drop, getD_eq_getElem?_getD, getElem?_drop,
      show k + (b.length - k - 1 - behind) = b.length - 1 - behind by omega,
      ← getD_eq_getElem?_getD]
    exact h.zero

theorem lt_of_nonzero (h : Ended behind b) {n : Nat} (hn : ∀ i < n, b.getD i 0 ≠ 0) :
    n + behind < b.length := by
  have hlt := h.lt_length
  by_contra hle
  exact hn _ (by omega) h.zero

end Ended

/-! ## One tag -/

theorem map_eq_ok {r : β} : f <$> x = .ok r ↔ ∃ a, x = .ok a ∧ f a = r := by
  cases x with
  | error e => exact iff_of_false nofun fun ⟨_, h, _⟩ => nomatch h
  | ok a =>
    exact ⟨fun h => ⟨a, rfl, Except.ok.inj h⟩, fun ⟨_, h, hf⟩ => hf ▸ Except.ok.inj h ▸ rfl⟩

theorem bind_ne_fuel {f : α → Except Stop β} (hx : x ≠ .error .fuel)
    (hf : ∀ a, x = .ok a → f a ≠ .error .fuel) : x >>= f ≠ .error .fuel := by
  cases x with
  | error e => exact fun h => hx (congrArg _ (Except.error.inj h))
  | ok a => exact hf a rfl

theorem takeWhile_nonzero {p : UInt8 → Bool} (hp : ∀ c, p c = true → c ≠ 0)
    (hi : i < (b.takeWhile p).length) : b.getD i 0 ≠ 0 := by
  have hpref : b.takeWhile p <+: b := takeWhile_prefix _
  rw [getD_eq_getElem _ _ (lt_of_lt_of_le hi hpref.length_le), ← hpref.getElem hi]
  exact hp _ (mem_takeWhile_imp (getElem_mem hi))

theorem upTo_nonzero {c : UInt8} (hi : i < (upTo c b).length) : b.getD i 0 ≠ 0 :=
  takeWhile_nonzero (fun _ h => (of_decide_eq_true h).1) hi

section NextTag

variable {b : Bytes} {t : NextTag}

/-- A tag that is found ends before the next zero. -/
theorem getNextTag_ok (h : getNextTag b = .ok t) :
    t.buffer = b.set (t.length - 1) 0 ∧ t.length = t.start + t.tag.length + 2 ∧
      ∀ i < t.length, b.getD i 0 ≠ 0 := by
  rw [getNextTag] at h
  dsimp only at h
  split at h
  · cases h
  next hstart =>
  split at h
  · cases h
  next hend =>
  obtain rfl := Except.ok.inj h
  refine ⟨rfl, by
    dsimp only
    omega, ?_⟩
  intro i hi
  dsimp only at hi
  by_cases h1 : i < (upTo 60 b).length
  · exact upTo_nonzero h1
  by_cases h2 : i = (upTo 60 b).length
  · rwa [h2]
  by_cases h3 : i = (upTo 60 b).length + 1 + (upTo 62 (b.drop ((upTo 60 b).length + 1))).length
  · rwa [h3]
  have h := upTo_nonzero (c := 62) (b := b.drop ((upTo 60 b).length + 1))
    (show i - ((upTo 60 b).length + 1) < _ by omega)
  rwa [getD_eq_getElem?_getD, getElem?_drop, Nat.add_sub_cancel' (by omega),
    ← getD_eq_getElem?_getD] at h

theorem getNextTag_ne_fuel (b : Bytes) : getNextTag b ≠ .error .fuel := by
  rw [getNextTag]
  dsimp only
  split
  · exact nofun
  split
  · exact nofun
  · exact nofun

theorem getNextTag_keeps (h : getNextTag b = .ok t) : Keeps b t.buffer := by
  rw [(getNextTag_ok h).1]
  exact Keeps.set_zero b _

theorem getNextTag_length_le (h : getNextTag b = .ok t) : t.length ≤ b.length := by
  obtain ⟨-, hlength, hnonzero⟩ := getNextTag_ok h
  by_contra hlt
  exact hnonzero (t.length - 1) (by omega) (getD_eq_default _ _ (by omega))

theorem two_le_length (h : getNextTag b = .ok t) : 2 ≤ t.length := by
  have := (getNextTag_ok h).2.1
  omega

theorem getNextTag_inside (h : getNextTag b = .ok t) (hb : Ended behind b) :
    t.length + behind < b.length ∧ Ended behind (t.buffer.drop t.length) := by
  have hlt := hb.lt_of_nonzero (getNextTag_ok h).2.2
  refine ⟨hlt, (hb.keeps (getNextTag_keeps h)).drop ?_⟩
  rwa [(getNextTag_keeps h).length_eq]

end NextTag

/-! ## The content of an element -/

section Fix

variable {tag b b' : Bytes} {fuel length : Nat}

theorem fixDataMatchingTag_succ (h : fixDataMatchingTag tag (fuel + 1) b = .ok (b', length)) :
    ∃ t, getNextTag b = .ok t ∧
      (t.tag = 47 :: tag ∧ b' = t.buffer.set t.start 0 ∧ length = t.length ∨
        t.tag ≠ 47 :: tag ∧ ∃ rest length',
          fixDataMatchingTag tag fuel (t.buffer.drop t.length) = .ok (rest, length') ∧
          b' = t.buffer.take t.length ++ rest ∧ length = t.length + length') := by
  rw [fixDataMatchingTag, bind_eq_ok] at h
  obtain ⟨t, ht, h⟩ := h
  refine ⟨t, ht, ?_⟩
  split at h
  · next htag =>
    obtain ⟨rfl, rfl⟩ := Prod.mk.inj (Except.ok.inj h)
    exact .inl ⟨htag, rfl, rfl⟩
  · next htag =>
    obtain ⟨⟨rest, length'⟩, hrest, h⟩ := bind_eq_ok.mp h
    obtain ⟨rfl, rfl⟩ := Prod.mk.inj (Except.ok.inj h)
    exact .inr ⟨htag, rest, length', hrest, rfl, rfl⟩

theorem fixDataMatchingTag_keeps (h : fixDataMatchingTag tag fuel b = .ok (b', length)) :
    Keeps b b' := by
  induction fuel generalizing b b' length with
  | zero => cases h
  | succ fuel ih =>
    obtain ⟨t, ht, ⟨-, rfl, -⟩ | ⟨-, rest, length', hrest, rfl, -⟩⟩ := fixDataMatchingTag_succ h
    · exact (getNextTag_keeps ht).trans (Keeps.set_zero _ _)
    · exact (getNextTag_keeps ht).trans (ih hrest).take_append

theorem fixDataMatchingTag_inside
    (h : fixDataMatchingTag tag fuel b = .ok (b', length)) (hb : Ended behind b) :
    length + behind < b.length := by
  induction fuel generalizing b b' length with
  | zero => cases h
  | succ fuel ih =>
    obtain ⟨t, ht, ⟨-, -, rfl⟩ | ⟨-, rest, length', hrest, -, rfl⟩⟩ := fixDataMatchingTag_succ h
    · exact (getNextTag_inside ht hb).1
    · have hlt := ih hrest (getNextTag_inside ht hb).2
      rw [length_drop, (getNextTag_keeps ht).length_eq] at hlt
      omega

theorem fixDataMatchingTag_ne_fuel (h : b.length < fuel) :
    fixDataMatchingTag tag fuel b ≠ .error .fuel := by
  induction fuel generalizing b with
  | zero => omega
  | succ fuel ih =>
    apply bind_ne_fuel (getNextTag_ne_fuel b)
    intro t ht
    split
    · exact nofun
    · apply bind_ne_fuel
      · apply ih
        have := two_le_length ht
        have := getNextTag_length_le ht
        rw [length_drop, (getNextTag_keeps ht).length_eq]
        omega
      · exact nofun

end Fix

theorem length_xmlDecodeFrom_le {src : Bytes} {srclen outlen : Nat} {n : Nat}
    (h : out.length ≤ outlen) :
    (xmlDecodeFrom src srclen outlen n i out).length ≤ outlen := by
  induction n generalizing i out with
  | zero => exact h
  | succ n ih =>
    have hpush : ∀ c, ¬ outlen ≤ out.length → (out ++ [c]).length ≤ outlen := by
      intro c hroom
      rw [length_append, length_singleton]
      omega
    rw [xmlDecodeFrom]
    split
    · split
      · split
        · split
          · exact h
          · next hroom => exact ih (hpush _ hroom)
        · split
          · exact h
          · next hroom => exact ih (hpush _ hroom)
      · split
        · exact h
        · next hroom => exact ih (hpush _ hroom)
    · exact h

theorem length_xmlDecode_le (src : Bytes) (srclen outlen : Nat) :
    (xmlDecode src srclen outlen).length ≤ outlen :=
  length_xmlDecodeFrom_le (Nat.zero_le _)

/-- Decoding in place writes no further than the text. -/
theorem decoded_keeps (h : out.length ≤ (cString b).length) : Keeps b (decoded b out) := by
  have hle : (cString b).length ≤ b.length := (List.takeWhile_prefix _).length_le
  have hzero : ∀ i, b.getD i 0 = 0 → out.length ≤ i := by
    intro i hi
    by_contra hlt
    exact takeWhile_nonzero (fun _ h => of_decide_eq_true h)
      (lt_of_lt_of_le (Nat.lt_of_not_le hlt) h) hi
  rw [decoded]
  split
  · refine ⟨?_, fun i hi => ?_⟩
    · rw [length_append, length_cons, length_drop]
      omega
    · rw [getD_append_right _ _ _ _ (hzero i hi)]
      obtain hi' | ⟨k, hk⟩ : i - out.length = 0 ∨ ∃ k, i - out.length = k + 1 := by
        cases i - out.length <;> simp
      · rw [hi']
        rfl
      · rw [hk, getD_cons_succ, getD_eq_getElem?_getD, getElem?_drop,
          show out.length + 1 + k = i by
            omega,
          ← getD_eq_getElem?_getD, hi]
  · refine ⟨?_, fun i hi => ?_⟩
    · rw [length_append, length_drop]
      omega
    · rw [getD_append_right _ _ _ _ (hzero i hi), getD_eq_getElem?_getD,
        getElem?_drop, Nat.add_sub_cancel' (hzero i hi), ← getD_eq_getElem?_getD, hi]

/-! ## One call -/

section Call

variable {F : Type} {lib : FloatLib F} {r : Parsed (Option (Tag F))}

/-- The cases in which `XMLParseNextTag` parses a list. -/
def Element.opens : Element → Bool
  | .dict false | .array false => true
  | _ => false

/-- The content of an integer starts with a tag that is not its end tag. -/
def Nested (fuel : Nat) (t : NextTag) (fixed : Bytes) : Prop :=
  element t.tag = .integer ∧ fixed.getD 0 0 = 60 ∧ ∃ length,
    fixDataMatchingTag (lit "integer") fuel (t.buffer.drop t.length) = .ok (fixed, length)

/-- What a call that succeeds has done behind the first tag: nothing, or it has looked for the end
tag of the content, or it has parsed a list. -/
inductive Behind (lib : FloatLib F) (fuel : Nat) (t : NextTag) :
    Parsed (Option (Tag F)) → Prop where
  | nothing {tag : Option (Tag F)} : Behind lib fuel t ⟨tag, t.length, t.buffer⟩
  | content {tag : Option (Tag F)} {name fixed final : Bytes} {length : Nat}
      (hfix : fixDataMatchingTag name fuel (t.buffer.drop t.length) = .ok (fixed, length))
      (hkeeps : Keeps fixed final) :
      Behind lib fuel t ⟨tag, t.length + length, t.buffer.take t.length ++ final⟩
  | integer {tag : Option (Tag F)} {fixed : Bytes} (hnested : Nested fuel t fixed) :
      Behind lib fuel t ⟨tag, t.length + t.length, t.buffer.take t.length ++ fixed⟩
  | list {tag : Option (Tag F)} {parsed : Parsed (List (Tag F))}
      (hopens : (element t.tag).opens = true)
      (hlist : parseTagList lib fuel (t.buffer.drop t.length) = .ok parsed) :
      Behind lib fuel t ⟨tag, t.length + parsed.length, t.buffer.take t.length ++ parsed.buffer⟩

theorem Behind.of_fix {t : NextTag} {name : Bytes}
    {parse : Bytes × Nat → Parsed (Tag F)}
    (hparse : ∀ p, (parse p).length = p.2 ∧ Keeps p.1 (parse p).buffer)
    (h : t.result <$> (do
      let p ← fixDataMatchingTag name fuel (t.buffer.drop t.length)
      return parse p) = .ok r) : Behind lib fuel t r := by
  obtain ⟨parsed, hparsed, rfl⟩ := map_eq_ok.mp h
  obtain ⟨⟨fixed, length⟩, hfix, hreturn⟩ := bind_eq_ok.mp hparsed
  obtain rfl := Except.ok.inj hreturn
  obtain ⟨hlength, hkeeps⟩ := hparse (fixed, length)
  rw [NextTag.result, hlength]
  exact .content hfix hkeeps

theorem xmlParseNextTag_succ
    (h : xmlParseNextTag lib (fuel + 1) b = .ok r) :
    ∃ t, getNextTag b = .ok t ∧ Behind lib fuel t r := by
  rw [xmlParseNextTag, bind_eq_ok] at h
  obtain ⟨t, ht, h⟩ := h
  refine ⟨t, ht, ?_⟩
  have hempty : ∀ tag : Tag F, Behind lib fuel t
      (t.result ⟨tag, 0, t.buffer.drop t.length⟩) := by
    intro tag
    rw [NextTag.result, take_append_drop]
    exact .nothing
  cases helement : element t.tag with
  | plist | unknown =>
    rw [helement] at h
    obtain rfl := Except.ok.inj h
    exact .nothing
  | bool value =>
    rw [helement] at h
    obtain rfl := Except.ok.inj h
    exact hempty _
  | dict empty | array empty =>
    rw [helement] at h
    cases empty with
    | true =>
      obtain rfl := Except.ok.inj h
      exact hempty _
    | false =>
      obtain ⟨parsed, hlist, h⟩ := bind_eq_ok.mp h
      obtain rfl := Except.ok.inj h
      exact .list (by rw [helement]; rfl) hlist
  | key | float | data | date =>
    rw [helement] at h
    exact Behind.of_fix (fun p => ⟨rfl, Keeps.refl _⟩) h
  | string =>
    rw [helement] at h
    exact Behind.of_fix (fun p => ⟨rfl, decoded_keeps (length_xmlDecode_le _ _ _)⟩) h
  | integer =>
    rw [helement] at h
    obtain ⟨parsed, hparsed, rfl⟩ := map_eq_ok.mp h
    obtain ⟨⟨fixed, length⟩, hfix, hreturn⟩ := bind_eq_ok.mp hparsed
    dsimp only at hreturn
    split at hreturn
    · next hnested =>
      obtain rfl := Except.ok.inj hreturn
      exact .integer ⟨helement, hnested, length, hfix⟩
    · obtain ⟨integer, -, hreturn⟩ := bind_eq_ok.mp hreturn
      obtain rfl := Except.ok.inj hreturn
      exact .content hfix (Keeps.refl _)

theorem parseTagList_succ {r : Parsed (List (Tag F))} (h : parseTagList lib (fuel + 1) b = .ok r) :
    ∃ parsed, xmlParseNextTag lib fuel b = .ok parsed ∧
      (parsed.tag = none ∧ r = ⟨[], parsed.length, parsed.buffer⟩ ∨
        ∃ tag others, parsed.tag = some tag ∧
          parseTagList lib fuel (parsed.buffer.drop parsed.length) = .ok others ∧
          r = ⟨tag :: others.tag, parsed.length + others.length,
            parsed.buffer.take parsed.length ++ others.buffer⟩) := by
  rw [parseTagList, bind_eq_ok] at h
  obtain ⟨parsed, hparsed, h⟩ := h
  refine ⟨parsed, hparsed, ?_⟩
  split at h
  · next htag => exact .inl ⟨htag, (Except.ok.inj h).symm⟩
  · next tag htag =>
    obtain ⟨others, hothers, h⟩ := bind_eq_ok.mp h
    exact .inr ⟨tag, others, htag, hothers, (Except.ok.inj h).symm⟩

/-- Every call moves on by a tag at least, and leaves the zeros alone. -/
theorem parse_keeps (fuel : Nat) :
    (∀ b r, xmlParseNextTag lib fuel b = .ok r → Keeps b r.buffer ∧ 2 ≤ r.length ∧ 2 ≤ b.length) ∧
      ∀ b r, parseTagList lib fuel b = .ok r → Keeps b r.buffer := by
  induction fuel with
  | zero =>
    refine ⟨fun b r h => ?_, fun b r h => ?_⟩
    · cases h
    · cases h
  | succ fuel ih =>
    refine ⟨fun b r h => ?_, fun b r h => ?_⟩
    · obtain ⟨t, ht, hbehind⟩ := xmlParseNextTag_succ h
      have hlength := two_le_length ht
      refine ⟨(getNextTag_keeps ht).trans ?_, ?_, le_trans hlength (getNextTag_length_le ht)⟩
      · cases hbehind with
        | nothing => exact Keeps.refl _
        | content hfix hkeeps => exact ((fixDataMatchingTag_keeps hfix).trans hkeeps).take_append
        | integer hnested =>
          obtain ⟨-, -, length, hfix⟩ := hnested
          exact (fixDataMatchingTag_keeps hfix).take_append
        | list hopens hlist => exact (ih.2 _ _ hlist).take_append
      · cases hbehind with
        | nothing => exact hlength
        | content hfix hkeeps => exact Nat.le_add_right_of_le hlength
        | integer hnested => exact Nat.le_add_right_of_le hlength
        | list hopens hlist => exact Nat.le_add_right_of_le hlength
    · obtain ⟨parsed, hparsed, ⟨-, rfl⟩ | ⟨tag, others, -, hothers, rfl⟩⟩ := parseTagList_succ h
      · exact (ih.1 _ _ hparsed).1
      · exact (ih.1 _ _ hparsed).1.trans (ih.2 _ _ hothers).take_append

/-! ## Termination -/

theorem readDigits_ne_fuel (value : UInt8 → Option Nat) (base integer : BitVec 64)
    (val : Bytes) : readDigits value base integer val ≠ .error .fuel := by
  induction val generalizing integer with
  | nil => exact nofun
  | cons c val ih =>
    rw [readDigits]
    split
    · exact ih _
    · exact nofun

theorem readInteger_ne_fuel (b : Bytes) (size : Nat) : readInteger b size ≠ .error .fuel := by
  rw [readInteger]
  split
  · exact readDigits_ne_fuel _ _ _ _
  split
  · split
    · exact bind_ne_fuel (readDigits_ne_fuel _ _ _ _) nofun
    · exact readDigits_ne_fuel _ _ _ _
  · exact nofun

theorem map_ne_fuel {x : Except Stop α} (hx : x ≠ .error .fuel) : f <$> x ≠ .error .fuel := by
  cases x with
  | error e => exact fun h => hx (congrArg _ (Except.error.inj h))
  | ok a => exact nofun

/-- Two steps for every byte are enough. -/
theorem parse_ne_fuel (fuel : Nat) :
    (∀ b, 2 * b.length + 2 ≤ fuel → xmlParseNextTag lib fuel b ≠ .error .fuel) ∧
      ∀ b, 2 * b.length + 3 ≤ fuel → parseTagList lib fuel b ≠ .error .fuel := by
  induction fuel with
  | zero => exact ⟨fun b h => by omega, fun b h => by omega⟩
  | succ fuel ih =>
    refine ⟨fun b h => ?_, fun b h => ?_⟩
    · apply bind_ne_fuel (getNextTag_ne_fuel b)
      intro t ht
      have hlength := two_le_length ht
      have hle := getNextTag_length_le ht
      have hrest : (t.buffer.drop t.length).length = b.length - t.length := by
        rw [length_drop, (getNextTag_keeps ht).length_eq]
      have hfix : ∀ name, fixDataMatchingTag name fuel (t.buffer.drop t.length) ≠ .error .fuel :=
        fun name => fixDataMatchingTag_ne_fuel (by omega)
      have hlist := ih.2 (t.buffer.drop t.length) (by omega)
      cases element t.tag with
      | plist | unknown | bool value => exact nofun
      | dict empty | array empty =>
        cases empty with
        | true => exact nofun
        | false => exact bind_ne_fuel hlist nofun
      | key | string | float | data | date =>
        exact map_ne_fuel (bind_ne_fuel (hfix _) nofun)
      | integer =>
        apply map_ne_fuel
        apply bind_ne_fuel (hfix _)
        rintro ⟨fixed, length⟩ -
        dsimp only
        split
        · exact nofun
        · exact bind_ne_fuel (readInteger_ne_fuel _ _) nofun
    · apply bind_ne_fuel (ih.1 b (by omega))
      intro parsed hparsed
      obtain ⟨hkeeps, hlength, hle⟩ := (parse_keeps fuel).1 b parsed hparsed
      split
      · exact nofun
      · apply bind_ne_fuel
        · apply ih.2
          rw [length_drop, hkeeps.length_eq]
          omega
        · exact nofun

theorem parseXMLLoop_ne_fuel (h : 2 * b.length + 3 ≤ fuel) :
    parseXMLLoop lib fuel b ≠ .error .fuel := by
  induction fuel generalizing b with
  | zero => omega
  | succ fuel ih =>
    apply bind_ne_fuel ((parse_ne_fuel fuel).1 b (by omega))
    intro parsed hparsed
    obtain ⟨hkeeps, hlength, hle⟩ := (parse_keeps fuel).1 b parsed hparsed
    split
    · exact nofun
    · exact nofun
    · exact nofun
    · apply ih
      rw [length_drop, hkeeps.length_eq]
      omega

/-! ## The calls of a run -/

/-- A call of `XMLParseNextTag` on the buffer succeeds. -/
def Returns (lib : FloatLib F) (b : Bytes) (r : Parsed (Option (Tag F))) : Prop :=
  ∃ fuel, xmlParseNextTag lib fuel b = .ok r

/-- The buffers on which `ParseXML` calls `XMLParseNextTag` if it starts with `memory`: those of its
own loop, and those of the lists (`inList`). -/
inductive Reached (lib : FloatLib F) (memory : Bytes) : (inList : Bool) → Bytes → Prop
  where
  | start : Reached lib memory false memory
  | next {b : Bytes} {r : Parsed (Option (Tag F))} (hb : Reached lib memory false b)
      (hr : Returns lib b r) (htag : ∀ tag, r.tag = some tag →
        (tag.isDict || tag.isArray) = false) :
      Reached lib memory false (r.buffer.drop r.length)
  | enter {inList : Bool} {b : Bytes} {t : NextTag} (hb : Reached lib memory inList b)
      (ht : getNextTag b = .ok t) (hopens : (element t.tag).opens = true) :
      Reached lib memory true (t.buffer.drop t.length)
  | nextInList {b : Bytes} {r : Parsed (Option (Tag F))} (hb : Reached lib memory true b)
      (hr : Returns lib b r) (htag : r.tag ≠ none) :
      Reached lib memory true (r.buffer.drop r.length)

/-- The buffer starts with an integer whose content starts with a tag, and what is before its
content is more than half of what is before the end. -/
def Overlong (behind : Nat) (b : Bytes) : Prop :=
  ∃ t fuel fixed, getNextTag b = .ok t ∧ Nested fuel t fixed ∧
    b.length ≤ t.length + t.length + behind

section Inside

variable {memory : Bytes} {behind : Nat}

/-- As long as no call is overlong, what a call reports is before the end. -/
theorem parse_inside (hall : ∀ inList b, Reached lib memory inList b → ¬ Overlong behind b)
    (fuel : Nat) :
    (∀ inList b r, Reached lib memory inList b → Ended behind b →
      xmlParseNextTag lib fuel b = .ok r → r.length + behind < b.length) ∧
    ∀ b r, Reached lib memory true b → Ended behind b →
      parseTagList lib fuel b = .ok r → r.length + behind < b.length := by
  induction fuel with
  | zero =>
    refine ⟨fun inList b r _ _ h => ?_, fun b r _ _ h => ?_⟩
    · cases h
    · cases h
  | succ fuel ih =>
    refine ⟨fun inList b r hreached hended h => ?_, fun b r hreached hended h => ?_⟩
    · obtain ⟨t, ht, hbehind⟩ := xmlParseNextTag_succ h
      obtain ⟨hlt, hrest⟩ := getNextTag_inside ht hended
      have hlength : (t.buffer.drop t.length).length = b.length - t.length := by
        rw [length_drop, (getNextTag_keeps ht).length_eq]
      cases hbehind with
      | nothing => exact hlt
      | content hfix hkeeps =>
        have := fixDataMatchingTag_inside hfix hrest
        dsimp only
        omega
      | integer hnested =>
        by_contra hle
        exact hall inList b hreached ⟨t, fuel, _, ht, hnested, Nat.le_of_not_lt hle⟩
      | list hopens hlist =>
        have := ih.2 _ _ (hreached.enter ht hopens) hrest hlist
        dsimp only
        omega
    · obtain ⟨parsed, hparsed, hr⟩ := parseTagList_succ h
      have hlt := ih.1 true b parsed hreached hended hparsed
      obtain ⟨-, rfl⟩ | ⟨tag, others, htag, hothers, rfl⟩ := hr
      · exact hlt
      · have hkeeps := ((parse_keeps fuel).1 b parsed hparsed).1
        have hrest : Ended behind (parsed.buffer.drop parsed.length) :=
          (hended.keeps hkeeps).drop (hkeeps.length_eq ▸ hlt)
        have hlt' := ih.2 _ _
          (hreached.nextInList ⟨fuel, hparsed⟩ (htag ▸ Option.some_ne_none tag)) hrest hothers
        rw [length_drop, hkeeps.length_eq] at hlt'
        dsimp only
        omega

theorem Returns.ended (hr : Returns lib b r)
    (hended : Ended behind b) (hlt : r.length + behind < b.length) :
    Ended behind (r.buffer.drop r.length) := by
  obtain ⟨fuel, hr⟩ := hr
  have hkeeps := ((parse_keeps fuel).1 b r hr).1
  exact (hended.keeps hkeeps).drop (hkeeps.length_eq ▸ hlt)

theorem Reached.ended (hall : ∀ inList b, Reached lib memory inList b → ¬ Overlong behind b)
    (hmemory : Ended behind memory) {inList : Bool} (h : Reached lib memory inList b) :
    Ended behind b := by
  induction h with
  | start => exact hmemory
  | next hb hr htag ih =>
    obtain ⟨fuel, hfuel⟩ := hr
    exact Returns.ended ⟨fuel, hfuel⟩ ih ((parse_inside hall fuel).1 _ _ _ hb ih hfuel)
  | enter hb ht hopens ih => exact (getNextTag_inside ht ih).2
  | nextInList hb hr htag ih =>
    obtain ⟨fuel, hfuel⟩ := hr
    exact Returns.ended ⟨fuel, hfuel⟩ ih ((parse_inside hall fuel).1 _ _ _ hb ih hfuel)

theorem Overlong.returns (lib : FloatLib F) (h : Overlong behind b) :
    ∃ r, Returns lib b r ∧ b.length ≤ r.length + behind := by
  obtain ⟨t, fuel, fixed, ht, ⟨helement, hfirst, length, hfix⟩, hle⟩ := h
  refine ⟨t.result ⟨.int64 0, t.length, fixed⟩, ⟨fuel + 1, ?_⟩, hle⟩
  rw [xmlParseNextTag, bind_eq_ok]
  refine ⟨t, ht, ?_⟩
  rw [helement]
  exact map_eq_ok.mpr ⟨_, bind_eq_ok.mpr ⟨_, hfix, if_pos hfirst⟩, rfl⟩

end Inside

theorem configBuffer_ended (text behind : Bytes) :
    Ended behind.length (configBuffer text behind) where
  lt_length := by
    rw [configBuffer, length_append, length_cons]
    omega
  zero := by
    rw [configBuffer, length_append, length_cons, getD_append_right _ _ _ _ (by omega),
      show ∀ n, n + (behind.length + 1) - 1 - behind.length - n = 0 from fun n => by omega]
    rfl

/-- The parser terminates on every text. Every call of `XMLParseNextTag` in a run is made on a
buffer before the end of the text, and reports a length that leads no further than to that end, if
and only if no call of the run is overlong. -/
theorem parseXML_inside_iff (lib : FloatLib F) (text behind : Bytes) :
    (∃ fuel, parseXML lib fuel text behind ≠ .error .fuel) ∧
    ((∀ inList b, Reached lib (configBuffer text behind) inList b → behind.length < b.length ∧
        ∀ r, Returns lib b r → 1 ≤ r.length ∧ r.length ≤ b.length - behind.length - 1) ↔
      ∀ inList b, Reached lib (configBuffer text behind) inList b →
        ¬ Overlong behind.length b) := by
  refine ⟨⟨_, parseXMLLoop_ne_fuel (le_refl _)⟩, fun h inList b hb hover => ?_,
    fun hall inList b hb => ?_⟩
  · obtain ⟨r, hr, hle⟩ := hover.returns lib
    obtain ⟨hlt, hlength⟩ := h inList b hb
    have := (hlength r hr).2
    omega
  · have hended := hb.ended hall (configBuffer_ended text behind)
    have hlt := hended.lt_length
    refine ⟨hlt, fun r hr => ?_⟩
    obtain ⟨fuel, hr⟩ := hr
    have hlength := ((parse_keeps fuel).1 b r hr).2.1
    have hinside := (parse_inside hall fuel).1 inList b r hb hended hr
    omega

end Call

/-- Floats of which nothing is kept. -/
def noFloats : FloatLib Unit where
  asciiStrToFloat _ := ()
  printed _ := []
  plain _ _ hc := nomatch hc

/-- A text of 46 bytes, of which `XMLParseNextTag` reports to have read 66. -/
theorem xmlParseNextTag_overrun :
    let text := lit "a text before an integer<integer><a></integer>"
    text.length = 46 ∧ ∃ r, Returns noFloats (configBuffer text []) r ∧ r.length = 66 := by
  refine ⟨by decide, ⟨some (.int64 0), 66, _⟩, ⟨4, rfl⟩, rfl⟩

end Clover.Plist
