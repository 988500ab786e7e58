import Clover.Lib.Bits
import Clover.Xml.Strings

/-!
# Entities

What `XMLDecode` is for is one pass over the text that replaces complete entities
(`decodeEntities`). The pass of the code (`decodePass`) differs where an `&` starts no entity: the
`&` is dropped and the byte behind it is copied unseen. It also compares the names as characters,
and with what stands behind the text, so that an entity that is cut off, or written with overlong
characters, is taken for one.

The two agree exactly on the texts every `&` of which starts a complete entity, and by accident
where the last byte is an `&` and what stands behind the text is read as one. For the direction
back both passes are followed from the first `&` that starts no entity on: what the code has
dropped there is a byte that it cannot make up for, since another `&` puts it further behind
(`stray_of_decodePass`), and an overlong character loses a byte from `0x80` on
(`decodePass_ne_high`).

The loop in memory writes behind what it still reads, so it does not matter whether `out` is `src`.
-/

namespace Clover.Xml

open Clover.Lib Clover.Unicode List

variable {b : UInt8} {name out s t w p : Bytes} {i k : Nat} {e : Bytes × UInt8}

/-! ## The two passes -/

/-- The text with its complete entities replaced, after the first `k` bytes. -/
def decodeEntities : Nat → Bytes → Bytes
  | _, [] => []
  | k + 1, _ :: s => decodeEntities k s
  | 0, c :: s =>
    if c = 38 then
      match ents.find? fun e => e.1.isPrefixOf s with
      | some e => e.2 :: decodeEntities e.1.length s
      | none => c :: decodeEntities 0 s
    else c :: decodeEntities 0 s

/-- The bytes that `XMLDecode` writes for a text that stands in front of `rest`, after the first
`k` bytes. -/
def decodePass (rest : Bytes) : Nat → Bytes → Bytes
  | _, [] => []
  | k + 1, _ :: s => decodePass rest k s
  | 0, c :: s =>
    if c = 38 then
      match ents.find? fun e => startsWithName e.1 (s ++ rest) with
      | some e => e.2 :: decodePass rest e.1.length s
      | none => (s ++ rest).getD 0 0 :: decodePass rest 1 s
    else c :: decodePass rest 0 s

attribute [local simp] decodeEntities decodePass

theorem decodeEntities_drop (k : Nat) (s : Bytes) :
    decodeEntities k s = decodeEntities 0 (s.drop k) := by
  induction s generalizing k with
  | nil => rw [drop_nil, decodeEntities, decodeEntities]
  | cons c s ih =>
    cases k with
    | zero => rfl
    | succ k => exact ih k

theorem decodePass_drop (rest : Bytes) (k : Nat) (s : Bytes) :
    decodePass rest k s = decodePass rest 0 (s.drop k) := by
  induction s generalizing k with
  | nil => rw [drop_nil, decodePass, decodePass]
  | cons c s ih =>
    cases k with
    | zero => rfl
    | succ k => exact ih k

section Steps

variable {s rest : Bytes} {c : UInt8} {e : Bytes × UInt8}

theorem decodeEntities_copy (hc : c ≠ 38) :
    decodeEntities 0 (c :: s) = c :: decodeEntities 0 s := by
  rw [decodeEntities, if_neg hc]

theorem decodePass_copy (hc : c ≠ 38) : decodePass rest 0 (c :: s) = c :: decodePass rest 0 s := by
  rw [decodePass, if_neg hc]

theorem decodeEntities_some (h : (ents.find? fun e => e.1.isPrefixOf s) = some e) :
    decodeEntities 0 (38 :: s) = e.2 :: decodeEntities 0 (s.drop e.1.length) := by
  rw [decodeEntities, if_pos rfl, h]
  dsimp only
  rw [decodeEntities_drop]

theorem decodeEntities_none (h : (ents.find? fun e => e.1.isPrefixOf s) = none) :
    decodeEntities 0 (38 :: s) = 38 :: decodeEntities 0 s := by
  rw [decodeEntities, if_pos rfl, h]

theorem decodePass_some (h : (ents.find? fun e => startsWithName e.1 (s ++ rest)) = some e) :
    decodePass rest 0 (38 :: s) = e.2 :: decodePass rest 0 (s.drop e.1.length) := by
  rw [decodePass, if_pos rfl, h]
  dsimp only
  rw [decodePass_drop]

theorem decodePass_none (h : (ents.find? fun e => startsWithName e.1 (s ++ rest)) = none) :
    decodePass rest 0 (38 :: s) = (s ++ rest).getD 0 0 :: decodePass rest 0 (s.drop 1) := by
  rw [decodePass, if_pos rfl, h]
  rw [decodePass_drop]

end Steps

theorem decodeEntities_append (hp : 38 ∉ p) (s : Bytes) :
    decodeEntities 0 (p ++ s) = p ++ decodeEntities 0 s := by
  induction p with
  | nil => rfl
  | cons c p ih =>
    rw [mem_cons, not_or] at hp
    rw [cons_append, decodeEntities_copy (Ne.symm hp.1), ih hp.2, cons_append]

/-! ## Names -/

theorem high_bit (b : UInt8) : b &&& 0x80 = 0 ↔ b < 0x80 :=
  forall_byte (P := fun b => b &&& 0x80 = 0 ↔ b < 0x80) (by decide +kernel) b

theorem le_of_trail (b : UInt8) : b &&& 0xc0 = 0x80 → 0x80 ≤ b :=
  forall_byte (P := fun b => b &&& 0xc0 = 0x80 → 0x80 ≤ b) (by decide +kernel) b

theorem getChar32FromUtf8String_ascii (hb : b ≠ 0) (hascii : b < 0x80) (t : Bytes) :
    getChar32FromUtf8String (b :: t) = (t, b.toUInt32) := by
  have hbit : b &&& 0x80 = 0 := (high_bit b).mpr hascii
  simp [getChar32FromUtf8String, hb, hbit]

theorem high_of_mem_take (h : ∀ i, i < k → 0x80 ≤ t.getD i 0) : ∀ b ∈ t.take k, 0x80 ≤ b := by
  intro b hb
  obtain ⟨i, hi, rfl⟩ := mem_take_iff_getElem.mp hb
  have hbyte := h i (by omega)
  rwa [getD_eq_getElem t 0 (by omega)] at hbyte

theorem getChar32FromUtf8String_cases (h : (getChar32FromUtf8String t).2 ≠ 0) :
    (∃ b t', t = b :: t' ∧ b ≠ 0 ∧ b < 0x80) ∨
      ∃ k, 0 < k ∧ (getChar32FromUtf8String t).1 = t.drop k ∧ ∀ b ∈ t.take k, 0x80 ≤ b := by
  by_cases hzero : t.getD 0 0 = 0
  · unfold getChar32FromUtf8String at h
    rw [if_pos hzero] at h
    exact absurd rfl h
  by_cases hascii : t.getD 0 0 < 0x80
  · left
    cases t with
    | nil => exact absurd rfl hzero
    | cons b t => exact ⟨b, t, rfl, hzero, hascii⟩
  have hhigh : 0x80 ≤ t.getD 0 0 := UInt8.not_lt.mp hascii
  have hbit : t.getD 0 0 &&& 0x80 ≠ 0 := fun h => hascii ((high_bit _).mp h)
  right
  revert h
  unfold getChar32FromUtf8String
  simp only [hzero, hbit, if_false, ne_eq, not_false_eq_true, if_true]
  split_ifs with h1 h2 h3 h4 h5 <;> intro h
  · exact absurd rfl h
  · refine ⟨4, by decide, rfl, high_of_mem_take fun i hi => ?_⟩
    rw [not_or, not_not, not_not] at h5
    obtain rfl | rfl | rfl | rfl : i = 0 ∨ i = 1 ∨ i = 2 ∨ i = 3 := by omega
    · exact hhigh
    · exact le_of_trail _ h1
    · exact le_of_trail _ h3
    · exact le_of_trail _ h5.2
  · refine ⟨3, by decide, rfl, high_of_mem_take fun i hi => ?_⟩
    obtain rfl | rfl | rfl : i = 0 ∨ i = 1 ∨ i = 2 := by omega
    · exact hhigh
    · exact le_of_trail _ h1
    · exact le_of_trail _ h3
  · exact absurd rfl h
  · refine ⟨2, by decide, rfl, high_of_mem_take fun i hi => ?_⟩
    obtain rfl | rfl : i = 0 ∨ i = 1 := by omega
    · exact hhigh
    · exact le_of_trail _ h1
  · exact absurd rfl h

theorem ents_names : ∀ e ∈ ents, (∀ c ∈ e.1, c ≠ 0 ∧ c < 0x80 ∧ c ≠ 38) ∧ e.2 < 0x80 ∧
    e.1.getD 0 0 ≠ e.2 ∧ e.1 ≠ [] := by
  decide

theorem startsWithName_cons (hb : b ≠ 0) (hascii : b < 0x80) (c : UInt8) (name t : Bytes) :
    startsWithName (c :: name) (b :: t) = (decide (b = c) && startsWithName name t) := by
  rw [startsWithName, getChar32FromUtf8String_ascii hb hascii]
  simp [UInt8.toUInt32_inj]

theorem startsWithName_append (hname : ∀ c ∈ name, c ≠ 0 ∧ c < 0x80) (t : Bytes) :
    startsWithName name (name ++ t) = true := by
  induction name with
  | nil => rfl
  | cons c name ih =>
    obtain ⟨hc, hascii⟩ := hname c mem_cons_self
    rw [cons_append, startsWithName_cons hc hascii,
      ih fun c hc => hname c (mem_cons_of_mem _ hc)]
    simp

theorem isPrefix_of_startsWithName : ∀ {name' t : Bytes},
    startsWithName name t = true → startsWithName name' t = true →
      name.length ≤ name'.length → name <+: name' := by
  induction name with
  | nil =>
    intro name' t _ _ _
    exact nil_prefix
  | cons c name ih =>
    intro name' t h h' hlength
    cases name' with
    | nil => exact absurd hlength (by simp)
    | cons c' name' =>
      rw [startsWithName, Bool.and_eq_true, decide_eq_true_iff] at h h'
      have hc : c = c' := UInt8.toUInt32_inj.mp (h.1.symm.trans h'.1)
      exact cons_prefix_cons.mpr ⟨hc, ih h.2 h'.2 (Nat.le_of_succ_le_succ hlength)⟩

theorem ents_prefix_free : ∀ e ∈ ents, ∀ e' ∈ ents, e.1 <+: e'.1 → e = e' := by
  decide

theorem find?_startsWithName (he : e ∈ ents) (h : startsWithName e.1 t = true) :
    (ents.find? fun e => startsWithName e.1 t) = some e := by
  cases hfind : ents.find? fun e => startsWithName e.1 t with
  | none => exact absurd h (find?_eq_none.mp hfind e he)
  | some e' =>
    have he' : e' ∈ ents := mem_of_find?_eq_some hfind
    have h' : startsWithName e'.1 t = true := by simpa using find?_some hfind
    rcases le_total e.1.length e'.1.length with hle | hle
    · rw [ents_prefix_free e he e' he' (isPrefix_of_startsWithName h h' hle)]
    · rw [ents_prefix_free e' he' e he (isPrefix_of_startsWithName h' h hle)]

theorem ents_ascii_names (he : e ∈ ents) : ∀ c ∈ e.1, c ≠ 0 ∧ c < 0x80 :=
  fun c hc => ⟨((ents_names e he).1 c hc).1, ((ents_names e he).1 c hc).2.1⟩

theorem mem_take_of_startsWithName (hname : ∀ c ∈ name, c ≠ 0 ∧ c < 0x80) :
    ∀ {t : Bytes}, startsWithName name t = true →
      ∀ b ∈ t.take name.length, b ∈ name ∨ 0x80 ≤ b := by
  induction name with
  | nil =>
    intro t _ b hb
    exact absurd hb (not_mem_nil)
  | cons c name ih =>
    intro t h b hb
    have hrest : ∀ c ∈ name, c ≠ 0 ∧ c < 0x80 := fun c hc => hname c (mem_cons_of_mem _ hc)
    rw [startsWithName, Bool.and_eq_true, decide_eq_true_iff] at h
    obtain ⟨hc, hstarts⟩ := h
    have hne : (getChar32FromUtf8String t).2 ≠ 0 := by
      rw [hc]
      intro h
      exact (hname c mem_cons_self).1 (UInt8.toUInt32_inj.mp h)
    rcases getChar32FromUtf8String_cases hne with ⟨b0, t', rfl, hb0, hascii⟩ | ⟨k, hk, hdrop, hhigh⟩
    · rw [getChar32FromUtf8String_ascii hb0 hascii] at hc hstarts
      rw [length_cons, take_succ_cons, mem_cons] at hb
      rcases hb with rfl | hb
      · exact .inl (UInt8.toUInt32_inj.mp hc ▸ mem_cons_self)
      · exact (ih hrest hstarts b hb).imp_left (mem_cons_of_mem _)
    · rw [hdrop] at hstarts
      have hsub : b ∈ t.take (k + name.length) :=
        take_subset_take_left t (by rw [length_cons]; omega) hb
      rw [take_add, mem_append] at hsub
      rcases hsub with hb | hb
      · exact .inr (hhigh b hb)
      · exact (ih hrest hstarts b hb).imp_left (mem_cons_of_mem _)

/-- A name that is found is there, or there is a byte from `0x80` on in its place. -/
theorem isPrefix_or_high (hname : ∀ c ∈ name, c ≠ 0 ∧ c < 0x80) {rest : Bytes} :
      ∀ {s : Bytes}, name.length ≤ s.length → startsWithName name (s ++ rest) = true → name <+: s ∨
        ∃ b ∈ s.take name.length, 0x80 ≤ b := by
  induction name with
  | nil =>
    intro s _ _
    exact .inl (List.nil_prefix)
  | cons c name ih =>
    intro s hlength h
    cases s with
    | nil => exact absurd hlength (by simp)
    | cons b s =>
      by_cases hhigh : 0x80 ≤ b
      · exact .inr ⟨b, mem_cons_self, hhigh⟩
      have hascii : b < 0x80 := UInt8.not_le.mp hhigh
      have hb : b ≠ 0 := by
        rintro rfl
        rw [cons_append, startsWithName, Bool.and_eq_true, decide_eq_true_iff] at h
        have hzero : (0 : UInt8).toUInt32 = c.toUInt32 := h.1
        exact (hname c mem_cons_self).1 (UInt8.toUInt32_inj.mp hzero).symm
      rw [cons_append, startsWithName_cons hb hascii, Bool.and_eq_true,
        decide_eq_true_iff] at h
      obtain ⟨rfl, hstarts⟩ := h
      rcases ih (fun c hc => hname c (mem_cons_of_mem _ hc)) (Nat.le_of_succ_le_succ hlength)
        hstarts with hpre | ⟨b', hb', hhigh'⟩
      · exact .inl (cons_prefix_cons.mpr ⟨rfl, hpre⟩)
      · exact .inr ⟨b', mem_cons_of_mem _ hb', hhigh'⟩

/-! ## High bytes -/

/-- The number of bytes from `0x80` on. -/
def highs (s : Bytes) : Nat := s.countP fun b => 0x80 ≤ b

@[simp] theorem highs_nil : highs [] = 0 := rfl

@[simp] theorem highs_append (s t : Bytes) : highs (s ++ t) = highs s + highs t :=
  countP_append

theorem highs_cons (b : UInt8) (s : Bytes) :
    highs (b :: s) = highs s + if 0x80 ≤ b then 1 else 0 := by
  simp [highs, countP_cons]

theorem highs_pos (h : ∃ b ∈ s, 0x80 ≤ b) : 0 < highs s := by
  rw [highs, countP_pos_iff]
  simpa using h

theorem highs_ascii (hb : b < 0x80) (s : Bytes) : highs (b :: s) = highs s := by
  rw [highs_cons, if_neg (UInt8.not_le.mpr hb), Nat.add_zero]

theorem highs_name (hname : ∀ c ∈ name, c < 0x80) : highs name = 0 := by
  rw [highs, countP_eq_zero]
  intro c hc
  rw [decide_eq_true_iff]
  exact UInt8.not_le.mpr (hname c hc)

theorem highs_decodeEntities (k : Nat) (s : Bytes) :
    highs (decodeEntities k s) = highs (s.drop k) := by
  induction s generalizing k with
  | nil => rw [drop_nil, decodeEntities]
  | cons c s ih =>
    cases k with
    | succ k => exact ih k
    | zero =>
      rw [drop_zero]
      by_cases hc : c = 38
      · subst hc
        have hamp : (38 : UInt8) < 0x80 := by decide
        rw [highs_ascii hamp]
        cases hfind : ents.find? fun e => e.1.isPrefixOf s with
        | none => rw [decodeEntities_none hfind, highs_ascii hamp, ih 0, drop_zero]
        | some e =>
          obtain ⟨hname, hvalue, -⟩ := ents_names e (mem_of_find?_eq_some hfind)
          have hlead : e.1 <+: s := by simpa using find?_some hfind
          obtain ⟨t, rfl⟩ := hlead
          rw [decodeEntities_some hfind, highs_ascii hvalue, ← decodeEntities_drop, ih,
            highs_append, highs_name fun c hc => (hname c hc).2.1, drop_left, Nat.zero_add]
      · rw [decodeEntities_copy hc, highs_cons, highs_cons, ih 0, drop_zero]

theorem find?_isPrefixOf_concat (s : Bytes) :
    (ents.find? fun e => e.1.isPrefixOf (s ++ [38])) = ents.find? fun e => e.1.isPrefixOf s := by
  refine find?_congr fun e he => ?_
  rw [Bool.eq_iff_iff, isPrefixOf_iff_prefix, isPrefixOf_iff_prefix,
    prefix_concat_iff]
  refine or_iff_right fun heq => ?_
  have hmem : (38 : UInt8) ∈ e.1 := by
    rw [heq]
    exact mem_append_right _ mem_cons_self
  exact ((ents_names e he).1 38 hmem).2.2 rfl

theorem decodeEntities_concat (hk : k ≤ s.length) :
    decodeEntities k (s ++ [38]) = decodeEntities k s ++ [38] := by
  induction s generalizing k with
  | nil =>
    rw [Nat.le_zero.mp hk]
    rfl
  | cons c s ih =>
    rw [cons_append]
    cases k with
    | succ k => exact ih (Nat.le_of_succ_le_succ hk)
    | zero =>
      by_cases hc : c = 38
      · rw [decodeEntities, decodeEntities, if_pos hc, if_pos hc, find?_isPrefixOf_concat]
        cases hfind : ents.find? fun e => e.1.isPrefixOf s with
        | none => exact congrArg (c :: ·) (ih (Nat.zero_le _))
        | some e =>
          have hlead : e.1 <+: s := by simpa using find?_some hfind
          exact congrArg (e.2 :: ·) (ih hlead.length_le)
      · rw [decodeEntities_copy hc, decodeEntities_copy hc, ih (Nat.zero_le _)]
        rfl

theorem getLast?_of_drop (h : (s.drop k).getLast? = some b) : s.getLast? = some b := by
  rw [getLast?_drop] at h
  split at h
  · exact absurd h (by simp)
  · exact h

theorem getLast?_cons_of (c : UInt8) (h : s.getLast? = some b) : (c :: s).getLast? = some b := by
  rw [getLast?_cons, h]
  rfl

theorem highs_drop_le (s : Bytes) (k : Nat) : highs (s.drop k) ≤ highs s :=
  (drop_sublist k s).countP_le

/-- The code keeps at most the high bytes, unless the byte behind a last `&` is one. -/
theorem highs_decodePass (rest : Bytes) (k : Nat) (s : Bytes) :
    highs (decodePass rest k s) ≤ highs (s.drop k) ∨
      (s.drop k).getLast? = some 38 ∧ ∃ b, 0x80 ≤ b ∧ (decodePass rest k s).getLast? = some b := by
  induction s generalizing k with
  | nil =>
    left
    exact Nat.zero_le _
  | cons c s ih =>
    cases k with
    | succ k => exact ih k
    | zero =>
      -- behind the bytes that are skipped, with the byte `d` written for them
      have hbehind : ∀ (d : UInt8) (k : Nat), highs [d] + highs (s.drop k) ≤ highs (c :: s) →
          highs (d :: decodePass rest k s) ≤ highs (c :: s) ∨ (c :: s).getLast? = some 38 ∧
            ∃ b, 0x80 ≤ b ∧ (d :: decodePass rest k s).getLast? = some b := by
        intro d k hd
        rcases ih k with hle | ⟨hlast, b, hb, hpass⟩
        · left
          rw [← singleton_append, highs_append]
          omega
        · exact .inr ⟨getLast?_cons_of c (getLast?_of_drop hlast), b, hb, getLast?_cons_of d hpass⟩
      have hdrop := highs_drop_le s
      by_cases hc : c = 38
      · subst hc
        have hamp : highs (38 :: s) = highs s := highs_ascii (by decide) s
        cases hfind : ents.find? fun e => startsWithName e.1 (s ++ rest) with
        | some e =>
          rw [decodePass_some hfind, ← decodePass_drop]
          apply hbehind
          rw [highs_ascii (ents_names e (mem_of_find?_eq_some hfind)).2.1, hamp, highs_nil]
          have := hdrop e.1.length
          omega
        | none =>
          rw [decodePass_none hfind, ← decodePass_drop]
          cases s with
          | nil =>
            by_cases hhigh : 0x80 ≤ ([] ++ rest).getD 0 0
            · exact .inr ⟨rfl, _, hhigh, rfl⟩
            · left
              rw [decodePass, highs_ascii (UInt8.not_le.mp hhigh), highs_nil]
              exact Nat.zero_le _
          | cons d s =>
            apply hbehind
            rw [hamp, cons_append, getD_cons_zero, ← highs_append]
            exact le_refl _
      · rw [decodePass_copy hc]
        apply hbehind
        rw [← highs_append]
        exact le_refl _

/-! ## Where the passes differ -/

section Differ

variable {rest : Bytes} {c : UInt8}

/-- A byte from `0x80` on is not made up for. -/
theorem decodePass_ne_high {u : Bytes} (hu : ∃ b ∈ u, 0x80 ≤ b) (s : Bytes) :
    decodePass rest 0 s ≠ u ++ decodeEntities 0 s := by
  intro heq
  have hpos := highs_pos hu
  have hspec := highs_decodeEntities 0 s
  rcases highs_decodePass rest 0 s with hle | ⟨hlast, b, hb, hpass⟩
  · rw [heq, highs_append, hspec] at hle
    omega
  · obtain ⟨p, rfl⟩ := getLast?_eq_some_iff.mp hlast
    rw [heq, decodeEntities_concat (Nat.zero_le _), ← append_assoc, getLast?_concat] at hpass
    obtain rfl := Option.some.inj hpass
    exact absurd hb (by decide)

/-- What is found as an entity but is none, in front of what the code goes on with. -/
theorem decodeEntities_overlong (he : e ∈ ents) (hstarts : startsWithName e.1 (s ++ rest) = true)
    (hno : ¬ e.1 <+: s) (hlength : e.1.length ≤ s.length) :
    (∃ b ∈ s.take e.1.length, 0x80 ≤ b) ∧
      decodeEntities 0 s = s.take e.1.length ++ decodeEntities 0 (s.drop e.1.length) := by
  have hname := ents_ascii_names he
  refine ⟨(isPrefix_or_high hname hlength hstarts).resolve_left hno, ?_⟩
  have hamp : 38 ∉ s.take e.1.length := by
    intro hmem
    have htake : (38 : UInt8) ∈ (s ++ rest).take e.1.length := by
      rw [take_append_of_le_length hlength]
      exact hmem
    rcases mem_take_of_startsWithName hname hstarts 38 htake with hin | hhigh
    · exact ((ents_names e he).1 38 hin).2.2 rfl
    · exact absurd hhigh (by decide)
  rw [← decodeEntities_append hamp, take_append_drop]

theorem decodeEntities_ne_nil (hs : s ≠ []) : decodeEntities 0 s ≠ [] := by
  cases s with
  | nil => exact absurd rfl hs
  | cons c s =>
    rw [decodeEntities]
    split
    · split <;> exact cons_ne_nil _ _
    · exact cons_ne_nil _ _

theorem find?_startsWithName_of_isPrefixOf (h : (ents.find? fun e => e.1.isPrefixOf s) = some e) :
    (ents.find? fun e => startsWithName e.1 (s ++ rest)) = some e := by
  have hlead : e.1 <+: s := by simpa using find?_some h
  obtain ⟨t, rfl⟩ := hlead
  have he := mem_of_find?_eq_some h
  apply find?_startsWithName he
  rw [append_assoc]
  exact startsWithName_append (ents_ascii_names he) _

theorem decodePass_name (he : e ∈ ents) (hlead : e.1 <+: s) :
    ∃ r, decodePass rest 0 s = e.1.getD 0 0 :: r ∧ e.1.getD 0 0 ≠ 38 := by
  obtain ⟨hname, -, -, hne⟩ := ents_names e he
  obtain ⟨t, rfl⟩ := hlead
  cases hcase : e.1 with
  | nil => exact absurd hcase hne
  | cons c name =>
    have hc : c ≠ 38 := (hname c (hcase ▸ mem_cons_self)).2.2
    exact ⟨_, decodePass_copy hc, hc⟩

/-- What stands behind a last `&` is read as one. -/
def ReadsAmp (rest : Bytes) : Prop :=
  startsWithName (lit "amp;") rest = true ∨ rest.getD 0 0 = 38

/-- Every `&` of the text starts a complete entity, a last one apart that is read twice. -/
def Whole (rest s : Bytes) : Prop :=
  ∀ a b, s = a ++ 38 :: b → (∃ e ∈ ents, e.1 <+: b) ∨ b = [] ∧ ReadsAmp rest

theorem whole_nil : Whole rest [] :=
  fun a b h => absurd h (by simp)

theorem Whole.cons (h : Whole rest s)
    (hc : c = 38 → (∃ e ∈ ents, e.1 <+: s) ∨ s = [] ∧ ReadsAmp rest) : Whole rest (c :: s) := by
  intro a b hab
  cases a with
  | nil =>
    obtain ⟨rfl, rfl⟩ := cons.inj hab
    exact hc rfl
  | cons d a => exact h a b (cons.inj hab).2

theorem Whole.append (h : Whole rest s) (hp : 38 ∉ p) : Whole rest (p ++ s) := by
  induction p with
  | nil => exact h
  | cons c p ih =>
    rw [mem_cons, not_or] at hp
    exact (ih hp.2).cons fun hc => absurd hc.symm hp.1

theorem replicate_append_cons (m : Nat) (t : Bytes) :
    replicate m 38 ++ 38 :: t = 38 :: (replicate m 38 ++ t) := by
  rw [← cons_append, ← replicate_succ, replicate_succ', append_assoc]
  rfl

/-- The code drops an `&` that starts no entity: it is never made up for, unless it is the last
byte. The hypothesis is what is known of shorter texts. -/
theorem stray_of_decodePass {m : Nat}
    (ih : ∀ t : Bytes, t.length < s.length → ∀ m, decodePass rest 0 t = replicate m 38 ++
      decodeEntities 0 t → m = 0)
    (hspec : (ents.find? fun e => e.1.isPrefixOf s) = none)
    (heq : decodePass rest 0 (38 :: s) = replicate m 38 ++ decodeEntities 0 (38 :: s)) :
    m = 0 ∧ s = [] ∧ ReadsAmp rest := by
  rw [decodeEntities_none hspec, replicate_append_cons] at heq
  cases hcode : ents.find? fun e => startsWithName e.1 (s ++ rest) with
  | some e =>
    have he := mem_of_find?_eq_some hcode
    have hstarts : startsWithName e.1 (s ++ rest) = true := by simpa using find?_some hcode
    have hno : ¬ e.1 <+: s := fun h =>
      find?_eq_none.mp hspec e he (List.isPrefixOf_iff_prefix.mpr h)
    rw [decodePass_some hcode] at heq
    obtain ⟨hvalue, htail⟩ := cons.inj heq
    rcases lt_or_ge s.length e.1.length with hlt | hge
    · -- the name goes over the end of the text
      rw [drop_eq_nil_of_le (le_of_lt hlt), decodePass] at htail
      obtain ⟨hm, hs⟩ := append_eq_nil_iff.mp htail.symm
      have hnil : s = [] := by_contra fun h => decodeEntities_ne_nil h hs
      refine ⟨by simpa using hm, hnil, .inl ?_⟩
      have hamp : ∀ e ∈ ents, e.2 = 38 → e.1 = lit "amp;" := by decide
      rw [hnil, nil_append, hamp e he hvalue] at hstarts
      exact hstarts
    · obtain ⟨⟨b, hb, hhigh⟩, hspec'⟩ := decodeEntities_overlong he hstarts hno hge
      rw [hspec', ← append_assoc] at htail
      exact absurd htail (decodePass_ne_high ⟨b, mem_append_right _ hb, hhigh⟩ _)
  | none =>
    rw [decodePass_none hcode] at heq
    obtain ⟨hhead, htail⟩ := cons.inj heq
    cases s with
    | nil =>
      rw [drop_nil, decodePass, decodeEntities, append_nil] at htail
      exact ⟨by simpa using htail.symm, rfl, .inr hhead⟩
    | cons d s =>
      subst hhead
      rw [drop_succ_cons, drop_zero] at htail
      cases hnext : ents.find? fun e => e.1.isPrefixOf s with
      | some e =>
        -- the code copies the name of the entity, from its first letter on
        have he := mem_of_find?_eq_some hnext
        have hlead : e.1 <+: s := by simpa using find?_some hnext
        obtain ⟨r, hr, hletter⟩ := decodePass_name he hlead
        rw [hr, decodeEntities_some hnext] at htail
        cases m with
        | zero => exact absurd (cons.inj htail).1 (ents_names e he).2.2.1
        | succ m => exact absurd (cons.inj htail).1 hletter
      | none =>
        rw [decodeEntities_none hnext, replicate_append_cons, ← cons_append,
          ← replicate_succ] at htail
        exact absurd (ih s (Nat.lt_succ_self _) (m + 1) htail) (Nat.succ_ne_zero m)

/-- The code writes the decoded text, possibly behind some more `&`, only if there are none and
every `&` of the text starts an entity. -/
theorem whole_of_decodePass (s : Bytes) : ∀ m,
    decodePass rest 0 s = replicate m 38 ++ decodeEntities 0 s → m = 0 ∧ Whole rest s := by
  induction hn : s.length using Nat.strong_induction_on generalizing s with
  | _ n ih =>
  subst hn
  intro m heq
  cases s with
  | nil =>
    rw [decodePass, decodeEntities, append_nil] at heq
    exact ⟨by simpa using heq.symm, whole_nil⟩
  | cons c s =>
    by_cases hc : c = 38
    · subst hc
      cases hspec : ents.find? fun e => e.1.isPrefixOf s with
      | some e =>
        have he := mem_of_find?_eq_some hspec
        have hlead : e.1 <+: s := by simpa using find?_some hspec
        have hamp : 38 ∉ e.1 := fun h => ((ents_names e he).1 38 h).2.2 rfl
        rw [decodePass_some (find?_startsWithName_of_isPrefixOf hspec),
          decodeEntities_some hspec] at heq
        have htail : decodePass rest 0 (s.drop e.1.length) =
            replicate m 38 ++ decodeEntities 0 (s.drop e.1.length) := by
          cases m with
          | zero => exact (cons.inj heq).2
          | succ m =>
            obtain ⟨hvalue, htail⟩ := cons.inj heq
            rw [htail, hvalue]
            exact replicate_append_cons m _
        have hlt : (s.drop e.1.length).length < (38 :: s).length := by
          rw [length_drop, length_cons]
          omega
        obtain ⟨hm, hwhole⟩ := ih _ hlt _ rfl m htail
        obtain ⟨t, rfl⟩ := hlead
        rw [drop_left] at hwhole
        exact ⟨hm, (hwhole.append hamp).cons fun _ => .inl ⟨e, he, prefix_append _ _⟩⟩
      | none =>
        have ih' : ∀ t : Bytes, t.length < s.length → ∀ m,
            decodePass rest 0 t = replicate m 38 ++ decodeEntities 0 t → m = 0 :=
          fun t ht m h => (ih _ (Nat.lt_succ_of_lt ht) t rfl m h).1
        obtain ⟨hm, rfl, hreads⟩ := stray_of_decodePass ih' hspec heq
        exact ⟨hm, whole_nil.cons fun _ => .inr ⟨rfl, hreads⟩⟩
    · rw [decodePass_copy hc, decodeEntities_copy hc] at heq
      cases m with
      | zero =>
        obtain ⟨-, hwhole⟩ := ih s.length (Nat.lt_succ_self _) s rfl 0 (cons.inj heq).2
        exact ⟨rfl, hwhole.cons fun h => absurd h hc⟩
      | succ m => exact absurd (cons.inj heq).1 hc

theorem Whole.tail (h : Whole rest (c :: s)) : Whole rest s :=
  fun a b hab => h (c :: a) b (by rw [hab]; rfl)

theorem decodePass_amp (h : ReadsAmp rest) : decodePass rest 0 [38] = [38] := by
  rcases h with hstarts | hhead
  · have hmem : (lit "amp;", (38 : UInt8)) ∈ ents := by decide
    have hfind : (ents.find? fun e => startsWithName e.1 ([] ++ rest)) = some (lit "amp;", 38) :=
      find?_startsWithName hmem hstarts
    exact decodePass_some hfind
  · have hnone : (ents.find? fun e => startsWithName e.1 ([] ++ rest)) = none := by
      rw [find?_eq_none]
      intro e he hstarts
      obtain ⟨hname, -, -, hne⟩ := ents_names e he
      obtain ⟨c, name, hcons⟩ := exists_cons_of_ne_nil hne
      cases rest with
      | nil => exact absurd hhead (by decide)
      | cons b rest =>
        subst hhead
        rw [hcons, nil_append, startsWithName_cons (by decide) (by decide),
          Bool.and_eq_true, decide_eq_true_iff] at hstarts
        exact (hname c (hcons ▸ mem_cons_self)).2.2 hstarts.1.symm
    rw [decodePass_none hnone, nil_append, hhead]
    rfl

/-- Complete entities are replaced as they should be. -/
theorem decodePass_of_whole (h : Whole rest s) (k : Nat) :
    decodePass rest k s = decodeEntities k s := by
  induction s generalizing k with
  | nil => rw [decodePass, decodeEntities]
  | cons c s ih =>
    cases k with
    | succ k => exact ih h.tail k
    | zero =>
      by_cases hc : c = 38
      · subst hc
        rcases h [] s rfl with ⟨e, he, hlead⟩ | ⟨rfl, hreads⟩
        · cases hspec : ents.find? fun e => e.1.isPrefixOf s with
          | none =>
            exact absurd (List.isPrefixOf_iff_prefix.mpr hlead) (find?_eq_none.mp hspec e he)
          | some e' =>
            rw [decodePass_some (find?_startsWithName_of_isPrefixOf hspec),
              decodeEntities_some hspec, ← decodePass_drop, ← decodeEntities_drop, ih h.tail]
        · exact decodePass_amp hreads
      · rw [decodePass_copy hc, decodeEntities_copy hc, ih h.tail 0]

end Differ

/-! ## The written bytes -/

theorem length_decodePass_le (rest : Bytes) (k : Nat) (s : Bytes) :
    (decodePass rest k s).length ≤ s.length := by
  induction s generalizing k with
  | nil => rw [decodePass]
  | cons c s ih =>
    cases k with
    | succ k => exact Nat.le_succ_of_le (ih k)
    | zero =>
      rw [decodePass]
      split
      · split <;> exact Nat.succ_le_succ (ih _)
      · exact Nat.succ_le_succ (ih _)

/-- The loop does one pass over the text. -/
theorem xmlDecodeFrom_eq (src rest : Bytes) {n : Nat} (hn : src.length ≤ i + n)
    (hw : w.length ≤ i) :
    xmlDecodeFrom (src ++ rest) src.length (src.length + 1) n i w =
      w ++ decodePass rest i src := by
  induction n generalizing i w with
  | zero =>
    rw [decodePass_drop, drop_eq_nil_of_le (by simpa using hn), decodePass, append_nil]
    rfl
  | succ n ih =>
    rw [xmlDecodeFrom]
    by_cases hi : i < src.length
    · rw [if_pos hi, decodePass_drop, drop_eq_getElem_cons hi]
      have hgetD : (src ++ rest).getD i 0 = src[i] := by
        rw [getD_append _ _ _ _ hi, getD_eq_getElem _ _ hi]
      have hnext : (src ++ rest).getD (i + 1) 0 = (src.drop (i + 1) ++ rest).getD 0 0 := by
        rw [← drop_append_of_le_length hi]
        simp [getD_eq_getElem?_getD]
      have hroom : ¬ src.length + 1 ≤ w.length := by omega
      have hlength : ∀ b : UInt8, (w ++ [b]).length ≤ i + 1 := by
        intro b
        rw [length_append]
        exact Nat.succ_le_succ hw
      rw [hgetD, drop_append_of_le_length hi, hnext]
      by_cases hc : src[i] = 38
      · rw [if_pos hc, hc]
        cases hfind : ents.find? fun e => startsWithName e.1 (src.drop (i + 1) ++ rest) with
        | some e =>
          dsimp only
          rw [if_neg hroom, ih (by omega) ((hlength _).trans (Nat.le_add_right _ _)),
            decodePass_some hfind, decodePass_drop, append_assoc, drop_drop]
          rfl
        | none =>
          rw [if_neg hroom, ih (by omega) (Nat.le_succ_of_le (hlength _)),
            decodePass_none hfind, decodePass_drop, append_assoc, drop_drop]
          rfl
      · rw [if_neg hc, if_neg hroom, ih (by omega) (hlength _), decodePass_copy hc,
          decodePass_drop, append_assoc]
        rfl
    · rw [if_neg hi, decodePass_drop, drop_eq_nil_of_le (Nat.not_lt.mp hi), decodePass,
        append_nil]

theorem xmlDecode_eq_decodePass (src rest : Bytes) :
    xmlDecode (src ++ rest) src.length (src.length + 1) = decodePass rest 0 src := by
  rw [xmlDecode, xmlDecodeFrom_eq src rest (by omega) (by simp), nil_append]

/-! ## In memory -/

/-- The blocks of memory that `XMLDecode` works on: what stands from `src` on, and what stands from
`out` on. What is written does not change what stands behind it. -/
structure Buffers (σ : Type) where
  src : σ → Bytes
  out : σ → Bytes
  put : σ → Nat → UInt8 → σ
  out_put : ∀ m o b, out (put m o b) = (out m).set o b
  src_put : ∀ m o b, (src (put m o b)).drop (o + 1) = (src m).drop (o + 1)

/-- Two blocks that have nothing in common. -/
def Buffers.apart : Buffers (Bytes × Bytes) where
  src := Prod.fst
  out := Prod.snd
  put m o b := (m.1, m.2.set o b)
  out_put _ _ _ := rfl
  src_put _ _ _ := rfl

/-- The call with `out == src`. -/
def Buffers.inPlace : Buffers Bytes where
  src := id
  out := id
  put m o b := m.set o b
  out_put _ _ _ := rfl
  src_put _ o _ := drop_set_of_lt (Nat.lt_succ_self o)

section Memory

variable {σ : Type} (B : Buffers σ) (srclen outlen : Nat)

/-- The loop of `XMLDecode` at `src + s` and `out + o`. -/
def decodeLoop : Nat → σ → Nat → Nat → σ × Nat
  | 0, m, _, o => (m, o)
  | n + 1, m, s, o =>
    if s < srclen then
      if (B.src m).getD s 0 = 38 then
        match ents.find? fun e => startsWithName e.1 ((B.src m).drop (s + 1)) with
        | some e =>
          if outlen ≤ o then (m, o) else decodeLoop n (B.put m o e.2) (s + 1 + e.1.length) (o + 1)
        | none =>
          if outlen ≤ o then (m, o)
          else decodeLoop n (B.put m o ((B.src m).getD (s + 1) 0)) (s + 2) (o + 1)
      else if outlen ≤ o then (m, o)
      else decodeLoop n (B.put m o ((B.src m).getD s 0)) (s + 1) (o + 1)
    else (m, o)

/-- The function `XMLDecode(src, srclen, out, outlen)`. -/
def xmlDecodeIn (m : σ) : σ × Nat :=
  let (m, o) := decodeLoop B srclen outlen srclen m 0 0
  (if o < outlen then B.put m o 0 else m, o)

variable {B srclen outlen}

theorem set_append_drop (h : w.length < out.length) (b : UInt8) :
    (w ++ out.drop w.length).set w.length b = (w ++ [b]) ++ out.drop (w ++ [b]).length := by
  rw [set_append_right _ _ (Nat.le_refl _), Nat.sub_self, drop_eq_getElem_cons h,
    set_cons_zero, append_assoc, length_append]
  rfl

theorem drop_of_drop_eq {a b : Bytes} {j : Nat} (h : a.drop i = b.drop i) (hij : i ≤ j) :
    a.drop j = b.drop j := by
  rw [← Nat.add_sub_of_le hij, ← drop_drop, h, drop_drop]

theorem getD_of_drop_eq {a b : Bytes} {j : Nat} (h : a.drop i = b.drop i) (hij : i ≤ j) :
    a.getD j 0 = b.getD j 0 := by
  have hdrop := congrArg (fun l : Bytes => l.getD 0 0) (drop_of_drop_eq h hij)
  simpa [getD_eq_getElem?_getD] using hdrop

theorem decodeLoop_eq {src out : Bytes} (hout : outlen ≤ out.length) {n : Nat} {m : σ}
    {s : Nat} {w : Bytes} (hsrc : (B.src m).drop s = src.drop s) (hw : w.length ≤ s)
    (hwritten : B.out m = w ++ out.drop w.length) :
    let written := xmlDecodeFrom src srclen outlen n s w
    (decodeLoop B srclen outlen n m s w.length).2 = written.length ∧
      B.out (decodeLoop B srclen outlen n m s w.length).1 =
        written ++ out.drop written.length := by
  induction n generalizing m s w with
  | zero => exact ⟨rfl, hwritten⟩
  | succ n ih =>
    -- a byte is written where it is not read again
    have hput : ∀ (b : UInt8) (s' : Nat), ¬ outlen ≤ w.length → s < s' →
        let written := xmlDecodeFrom src srclen outlen n s' (w ++ [b])
        (decodeLoop B srclen outlen n (B.put m w.length b) s' (w.length + 1)).2 = written.length ∧
          B.out (decodeLoop B srclen outlen n (B.put m w.length b) s' (w.length + 1)).1 =
            written ++ out.drop written.length := by
      intro b s' hroom hs'
      have hlength : (w ++ [b]).length = w.length + 1 := length_append
      rw [← hlength]
      refine ih ?_ (by omega) ?_
      · exact (drop_of_drop_eq (B.src_put m w.length b) (by omega)).trans
          (drop_of_drop_eq hsrc (by omega))
      · rw [B.out_put, hwritten, set_append_drop (by omega)]
    rw [decodeLoop, xmlDecodeFrom, getD_of_drop_eq hsrc (le_refl s),
      getD_of_drop_eq hsrc (Nat.le_succ s), drop_of_drop_eq hsrc (Nat.le_succ s)]
    by_cases hs : s < srclen
    · rw [if_pos hs, if_pos hs]
      by_cases hroom : outlen ≤ w.length
      · cases ents.find? fun e => startsWithName e.1 (src.drop (s + 1)) <;> split <;>
          exact ⟨rfl, hwritten⟩
      · split
        · cases ents.find? fun e => startsWithName e.1 (src.drop (s + 1)) with
          | some e => exact hput e.2 (s + 1 + e.1.length) hroom (by omega)
          | none => exact hput _ (s + 2) hroom (by omega)
        · exact hput _ (s + 1) hroom (Nat.lt_succ_self s)
    · rw [if_neg hs, if_neg hs]
      exact ⟨rfl, hwritten⟩

/-- The block holds the text with its terminator, and its length has been returned. -/
def Writes (out : Bytes) (length : Nat) (text : Bytes) : Prop :=
  length = text.length ∧ out.take (text.length + 1) = text ++ [0]

theorem Writes.unique {text text' : Bytes} {length : Nat} (h : Writes out length text)
    (h' : Writes out length text') : text = text' := by
  have hlength : text.length = text'.length := h.1.symm.trans h'.1
  have heq : text ++ [0] = text' ++ [0] := by rw [← h.2, ← h'.2, hlength]
  exact append_cancel_right heq

theorem writes_xmlDecodeIn {src rest : Bytes} {m : σ} (hsrc : B.src m = src ++ rest)
    (hout : src.length < (B.out m).length) :
    Writes (B.out (xmlDecodeIn B src.length (src.length + 1) m).1)
      (xmlDecodeIn B src.length (src.length + 1) m).2 (decodePass rest 0 src) := by
  have hloop := @decodeLoop_eq σ B src.length (src.length + 1) (src ++ rest) (B.out m) hout
    src.length m 0 [] (by rw [hsrc]) (le_refl 0) rfl
  have hpass : xmlDecodeFrom (src ++ rest) src.length (src.length + 1) src.length 0 [] =
      decodePass rest 0 src := xmlDecode_eq_decodePass src rest
  rw [hpass] at hloop
  obtain ⟨hlength, hwritten⟩ := hloop
  have hle := length_decodePass_le rest 0 src
  unfold xmlDecodeIn
  dsimp only at hlength hwritten ⊢
  rw [show ([] : Bytes).length = 0 from rfl] at hlength hwritten
  rw [hlength, if_pos (by omega)]
  refine ⟨rfl, ?_⟩
  rw [B.out_put, hwritten, set_append_drop (by omega), take_append_of_le_length, take_of_length_le]
  · rw [length_append, length_singleton]
  · rw [length_append, length_singleton]

end Memory

/-- Decoding is right exactly for the whole texts, in place or not, and both give the same. -/
theorem xmlDecode_writes_iff (src rest out : Bytes) (hout : src.length < out.length) :
    let far := xmlDecodeIn .apart src.length (src.length + 1) (src ++ rest, out)
    let near := xmlDecodeIn .inPlace src.length (src.length + 1) (src ++ rest)
    (Writes far.1.2 far.2 (decodeEntities 0 src) ↔ Whole rest src) ∧
      (rest ≠ [] → (Writes near.1 near.2 (decodeEntities 0 src) ↔ Whole rest src) ∧
        near.2 = far.2 ∧ near.1.take (near.2 + 1) = far.1.2.take (far.2 + 1)) := by
  intro far near
  have hfar : Writes far.1.2 far.2 (decodePass rest 0 src) :=
    @writes_xmlDecodeIn _ .apart src rest (src ++ rest, out) rfl hout
  -- the block holds one text only
  have hright : ∀ {block : Bytes} {length : Nat},
      Writes block length (decodePass rest 0 src) →
        (Writes block length (decodeEntities 0 src) ↔ Whole rest src) := by
    intro block length h
    exact ⟨fun h' => (whole_of_decodePass src 0 (h.unique h')).2,
      fun hwhole => decodePass_of_whole hwhole 0 ▸ h⟩
  refine ⟨hright hfar, fun hrest => ?_⟩
  have hroom : src.length < (src ++ rest).length := by
    rw [length_append]
    exact Nat.lt_add_of_pos_right (length_pos_of_ne_nil hrest)
  have hnear : Writes near.1 near.2 (decodePass rest 0 src) :=
    @writes_xmlDecodeIn _ .inPlace src rest (src ++ rest) rfl hroom
  refine ⟨hright hnear, hnear.1.trans hfar.1.symm, ?_⟩
  rw [hnear.1, hfar.1, hnear.2, hfar.2]

/-- A text with an entity in it, followed by a terminator. -/
theorem xmlDecode_writes_iff_sample :
    (lit "a&lt;").length < (replicate 6 (0 : UInt8)).length ∧
    (Writes (xmlDecodeIn .apart 5 6 (lit "a&lt;" ++ [0], replicate 6 0)).1.2
        (xmlDecodeIn .apart 5 6 (lit "a&lt;" ++ [0], replicate 6 0)).2 (lit "a<") ↔
      Whole [0] (lit "a&lt;")) :=
  ⟨by decide, (xmlDecode_writes_iff (lit "a&lt;") [0] (replicate 6 0) (by decide)).1⟩

/-- The `&` of a text is lost, and the next one with it. -/
theorem xmlDecode_loses_amp :
    (xmlDecodeIn .apart 4 5 (lit "AT&T" ++ [0], replicate 5 0)).2 = 3 ∧
    (xmlDecodeIn .apart 4 5 (lit "AT&T" ++ [0], replicate 5 0)).1.2.take 4 = lit "ATT" ++ [0] ∧
    decodeEntities 0 (lit "AT&T") = lit "AT&T" ∧
    (xmlDecodeIn .inPlace 5 6 (lit "&&lt;" ++ [0])).1.take 5 = lit "&lt;" ++ [0] ∧
    decodeEntities 0 (lit "&&lt;") = lit "&<" := by
  decide +kernel

end Clover.Xml
