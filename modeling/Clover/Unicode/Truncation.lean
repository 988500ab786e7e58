import Clover.Unicode.Termination

/-!
# Truncation at a bound

What the bounded conversions of `cpp_foundation/unicode_conversions.cpp` leave in a destination of
`dst_max_size` units. From any source they write at most that many (`returns_room`), as every writer
takes at least as much room as it writes. From well-formed text they take as many characters as
the bounds allow (`Longest`), so that what is written ends at a character.

Two things go wrong. The functions without a count fill the destination and then write the
terminator over its last unit, which may be one of several units of a character (`Straddles`). And
`utf32_string_from_utf16_string_len` returns without a terminator when it meets a surrogate that is
not part of a pair (`unpairedWithin`). The main result is `conversions_bounded_iff`.
-/

namespace Clover.Unicode

open Clover.Lib Clover.Lib.Run List Nat

variable {dstMaxSize fuel j k n : Nat} {cs : List Scalar} (b : Form) (s : Bytes) {α : Type}
  {size : Nat}

/-! ## Any source -/

section Any

variable {α β : Type} [OfNat α 0] [DecidableEq α] {get : List α → List α × UInt32}
  {put : Dst β → UInt32 → Dst β} {s : List α} {fuel : Nat}

omit [OfNat α 0] [DecidableEq α] in
/-- A converting loop that goes on only while there is room ends, and its destination keeps to its
size. -/
theorem returns_room (hput : Takes put) {ρ : Type} {body : Conv α β → Run (Pass (Conv α β) ρ)}
    {Q : ρ → Prop}
    (hbody : ∀ v, v.dst.written.length + v.dst.room ≤ n → Returns (body v) fun p => match p with
      | .again v' => v.dst.room ≠ 0 ∧ ∃ c, v'.dst = put v.dst c
      | .leave r => Q r)
    {v : Conv α β} (hv : v.dst = ⟨[], n⟩) (hfuel : n < fuel) : Returns (loop body fuel v) Q := by
  refine returns_loop (fun v => v.dst.written.length + v.dst.room ≤ n) (fun v => v.dst.room)
    (fun v hn => ?_) fuel v ?_ ?_
  · refine (hbody v hn).mono fun p hp => ?_
    match p, hp with
    | .leave _, hp => exact hp
    | .again v', ⟨hroom, c, hc⟩ =>
      have htakes := hput v.dst c hroom
      rw [← hc] at htakes
      exact ⟨le_trans htakes.2 hn, htakes.1⟩
  · rw [hv]
    exact Nat.le_of_eq (Nat.zero_add n)
  · rw [hv]
    exact hfuel

omit [OfNat α 0] [DecidableEq α] in
theorem readAhead_bounded (hput : Takes put) (hfuel : dstMaxSize < fuel) :
    Returns (readAhead get put fuel dstMaxSize s) fun w => w.length ≤ dstMaxSize := by
  unfold readAhead
  split
  · exact returns_ok (Nat.zero_le _)
  next hpos =>
  -- this loop tests the room at the end of a pass
  refine returns_loop
    (fun v => v.dst.written.length + v.dst.room ≤ dstMaxSize ∧ v.dst.room ≠ 0)
    (fun v => v.dst.room) (fun v hv => ?_) fuel _ ⟨Nat.le_of_eq (Nat.zero_add _), hpos⟩ hfuel
  split
  · exact returns_ok (Nat.le_trans (Nat.le_add_right _ _) hv.1)
  · have htakes := hput v.dst v.char32 hv.2
    have hle := Nat.le_trans htakes.2 hv.1
    dsimp only
    split
    · exact returns_ok (Nat.le_trans (Nat.le_add_right _ _) hle)
    · next hroom => exact returns_ok ⟨⟨hle, hroom⟩, htakes.1⟩

theorem whileUnits_bounded (hput : Takes put) (hfuel : dstMaxSize < fuel) :
    Returns (whileUnits get put fuel dstMaxSize s) fun w => w.length ≤ dstMaxSize := by
  unfold whileUnits
  split
  · exact returns_ok (zero_le _)
  · refine returns_room hput (fun v hv => ?_) rfl hfuel
    split
    · next hc => exact returns_ok ⟨ne_of_gt hc.2, _, rfl⟩
    · exact returns_ok (le_trans (le_add_right _ _) hv)

theorem whileUnitsStop_bounded (hput : Takes put) (hfuel : dstMaxSize < fuel) :
    Returns (whileUnitsStop get put fuel dstMaxSize s) fun w => w.length ≤ dstMaxSize := by
  unfold whileUnitsStop
  split
  · exact returns_ok (zero_le _)
  · refine returns_room hput (fun v hv => ?_) rfl hfuel
    split
    · next hc =>
      split
      · exact returns_ok (le_trans (le_add_right _ _) hv)
      · exact returns_ok ⟨ne_of_gt hc.2, _, rfl⟩
    · exact returns_ok (le_trans (le_add_right _ _) hv)

variable [OfNat β 0]

/-- An output of at most `dstMaxSize` units with a terminator among them. -/
def Terminated (dstMaxSize : Nat) (r : Nat × List β) : Prop := r.2.length ≤ dstMaxSize ∧ 0 ∈ r.2

theorem terminated_append {w : List β} (h : w.length < dstMaxSize) :
    Terminated dstMaxSize (n, w ++ [0]) := by
  refine ⟨?_, mem_append_right w mem_cons_self⟩
  rw [length_append]
  exact h

theorem terminate_terminated (hpos : 0 < dstMaxSize) {x : Run (List β)}
    (hx : Returns x fun w => w.length ≤ dstMaxSize) :
    Returns (terminate dstMaxSize x) (Terminated dstMaxSize) := by
  rw [terminate, if_neg (ne_of_gt hpos)]
  refine returns_bind hx fun w hw => ?_
  split
  · next hfull =>
    refine returns_ok ⟨by rw [length_set]; exact hw, ?_⟩
    exact mem_set (by omega) 0
  · next hroom => exact returns_ok (terminated_append (Nat.lt_of_not_le hroom))

section Bounds

variable {small dstMaxSize : Nat} (hput : Takes put) (hpos : 0 < dstMaxSize)
  (hfuel : dstMaxSize < fuel)

include hput hpos hfuel

/-- The conversions with a bound on the characters or on the units of the source. -/
theorem counted_terminated (count : Nat) :
    Returns (readAheadLen get put small fuel dstMaxSize s count) (Terminated dstMaxSize) ∧
    Returns (whileUnitsLen get put small fuel dstMaxSize s count) (Terminated dstMaxSize) ∧
    Returns (readAheadSize get put small fuel dstMaxSize s count) (Terminated dstMaxSize) ∧
    Returns (whileUnitsSize get put small fuel dstMaxSize s count) (Terminated dstMaxSize) := by
  rw [readAheadLen, whileUnitsLen, readAheadSize, whileUnitsSize]
  refine ⟨?_, ?_, ?_, ?_⟩
  all_goals
    rw [if_neg (ne_of_gt hpos)]
    split
    · exact returns_ok (terminated_append (w := []) hpos)
    · refine returns_room hput (fun v hv => ?_) rfl (by omega)
      split
      · next hc => exact returns_ok ⟨ne_of_gt hc.2.1, _, rfl⟩
      · exact returns_ok (terminated_append (by omega))

end Bounds

end Any

/-! ### Copies within an encoding -/

theorem firstMultibyte_lt (h : 0 < n) : firstMultibyte s n < n := by
  induction n with
  | zero => exact absurd h (lt_irrefl 0)
  | succ n ih =>
    rw [firstMultibyte]
    split
    · cases n with
      | zero => exact zero_lt_succ 0
      | succ n => exact lt_succ_of_lt (ih (zero_lt_succ n))
    · exact lt_succ_self n

theorem dropMultibytes_le (n : Nat) : dropMultibytes s n ≤ n := by
  fun_induction dropMultibytes s n with
  | case1 => exact le_refl 0
  | case2 => exact le_refl 1
  | case3 n h ih => exact le_succ_of_le ih
  | case4 n h => exact le_succ _

theorem cutMultibyte_le (h : 0 < n) : cutMultibyte s n ≤ n := by
  have hlt := firstMultibyte_lt s h
  have hle := dropMultibytes_le s n
  unfold cutMultibyte
  dsimp only
  repeat' split
  all_goals omega

/-! ## Well-formed text -/

section Cut

variable {α : Type} {enc : Char → List α}

theorem encode_length_take_succ (enc : Char → List α) (hk : k < cs.length) :
      (encode enc (cs.take (k + 1))).length = (encode enc (cs.take k)).length +
        (enc cs[k].1).length := by
  rw [take_succ_eq_append_getElem hk, encode_append, length_append, encode_cons,
    encode_nil, append_nil]

/-- The text `cs` cut after `n` units: the last of them is unit `m` of some character, which is part
of the longest text of at most `n` units if it ends there. -/
theorem Longest.last (henc : ∀ c, 0 < (enc c).length)
    (hk : Longest (fun k => (encode enc (cs.take k)).length ≤ n) cs k) (hn : 0 < n)
    (hle : n ≤ (encode enc cs).length) :
    ∃ j, ∃ hj : j < cs.length, ∃ m, n = (encode enc (cs.take j)).length + m ∧ 0 < m ∧
      m ≤ (enc cs[j].1).length ∧ (encode enc (cs.take k)).length =
        if m < (enc cs[j].1).length then (encode enc (cs.take j)).length else n := by
  have hholds := hk.holds
  by_cases hend : (encode enc (cs.take k)).length = n
  · cases k with
    | zero =>
      rw [take_zero, encode_nil, length_nil] at hend
      omega
    | succ j =>
      have hj : j < cs.length := hk.le
      have hlen := encode_length_take_succ enc hj
      refine ⟨j, hj, (enc cs[j].1).length, by omega, henc _, le_refl _, ?_⟩
      rw [if_neg (lt_irrefl _)]
      exact hend
  · have hj : k < cs.length := by
      apply Nat.lt_of_not_le
      intro hge
      rw [take_of_length_le hge] at hholds hend
      omega
    have hlen := encode_length_take_succ enc hj
    have hmax := hk.maximal hj
    refine ⟨k, hj, n - (encode enc (cs.take k)).length, by omega, by omega, by omega, ?_⟩
    rw [if_pos (by omega)]

theorem encode_split (hj : j < cs.length) (tail : List α) :
    encode enc cs ++ tail = encode enc (cs.take j) ++
      (enc cs[j].1 ++ (encode enc (cs.drop (j + 1)) ++ tail)) := by
  rw [encode_take_append enc cs j tail, drop_eq_getElem_cons hj, encode_cons,
    append_assoc]

end Cut

theorem getD_append_right (pre rest : List α) (i : Nat) (d : α) :
    (pre ++ rest).getD (pre.length + i) d = rest.getD i d := by
  rw [List.getD_append_right _ _ _ _ (Nat.le_add_right _ _), Nat.add_sub_cancel_left]

/-- The number of units `utf16_string_from_utf16_string_size` copies out of the first `n`. -/
def cutHigh (s : List UInt16) (n : Nat) : Nat :=
  if isHighSurrogate (s.getD (n - 1) 0) then n - 1 else n

/-- In UTF-16 a cut leaves out a character it ends within, as the last unit is then the high
surrogate of a pair. -/
theorem cutHigh_cut (c : Char) (pre rest : List UInt16) {m : Nat} (hpos : 0 < m)
    (hm : m ≤ (utf16EncodeChar c).length) :
    cutHigh (pre ++ (utf16EncodeChar c ++ rest)) (pre.length + m) =
      if m < (utf16EncodeChar c).length then pre.length else pre.length + m := by
  rw [cutHigh, Nat.add_sub_assoc hpos, getD_append_right]
  rcases utf16EncodeChar_cases c with ⟨-, u, he, -, hs⟩ | ⟨-, u1, u2, he, -, -, hh, hl⟩
  · rw [he] at hm ⊢
    obtain rfl : m = 1 := Nat.le_antisymm hm hpos
    have hhigh : ¬ isHighSurrogate u = true := by
      intro h
      rw [isSurrogate_of_isHighSurrogate h] at hs
      cases hs
    exact if_neg hhigh
  · rw [he] at hm ⊢
    have hlow : ¬ isHighSurrogate u2 = true := by
      rw [isLowSurrogate_eq, Bool.and_eq_true, Bool.not_eq_true', ← Bool.not_eq_true] at hl
      exact hl.2
    have hm : m = 1 ∨ m = 2 := by
      have hm : m ≤ 2 := hm
      omega
    rcases hm with rfl | rfl
    · exact if_pos hh
    · exact if_neg hlow

theorem lead_byte_class (x : UInt8) :
    ((x &&& 0x1f ||| 0xc0) &&& 0xc0 = 0xc0 ∧ (x &&& 0x1f ||| 0xc0) &&& 0xe0 = 0xc0) ∧
    ((x &&& 0x0f ||| 0xe0) &&& 0xc0 = 0xc0 ∧ (x &&& 0x0f ||| 0xe0) &&& 0xe0 ≠ 0xc0 ∧
      (x &&& 0x0f ||| 0xe0) &&& 0xf0 = 0xe0) ∧
    ((x &&& 0x07 ||| 0xf0) &&& 0xc0 = 0xc0 ∧ (x &&& 0x07 ||| 0xf0) &&& 0xe0 ≠ 0xc0 ∧
      (x &&& 0x07 ||| 0xf0) &&& 0xf0 ≠ 0xe0 ∧ (x &&& 0x07 ||| 0xf0) &&& 0xf8 = 0xf0) := by
  revert x
  apply forall_byte
  decide +kernel

/-- A first byte `b` of `l` bytes, as `cutMultibyte` tells it. -/
def LeadByte (b : UInt8) (l : Nat) : Prop :=
  b &&& 0xC0 = 0xC0 ∧ ((b &&& 0xE0 = 0xC0 ∧ l = 2) ∨
    (b &&& 0xE0 ≠ 0xC0 ∧ b &&& 0xF0 = 0xE0 ∧ l = 3) ∨
    (b &&& 0xE0 ≠ 0xC0 ∧ b &&& 0xF0 ≠ 0xE0 ∧ b &&& 0xF8 = 0xF0 ∧ l = 4))

theorem utf8EncodeChar_bytes (c : Char) :
    (∃ b, String.utf8EncodeChar c = [b] ∧ b &&& 0x80 = 0) ∨
    ∃ b bs, String.utf8EncodeChar c = b :: bs ∧ LeadByte b (bs.length + 1) ∧
      ∀ t ∈ bs, t &&& 0xC0 = 0x80 := by
  rcases utf8EncodeChar_cases c with ⟨h, he⟩ | ⟨-, -, he⟩ | ⟨-, -, he⟩ | ⟨-, he⟩
  · exact .inl ⟨_, he, (ascii_byte h).2⟩
  · obtain ⟨⟨h1, h2⟩, -⟩ := lead_byte_class (c.val >>> 6).toUInt8
    refine .inr ⟨_, _, he, ⟨h1, .inl ⟨h2, rfl⟩⟩, ?_⟩
    simp [trail_byte]
  · obtain ⟨-, ⟨h1, h2, h3⟩, -⟩ := lead_byte_class (c.val >>> 12).toUInt8
    refine .inr ⟨_, _, he, ⟨h1, .inr (.inl ⟨h2, h3, rfl⟩)⟩, ?_⟩
    simp [trail_byte]
  · obtain ⟨-, -, h1, h2, h3, h4⟩ := lead_byte_class (c.val >>> 18).toUInt8
    refine .inr ⟨_, _, he, ⟨h1, .inr (.inr ⟨h2, h3, h4, rfl⟩)⟩, ?_⟩
    simp [trail_byte]

theorem firstMultibyte_cut {b : UInt8} {bs : Bytes} (hb : b &&& 0xC0 = 0xC0)
    (hbs : ∀ t ∈ bs, t &&& 0xC0 = 0x80) (pre rest : Bytes) :
    ∀ m, m ≤ bs.length → firstMultibyte (pre ++ (b :: bs ++ rest)) (pre.length + m + 1) =
      pre.length := by
  intro m
  induction m with
  | zero =>
    intro _
    have hlead : (pre ++ (b :: bs ++ rest)).getD pre.length 0 = b := getD_append_right pre _ 0 0
    rw [Nat.add_zero, firstMultibyte, hlead, if_neg (by rw [hb]; decide)]
  | succ m ih =>
    intro hm
    have htrail : (pre ++ (b :: bs ++ rest)).getD (pre.length + (m + 1)) 0 ∈ bs := by
      rw [getD_append_right, cons_append, getD_cons_succ, getD_append _ _ _ _ hm,
        getD_eq_getElem _ _ hm]
      exact getElem_mem hm
    rw [firstMultibyte, if_pos (hbs _ htrail)]
    exact ih (Nat.le_of_succ_le hm)

theorem high_bit_of_masks {b : UInt8} (h : b &&& 0xC0 = 0xC0 ∨ b &&& 0xC0 = 0x80) :
    b &&& 0x80 ≠ 0 := by
  revert b
  apply forall_byte
  decide +kernel

/-- In UTF-8 a cut keeps a character whose last byte it ends with, and leaves out any other one it
ends within. -/
theorem cutMultibyte_cut (c : Char) (pre rest : Bytes) {m : Nat} (hpos : 0 < m)
    (hm : m ≤ (String.utf8EncodeChar c).length) :
    cutMultibyte (pre ++ (String.utf8EncodeChar c ++ rest)) (pre.length + m) =
      if m < (String.utf8EncodeChar c).length then pre.length else pre.length + m := by
  obtain ⟨n, rfl⟩ : ∃ n, m = n + 1 := ⟨m - 1, by omega⟩
  rcases utf8EncodeChar_bytes c with ⟨b, he, hb⟩ | ⟨b, bs, he, ⟨hlead, hclass⟩, hbs⟩
  · rw [he] at hm ⊢
    obtain rfl : n = 0 := by
      have hm : n + 1 ≤ 1 := hm
      omega
    have hlast : (pre ++ ([b] ++ rest)).getD (pre.length + (0 + 1) - 1) 0 = b :=
      getD_append_right pre _ 0 0
    rw [cutMultibyte, hlast, if_pos hb]
    exact (if_neg (lt_irrefl 1)).symm
  · rw [he, length_cons] at hm
    rw [he, length_cons]
    have hidx : firstMultibyte (pre ++ (b :: bs ++ rest)) (pre.length + (n + 1)) = pre.length :=
      firstMultibyte_cut hlead hbs pre rest n (Nat.le_of_succ_le_succ hm)
    have hfirst : (pre ++ (b :: bs ++ rest)).getD pre.length 0 = b := getD_append_right pre _ 0 0
    have hlast : (pre ++ (b :: bs ++ rest)).getD (pre.length + (n + 1) - 1) 0 &&& 0x80 ≠ 0 := by
      apply high_bit_of_masks
      rw [Nat.add_succ_sub_one, getD_append_right, cons_append]
      cases n with
      | zero => exact Or.inl hlead
      | succ n =>
        have hlt : n < bs.length := by omega
        rw [getD_cons_succ, getD_append _ _ _ _ hlt, getD_eq_getElem _ _ hlt]
        exact Or.inr (hbs _ (getElem_mem hlt))
    rw [cutMultibyte, if_neg hlast, hidx]
    dsimp only
    rw [hfirst, if_pos hlead, Nat.add_sub_cancel_left]
    rcases hclass with ⟨h, hl⟩ | ⟨h, h', hl⟩ | ⟨h, h', h'', hl⟩
    · rw [if_pos h, hl]
      split <;> omega
    · rw [if_neg h, if_pos h', hl]
      split <;> omega
    · rw [if_neg h, if_neg h', if_pos h'', hl]
      split <;> omega

section Copies

variable {α : Type} {enc : Char → List α} {cs : List Scalar} {dstMaxSize size k : Nat}

/-- A copy within an encoding has one bound on its units: the bounds of the source and of the
destination, and the size of the text. -/
theorem longest_min
    (hk : Longest (fun k => (encode enc (cs.take k)).length < dstMaxSize ∧
      (encode enc (cs.take k)).length ≤ size) cs k) :
    Longest (fun k => (encode enc (cs.take k)).length ≤
      min (min (encode enc cs).length size) (dstMaxSize - 1)) cs k := by
  have hall := congrArg length (encode_take_append enc cs k [])
  simp only [append_nil, length_append] at hall
  obtain ⟨hle, ⟨hmax, hsize⟩, hnext⟩ := hk
  refine ⟨hle, by omega, fun hlt hfit => hnext hlt ?_⟩
  exact ⟨by omega, by omega⟩

/-- A copy of as many units as `cut` finds, where `cut` goes back to the start of a character that
the `n` units end within. -/
theorem take_cut (cut : Nat) (henc : ∀ c, 0 < (enc c).length)
    (hk : Longest (fun k => (encode enc (cs.take k)).length ≤ n) cs k) (hn : 0 < n)
    (hle : n ≤ (encode enc cs).length) (tail : List α)
    (hcut : ∀ j (hj : j < cs.length) m, 0 < m → m ≤ (enc cs[j].1).length → n =
      (encode enc (cs.take j)).length + m → cut = if m < (enc cs[j].1).length then
        (encode enc (cs.take j)).length else n) :
    cut = (encode enc (cs.take k)).length ∧
      (encode enc cs ++ tail).take cut = encode enc (cs.take k) := by
  obtain ⟨j, hj, m, hnm, hpos, hm, hlen⟩ := hk.last henc hn hle
  have heq := (hcut j hj m hpos hm hnm).trans hlen.symm
  refine ⟨heq, ?_⟩
  rw [encode_take_append enc cs k tail]
  exact take_left' heq.symm

theorem encode_eq_nil_of_min (hk : Longest (fun k => (encode enc (cs.take k)).length ≤ n) cs k)
    (hn : n = 0) :
    encode enc (cs.take k) = [] := by
  have h := hk.holds
  rw [hn] at h
  exact encode_eq_nil_of_room h

theorem utf8StringFromUtf8StringSize_longest {tail : Bytes} (htail : unit tail = 0)
    (hk : Longest (fun k => (encode String.utf8EncodeChar (cs.take k)).length < dstMaxSize ∧
      (encode String.utf8EncodeChar (cs.take k)).length ≤ size) cs k) :
    utf8StringFromUtf8StringSize dstMaxSize (encode String.utf8EncodeChar cs ++ tail) size =
      ((encode String.utf8EncodeChar (cs.take k)).length,
        encode String.utf8EncodeChar (cs.take k) ++ [0]) := by
  have hpos := zero_lt_of_lt hk.holds.1
  have hmin := longest_min hk
  rw [utf8StringFromUtf8StringSize]
  split
  · rw [encode_eq_nil_of_min hmin (by omega)]
    rfl
  rw [utf8SizeOfUtf8String_spec htail cs]
  dsimp only
  split
  · rw [encode_eq_nil_of_min hmin (by omega)]
    rfl
  · obtain ⟨hcut, htake⟩ := take_cut
      (cutMultibyte (encode String.utf8EncodeChar cs ++ tail)
        (min (min (encode String.utf8EncodeChar cs).length size) (dstMaxSize - 1)))
      utf8EncodeChar_length_pos hmin (by omega) (by omega) tail (fun j hj m hm0 hm hn => by
        rw [encode_split hj tail, hn]
        exact cutMultibyte_cut cs[j].1 _ _ hm0 hm)
    rw [htake, hcut]

theorem utf16StringFromUtf16StringSize_longest {tail : List UInt16} (htail : unit tail = 0)
    (hk : Longest (fun k => (encode utf16EncodeChar (cs.take k)).length < dstMaxSize ∧
      (encode utf16EncodeChar (cs.take k)).length ≤ size) cs k)
    (hfuel : cs.length + 1 < fuel) :
    utf16StringFromUtf16StringSize fuel dstMaxSize (encode utf16EncodeChar cs ++ tail) size =
      .ok ((encode utf16EncodeChar (cs.take k)).length,
        encode utf16EncodeChar (cs.take k) ++ [0]) := by
  have hpos := zero_lt_of_lt hk.holds.1
  have hmin := longest_min hk
  rw [utf16StringFromUtf16StringSize, if_neg (ne_of_gt hpos)]
  split
  · rw [encode_eq_nil_of_min hmin (by omega)]
    rfl
  rw [utf16SizeOfUtf16String_spec htail cs hfuel, ok_bind]
  split
  · rw [encode_eq_nil_of_min hmin (by omega)]
    rfl
  · obtain ⟨hcut, htake⟩ := take_cut
      (cutHigh (encode utf16EncodeChar cs ++ tail)
        (min (min (encode utf16EncodeChar cs).length size) (dstMaxSize - 1)))
      utf16EncodeChar_length_pos hmin (by omega) (by omega) tail (fun j hj m hm0 hm hn => by
        rw [encode_split hj tail, hn]
        exact cutHigh_cut cs[j].1 _ _ hm0 hm)
    show Except.ok (cutHigh _ _, take (cutHigh _ _) _ ++ [0]) = _
    rw [htake, hcut]

end Copies

section Sized

variable {α β : Type} [OfNat α 0] [OfNat β 0] {get : List α → List α × UInt32}
  {put : Dst β → UInt32 → Dst β} {encA : Char → List α} {encB : Char → List β} {tail : List α}
  {cs : List Scalar} {small dstMaxSize size k fuel : Nat}

theorem readAheadSize_longest (hget : Reads get encA) (hencA : ∀ c, 0 < (encA c).length)
    (hput : Writes put encB) (hrefuse : Refuses put encB) (hsmall : small ≤ 1)
    (htail : unit tail = 0)
    (hk : Longest (fun k => (encode encB (cs.take k)).length < dstMaxSize ∧
      (encode encA (cs.take k)).length ≤ size) cs k) (hfuel : cs.length + 1 < fuel) :
    readAheadSize get put small fuel dstMaxSize (encode encA cs ++ tail) size =
      .ok ((encode encB (cs.take k)).length, encode encB (cs.take k) ++ [0]) := by
  obtain ⟨hle, ⟨hmax, hsize⟩, hnext⟩ := hk
  have hlen : (cs.take k).length + 1 < fuel :=
    lt_of_le_of_lt (succ_le_succ (length_take_le' k cs)) hfuel
  have hnil : size = 0 → cs.take k = [] := by
    intro h0
    match hcs : cs.take k with
    | [] => rfl
    | c :: rest =>
      have hpos := hencA c.1
      rw [hcs, encode_cons, length_append] at hsize
      omega
  rw [encode_take_append encA cs k tail]
  refine readAheadSize_stops hget hput hsmall hmax hlen hsize hnil ?_
  by_cases hlt : k < cs.length
  · by_cases hsize' : (encode encA (cs.take (k + 1))).length ≤ size
    · right
      refine stops_drop hget hrefuse htail fun _ => ?_
      omega
    · left
      -- the next character ends behind the bound
      rw [encode_length_take_succ encA hlt] at hsize'
      rw [drop_eq_getElem_cons hlt, hget.get_cons, encode_cons]
      simp only [length_append]
      omega
  · exact .inr (stops_drop hget hrefuse htail fun h => absurd h hlt)

end Sized

theorem whileUnitsSize_longest {β : Type} [OfNat β 0] {put : Dst β → UInt32 → Dst β}
    {encB : Char → List β} {tail : List UInt32} (hput : Writes put encB)
    (hrefuse : Refuses put encB) (htail : unit tail = 0)
    (hk : Longest (fun k => (encode encB (cs.take k)).length < dstMaxSize ∧
      (encode utf32EncodeChar (cs.take k)).length ≤ size) cs k)
    (hfuel : cs.length + 1 < fuel) :
    whileUnitsSize getChar32FromUtf32String put 0 fuel dstMaxSize
        (encode utf32EncodeChar cs ++ tail) size =
      .ok ((encode encB (cs.take k)).length, encode encB (cs.take k) ++ [0]) := by
  obtain ⟨hle, ⟨hmax, hsize⟩, hnext⟩ := hk
  have htake : (cs.take k).length = k := by rw [length_take, min_eq_left hle]
  rw [encode_utf32_length, htake] at hsize
  rw [encode_take_append utf32EncodeChar cs k tail]
  refine whileUnitsSize_stops reads_utf32 hput (zero_le 1) hmax (by omega) ?_ ?_
  · intro i hi
    rw [encode_utf32_length, length_take]
    omega
  · by_cases hend : size ≤ k
    · left
      rw [encode_utf32_length, htake]
      exact hend
    · right
      refine stops_drop reads_utf32 hrefuse htail fun hlt => ?_
      have hfull := hnext hlt
      rw [encode_utf32_length, length_take] at hfull
      omega

/-- As many characters as both bounds allow. -/
theorem stringFromSize_longest (a : Form) {tail : List a.Unit} (htail : unit tail = 0)
    (hk : Longest (fun k => (b.units (cs.take k)).length < dstMaxSize ∧
      (a.units (cs.take k)).length ≤ size) cs k)
    (hfuel : cs.length + 1 < fuel) :
    stringFromSize b a fuel dstMaxSize (a.units cs ++ tail) size =
      .ok ((b.units (cs.take k)).length, b.units (cs.take k) ++ [0]) := by
  have hahead {m : Nat} (hm : m ≤ 1) := readAheadSize_longest a.reads a.writes.length_pos b.writes
    b.refuses hm htail (by simpa only [Form.units_eq] using hk) hfuel
  simp only [← Form.units_eq] at hahead
  cases b <;> cases a
  · exact congrArg Except.ok (utf8StringFromUtf8StringSize_longest htail hk)
  · exact hahead (le_refl 1)
  · exact whileUnitsSize_longest writes_utf8 refuses_utf8 htail hk hfuel
  · exact hahead (le_refl 1)
  · exact utf16StringFromUtf16StringSize_longest htail hk hfuel
  · exact whileUnitsSize_longest writes_utf16 refuses_utf16 htail hk hfuel
  · exact hahead (zero_le 1)
  · exact hahead (zero_le 1)
  · obtain ⟨hle, ⟨hmax, hsize⟩, hnext⟩ := hk
    simp only [Form.units, encode_utf32_length, length_take] at hmax hsize hnext
    have hmin : min (min cs.length size) (dstMaxSize - 1) = k := by omega
    have hcopy := utf32StringFromUtf32StringSize_spec htail cs size
      (zero_lt_of_lt hmax) (lt_of_succ_lt hfuel)
    rw [hmin] at hcopy
    rw [show (Form.utf32.units (cs.take k)).length = k by
      rw [Form.units, encode_utf32_length, length_take, min_eq_left hle]]
    exact hcopy

/-! ## Surrogates that are not part of a pair -/

/-- Among the first `n` characters of a UTF-16 string stands a surrogate that is not part of a
pair. -/
def unpairedWithin : Nat → List UInt16 → Bool
  | 0, _ => false
  | _ + 1, [] => false
  | _ + 1, [u] => isSurrogate u
  | n + 1, u :: v :: us =>
    if !isSurrogate u then unpairedWithin n (v :: us)
    else if isHighSurrogate u && isLowSurrogate v then unpairedWithin n us
    else true

theorem surrogateToUtf32_ne_zero {u v : UInt16} (hu : isHighSurrogate u = true)
    (hv : isLowSurrogate v = true) : surrogateToUtf32 u v ≠ 0 := by
  rw [isHighSurrogate_iff] at hu
  rw [isLowSurrogate_iff] at hv
  intro h0
  have hval := congrArg UInt32.toNat h0
  simp only [surrogateToUtf32, UInt32.toNat_sub, UInt32.toNat_add, UInt32.toNat_shiftLeft,
    UInt16.toNat_toUInt32, UInt32.reduceToNat, shiftLeft_eq, Nat.reduceMod,
    Nat.reducePow] at hval
  omega

theorem getChar32FromUtf16String_unpaired (u : UInt16) (us junk : List UInt16)
    (hu : u ≠ 0) (n : Nat) : ((getChar32FromUtf16String (u :: us ++ 0 :: junk)).2 = 0 ∧
      unpairedWithin (n + 1) (u :: us) = true) ∨
    ∃ us', us' <:+ us ∧ (getChar32FromUtf16String (u :: us ++ 0 :: junk)).1 = us' ++ 0 :: junk ∧
      (getChar32FromUtf16String (u :: us ++ 0 :: junk)).2 ≠ 0 ∧
      unpairedWithin (n + 1) (u :: us) = unpairedWithin n us' := by
  have hval : u.toUInt32 ≠ 0 := by
    intro h0
    have hnat := congrArg UInt32.toNat h0
    exact hu (UInt16.toNat_inj.mp hnat)
  unfold getChar32FromUtf16String
  simp only [cons_append, getD_cons_zero, drop_succ_cons, drop_zero, if_neg hu]
  by_cases hs : isSurrogate u = true
  · simp only [hs, Bool.not_true, Bool.false_eq_true, if_false]
    cases us with
    | nil =>
      have hzero : isLowSurrogate ((0 : UInt16)) = false := by decide
      left
      simp only [nil_append, getD_cons_succ, getD_cons_zero, hzero, Bool.and_false,
        Bool.false_eq_true, if_false]
      exact ⟨by split <;> rfl, hs⟩
    | cons v us =>
      simp only [cons_append, getD_cons_succ, getD_cons_zero, drop_succ_cons,
        drop_zero, unpairedWithin, hs, Bool.not_true, Bool.false_eq_true, if_false]
      by_cases hpair : (isHighSurrogate u && isLowSurrogate v) = true
      · obtain ⟨hhigh, hlow⟩ := Bool.and_eq_true_iff.mp hpair
        simp only [if_pos hpair]
        exact .inr ⟨us, suffix_cons v us, rfl, surrogateToUtf32_ne_zero hhigh hlow, rfl⟩
      · simp only [if_neg hpair]
        exact .inl ⟨by split <;> rfl, trivial⟩
  · rw [Bool.not_eq_true] at hs
    simp only [hs, Bool.not_false, if_true]
    refine .inr ⟨us, suffix_rfl, rfl, hval, ?_⟩
    cases us with
    | nil =>
      rw [unpairedWithin, hs]
      cases n <;> rfl
    | cons v us => rw [unpairedWithin, hs, Bool.not_false, if_pos rfl]

/-- The function from UTF-16 to UTF-32 with a count terminates its output unless it meets a
surrogate that is not part of a pair. -/
theorem utf32StringFromUtf16StringLen_returns {us : List UInt16} (h : 0 ∉ us) (junk : List UInt16)
    (hpos : 0 < dstMaxSize) (hfuel : dstMaxSize < fuel) (len : Nat) :
    Returns (utf32StringFromUtf16StringLen fuel dstMaxSize (us ++ 0 :: junk) len) fun r =>
      r.2.length ≤ dstMaxSize ∧
        (0 ∈ r.2 ↔ unpairedWithin (min len (dstMaxSize - 1)) us = false) := by
  rw [utf32StringFromUtf16StringLen, whileUnitsStopLen, if_neg (ne_of_gt hpos)]
  split
  · next hsmall =>
    have hmin : min len (dstMaxSize - 1) = 0 := by omega
    rw [hmin]
    refine returns_ok ⟨hpos, ?_⟩
    simp [unpairedWithin]
  · refine returns_loop
      (fun v => v.dst.written.length + v.dst.room ≤ dstMaxSize - 1 ∧ 0 ∉ v.dst.written ∧
        ∃ us', v.s = us' ++ 0 :: junk ∧ 0 ∉ us' ∧ unpairedWithin (min v.len v.dst.room) us' =
          unpairedWithin (min len (dstMaxSize - 1)) us)
      (fun v => v.dst.room) (fun v hv => ?_) fuel _
      ⟨Nat.le_of_eq (Nat.zero_add _), not_mem_nil, us, rfl, h, rfl⟩
      (Nat.lt_of_le_of_lt (Nat.sub_le _ _) hfuel)
    obtain ⟨hroom, hwritten, us', hs, hne, hunpaired⟩ := hv
    have hterminated : 0 ∈ v.dst.written ++ [0] := mem_append_right _ mem_cons_self
    have hlength : (v.dst.written ++ [0]).length ≤ dstMaxSize := by
      rw [length_append]
      show v.dst.written.length + 1 ≤ dstMaxSize
      omega
    by_cases hcond : unit v.s ≠ 0 ∧ 0 < v.dst.room ∧ 0 < v.len
    · rw [if_pos hcond]
      obtain ⟨u, us'', rfl⟩ : ∃ u us'', us' = u :: us'' := by
        cases us' with
        | nil => exact absurd (by rw [hs]; rfl) hcond.1
        | cons u us'' => exact ⟨u, us'', rfl⟩
      have hu : u ≠ 0 := fun h => hne (h ▸ mem_cons_self)
      obtain ⟨n, hn⟩ : ∃ n, min v.len v.dst.room = n + 1 :=
        ⟨min v.len v.dst.room - 1, by omega⟩
      rw [hn] at hunpaired
      rw [hs]
      rcases getChar32FromUtf16String_unpaired u us'' junk hu n with
        ⟨hzero, htrue⟩ | ⟨rest, hsuffix, hget, hchar, hrest⟩
      · rw [if_pos hzero]
        refine returns_ok
          ⟨Nat.le_trans (Nat.le_add_right _ _) (Nat.le_trans hroom (Nat.sub_le _ _)), ?_⟩
        rw [← hunpaired, htrue]
        exact ⟨fun h => absurd h hwritten, fun h => by cases h⟩
      · rw [if_neg hchar]
        have hput : getUtf32FromChar32 v.dst (getChar32FromUtf16String (u :: us'' ++ 0 :: junk)).2 =
            v.dst.push (getChar32FromUtf16String (u :: us'' ++ 0 :: junk)).2 :=
          if_neg (ne_of_gt hcond.2.1)
        rw [hput]
        have htakes := v.dst.push_takes (getChar32FromUtf16String (u :: us'' ++ 0 :: junk)).2
          (ne_of_gt hcond.2.1)
        refine returns_ok ⟨⟨le_trans (le_of_eq htakes.2) hroom, ?_, rest, hget, ?_, ?_⟩,
          htakes.1⟩
        · rw [Dst.push, mem_append, mem_singleton, not_or]
          exact ⟨hwritten, Ne.symm hchar⟩
        · exact fun h => hne (mem_cons_of_mem u (hsuffix.mem h))
        · rw [← hunpaired, hrest]
          congr 1
          show min (v.len - 1) (v.dst.room - 1) = n
          omega
    · rw [if_neg hcond]
      refine returns_ok ⟨hlength, fun _ => ?_, fun _ => hterminated⟩
      rw [← hunpaired]
      by_cases hend : min v.len v.dst.room = 0
      · rw [hend, unpairedWithin]
      · -- the loop has come to the end of the string
        have hus : us' = [] := by
          cases us' with
          | nil => rfl
          | cons u us'' =>
            refine absurd ⟨?_, by omega, by omega⟩ hcond
            rw [hs]
            exact fun h => hne (h ▸ mem_cons_self)
        rw [hus]
        cases min v.len v.dst.room <;> rfl

/-! ## All conversions -/

theorem utf16EncodeChar_ne_zero {c : Scalar} {u : UInt16} (h : u ∈ utf16EncodeChar c.1) :
    u ≠ 0 := by
  obtain ⟨c, hc⟩ := c
  have hc' : c.val.toNat ≠ 0 := fun h => hc (UInt32.toNat_inj.mp h)
  have hzero : (0 : UInt16).toNat = 0 := rfl
  rintro rfl
  rcases utf16EncodeChar_cases c with ⟨_, u, he, hu, _⟩ | ⟨_, u1, u2, he, h1, h2, _⟩
  · rw [he, mem_singleton] at h
    rw [← h] at hu
    exact hc' hu.symm
  · rw [he, mem_cons, mem_singleton] at h
    rcases h with rfl | rfl <;> omega

theorem zero_notMem_units (cs : List Scalar) : 0 ∉ b.units cs := by
  intro h
  cases b
  · obtain ⟨c, -, hc⟩ := mem_flatMap.mp h
    exact utf8EncodeChar_ne_zero hc rfl
  · obtain ⟨c, -, hc⟩ := mem_flatMap.mp h
    exact utf16EncodeChar_ne_zero hc rfl
  · obtain ⟨c, -, hc⟩ := mem_flatMap.mp h
    rw [utf32EncodeChar, mem_singleton] at hc
    exact c.2 hc.symm

/-- What is expected of a conversion of the units `us` into a destination of `dstMaxSize` units: the
output has a terminator and keeps to the destination, and if `us` is a text then the output is a
text too, of the first characters. -/
def Bounded (b a : Form) (dstMaxSize : Nat) (us : List a.Unit) (x : Run (Nat × List b.Unit)) :
    Prop :=
  Returns x fun r => Terminated dstMaxSize r ∧
    ∀ cs, us = a.units cs → ∃ k, r.2.takeWhile (fun u => u ≠ 0) = b.units (cs.take k)

/-- The text `us` has a character that ends exactly where the destination ends, and takes more than
one unit there. -/
def Straddles (b a : Form) (dstMaxSize : Nat) (us : List a.Unit) : Prop :=
  ∃ cs, us = a.units cs ∧ ∃ k, ∃ hk : k < cs.length,
    (b.units (cs.take (k + 1))).length = dstMaxSize ∧ 1 < (b.units [cs[k]]).length

/-- The function with a count from `a` to `b` meets units it does not read. -/
def Unterminated : (b a : Form) → (dstMaxSize len : Nat) → List a.Unit → Bool
  | .utf32, .utf16, dstMaxSize, len, us => unpairedWithin (min len (dstMaxSize - 1)) us
  | _, _, _, _, _ => false

section Lengths

variable (b : Form) {cs : List Scalar}

@[simp] theorem units_nil : b.units [] = [] := by
  cases b <;> rfl

theorem units_take_succ (hk : k < cs.length) :
    b.units (cs.take (k + 1)) = b.units (cs.take k) ++ b.units [cs[k]] := by
  rw [take_succ_eq_append_getElem hk]
  cases b <;> exact encode_append _ _ _

theorem units_length_pos (c : Scalar) : 0 < (b.units [c]).length := by
  cases b
  · simpa only [Form.units, encode_cons, encode_nil, append_nil] using
      utf8EncodeChar_length_pos c.1
  · simpa only [Form.units, encode_cons, encode_nil, append_nil] using
      utf16EncodeChar_length_pos c.1
  · exact Nat.one_pos

theorem length_le_units (cs : List Scalar) : cs.length ≤ (b.units cs).length := by
  induction cs with
  | nil => exact zero_le _
  | cons c cs ih =>
    have hsplit : b.units (c :: cs) = b.units [c] ++ b.units cs := by
      cases b <;> exact encode_append _ [c] cs
    have hpos := units_length_pos b c
    rw [hsplit, length_append, length_cons]
    omega

theorem units_length_mono (h : j ≤ k) :
    (b.units (cs.take j)).length ≤ (b.units (cs.take k)).length := by
  have hle := units_length_take_le b (cs.take k) j
  rwa [take_take, min_eq_left h] at hle

theorem units_length_lt (h : j < k) (hk : k ≤ cs.length) :
    (b.units (cs.take j)).length < (b.units (cs.take k)).length := by
  have hj : j < cs.length := lt_of_lt_of_le h hk
  have hpos := units_length_pos b cs[j]
  have hstep := congrArg length (units_take_succ b hj)
  rw [length_append] at hstep
  have hle : (b.units (cs.take (j + 1))).length ≤ (b.units (cs.take k)).length :=
    units_length_mono b h
  omega

end Lengths

theorem exists_longest {P : Nat → Prop} (h : P 0) (cs : List Scalar) : ∃ k, Longest P cs k := by
  classical
  refine ⟨findGreatest P cs.length, findGreatest_le _, findGreatest_spec (zero_le _) h,
    fun hlt => findGreatest_is_greatest (lt_succ_self _) hlt⟩

theorem takeWhile_units {ws : List b.Unit} (h : 0 ∉ ws) :
    (ws ++ [0]).takeWhile (fun u => u ≠ 0) = ws := by
  have hall : ∀ u ∈ ws, decide (u ≠ 0) = true := by
    intro u hu
    apply decide_eq_true
    rintro rfl
    exact h hu
  rw [takeWhile_append_of_pos hall, takeWhile_cons, if_neg (by simp), append_nil]

theorem bounded_of_text {b a : Form} {us : List a.Unit} {x : Run (Nat × List b.Unit)}
    (hterm : Returns x (Terminated dstMaxSize))
    (htext : ∀ cs, us = a.units cs → ∃ n k, x = .ok (n, b.units (cs.take k) ++ [0])) :
    Bounded b a dstMaxSize us x := by
  obtain ⟨r, hr, hterm⟩ := hterm
  refine ⟨r, hr, hterm, fun cs hcs => ?_⟩
  obtain ⟨n, k, hx⟩ := htext cs hcs
  obtain rfl : r = (n, b.units (cs.take k) ++ [0]) := Except.ok.inj (hr.symm.trans hx)
  exact ⟨k, takeWhile_units b (zero_notMem_units b _)⟩

theorem set_last {ws : List α} (h : 0 < ws.length) (x : α) :
    ws.set (ws.length - 1) x = ws.dropLast ++ [x] := by
  rcases eq_nil_or_concat ws with rfl | ⟨ws', w, rfl⟩
  · exact absurd h (lt_irrefl 0)
  · rw [concat_eq_append, length_append, length_singleton, Nat.add_sub_cancel,
      dropLast_concat,
      set_append_right _ _ (Nat.le_refl _), Nat.sub_self, set_cons_zero]

/-- Without a count, a destination that the text fills exactly loses its last unit. -/
theorem stringFrom_text (a : Form) {tail : List a.Unit} (htail : unit tail = 0)
    (hpos : 0 < dstMaxSize)
    (hk : Longest (fun k => (b.units (cs.take k)).length ≤ dstMaxSize) cs k)
    (hfuel : cs.length + 1 < fuel) :
    Returns (stringFrom b a fuel dstMaxSize (a.units cs ++ tail)) fun r =>
      r.2.takeWhile (fun u => u ≠ 0) =
        if (b.units (cs.take k)).length < dstMaxSize then b.units (cs.take k)
        else (b.units (cs.take k)).dropLast := by
  rw [stringFrom_eq_terminate, stringnnFrom_longest b a htail hk hfuel]
  by_cases hlt : (b.units (cs.take k)).length < dstMaxSize
  · rw [terminate_ok hlt, if_pos hlt]
    exact returns_ok (takeWhile_units b (zero_notMem_units b _))
  · have hlen : (b.units (cs.take k)).length = dstMaxSize :=
      le_antisymm hk.holds (Nat.le_of_not_lt hlt)
    rw [if_neg hlt, terminate, if_neg (ne_of_gt hpos), ok_bind, if_pos (Nat.le_of_not_lt hlt)]
    refine returns_ok ?_
    have hset := set_last (hlen ▸ hpos) (0 : b.Unit)
    rw [hlen] at hset
    rw [hset, takeWhile_units b fun h => zero_notMem_units b _ (dropLast_subset _ h)]

/-- What is left is a text unless the lost unit is one of several of its character. -/
theorem text_iff (hpos : 0 < dstMaxSize)
    (hk : Longest (fun k => (b.units (cs.take k)).length ≤ dstMaxSize) cs k) :
    (∃ j, (if (b.units (cs.take k)).length < dstMaxSize then b.units (cs.take k)
        else (b.units (cs.take k)).dropLast) = b.units (cs.take j)) ↔
      ¬ ∃ j, ∃ hj : j < cs.length,
        (b.units (cs.take (j + 1))).length = dstMaxSize ∧ 1 < (b.units [cs[j]]).length := by
  have hholds := hk.holds
  by_cases hlt : (b.units (cs.take k)).length < dstMaxSize
  · rw [if_pos hlt]
    refine ⟨fun _ => ?_, fun _ => ⟨k, rfl⟩⟩
    rintro ⟨j, hj, hlen, -⟩
    -- the longest text that fits would have been longer
    rcases lt_or_ge j k with hjk | hkj
    · have hle : (b.units (cs.take (j + 1))).length ≤ (b.units (cs.take k)).length :=
        units_length_mono b hjk
      omega
    · have hle : (b.units (cs.take (k + 1))).length ≤ (b.units (cs.take (j + 1))).length :=
        units_length_mono b (succ_le_succ hkj)
      exact hk.maximal (lt_of_le_of_lt hkj hj) (by omega)
  · rw [if_neg hlt]
    obtain ⟨i, rfl⟩ : ∃ i, k = i + 1 := by
      cases k with
      | zero =>
        rw [take_zero, units_nil] at hlt
        exact absurd hpos hlt
      | succ i => exact ⟨i, rfl⟩
    have hi : i < cs.length := hk.le
    have hsucc := units_take_succ b hi
    have hlen := congrArg length hsucc
    rw [length_append] at hlen
    constructor
    · rintro ⟨j, htext⟩ ⟨i', hi', hlen', hwide⟩
      obtain rfl : i' = i := by
        rcases lt_trichotomy i' i with h | h | h
        · have hless : (b.units (cs.take (i' + 1))).length < (b.units (cs.take (i + 1))).length :=
            units_length_lt b (succ_lt_succ h) hk.le
          omega
        · exact h
        · have hless : (b.units (cs.take (i + 1))).length < (b.units (cs.take (i' + 1))).length :=
            units_length_lt b (succ_lt_succ h) hi'
          omega
      have hdrop := congrArg length htext
      rw [length_dropLast] at hdrop
      rcases lt_or_ge i' j with h | h
      · have hle : (b.units (cs.take (i' + 1))).length ≤ (b.units (cs.take j)).length :=
          units_length_mono b h
        omega
      · have hle : (b.units (cs.take j)).length ≤ (b.units (cs.take i')).length :=
          units_length_mono b h
        omega
    · intro hnone
      have hone : (b.units [cs[i]]).length = 1 := by
        have hge := units_length_pos b cs[i]
        have hle : ¬ 1 < (b.units [cs[i]]).length := fun h => hnone ⟨i, hi, by omega, h⟩
        omega
      obtain ⟨u, hu⟩ := length_eq_one_iff.mp hone
      refine ⟨i, ?_⟩
      rw [hsucc, hu, dropLast_concat]

section Copies

variable (b a : Form) {us : List a.Unit} (h : 0 ∉ us) (junk : List a.Unit)
  {dstMaxSize fuel : Nat} (hpos : 0 < dstMaxSize) (hfuel : us.length + dstMaxSize + 1 < fuel)

include h hpos hfuel

omit hpos in
theorem stringnnFrom_bounded :
    Returns (stringnnFrom b a fuel dstMaxSize (us ++ 0 :: junk)) fun w => w.length ≤
      dstMaxSize := by
  have hrest := rest_units h junk
  have hroom : dstMaxSize < fuel := by omega
  cases b <;> cases a
  · exact readAhead_bounded takes_utf8 hroom
  · exact whileUnits_bounded takes_utf8 hroom
  · exact whileUnits_bounded takes_utf8 hroom
  · exact readAhead_bounded takes_utf16 hroom
  · exact readAhead_bounded takes_utf16 hroom
  · exact whileUnits_bounded takes_utf16 hroom
  · exact readAhead_bounded takes_utf32 hroom
  · exact whileUnitsStop_bounded takes_utf32 hroom
  · unfold stringnnFrom utf32StringnnFromUtf32String
    split
    · exact returns_ok (zero_le _)
    · refine returns_bind (utf32SizeOfUtf32String_returns (by omega)) fun n _ => returns_ok ?_
      refine le_trans (length_take_le _ _) ?_
      split <;> omega

/-- There is a terminator, but for a surrogate alone. -/
theorem stringFromLen_terminated (len : Nat)
    (hunterminated : Unterminated b a dstMaxSize len us = false) :
    Returns (stringFromLen b a fuel dstMaxSize (us ++ 0 :: junk) len) (Terminated dstMaxSize) := by
  have hrest := rest_units h junk
  have hroom : dstMaxSize < fuel := by omega
  cases b <;> cases a
  · exact (counted_terminated takes_utf8 hpos hroom len).1
  · exact (counted_terminated takes_utf8 hpos hroom len).2.1
  · exact (counted_terminated takes_utf8 hpos hroom len).2.1
  · exact (counted_terminated takes_utf16 hpos hroom len).1
  · exact (counted_terminated takes_utf16 hpos hroom len).1
  · exact (counted_terminated takes_utf16 hpos hroom len).2.1
  · exact (counted_terminated takes_utf32 hpos hroom len).1
  · exact (utf32StringFromUtf16StringLen_returns h junk hpos hroom len).mono
      fun r hr => ⟨hr.1, hr.2.mpr hunterminated⟩
  · unfold stringFromLen utf32StringFromUtf32StringLen
    split
    · exact returns_ok (terminated_append (w := []) hpos)
    · refine returns_bind (utf32SizeOfUtf32StringLen_returns len (by omega)) fun n _ =>
        returns_ok (terminated_append ?_)
      refine lt_of_le_of_lt (length_take_le _ _) ?_
      split <;> omega

theorem stringFromSize_terminated (size : Nat) :
    Returns (stringFromSize b a fuel dstMaxSize (us ++ 0 :: junk) size)
      (Terminated dstMaxSize) := by
  have hrest := rest_units h junk
  have hroom : dstMaxSize < fuel := by omega
  cases b <;> cases a
  · refine returns_ok ?_
    unfold utf8StringFromUtf8StringSize
    split
    · exact terminated_append (w := []) hpos
    dsimp only
    split
    · exact terminated_append (w := []) hpos
    · refine terminated_append (lt_of_le_of_lt (length_take_le _ _) ?_)
      refine lt_of_le_of_lt (cutMultibyte_le _ ?_) ?_ <;> omega
  · exact (counted_terminated takes_utf8 hpos hroom size).2.2.1
  · exact (counted_terminated takes_utf8 hpos hroom size).2.2.2
  · exact (counted_terminated takes_utf16 hpos hroom size).2.2.1
  · unfold stringFromSize utf16StringFromUtf16StringSize
    dsimp only
    rw [if_neg (ne_of_gt hpos)]
    split
    · exact returns_ok (terminated_append (w := []) hpos)
    · refine returns_bind (utf16SizeOfUtf16String_returns (by omega)) fun n _ => ?_
      split
      · exact returns_ok (terminated_append (w := []) hpos)
      · refine returns_ok (terminated_append (lt_of_le_of_lt (length_take_le _ _) ?_))
        split <;> omega
  · exact (counted_terminated takes_utf16 hpos hroom size).2.2.2
  · exact (counted_terminated takes_utf32 hpos hroom size).2.2.1
  · exact (counted_terminated takes_utf32 hpos hroom size).2.2.1
  · unfold stringFromSize utf32StringFromUtf32StringSize
    split
    · exact returns_ok (terminated_append (w := []) hpos)
    · refine returns_bind (utf32SizeOfUtf32String_returns (by omega)) fun n _ => ?_
      split
      · exact returns_ok (terminated_append (w := []) hpos)
      · refine returns_ok (terminated_append (lt_of_le_of_lt (length_take_le _ _) ?_))
        omega

omit h in
theorem length_lt_of_units (hcs : us = a.units cs) : cs.length + 1 < fuel := by
  have hlen := length_le_units a cs
  rw [← hcs] at hlen
  omega

/-- Without a count, only a cut character goes wrong. -/
theorem stringFrom_bounded_iff :
    Bounded b a dstMaxSize us (stringFrom b a fuel dstMaxSize (us ++ 0 :: junk)) ↔
      ¬ Straddles b a dstMaxSize us := by
  have hterm : Returns (stringFrom b a fuel dstMaxSize (us ++ 0 :: junk))
      (Terminated dstMaxSize) := by
    rw [stringFrom_eq_terminate]
    exact terminate_terminated hpos (stringnnFrom_bounded b a h junk hfuel)
  obtain ⟨r, hr, hterm⟩ := hterm
  have htext : ∀ cs, us = a.units cs →
      ((∃ k, r.2.takeWhile (fun u => u ≠ 0) = b.units (cs.take k)) ↔
        ¬ ∃ k, ∃ hk : k < cs.length,
          (b.units (cs.take (k + 1))).length = dstMaxSize ∧ 1 < (b.units [cs[k]]).length) := by
    intro cs hcs
    obtain ⟨k, hk⟩ := exists_longest (P := fun k => (b.units (cs.take k)).length ≤ dstMaxSize)
      (by rw [take_zero, units_nil]; exact zero_le _) cs
    have htail : unit (0 :: junk) = 0 := rfl
    obtain ⟨r', hr', hwhile⟩ :=
      stringFrom_text b a htail hpos hk (length_lt_of_units a hpos hfuel hcs)
    rw [← hcs] at hr'
    obtain rfl : r' = r := Except.ok.inj (hr'.symm.trans hr)
    rw [hwhile]
    exact text_iff b hpos hk
  constructor
  · rintro ⟨r', hr', -, hall⟩ ⟨cs, hcs, hstraddles⟩
    obtain rfl : r' = r := Except.ok.inj (hr'.symm.trans hr)
    exact (htext cs hcs).mp (hall cs hcs) hstraddles
  · intro hnone
    exact ⟨r, hr, hterm, fun cs hcs => (htext cs hcs).mpr fun hstraddles =>
      hnone ⟨cs, hcs, hstraddles⟩⟩

/-- With a count, only a surrogate alone goes wrong. -/
theorem stringFromLen_bounded_iff (len : Nat) :
    Bounded b a dstMaxSize us (stringFromLen b a fuel dstMaxSize (us ++ 0 :: junk) len) ↔
      Unterminated b a dstMaxSize len us = false := by
  constructor
  · rintro ⟨r, hr, ⟨-, hzero⟩, -⟩
    rw [← Bool.not_eq_true]
    intro hunterminated
    cases b <;> cases a
    case utf32.utf16 =>
      obtain ⟨r', hr', -, hiff⟩ := utf32StringFromUtf16StringLen_returns h junk hpos
        (by omega : dstMaxSize < fuel) len
      obtain rfl : r' = r := Except.ok.inj (hr'.symm.trans hr)
      have hfalse : unpairedWithin (min len (dstMaxSize - 1)) us = false := hiff.mp hzero
      rw [show unpairedWithin (min len (dstMaxSize - 1)) us = true from hunterminated] at hfalse
      cases hfalse
    all_goals cases hunterminated
  · intro hterminated
    refine bounded_of_text (stringFromLen_terminated b a h junk hpos hfuel len hterminated) ?_
    intro cs hcs
    obtain ⟨k, hk⟩ := exists_longest
      (P := fun k => (b.units (cs.take k)).length < dstMaxSize ∧ k ≤ len)
      ⟨by rw [take_zero, units_nil]; exact hpos, zero_le _⟩ cs
    have htail : unit (0 :: junk) = 0 := rfl
    have htext := stringFromLen_longest b a htail hk (length_lt_of_units a hpos hfuel hcs)
    rw [← hcs] at htext
    exact ⟨_, k, htext⟩

theorem stringFromSize_bounded (size : Nat) :
    Bounded b a dstMaxSize us (stringFromSize b a fuel dstMaxSize (us ++ 0 :: junk) size) := by
  refine bounded_of_text (stringFromSize_terminated b a h junk hpos hfuel size) ?_
  intro cs hcs
  obtain ⟨k, hk⟩ := exists_longest
    (P := fun k => (b.units (cs.take k)).length < dstMaxSize ∧ (a.units (cs.take k)).length ≤ size)
    ⟨by rw [take_zero, units_nil]; exact hpos,
      by rw [take_zero, units_nil]; exact zero_le _⟩ cs
  have htail : unit (0 :: junk) = 0 := rfl
  have htext := stringFromSize_longest b a htail hk (length_lt_of_units a hpos hfuel hcs)
  rw [← hcs] at htext
  exact ⟨_, k, htext⟩

end Copies

/-- From the units `us` before a terminator, whatever follows it, into a destination of `dstMaxSize`
units: the three conversions from `a` to `b` terminate their output within the destination and,
where `us` is a text, at the end of a character, if and only if no character of more than one unit
ends where the destination ends and, from UTF-16 to UTF-32, no surrogate without a partner stands
among the characters that are converted. The variant with a number of source units always does. -/
theorem conversions_bounded_iff (b a : Form) (us junk : List a.Unit)
    (dstMaxSize len size fuel : Nat)
    (h : 0 ∉ us) (hpos : 0 < dstMaxSize) (hfuel : us.length + dstMaxSize + 1 < fuel) :
    (Bounded b a dstMaxSize us (stringFrom b a fuel dstMaxSize (us ++ 0 :: junk)) ∧
      Bounded b a dstMaxSize us (stringFromLen b a fuel dstMaxSize (us ++ 0 :: junk) len) ∧
      Bounded b a dstMaxSize us (stringFromSize b a fuel dstMaxSize (us ++ 0 :: junk) size)) ↔
    ¬ Straddles b a dstMaxSize us ∧ Unterminated b a dstMaxSize len us = false := by
  rw [stringFrom_bounded_iff b a h junk hpos hfuel, stringFromLen_bounded_iff b a h junk hpos hfuel]
  constructor
  · rintro ⟨hstraddles, hterminated, -⟩
    exact ⟨hstraddles, hterminated⟩
  · rintro ⟨hstraddles, hterminated⟩
    exact ⟨hstraddles, hterminated, stringFromSize_bounded b a h junk hpos hfuel size⟩

/-- The theorem at the text `é` and a destination of two bytes, which it fills. -/
theorem conversions_bounded_iff_straddle :
    (0 : UInt8) ∉ [0xC3, 0xA9] ∧ Straddles .utf8 .utf8 2 [0xC3, 0xA9] ∧
      ¬ (Bounded .utf8 .utf8 2 [0xC3, 0xA9] (stringFrom .utf8 .utf8 6 2 [0xC3, 0xA9, 0]) ∧
        Bounded .utf8 .utf8 2 [0xC3, 0xA9] (stringFromLen .utf8 .utf8 6 2 [0xC3, 0xA9, 0] 1) ∧
        Bounded .utf8 .utf8 2 [0xC3, 0xA9] (stringFromSize .utf8 .utf8 6 2 [0xC3, 0xA9, 0] 2)) := by
  have hne : (0 : UInt8) ∉ [0xC3, 0xA9] := by decide
  have hstraddles : Straddles .utf8 .utf8 2 [0xC3, 0xA9] := by
    refine ⟨[⟨'é', by decide⟩], ?_, 0, by decide, ?_, ?_⟩ <;> decide +kernel
  refine ⟨hne, hstraddles, fun hall => ?_⟩
  exact ((conversions_bounded_iff .utf8 .utf8 [0xC3, 0xA9] [] 2 1 2 6 hne (by decide)
    (by decide)).mp hall).1 hstraddles

/-- Half of a character before the terminator, and no terminator at all. -/
theorem bounded_conversions_broken :
    (Form.utf8.units [⟨'é', by decide⟩] = [0xC3, 0xA9] ∧
      utf8StringFromUtf8String 6 2 [0xC3, 0xA9, 0] = .ok (1, [0xC3, 0]) ∧
      ∀ k, [0xC3] ≠ Form.utf8.units (take k [⟨'é', by decide⟩])) ∧
    utf32StringFromUtf16StringLen 6 3 [0x61, 0xD800, 0] 2 = .ok (1, [0x61]) := by
  refine ⟨⟨by decide +kernel, by decide +kernel, ?_⟩, by decide +kernel⟩
  intro k
  cases k with
  | zero => exact cons_ne_nil _ _
  | succ k =>
    rw [take_succ_cons, take_nil]
    decide +kernel

end Clover.Unicode
