import Clover.Unicode.XString

/-!
# What editing does to the characters

A string holds a text if its memory starts with the units of the text and a NUL. Every editing
function of `XString` takes a string that holds a text to one that holds the edited list of
characters, in every encoding and whatever the memory holds besides. The one exception is `trim` of
a literal that has only blanks, which writes to the literal.
-/

namespace Clover.Unicode

open Clover.Lib Clover.Lib.Run List Nat

variable {fuel len pos : Nat} {cs done ds : List Scalar}

/-! ## Conversions that stop by their count -/

theorem utf32SizeOfUtf32String_eq {s : List UInt32} (hfuel : rest s < fuel) :
    utf32SizeOfUtf32String fuel s = .ok (rest s) := by
  unfold utf32SizeOfUtf32String
  suffices h : ∀ (s : List UInt32) (n fuel : Nat), rest s < fuel →
      loop (fun (v : Sizing UInt32) =>
        if unit v.s ≠ 0 then .ok (.again { v with s := v.s.drop 1, size := v.size + 1 })
        else .ok (.leave (v.size + 1 - 1))) fuel ⟨s, 0, n, 0⟩ = .ok (n + rest s) by
    rw [h s 0 fuel hfuel, Nat.zero_add]
  intro s
  induction s with
  | nil => exact fun n fuel hfuel => loop_leave rfl hfuel
  | cons u s ih =>
    intro n fuel hfuel
    have hunit : unit (u :: s) = u := rfl
    by_cases hu : u = 0
    · subst hu
      exact loop_leave rfl hfuel
    · rw [rest_cons hu] at hfuel ⊢
      obtain ⟨m, rfl⟩ : ∃ m, fuel = m + 1 := ⟨fuel - 1, by omega⟩
      have hpass := ih (n + 1) m (by omega)
      rw [Nat.add_right_comm, Nat.add_assoc] at hpass
      rw [← hpass]
      apply loop_again
      simp [hunit, hu]

theorem length_le_rest {α : Type} [OfNat α 0] [DecidableEq α] {us : List α} (h : 0 ∉ us)
    (tail : List α) : us.length ≤ rest (us ++ tail) := by
  have hall : ∀ u ∈ us, decide (u ≠ 0) = true := by
    intro u hu
    apply decide_eq_true
    rintro rfl
    exact h hu
  rw [rest, takeWhile_append_of_pos hall, length_append]
  exact le_add_right _ _

/-- A destination of exactly the size of a text is filled with it, whatever follows in the
source. -/
theorem stringnnFrom_exact (b a : Form) (cs : List Scalar) (tail : List a.Unit)
    (hfuel : cs.length + tail.length + 1 < fuel) :
    stringnnFrom b a fuel (b.units cs).length (a.units cs ++ tail) = .ok (b.units cs) := by
  by_cases h32 : b = .utf32 ∧ a = .utf32
  · obtain ⟨rfl, rfl⟩ := h32
    -- the block copy looks for a terminator first
    have hsize : rest (encode utf32EncodeChar cs ++ tail) ≤ _ :=
      List.IsPrefix.length_le <| takeWhile_prefix _
    have hcs : cs.length ≤ rest (encode utf32EncodeChar cs ++ tail) := by
      rw [← encode_utf32_length cs]
      exact length_le_rest (zero_notMem_units .utf32 cs) tail
    rw [length_append, encode_utf32_length] at hsize
    show utf32StringnnFromUtf32String fuel (encode utf32EncodeChar cs).length
      (encode utf32EncodeChar cs ++ tail) = .ok (encode utf32EncodeChar cs)
    rw [encode_utf32_length, utf32StringnnFromUtf32String, utf32SizeOfUtf32String_eq (by omega)]
    split
    next hnil => rw [eq_nil_of_length_eq_zero hnil]; rfl
    next =>
      rw [ok_bind, if_neg (Nat.not_lt.mpr hcs), ← encode_utf32_length cs, take_left]
  · exact stringnnFrom_stops b a h32 (Nat.le_refl _) (Or.inr (Or.inl (Nat.sub_self _))) (by omega)

theorem stringFromLen_counted (b a : Form) {tail : List a.Unit} (hcount : Counted tail cs len)
    {dstMaxSize : Nat} (hmax : (b.units cs).length < dstMaxSize) (hfuel : cs.length + 1 < fuel) :
    stringFromLen b a fuel dstMaxSize (a.units cs ++ tail) len =
      .ok ((b.units cs).length, b.units cs ++ [0]) := by
  have hle : cs.length ≤ len := hcount.elim (fun h => le_of_eq h.symm) And.right
  by_cases h32 : b = .utf32 ∧ a = .utf32
  · obtain ⟨rfl, rfl⟩ := h32
    show utf32StringFromUtf32StringLen fuel dstMaxSize (encode utf32EncodeChar cs ++ tail) len = _
    have hsize := utf32SizeOfUtf32StringLen_spec hcount (lt_of_succ_lt hfuel)
    simp only [Form.units, encode_utf32_length] at hmax ⊢
    unfold utf32StringFromUtf32StringLen
    split
    next hsmall =>
      have hcs : cs = [] := by
        apply eq_nil_of_length_eq_zero
        omega
      subst hcs
      rw [if_pos (show 0 < dstMaxSize from hmax)]
      rfl
    next =>
      rw [hsize, ok_bind, encode_utf32_length, if_pos hmax]
      have htake : (encode utf32EncodeChar cs ++ tail).take cs.length =
          encode utf32EncodeChar cs := by
        rw [← encode_utf32_length cs, take_left]
      dsimp only
      rw [htake]
  · exact stringFromLen_stops b a h32 hmax hle (hcount.imp_right fun h => Or.inl h.1) hfuel

theorem units_append (a : Form) (cs ds : List Scalar) :
    a.units (cs ++ ds) = a.units cs ++ a.units ds := by
  cases a <;> exact encode_append _ cs ds

theorem units_cons (a : Form) (c : Scalar) (cs : List Scalar) :
    a.units (c :: cs) = a.units [c] ++ a.units cs :=
  units_append a [c] cs

theorem unit_units_ne_zero (a : Form) (h : cs ≠ []) (tail : List a.Unit) :
    unit (a.units cs ++ tail) ≠ 0 := by
  obtain ⟨c, cs, rfl⟩ := exists_cons_of_ne_nil h
  cases a
  · exact reads_utf8.unit_cons c cs tail
  · exact reads_utf16.unit_cons c cs tail
  · exact reads_utf32.unit_cons c cs tail

namespace XString

variable {a o : Form}

/-- The string is the text `cs`, with a NUL behind it. -/
def Holds (x : XString a) (cs : List Scalar) : Prop := ∃ junk, x.data = a.units cs ++ 0 :: junk

/-! ## Memory -/

theorem write_eq {x : XString a} (howned : x.owned = true) (front back us : List a.Unit)
    (hdata : x.data = front ++ back) (hroom : us.length ≤ back.length) :
    x.write front.length us = .ok ⟨front ++ (us ++ back.drop us.length), true⟩ := by
  have hsplit : x.data = front ++ (back.take us.length ++ back.drop us.length) := by
    rw [hdata, take_append_drop]
  have hbound : front.length + us.length ≤ x.data.length := by
    rw [hdata, length_append]
    omega
  rw [write, if_pos ⟨howned, hbound⟩, hsplit, writeCells_append]
  rw [length_take]
  omega

theorem write_nil {x y : XString a} (h : x.write pos [] = .ok y) : y.data = x.data := by
  unfold write at h
  split at h
  next =>
    obtain rfl := Except.ok.inj h
    exact take_append_drop pos x.data
  next => exact nomatch h

variable (fresh : Nat → a.Unit) {fuel : Nat} {x : XString a} {cs : List Scalar} {tail : List o.Unit}
  {done : List Scalar}

theorem sizeOfString_holds (h : x.Holds cs) (b : Form) (hfuel : cs.length + 1 < fuel) :
    sizeOfString b a fuel x.data = .ok (b.units cs).length := by
  obtain ⟨junk, hdata⟩ := h
  rw [hdata]
  exact sizeOfString_spec b a rfl cs hfuel

theorem length_holds (h : x.Holds cs) (hfuel : cs.length + 1 < fuel) :
    x.length fuel = .ok cs.length := by
  rw [XString.length, lengthOfString, sizeOfString_holds h .utf32 hfuel]
  exact congrArg Except.ok (encode_utf32_length cs)

theorem sizeOfStringLen_holds (h : x.Holds cs) (pos : Nat) (hfuel : cs.length + 1 < fuel) :
    sizeOfStringLen a a fuel x.data pos = .ok (a.units (cs.take pos)).length := by
  obtain ⟨junk, hdata⟩ := h
  have hle : (cs.take pos).length ≤ cs.length := length_take_le' pos cs
  rw [hdata, units_take_append a cs pos]
  exact sizeOfStringLen_spec a a (counted_units a rfl cs pos) (by omega)

/-- The buffer grows and keeps its text. -/
theorem checkSize_holds (h : x.Holds cs) (n growBy : Nat) (hfuel : cs.length + 1 < fuel) :
    ∃ x' moved, x.checkSize fresh fuel n growBy = .ok (x', moved) ∧ x'.owned = true ∧
      x'.Holds cs ∧ n < x'.data.length := by
  have hsize := sizeOfString_holds h a hfuel
  obtain ⟨junk, hdata⟩ := h
  unfold checkSize
  split
  next hsmall =>
    dsimp only
    split
    next =>
      rw [hsize, ok_bind]
      generalize hm : (if n + growBy < (a.units cs).length then (a.units cs).length
        else n + growBy) = m
      have hroom : (a.units cs).length < m + 1 ∧ n ≤ m := by
        split at hm <;> omega
      have hmem : (a.units cs ++ [0]).length ≤ ((range (m + 1)).map fresh).length := by
        simp only [length_append, length_singleton, length_map, length_range]
        omega
      have hcopy := @stringFrom_spec _ _ a a (0 :: junk) rfl cs hroom.1 hfuel
      have hwrite := @write_eq a ⟨(range (m + 1)).map fresh, true⟩ rfl [] _
        (a.units cs ++ [0]) rfl hmem
      rw [length_nil, nil_append, append_assoc] at hwrite
      rw [hdata, hcopy, ok_bind, hwrite]
      refine ⟨_, _, rfl, rfl, ⟨_, rfl⟩, ?_⟩
      simp only [length_append, length_cons, length_nil, length_map,
        length_range, length_drop]
      omega
    next hne =>
      refine ⟨_, _, rfl, rfl,
        ⟨junk ++ (range (n + growBy + 1 - x.data.length)).map fresh, ?_⟩, ?_⟩
      · simp [hdata]
      · simp only [length_append, length_map, length_range]
        omega
  next hlarge =>
    have howned : x.owned = true := by
      by_contra h
      exact hlarge (by simp [allocatedSize, h])
    have halloc : x.allocatedSize = x.data.length := by simp [allocatedSize, howned]
    exact ⟨x, false, rfl, howned, ⟨junk, hdata⟩, by omega⟩

/-! ## Appending -/

/-- Writing a text and a NUL over the NUL at the end appends the text. -/
theorem append_holds (howned : x.owned = true) (h : x.Holds cs)
    (hroom : (a.units cs).length + (a.units ds).length < x.data.length) :
    ∃ x', x'.Holds (cs ++ ds) ∧ (do
      let x ← x.write (a.units cs).length (a.units ds ++ [0])
      x.write ((a.units cs).length + (a.units ds).length) [0]) = .ok x' := by
  obtain ⟨junk, hdata⟩ := h
  rw [hdata, length_append] at hroom
  have hfirst := write_eq howned _ _ (a.units ds ++ [0]) hdata
    (by rw [length_append, length_singleton]; omega)
  have hsecond := write_eq (x := ⟨_, true⟩) rfl (a.units cs ++ a.units ds)
    (0 :: (0 :: junk).drop (a.units ds ++ [0]).length) [0] rfl (le_add_left 1 _)
  simp only [append_assoc, cons_append, nil_append, length_append] at hfirst hsecond
  rw [hfirst, ok_bind, hsecond]
  exact ⟨_, ⟨_, by rw [units_append, append_assoc]⟩, rfl⟩

theorem strcat_holds (h : x.Holds cs) (ds : List Scalar) (junk : List o.Unit)
    (hcs : cs.length + 1 < fuel) (hds : ds.length + 1 < fuel) :
    Returns (x.strcat fresh fuel (o.units ds ++ 0 :: junk)) (Holds · (cs ++ ds)) := by
  unfold strcat
  by_cases hnil : ds = []
  · subst hnil
    rw [if_neg (by rw [units_nil]; exact not_not.mpr rfl), append_nil]
    exact returns_ok h
  · rw [if_pos (unit_units_ne_zero o hnil _), sizeOfString_holds h a hcs, ok_bind,
      sizeOfString_spec a o rfl ds hds, ok_bind]
    obtain ⟨x', moved, hcheck, howned, hx', hroom⟩ := checkSize_holds fresh h
      ((a.units cs).length + (a.units ds).length) xStringGrowByDefault hcs
    have halloc : x'.allocatedSize = x'.data.length := by simp [allocatedSize, howned]
    dsimp only
    rw [hcheck, ok_bind]
    dsimp only
    rw [stringFrom_spec a o rfl ds (by omega) hds, ok_bind]
    obtain ⟨y, hy, hrun⟩ := append_holds howned hx' hroom
    exact ⟨y, hrun, hy⟩

theorem strncat_holds (h : x.Holds cs) (hcount : Counted tail ds len)
    (hcs : cs.length + 1 < fuel) (hds : ds.length + 1 < fuel) :
    Returns (x.strncat fresh fuel (o.units ds ++ tail) len) (Holds · (cs ++ ds)) := by
  unfold strncat
  split
  next =>
    rw [sizeOfString_holds h a hcs, ok_bind, sizeOfStringLen_spec a o hcount hds, ok_bind]
    obtain ⟨x', moved, hcheck, howned, hx', hroom⟩ := checkSize_holds fresh h
      ((a.units cs).length + (a.units ds).length) xStringGrowByDefault hcs
    have halloc : x'.allocatedSize = x'.data.length := by simp [allocatedSize, howned]
    dsimp only
    rw [hcheck, ok_bind]
    dsimp only
    rw [stringFromLen_counted a o hcount (by omega) hds, ok_bind]
    obtain ⟨y, hy, hrun⟩ := append_holds howned hx' hroom
    exact ⟨y, hrun, hy⟩
  next hnone =>
    -- nothing to append: the string is at its end, or no character is asked for
    have hnil : ds = [] := by
      by_contra hne
      refine hnone ⟨unit_units_ne_zero o hne _, Nat.pos_of_ne_zero ?_⟩
      rintro rfl
      exact hne hcount.eq_nil
    rw [hnil, append_nil]
    exact returns_ok h

/-! ## Inserting and deleting -/

/-- Moving the end of a text to where new characters will end, and writing them, replaces what
stood in between. -/
theorem splice_holds (howned : x.owned = true) {cs1 ds cs2 : List Scalar} {old junk : List a.Unit}
    (hdata : x.data = a.units cs1 ++ (old ++ (a.units cs2 ++ 0 :: junk)))
    (hroom : (a.units cs1).length + (a.units ds).length + (a.units cs2).length < x.data.length) :
    ∃ moved y, x.memmove ((a.units cs1).length + (a.units ds).length)
        ((a.units cs1).length + old.length) ((a.units cs2).length + 1) = .ok moved ∧
      moved.write (a.units cs1).length (a.units ds) = .ok y ∧ y.owned = true ∧
      y.Holds (cs1 ++ (ds ++ cs2)) := by
  have hback : (a.units cs2 ++ [0]).length = (a.units cs2).length + 1 := length_append
  have hsplit : x.data = a.units cs1 ++ (old ++ ((a.units cs2 ++ [0]) ++ junk)) := by
    rw [hdata, append_assoc (a.units cs2) [0] junk]
    rfl
  have hlength := congrArg List.length hsplit
  simp only [length_append, hback] at hlength
  have hspliced := @writeCells_copyCells _ x.data _ old _ junk (a.units ds) hsplit (by omega)
  rw [hback] at hspliced
  have hmoved := @length_copyCells _ x.data ((a.units cs1).length + (a.units ds).length)
    ((a.units cs1).length + old.length) ((a.units cs2).length + 1) (by omega) (by omega)
  refine ⟨_, _, if_pos ⟨howned, by omega, by omega⟩, if_pos ⟨rfl, ?_⟩, rfl, ?_⟩
  · refine ⟨x.data.drop ((a.units cs1).length + (a.units ds).length +
      ((a.units cs2).length + 1)), hspliced.trans ?_⟩
    simp [units_append]
  · rw [hmoved]
    omega

theorem holds_split (h : x.Holds cs) (pos : Nat) :
    ∃ junk, x.data = a.units (cs.take pos) ++ (a.units (cs.drop pos) ++ 0 :: junk) := by
  obtain ⟨junk, hdata⟩ := h
  exact ⟨junk, hdata.trans (units_take_append a cs pos _)⟩

theorem units_length_split (a : Form) (cs : List Scalar) (pos : Nat) :
    (a.units cs).length = (a.units (cs.take pos)).length + (a.units (cs.drop pos)).length := by
  have hlength := congrArg List.length (units_take_append a cs pos [])
  simpa only [append_nil, length_append] using hlength

/-- Making place for the units of a text, and writing them, inserts the text. -/
theorem insertUnits_holds (h : x.Holds cs) (ds : List Scalar) (tail : List o.Unit) (pos : Nat)
    (hfuel : cs.length + ds.length + tail.length + 1 < fuel) :
    Returns (x.insertUnits fresh fuel (o.units ds ++ tail) (a.units ds).length pos)
      (Holds · (cs.take pos ++ (ds ++ cs.drop pos))) := by
  have hcs : cs.length + 1 < fuel := by omega
  obtain ⟨x', moved, hcheck, howned, hx', hroom⟩ := checkSize_holds fresh h
    ((a.units cs).length + (a.units ds).length) xStringGrowByDefault hcs
  have hlength := units_length_split a cs pos
  obtain ⟨junk, hdata⟩ := holds_split hx' pos
  obtain ⟨m, y, hmove, hwrite, -, hy⟩ := @splice_holds a x' howned _ ds _ [] junk hdata (by omega)
  rw [length_nil, Nat.add_zero] at hmove
  have hback : (a.units cs).length - (a.units (cs.take pos)).length + 1 =
      (a.units (cs.drop pos)).length + 1 := by omega
  unfold insertUnits
  rw [sizeOfString_holds h a hcs, ok_bind, hcheck, ok_bind]
  dsimp only
  rw [sizeOfStringLen_holds hx' pos hcs, ok_bind, hback, hmove, ok_bind,
    stringnnFrom_exact a o ds tail (by omega), ok_bind]
  exact ⟨y, hwrite, hy⟩

theorem insertAtPosLen_holds (h : x.Holds cs) (hcount : Counted tail ds len)
    (hpos : pos ≤ cs.length) (hfuel : cs.length + ds.length + tail.length + 1 < fuel) :
    Returns (x.insertAtPosLen fresh fuel (o.units ds ++ tail) len pos)
      (Holds · (cs.take pos ++ (ds ++ cs.drop pos))) := by
  unfold insertAtPosLen
  by_cases hnil : unit (o.units ds ++ tail) = 0
  · have hds : ds = [] := by
      by_contra hne
      exact unit_units_ne_zero o hne tail hnil
    rw [if_pos hnil, hds, nil_append, take_append_drop]
    exact returns_ok h
  · rw [if_neg hnil, length_holds h (by omega), ok_bind]
    split
    next hge =>
      obtain rfl := le_antisymm hpos hge
      rw [take_length, drop_length, append_nil]
      exact strncat_holds fresh h hcount (by omega) (by omega)
    next =>
      rw [sizeOfStringLen_spec a o hcount (by omega), ok_bind]
      exact insertUnits_holds fresh h ds tail pos hfuel

theorem insertAtPos_holds (h : x.Holds cs) (ds : List Scalar) (junk : List o.Unit)
    (hpos : pos ≤ cs.length) (hfuel : cs.length + ds.length + junk.length + 2 < fuel) :
    Returns (x.insertAtPos fresh fuel (o.units ds ++ 0 :: junk) pos)
      (Holds · (cs.take pos ++ (ds ++ cs.drop pos))) := by
  unfold insertAtPos
  by_cases hnil : unit (o.units ds ++ 0 :: junk) = 0
  · have hds : ds = [] := by
      by_contra hne
      exact unit_units_ne_zero o hne _ hnil
    rw [if_pos hnil, hds, nil_append, take_append_drop]
    exact returns_ok h
  · rw [if_neg hnil, length_holds h (by omega), ok_bind]
    split
    next hge =>
      obtain rfl := le_antisymm hpos hge
      rw [take_length, drop_length, append_nil]
      exact strcat_holds fresh h ds junk (by omega) (by omega)
    next =>
      rw [sizeOfString_spec a o rfl ds (by omega), ok_bind]
      exact insertUnits_holds fresh h ds (0 :: junk) pos (by rw [length_cons]; omega)

theorem deleteCharsAtPos_holds (h : x.Holds cs) {pos : Nat} (hpos : pos ≤ cs.length) (count : Nat)
    (hfuel : cs.length + 1 < fuel) :
    Returns (x.deleteCharsAtPos fresh fuel pos count)
      (Holds · (cs.take pos ++ cs.drop (pos + count))) := by
  unfold deleteCharsAtPos
  rw [length_holds h hfuel, ok_bind]
  split
  next hge =>
    rw [take_of_length_le hge, drop_of_length_le (by omega), append_nil]
    exact returns_ok h
  next hlt =>
    obtain ⟨x', moved, hcheck, howned, hx', hroom⟩ := checkSize_holds fresh h
      (a.units cs).length 0 hfuel
    have hlength := units_length_split a cs pos
    obtain ⟨junk, hdata⟩ := holds_split hx' pos
    rw [sizeOfString_holds h a hfuel, ok_bind, hcheck, ok_bind]
    dsimp only
    rw [sizeOfStringLen_holds hx' pos hfuel, ok_bind]
    split
    next hend =>
      rw [drop_of_length_le hend, append_nil, write_eq howned _ _ [0] hdata
        (by rw [length_append]; exact le_add_left 1 _)]
      exact ⟨_, rfl, ⟨_, rfl⟩⟩
    next hin =>
      have hcount := @counted_units a (0 :: junk) rfl (cs.drop pos) count
      have htake : ((cs.drop pos).take count).length ≤ cs.length := by
        rw [length_take, length_drop]
        omega
      have hlength' := units_length_split a (cs.drop pos) count
      rw [units_take_append a (cs.drop pos) count, drop_drop] at hdata
      rw [drop_drop] at hcount hlength'
      obtain ⟨m, y, hmove, hwrite, -, hy⟩ := @splice_holds a x' howned _ [] _ _ junk hdata
        (by rw [units_nil, length_nil]; omega)
      rw [units_nil, length_nil, Nat.add_zero] at hmove
      rw [units_nil] at hwrite
      rw [hdata, drop_left, sizeOfStringLen_spec a a hcount (by omega), ok_bind]
      have hback : (a.units cs).length - ((a.units (cs.take pos)).length +
          (a.units ((cs.drop pos).take count)).length) + 1 =
          (a.units (cs.drop (pos + count))).length + 1 := by omega
      rw [hback]
      refine ⟨m, hmove, ?_⟩
      unfold Holds at hy ⊢
      rw [nil_append, write_nil hwrite] at hy
      exact hy

/-! ## Characters one by one -/

theorem getChar32FromString_units (a : Form) (c : Scalar) (cs : List Scalar) (tail : List a.Unit) :
    getChar32FromString a (a.units (c :: cs) ++ tail) = (a.units cs ++ tail, c.1.val) := by
  cases a
  · exact reads_utf8.get_cons c cs tail
  · exact reads_utf16.get_cons c cs tail
  · have hunit : unit (Form.utf32.units (c :: cs) ++ tail) = c.1.val := rfl
    rw [getChar32FromString, if_neg (by rw [hunit]; exact c.2), hunit]
    rfl

theorem getChar32FromString_end (a : Form) (junk : List a.Unit) :
    (getChar32FromString a (0 :: junk)).2 = 0 := by
  cases a
  · exact reads_utf8.terminator _ rfl
  · exact reads_utf16.terminator _ rfl
  · rfl

theorem skipChars_units (cs : List Scalar) (tail : List a.Unit) (hpos : pos ≤ cs.length)
    {char32 : UInt32} (hchar : char32 ≠ 0) :
    skipChars pos (a.units cs ++ tail) char32 = a.units (cs.drop pos) ++ tail := by
  induction pos generalizing cs char32 with
  | zero => rfl
  | succ pos ih =>
    cases cs with
    | nil => exact absurd hpos (not_succ_le_zero pos)
    | cons c cs =>
      rw [skipChars, if_neg hchar, getChar32FromString_units]
      exact ih cs (le_of_succ_le_succ hpos) c.2

theorem subString_holds (h : x.Holds cs) (hpos : pos ≤ cs.length) (count : Nat)
    (hfuel : cs.length + 1 < fuel) :
    Returns (x.subString fresh fuel pos count) (Holds · ((cs.drop pos).take count)) := by
  obtain ⟨junk, hdata⟩ := h
  have hnull : (null : XString a).Holds [] := ⟨[], by rw [units_nil]; rfl⟩
  have hlength : ((cs.drop pos).take count).length ≤ cs.length := by
    rw [length_take, length_drop]
    omega
  rw [subString, hdata, skipChars_units cs _ hpos (by decide),
    units_take_append a (cs.drop pos) count]
  exact strncat_holds fresh hnull (counted_units a rfl (cs.drop pos) count)
    (lt_of_le_of_lt (succ_le_succ (zero_le _)) hfuel) (by omega)

/-! ## Replacing -/

/-- The list operation. -/
def replaced (search by' : Scalar) (cs : List Scalar) : List Scalar :=
  cs.map fun c => if c = search then by' else c

/-- Before the loop of `replaceAll` reads the characters `cs`, with `done` in front of them. -/
structure At (v : Replacing a) (done cs : List Scalar) : Prop where
  holds : v.x.Holds (done ++ cs)
  previous : v.previousP = (a.units done).length
  size : v.currentSize = (a.units (done ++ cs)).length
  char : ∀ c cs', cs = c :: cs' → v.char32 = c.1.val ∧ v.p = (a.units (done ++ [c])).length
  stop : cs = [] → v.char32 = 0

theorem next_at (h : x.Holds (done ++ cs)) {currentSize : Nat}
    (hsize : currentSize = (a.units (done ++ cs)).length) :
    At (Replacing.next x (a.units done).length currentSize) done cs := by
  obtain ⟨junk, hdata⟩ := h
  have hdrop : x.data.drop (a.units done).length = a.units cs ++ 0 :: junk := by
    rw [hdata, units_append, append_assoc, drop_left]
  refine ⟨⟨junk, hdata⟩, rfl, hsize, ?_, ?_⟩
  · rintro c cs' rfl
    have hread := getChar32FromString_units a c cs' (0 :: junk)
    have hunits : a.units (done ++ c :: cs') = a.units (done ++ [c]) ++ a.units cs' := by
      rw [← units_append, append_assoc]
      rfl
    simp only [Replacing.next, hdrop, hread, true_and]
    rw [hdata, hunits, append_assoc, length_append, Nat.add_sub_cancel]
  · rintro rfl
    simp only [Replacing.next, hdrop, units_nil, nil_append]
    exact getChar32FromString_end a junk

variable (search by' : Scalar) (behind : List UInt32) {v : Replacing a}

theorem replacePass_at {c : Scalar}
    (h : At v done (c :: cs)) (hfuel : (done ++ c :: cs).length + behind.length + 2 < fuel) :
    ∃ v', replacePass fresh fuel search.1.val (by'.1.val :: behind) (a.units [search]).length
        (a.units [by']).length v = .ok (.again v') ∧
      At v' (done ++ [if c = search then by' else c]) cs := by
  obtain ⟨hchar, hp⟩ := h.char c cs rfl
  rw [units_append, length_append] at hp
  have hsize : v.currentSize =
      (a.units done).length + ((a.units [c]).length + (a.units cs).length) := by
    rw [h.size, units_append, units_cons, length_append, length_append]
  unfold replacePass
  rw [if_neg (by rw [hchar]; exact c.2)]
  have hlen : (done ++ c :: cs).length + 1 < fuel := by omega
  by_cases hc : c = search
  · subst hc
    obtain ⟨x', moved, hcheck, howned, hx', hroom⟩ := checkSize_holds fresh h.holds
      (v.currentSize + (a.units [by']).length - (a.units [c]).length) xStringGrowByDefault hlen
    obtain ⟨junk, hdata⟩ := hx'
    have hsplit : x'.data = a.units done ++ (a.units [c] ++ (a.units cs ++ 0 :: junk)) := by
      rw [hdata, units_append, units_cons]
      simp
    obtain ⟨m, y, hmove, hwrite, -, hy⟩ := @splice_holds a x' howned done [by'] cs _ junk hsplit
      (by omega)
    have hbehind : [by'].length + behind.length + 1 < fuel := by
      rw [length_singleton]
      omega
    have hcopy : stringnnFrom a .utf32 fuel (a.units [by']).length (by'.1.val :: behind) =
        .ok (a.units [by']) := stringnnFrom_exact a .utf32 [by'] behind hbehind
    have hfrom : v.p + (a.units [by']).length - (a.units [c]).length =
        (a.units done).length + (a.units [by']).length := by omega
    have hcount : v.currentSize - v.p + 1 = (a.units cs).length + 1 := by omega
    rw [if_pos hchar]
    dsimp only
    rw [hcheck, ok_bind, hfrom, hcount, hp]
    rw [hmove, ok_bind, hcopy, ok_bind, h.previous, hwrite, ok_bind, if_pos rfl,
      ← length_append, ← units_append]
    refine ⟨_, rfl, next_at ?_ ?_⟩
    · rw [append_assoc]
      exact hy
    · simp only [units_append, length_append]
      omega
  · have hval : c.1.val ≠ search.1.val := fun hval => hc (Subtype.ext (Char.ext hval))
    rw [hchar, if_neg hval, if_neg hc, hp, ← length_append, ← units_append]
    refine ⟨_, rfl, next_at ?_ ?_⟩
    · rw [append_assoc]
      exact h.holds
    · rw [h.size, append_assoc]
      rfl

/-- The loop replaces what is left of the text. -/
theorem replaceLoop_holds (cs : List Scalar) (h : At v done cs) {passes : Nat}
    (hpasses : cs.length < passes) (hfuel : (done ++ cs).length + behind.length + 2 < fuel) :
    Returns (loop (replacePass fresh fuel search.1.val (by'.1.val :: behind)
      (a.units [search]).length (a.units [by']).length) passes v)
      (Holds · (done ++ replaced search by' cs)) := by
  induction cs generalizing v done passes with
  | nil =>
    have hleave : replacePass fresh fuel search.1.val (by'.1.val :: behind)
        (a.units [search]).length (a.units [by']).length v = .ok (.leave v.x) :=
      if_pos (h.stop rfl)
    exact ⟨v.x, loop_leave hleave hpasses, h.holds⟩
  | cons c cs ih =>
    obtain ⟨v', hpass, hat⟩ := replacePass_at fresh search by' behind h hfuel
    obtain ⟨n, rfl⟩ : ∃ n, passes = n + 1 := ⟨passes - 1, by omega⟩
    rw [loop_again hpass]
    have hrest := ih hat (lt_of_succ_lt_succ hpasses)
      (by rw [length_append] at hfuel ⊢; simp only [length_append, length_cons,
        length_nil] at hfuel ⊢; omega)
    rw [append_assoc] at hrest
    exact hrest

theorem replaceAll_holds (h : x.Holds cs) (behindSearch : List UInt32)
    (hfuel : cs.length + behind.length + 2 < fuel) :
    Returns (x.replaceAll fresh fuel search.1.val by'.1.val behindSearch behind)
      (Holds · (replaced search by' cs)) := by
  have hone : ∀ (c : Scalar) (tail : List UInt32),
      sizeOfStringLen a .utf32 fuel (c.1.val :: tail) 1 = .ok (a.units [c]).length := by
    intro c tail
    exact @sizeOfStringLen_spec fuel 1 [c] a .utf32 tail (Or.inl rfl)
      (by rw [length_singleton]; omega)
  unfold replaceAll
  rw [sizeOfString_holds h a (by omega), ok_bind, hone, ok_bind, hone, ok_bind]
  have hstart := @next_at a x cs [] h (a.units cs).length rfl
  rw [units_nil, length_nil] at hstart
  exact replaceLoop_holds fresh search by' behind cs hstart (by omega) hfuel

/-! ## Trimming -/

/-- A character that `trim` removes at the ends. -/
def blank (c : Scalar) : Bool := c.1.val.toNat ≤ 32

/-- The list operation. -/
def trimmed (cs : List Scalar) : List Scalar := (cs.dropWhile blank).rdropWhile blank

/-- A text that is not all blanks is blanks, the trimmed text from a character to a character that
are no blanks, and blanks. -/
theorem trimmed_split (h : ∃ c ∈ cs, blank c = false) :
    ∃ before behind, cs = before ++ (trimmed cs ++ behind) ∧ (∀ c ∈ before, blank c = true) ∧
      (∀ c ∈ behind, blank c = true) ∧
      (∃ c ds, trimmed cs = c :: ds ∧ blank c = false) ∧
      ∃ ds c, trimmed cs = ds ++ [c] ∧ blank c = false := by
  have hne : trimmed cs ≠ [] := by
    obtain ⟨c, hc, hblank⟩ := h
    rw [trimmed, Ne, rdropWhile_eq_nil_iff]
    intro hall
    have hnil : cs.dropWhile blank = [] := by
      rw [← dropWhile_idempotent blank cs, dropWhile_eq_nil_iff]
      exact hall
    rw [dropWhile_eq_nil_iff] at hnil
    exact absurd (hnil c hc) (by rw [hblank]; decide)
  have hsplit : cs.dropWhile blank = trimmed cs ++ (cs.dropWhile blank).rtakeWhile blank :=
    (rdropWhile_append_rtakeWhile).symm
  refine ⟨cs.takeWhile blank, (cs.dropWhile blank).rtakeWhile blank, ?_,
    fun c hc => mem_takeWhile_imp hc, fun c hc => mem_rtakeWhile_imp hc, ?_, ?_⟩
  · rw [← hsplit, takeWhile_append_dropWhile]
  · obtain ⟨c, ds, hcons⟩ := exists_cons_of_ne_nil hne
    refine ⟨c, ds, hcons, ?_⟩
    rw [hcons] at hsplit
    have hhead : (cs.dropWhile blank).head? = some c := by
      rw [hsplit]
      rfl
    have hnot := head?_dropWhile_not blank cs
    rw [hhead] at hnot
    simpa using hnot
  · refine ⟨(trimmed cs).dropLast, (trimmed cs).getLast hne,
      (dropLast_append_getLast hne).symm, ?_⟩
    exact Bool.eq_false_iff.mpr (rdropWhile_last_not blank _ hne)

theorem le_toNat_or (x m k : UInt8) : k.toNat ≤ (x &&& m ||| k).toNat := by
  exact right_le_or

theorem unitValue_units (a : Form) (c : Scalar) {u : a.Unit} (hu : u ∈ a.units [c]) :
    unitValue a u ≤ 32 ↔ c.1.val.toNat ≤ 32 := by
  cases a
  · have hu : u ∈ String.utf8EncodeChar c.1 := by
      simpa only [Form.units, encode_cons, encode_nil, append_nil] using hu
    rcases utf8EncodeChar_cases c.1 with ⟨h, he⟩ | ⟨h, -, he⟩ | ⟨h, -, he⟩ | ⟨h, he⟩
    · -- one byte, the character itself
      rw [he, mem_singleton] at hu
      have hc : c.1.val.toNat ≤ 0x7f := UInt32.le_iff_toNat_le.mp h
      have hval : unitValue .utf8 u = c.1.val.toNat := by
        rw [hu, unitValue, UInt32.toNat_toUInt8]
        omega
      rw [hval]
    all_goals
      -- several bytes, all of them with the high bit
      have hc := UInt32.lt_iff_toNat_lt.mp h
      have hbyte : 0x80 ≤ unitValue .utf8 u := by
        rw [he] at hu
        simp only [mem_cons, not_mem_nil, or_false] at hu
        rcases hu with rfl | rfl | rfl | rfl <;>
          exact le_trans (by decide) (le_toNat_or _ _ _)
      simp only [UInt32.reduceToNat] at hc
      omega
  · have hu : u ∈ utf16EncodeChar c.1 := by
      simpa only [Form.units, encode_cons, encode_nil, append_nil] using hu
    rcases utf16EncodeChar_cases c.1 with ⟨-, v, he, hv, -⟩ | ⟨hc, v1, v2, he, h1, h2, -⟩
    · rw [he, mem_singleton] at hu
      rw [hu, unitValue, hv]
    · rw [he, mem_cons, mem_singleton] at hu
      rw [unitValue]
      rcases hu with rfl | rfl <;> omega
  · have hu : u = c.1.val := by
      simpa only [Form.units, encode_cons, encode_nil, append_nil, utf32EncodeChar,
        mem_singleton] using hu
    rw [hu, unitValue]

theorem isBlank_units (a : Form) (c : Scalar) {u : a.Unit} (hu : u ∈ a.units [c]) :
    isBlank u = blank c := by
  have hne : u ≠ 0 := fun h => zero_notMem_units a [c] (h ▸ hu)
  rw [isBlank, blank, decide_eq_decide]
  exact ⟨fun h => (unitValue_units a c hu).mp h.2, fun h => ⟨hne, (unitValue_units a c hu).mpr h⟩⟩

theorem isBlank_of_units (hds : ∀ c ∈ ds, blank c = true) : ∀ u ∈ a.units ds, isBlank u = true := by
  induction ds with
  | nil =>
    intro u hu
    rw [units_nil] at hu
    exact nomatch hu
  | cons c ds ih =>
    intro u hu
    rw [units_cons, mem_append] at hu
    rcases hu with hu | hu
    · rw [isBlank_units a c hu]
      exact hds c mem_cons_self
    · exact ih (fun d hd => hds d (mem_cons_of_mem c hd)) u hu

theorem isBlank_zero : isBlank (0 : a.Unit) = false := by
  simp [isBlank]

theorem takeWhile_blanks {before : List Scalar} (hbefore : ∀ c ∈ before, blank c = true)
    {tail : List a.Unit} (htail : isBlank (unit tail) = false) :
    (a.units before ++ tail).takeWhile isBlank = a.units before := by
  rw [takeWhile_append_of_pos (isBlank_of_units hbefore)]
  cases tail with
  | nil => exact append_nil _
  | cons u tail =>
    have hu : isBlank u = false := htail
    rw [takeWhile_cons, hu]
    exact append_nil _

theorem lastNonBlank_eq {front blanks rest : List a.Unit} {u : a.Unit} (hu : isBlank u = false)
    (hblanks : ∀ v ∈ blanks, isBlank v = true) :
    lastNonBlank (front ++ u :: (blanks ++ rest)) (front.length + blanks.length) =
      front.length := by
  suffices h : ∀ n, n ≤ blanks.length →
      lastNonBlank (front ++ u :: (blanks ++ rest)) (front.length + n) = front.length from
    h _ (Nat.le_refl _)
  intro n
  induction n with
  | zero =>
    intro _
    have hget : (front ++ u :: (blanks ++ rest)).getD front.length 0 = u :=
      getD_append_right front _ 0 0
    cases hlen : front.length with
    | zero => rfl
    | succ i =>
      rw [hlen] at hget
      rw [lastNonBlank, hget, hu]
      rfl
  | succ n ih =>
    intro hn
    have hget : (front ++ u :: (blanks ++ rest)).getD (front.length + n + 1) 0 ∈ blanks := by
      rw [Nat.add_assoc, getD_append_right, getD_cons_succ, getD_append _ _ _ _ hn,
        getD_eq_getElem _ _ hn]
      exact getElem_mem hn
    rw [← Nat.add_assoc, lastNonBlank, hblanks _ hget]
    exact ih (le_of_succ_le hn)

/-- A blank literal: memory that `trim` must not write to, but does. -/
def BlankLiteral (x : XString a) (cs : List Scalar) : Prop :=
  x.owned = false ∧ cs ≠ [] ∧ ∀ c ∈ cs, blank c = true

theorem trim_blanks (h : x.Holds cs) (hne : cs ≠ []) (hall : ∀ c ∈ cs, blank c = true)
    (hfuel : cs.length + 1 < fuel) : x.trim fresh fuel = x.write 0 [0] := by
  have hsize := sizeOfString_holds h a hfuel
  obtain ⟨junk, hdata⟩ := h
  have hpos : (a.units cs).length ≠ 0 := by
    have hle := length_le_units a cs
    have hlen := length_pos_of_ne_nil hne
    omega
  have hstart := @takeWhile_blanks a cs hall (0 :: junk) isBlank_zero
  have hend : (a.units cs ++ 0 :: junk).getD (a.units cs).length 0 = 0 :=
    getD_append_right (a.units cs) _ 0 0
  unfold trim
  rw [hsize, ok_bind, if_neg hpos]
  rw [hdata, hstart, if_pos hend]

theorem trim_blankLiteral (h : x.Holds cs) (hlit : BlankLiteral x cs)
    (hfuel : cs.length + 1 < fuel) :
    x.trim fresh fuel = .error (.panic "write outside the allocated memory") := by
  obtain ⟨hlit, hne, hall⟩ := hlit
  rw [trim_blanks fresh h hne hall hfuel, write, if_neg]
  rw [hlit]
  rintro ⟨⟨⟩, -⟩

theorem unit_mem_units (a : Form) (c : Scalar) (cs : List Scalar) (tail : List a.Unit) :
    unit (a.units (c :: cs) ++ tail) ∈ a.units [c] := by
  obtain ⟨u, us, hu⟩ := exists_cons_of_ne_nil (ne_nil_of_length_pos (units_length_pos a c))
  rw [units_cons a c cs, hu]
  exact mem_cons_self

/-- A text between blanks is moved to the start of the memory. -/
theorem trim_middle {before mid behind : List Scalar} (h : x.Holds (before ++ (mid ++ behind)))
    (hbefore : ∀ c ∈ before, blank c = true) (hbehind : ∀ c ∈ behind, blank c = true)
    (hfirst : ∃ c ds, mid = c :: ds ∧ blank c = false)
    (hlast : ∃ ds c, mid = ds ++ [c] ∧ blank c = false)
    (hfuel : (before ++ (mid ++ behind)).length + 1 < fuel) :
    Returns (x.trim fresh fuel) (Holds · mid) := by
  have hsize := sizeOfString_holds h a hfuel
  have hmid : mid ≠ [] := by
    obtain ⟨c, ds, rfl, -⟩ := hfirst
    exact cons_ne_nil _ _
  obtain ⟨junk, hdata⟩ := id h
  simp only [units_append, append_assoc, length_append] at hdata hsize
  -- where the loops stop
  have hstart : x.data.takeWhile isBlank = a.units before := by
    rw [hdata]
    apply takeWhile_blanks hbefore
    obtain ⟨c, ds, rfl, hc⟩ := hfirst
    rw [isBlank_units a c (unit_mem_units a c ds _), hc]
  have hunit : x.data.getD (a.units before).length 0 ≠ 0 := by
    rw [hdata, ← Nat.add_zero (a.units before).length, getD_append_right]
    exact unit_units_ne_zero a hmid _
  have hstop : lastNonBlank x.data ((a.units before).length + ((a.units mid).length +
      (a.units behind).length) - 1) = (a.units before).length + (a.units mid).length - 1 := by
    obtain ⟨ds, d, rfl, hd⟩ := hlast
    obtain ⟨us, u, hu⟩ : ∃ us u, a.units [d] = us ++ [u] :=
      ⟨_, _, (dropLast_append_getLast
        (ne_nil_of_length_pos (units_length_pos a d))).symm⟩
    have hnot : isBlank u = false := by
      rw [isBlank_units a d (by rw [hu]; simp), hd]
    have hback := @lastNonBlank_eq a (a.units before ++ (a.units ds ++ us)) (a.units behind)
      (0 :: junk) u hnot (isBlank_of_units hbehind)
    rw [hdata, units_append, hu]
    simp only [append_assoc, length_append, singleton_append,
      length_singleton] at hback ⊢
    rw [show (a.units before).length + ((a.units ds).length + (us.length + 1) +
      (a.units behind).length) - 1 = (a.units before).length + ((a.units ds).length + us.length) +
        (a.units behind).length by omega, hback]
    omega
  -- the move
  have hpos : 0 < (a.units mid).length := by
    have hle := length_le_units a mid
    have hlen := length_pos_of_ne_nil hmid
    omega
  have hnew : (a.units before).length + (a.units mid).length - 1 - (a.units before).length + 1 =
      (a.units mid).length := by omega
  have hblock : (x.data.drop (a.units before).length).take (a.units mid).length = a.units mid := by
    rw [hdata, drop_left, take_left]
  obtain ⟨x', moved, hcheck, howned, hx', hroom⟩ := checkSize_holds fresh h
    (a.units mid).length 0 hfuel
  have hwrite := write_eq howned [] x'.data (a.units mid) rfl (le_of_lt hroom)
  have hterminate :=
    write_eq (x := ⟨[] ++ (a.units mid ++ x'.data.drop (a.units mid).length), true⟩)
    rfl (a.units mid) (x'.data.drop (a.units mid).length) [0] rfl
    (by rw [length_drop, length_singleton]; omega)
  unfold trim
  rw [hsize, ok_bind, if_neg (by omega)]
  dsimp only
  rw [hstart, if_neg hunit, hstop, hnew, hcheck, ok_bind, hblock]
  rw [show (0 : Nat) = ([] : List a.Unit).length from rfl, hwrite, ok_bind]
  exact ⟨_, hterminate, ⟨_, rfl⟩⟩

/-- Blanks are taken off both ends. -/
theorem trim_holds (h : x.Holds cs) (hlit : ¬ BlankLiteral x cs) (hfuel : cs.length + 1 < fuel) :
    Returns (x.trim fresh fuel) (Holds · (trimmed cs)) := by
  by_cases hne : cs = []
  · subst hne
    have hsize := sizeOfString_holds h a hfuel
    rw [units_nil] at hsize
    refine ⟨x, ?_, h⟩
    unfold trim
    rw [hsize]
    rfl
  by_cases hall : ∀ c ∈ cs, blank c = true
  · have howned : x.owned = true := by
      by_contra hx
      exact hlit ⟨Bool.eq_false_iff.mpr hx, hne, hall⟩
    have hnil : trimmed cs = [] := by
      rw [trimmed, dropWhile_eq_nil_iff.mpr hall, rdropWhile_nil]
    rw [trim_blanks fresh h hne hall hfuel, hnil]
    obtain ⟨junk, hdata⟩ := h
    have hroom : [0].length ≤ x.data.length := by
      rw [hdata, length_append]
      exact le_add_left_of_le (succ_le_succ (zero_le _))
    exact ⟨_, write_eq howned [] x.data [0] rfl hroom, ⟨_, by rw [units_nil]; rfl⟩⟩
  · simp only [not_forall, Bool.not_eq_true, exists_prop] at hall
    obtain ⟨before, behind, hcs, hbefore, hbehind, hfirst, hlast⟩ := trimmed_split hall
    rw [hcs] at h hfuel
    exact trim_middle fresh h hbefore hbehind hfirst hlast hfuel

/-! ## All of them -/

/-- Every editing function gives the edited list of characters, whatever fresh memory holds and for
every bound on the loops that is large enough. A string that is inserted may be of another encoding
`o` and is followed by anything; so is a single unit, and a character that is replaced. -/
structure Edits (x : XString a) (cs : List Scalar) (fresh : Nat → a.Unit) : Prop where
  length : ∀ fuel, cs.length + 1 < fuel → x.length fuel = .ok cs.length
  insertAtPos : ∀ (o : Form) (ds : List Scalar) (junk : List o.Unit) (pos fuel : Nat),
    pos ≤ cs.length → cs.length + ds.length + junk.length + 2 < fuel →
    Returns (x.insertAtPos fresh fuel (o.units ds ++ 0 :: junk) pos)
      (Holds · (cs.take pos ++ (ds ++ cs.drop pos)))
  insertAtPosLen : ∀ (o : Form) (ds : List Scalar) (junk : List o.Unit) (len pos fuel : Nat),
    pos ≤ cs.length → cs.length + (o.units ds).length + junk.length + 2 < fuel →
    Returns (x.insertAtPosLen fresh fuel (o.units ds ++ 0 :: junk) len pos)
      (Holds · (cs.take pos ++ (ds.take len ++ cs.drop pos)))
  insertCharAtPos : ∀ (o : Form) (u : o.Unit) (d : Scalar) (behind : List o.Unit) (pos fuel : Nat),
    o.units [d] = [u] → pos ≤ cs.length → cs.length + behind.length + 2 < fuel →
    Returns (x.insertCharAtPos fresh fuel u behind pos)
      (Holds · (cs.take pos ++ (d :: cs.drop pos)))
  deleteCharsAtPos : ∀ pos count fuel, pos ≤ cs.length → cs.length + 1 < fuel →
    Returns (x.deleteCharsAtPos fresh fuel pos count)
      (Holds · (cs.take pos ++ cs.drop (pos + count)))
  subString : ∀ pos count fuel, pos ≤ cs.length → cs.length + 1 < fuel →
    Returns (x.subString fresh fuel pos count) (Holds · ((cs.drop pos).take count))
  replaceAll : ∀ (search by' : Scalar) (behindSearch behind : List UInt32) (fuel : Nat),
    cs.length + behind.length + 2 < fuel →
    Returns (x.replaceAll fresh fuel search.1.val by'.1.val behindSearch behind)
      (Holds · (replaced search by' cs))
  trim : ∀ fuel, cs.length + 1 < fuel →
    Returns (x.trim fresh fuel) (Holds · (trimmed cs))

end XString

open XString in
/-- A string that holds a text is edited as the list of its characters exactly if it is no literal
of blanks. -/
theorem edits_iff {a : Form} (x : XString a) (cs : List Scalar) (fresh : Nat → a.Unit)
    (h : x.Holds cs) : x.Edits cs fresh ↔ ¬ x.BlankLiteral cs := by
  constructor
  · intro hedits hlit
    obtain ⟨y, hy, -⟩ := hedits.trim (cs.length + 2) (lt_succ_self _)
    rw [trim_blankLiteral fresh h hlit (lt_succ_self _)] at hy
    exact nomatch hy
  · intro hlit
    refine ⟨fun fuel hfuel => length_holds h hfuel, ?_, ?_, ?_, ?_, ?_, ?_, ?_⟩
    · exact fun o ds junk pos fuel hpos hfuel => insertAtPos_holds fresh h ds junk hpos hfuel
    · intro o ds junk len pos fuel hpos hfuel
      have hlength := units_length_split o ds len
      have htake := length_le_units o (ds.take len)
      rw [units_take_append o ds len]
      apply insertAtPosLen_holds fresh h (counted_units o rfl ds len) hpos
      rw [length_append, length_cons]
      omega
    · intro o u d behind pos fuel hu hpos hfuel
      have hunits : u :: behind = o.units [d] ++ behind := by rw [hu]; rfl
      rw [insertCharAtPos, hunits]
      exact insertAtPosLen_holds fresh h (Or.inl rfl) hpos (by rw [length_singleton]; omega)
    · exact fun pos count fuel hpos hfuel => deleteCharsAtPos_holds fresh h hpos count hfuel
    · exact fun pos count fuel hpos hfuel => subString_holds fresh h hpos count hfuel
    · exact fun search by' behindSearch behind fuel hfuel =>
        replaceAll_holds fresh search by' behind h behindSearch hfuel
    · exact fun fuel hfuel => trim_holds fresh h hlit hfuel

/-- The string `aé` in UTF-16, in memory of its own. -/
theorem edits_iff_sample :
    let cs : List Scalar := [⟨'a', by decide⟩, ⟨'é', by decide⟩]
    let x : XString .utf16 := ⟨[0x61, 0xe9, 0, 7], true⟩
    x.Holds cs ∧ x.Edits cs (fun _ => 5) := by
  intro cs x
  have hx : x.Holds cs := ⟨[7], by decide +kernel⟩
  exact ⟨hx, (edits_iff x cs _ hx).mpr fun hlit => nomatch hlit.1⟩

/-- A literal of one blank is written to. -/
theorem trim_writes_literal :
    let cs : List Scalar := [⟨' ', by decide⟩]
    let x : XString .utf8 := ⟨[0x20, 0], false⟩
    x.Holds cs ∧
      ∀ fuel, 2 < fuel → x.trim (fun _ => 0) fuel =
        .error (.panic "write outside the allocated memory") := by
  intro cs x
  have hx : x.Holds cs := ⟨[], by decide +kernel⟩
  refine ⟨hx, fun fuel hfuel => XString.trim_blankLiteral _ hx ⟨rfl, ?_, ?_⟩ hfuel⟩
  · exact cons_ne_nil _ _
  · decide

end Clover.Unicode
