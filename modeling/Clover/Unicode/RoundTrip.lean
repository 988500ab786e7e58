import Clover.Unicode.Text

/-!
# Lossless conversion

All conversions of `cpp_foundation/unicode_conversions.cpp` side by side: for two encodings
`b` and `a`, `stringFrom b a` is the function `utfB_string_from_utfA_string` and
`sizeOfString b a` the function `utfB_size_of_utfA_string`.

The main result is `conversions_lossless`: on well-formed text a conversion writes the other
form of the text with a terminator, its sizing function returns the number of units written,
and a conversion followed by its inverse gives the text back.
-/

namespace Clover.Unicode

open Clover.Lib Clover.Lib.Run List

variable {dstMaxSize fuel len k : Nat} {cs : List Scalar}

/-- The encodings between which the source converts. -/
inductive Form where
  | utf8
  | utf16
  | utf32
  deriving DecidableEq, Repr

namespace Form

/-- The type of a code unit: `char`, `char16_t`, `char32_t`. -/
abbrev Unit : Form → Type
  | utf8 => UInt8
  | utf16 => UInt16
  | utf32 => UInt32

instance (a : Form) : OfNat a.Unit 0 :=
  match a with
  | utf8 => inferInstanceAs (OfNat UInt8 0)
  | utf16 => inferInstanceAs (OfNat UInt16 0)
  | utf32 => inferInstanceAs (OfNat UInt32 0)

/-- The units of a text. -/
def units : (a : Form) → List Scalar → List a.Unit
  | utf8 => encode String.utf8EncodeChar
  | utf16 => encode utf16EncodeChar
  | utf32 => encode utf32EncodeChar

/-- The functions that read and write a character. -/
def get : (a : Form) → List a.Unit → List a.Unit × UInt32
  | utf8 => getChar32FromUtf8String
  | utf16 => getChar32FromUtf16String
  | utf32 => getChar32FromUtf32String

def put : (b : Form) → Dst b.Unit → UInt32 → Dst b.Unit
  | utf8 => getUtf8FromChar32
  | utf16 => getUtf16FromChar32
  | utf32 => getUtf32FromChar32

/-- The units of a character. -/
def encodeChar : (a : Form) → Char → List a.Unit
  | utf8 => String.utf8EncodeChar
  | utf16 => utf16EncodeChar
  | utf32 => utf32EncodeChar

theorem units_eq (a : Form) : a.units = encode a.encodeChar := by
  cases a <;> rfl

theorem reads (a : Form) : Reads a.get a.encodeChar := by
  cases a
  · exact reads_utf8
  · exact reads_utf16
  · exact reads_utf32

theorem writes (b : Form) : Writes b.put b.encodeChar := by
  cases b
  · exact writes_utf8
  · exact writes_utf16
  · exact writes_utf32

theorem refuses (b : Form) : Refuses b.put b.encodeChar := by
  cases b
  · exact refuses_utf8
  · exact refuses_utf16
  · exact refuses_utf32

end Form

instance (a : Form) : DecidableEq a.Unit :=
  match a with
  | .utf8 => inferInstanceAs (DecidableEq UInt8)
  | .utf16 => inferInstanceAs (DecidableEq UInt16)
  | .utf32 => inferInstanceAs (DecidableEq UInt32)

open Form in
/-- The function `utfB_size_of_utfA_string`. -/
def sizeOfString (b a : Form) (fuel : Nat) (s : List a.Unit) : Run Nat :=
  match b, a, s with
  | utf8, utf8, s => .ok (utf8SizeOfUtf8String s)
  | utf8, utf16, s => utf8SizeOfUtf16String fuel s
  | utf8, utf32, s => utf8SizeOfUtf32String fuel s
  | utf16, utf8, s => utf16SizeOfUtf8String fuel s
  | utf16, utf16, s => utf16SizeOfUtf16String fuel s
  | utf16, utf32, s => utf16SizeOfUtf32String fuel s
  | utf32, utf8, s => utf32SizeOfUtf8String fuel s
  | utf32, utf16, s => utf32SizeOfUtf16String fuel s
  | utf32, utf32, s => utf32SizeOfUtf32String fuel s

open Form in
/-- The function `utfB_size_of_utfA_string_len`. -/
def sizeOfStringLen (b a : Form) (fuel : Nat) (s : List a.Unit) (len : Nat) : Run Nat :=
  match b, a, s with
  | utf8, utf8, s => utf8SizeOfUtf8StringLen fuel s len
  | utf8, utf16, s => utf8SizeOfUtf16StringLen fuel s len
  | utf8, utf32, s => utf8SizeOfUtf32StringLen fuel s len
  | utf16, utf8, s => utf16SizeOfUtf8StringLen fuel s len
  | utf16, utf16, s => utf16SizeOfUtf16StringLen fuel s len
  | utf16, utf32, s => utf16SizeOfUtf32StringLen fuel s len
  | utf32, utf8, s => utf32SizeOfUtf8StringLen fuel s len
  | utf32, utf16, s => utf32SizeOfUtf16StringLen fuel s len
  | utf32, utf32, s => utf32SizeOfUtf32StringLen fuel s len

open Form in
/-- The function `utfB_stringnn_from_utfA_string`. -/
def stringnnFrom (b a : Form) (fuel dstMaxSize : Nat) (s : List a.Unit) : Run (List b.Unit) :=
  match b, a, s with
  | utf8, utf8, s => utf8StringnnFromUtf8String fuel dstMaxSize s
  | utf8, utf16, s => utf8StringnnFromUtf16String fuel dstMaxSize s
  | utf8, utf32, s => utf8StringnnFromUtf32String fuel dstMaxSize s
  | utf16, utf8, s => utf16StringnnFromUtf8String fuel dstMaxSize s
  | utf16, utf16, s => utf16StringnnFromUtf16String fuel dstMaxSize s
  | utf16, utf32, s => utf16StringnnFromUtf32String fuel dstMaxSize s
  | utf32, utf8, s => utf32StringnnFromUtf8String fuel dstMaxSize s
  | utf32, utf16, s => utf32StringnnFromUtf16String fuel dstMaxSize s
  | utf32, utf32, s => utf32StringnnFromUtf32String fuel dstMaxSize s

open Form in
/-- The function `utfB_string_from_utfA_string`. -/
def stringFrom (b a : Form) (fuel dstMaxSize : Nat) (s : List a.Unit) : Run (Nat × List b.Unit) :=
  match b, a, s with
  | utf8, utf8, s => utf8StringFromUtf8String fuel dstMaxSize s
  | utf8, utf16, s => utf8StringFromUtf16String fuel dstMaxSize s
  | utf8, utf32, s => utf8StringFromUtf32String fuel dstMaxSize s
  | utf16, utf8, s => utf16StringFromUtf8String fuel dstMaxSize s
  | utf16, utf16, s => utf16StringFromUtf16String fuel dstMaxSize s
  | utf16, utf32, s => utf16StringFromUtf32String fuel dstMaxSize s
  | utf32, utf8, s => utf32StringFromUtf8String fuel dstMaxSize s
  | utf32, utf16, s => utf32StringFromUtf16String fuel dstMaxSize s
  | utf32, utf32, s => utf32StringFromUtf32String fuel dstMaxSize s

open Form in
/-- The function `utfB_string_from_utfA_string_len`. -/
def stringFromLen (b a : Form) (fuel dstMaxSize : Nat) (s : List a.Unit) (len : Nat) :
    Run (Nat × List b.Unit) :=
  match b, a, s with
  | utf8, utf8, s => utf8StringFromUtf8StringLen fuel dstMaxSize s len
  | utf8, utf16, s => utf8StringFromUtf16StringLen fuel dstMaxSize s len
  | utf8, utf32, s => utf8StringFromUtf32StringLen fuel dstMaxSize s len
  | utf16, utf8, s => utf16StringFromUtf8StringLen fuel dstMaxSize s len
  | utf16, utf16, s => utf16StringFromUtf16StringLen fuel dstMaxSize s len
  | utf16, utf32, s => utf16StringFromUtf32StringLen fuel dstMaxSize s len
  | utf32, utf8, s => utf32StringFromUtf8StringLen fuel dstMaxSize s len
  | utf32, utf16, s => utf32StringFromUtf16StringLen fuel dstMaxSize s len
  | utf32, utf32, s => utf32StringFromUtf32StringLen fuel dstMaxSize s len

open Form in
/-- The function `utfB_string_from_utfA_string_size`. -/
def stringFromSize (b a : Form) (fuel dstMaxSize : Nat) (s : List a.Unit) (size : Nat) :
    Run (Nat × List b.Unit) :=
  match b, a, s with
  | utf8, utf8, s => .ok (utf8StringFromUtf8StringSize dstMaxSize s size)
  | utf8, utf16, s => utf8StringFromUtf16StringSize fuel dstMaxSize s size
  | utf8, utf32, s => utf8StringFromUtf32StringSize fuel dstMaxSize s size
  | utf16, utf8, s => utf16StringFromUtf8StringSize fuel dstMaxSize s size
  | utf16, utf16, s => utf16StringFromUtf16StringSize fuel dstMaxSize s size
  | utf16, utf32, s => utf16StringFromUtf32StringSize fuel dstMaxSize s size
  | utf32, utf8, s => utf32StringFromUtf8StringSize fuel dstMaxSize s size
  | utf32, utf16, s => utf32StringFromUtf16StringSize fuel dstMaxSize s size
  | utf32, utf32, s => utf32StringFromUtf32StringSize fuel dstMaxSize s size

theorem sizeOfString_spec (b a : Form) {tail : List a.Unit} (htail : unit tail = 0)
    (cs : List Scalar) (hfuel : cs.length + 1 < fuel) :
    sizeOfString b a fuel (a.units cs ++ tail) = .ok (b.units cs).length := by
  have hfuel' : cs.length < fuel := by omega
  cases b <;> cases a
  · exact congrArg Except.ok (utf8SizeOfUtf8String_spec htail cs)
  · exact sizeWhileUnits_spec reads_utf16 utf8SizeOfUtf16CharPtr_char htail cs hfuel'
  · exact sizeWhileUnits_spec reads_utf32 utf8SizeOfUtf32CharPtr_char htail cs hfuel'
  · exact sizeReadAhead_spec reads_utf8 width_utf16 htail cs hfuel'
  · exact utf16SizeOfUtf16String_spec htail cs hfuel
  · exact sizeWhileUnits_spec reads_utf32 utf16SizeOfUtf32CharPtr_char htail cs hfuel'
  · exact sizeReadAhead_spec reads_utf8 width_utf32 htail cs hfuel'
  · exact sizeReadAhead_spec reads_utf16 width_utf32 htail cs hfuel'
  · exact utf32SizeOfUtf32String_spec htail cs hfuel'

theorem sizeOfStringLen_spec (b a : Form) {tail : List a.Unit}
    (hlen : Counted tail cs len) (hfuel : cs.length + 1 < fuel) :
    sizeOfStringLen b a fuel (a.units cs ++ tail) len = .ok (b.units cs).length := by
  have hfuel' : cs.length < fuel := by omega
  -- some of the functions return at once for a zero count
  have guard : ∀ {x : Run Nat}, x = .ok (b.units cs).length →
      (if len = 0 then .ok 0 else x) = .ok (b.units cs).length := by
    intro x hx
    split
    · next h =>
      rw [h] at hlen
      rw [hlen.eq_nil]
      cases b <;> rfl
    · exact hx
  cases b <;> cases a
  · exact utf8SizeOfUtf8StringLen_spec hlen hfuel
  · exact guard (sizeWhileUnitsLen_spec reads_utf16 utf8SizeOfUtf16CharPtr_char hlen hfuel')
  · exact guard (sizeWhileUnitsLen_spec reads_utf32 utf8SizeOfUtf32CharPtr_char hlen hfuel')
  · exact guard (sizeReadAheadLen_spec reads_utf8 width_utf16 hlen hfuel')
  · exact sizeReadAheadLen_spec reads_utf16 width_utf16 hlen hfuel'
  · exact sizeWhileUnitsLen_spec reads_utf32 utf16SizeOfUtf32CharPtr_char hlen hfuel'
  · exact guard (sizeReadAheadLen_spec reads_utf8 width_utf32 hlen hfuel')
  · exact guard (sizeReadAheadLen_spec reads_utf16 width_utf32 hlen hfuel')
  · exact utf32SizeOfUtf32StringLen_spec hlen hfuel'

theorem units_take_append (a : Form) (cs : List Scalar) (k : Nat) (tail : List a.Unit) :
    a.units cs ++ tail = a.units (cs.take k) ++ (a.units (cs.drop k) ++ tail) := by
  cases a <;> exact encode_take_append _ cs k tail

theorem counted_units (a : Form) {tail : List a.Unit} (htail : unit tail = 0) (cs : List Scalar)
    (len : Nat) : Counted (a.units (cs.drop len) ++ tail) (cs.take len) len := by
  cases a <;> exact counted_take cs htail len

theorem units_length_take_le (b : Form) (cs : List Scalar) (k : Nat) :
    (b.units (cs.take k)).length ≤ (b.units cs).length := by
  have h := congrArg length (units_take_append b cs k [])
  simp only [append_nil, length_append] at h
  omega

/-- The number `k` of characters of the text `cs` that a conversion with the bounds `P` takes: they
meet the bounds, and with one more they would not. -/
structure Longest (P : Nat → Prop) (cs : List Scalar) (k : Nat) : Prop where
  le : k ≤ cs.length
  holds : P k
  maximal : k < cs.length → ¬ P (k + 1)

theorem stops_units (b a : Form) {tail : List a.Unit} (htail : unit tail = 0) {n : Nat}
    (hk : k < cs.length → n < (b.units (cs.take (k + 1))).length) :
    Stops a.get b.put (a.units (cs.drop k) ++ tail)
      ⟨b.units (cs.take k), n - (b.units (cs.take k)).length⟩ := by
  simp only [Form.units_eq] at hk ⊢
  exact stops_drop a.reads b.refuses htail hk

/-- All conversions but the block copy. -/
theorem stringnnFrom_stops (b a : Form) {tail : List a.Unit} (h32 : ¬ (b = .utf32 ∧ a = .utf32))
    (hmax : (b.units cs).length ≤ dstMaxSize)
    (hstop : Stops a.get b.put tail ⟨b.units cs, dstMaxSize - (b.units cs).length⟩)
    (hfuel : cs.length + 1 < fuel) :
    stringnnFrom b a fuel dstMaxSize (a.units cs ++ tail) = .ok (b.units cs) := by
  have hfuel' := Nat.lt_of_succ_lt hfuel
  simp only [Form.units_eq] at hmax hstop ⊢
  have hahead := readAhead_stops a.reads b.writes _ hmax hstop hfuel'
  have hunits := whileUnits_stops a.reads b.writes _ hmax hstop hfuel
  cases b <;> cases a
  · exact hahead
  · exact hunits.1
  · exact hunits.1
  · exact hahead
  · exact hahead
  · exact hunits.1
  · exact hahead
  · exact hunits.2
  · exact absurd ⟨rfl, rfl⟩ h32

theorem stringFromLen_stops (b a : Form) {tail : List a.Unit}
    (h32 : ¬ (b = .utf32 ∧ a = .utf32)) (hmax : (b.units cs).length < dstMaxSize)
    (hlen : cs.length ≤ len) (hstop : len = cs.length ∨
      Stops a.get b.put tail ⟨b.units cs, dstMaxSize - 1 - (b.units cs).length⟩)
    (hfuel : cs.length + 1 < fuel) :
    stringFromLen b a fuel dstMaxSize (a.units cs ++ tail) len =
      .ok ((b.units cs).length, b.units cs ++ [0]) := by
  simp only [Form.units_eq] at hmax hstop ⊢
  have hahead {n : Nat} (hn : n ≤ 1) :=
    readAheadLen_stops a.reads b.writes hn hmax hfuel hlen hstop
  have hunits {n : Nat} (hn : n ≤ 1) :=
    whileUnitsLen_stops a.reads b.writes hn hmax hfuel hlen hstop
  have h0 := Nat.zero_le 1
  have h1 := Nat.le_refl 1
  cases b <;> cases a
  · exact hahead h1
  · exact (hunits h1).1
  · exact (hunits h0).1
  · exact hahead h0
  · exact hahead h1
  · exact (hunits h0).1
  · exact hahead h0
  · exact (hunits h0).2
  · exact absurd ⟨rfl, rfl⟩ h32

/-- As many characters are written as there is room for. -/
theorem stringnnFrom_longest (b a : Form) {tail : List a.Unit} (htail : unit tail = 0)
    (hk : Longest (fun k => (b.units (cs.take k)).length ≤ dstMaxSize) cs k)
    (hfuel : cs.length + 1 < fuel) :
    stringnnFrom b a fuel dstMaxSize (a.units cs ++ tail) = .ok (b.units (cs.take k)) := by
  have hmax := hk.holds
  have hnext : k < cs.length → dstMaxSize < (b.units (cs.take (k + 1))).length :=
    fun h => Nat.lt_of_not_le (hk.maximal h)
  have hlen : (cs.take k).length + 1 < fuel :=
    Nat.lt_of_le_of_lt (Nat.succ_le_succ (length_take_le' k cs)) hfuel
  by_cases h32 : b = .utf32 ∧ a = .utf32
  · -- the block copy
    obtain ⟨rfl, rfl⟩ := h32
    have hle := hk.le
    have hmin : min dstMaxSize cs.length = k := by
      simp only [Form.units, encode_utf32_length, length_take] at hmax hnext
      omega
    have hcopy := utf32StringnnFromUtf32String_spec htail cs dstMaxSize (Nat.lt_of_succ_lt hfuel)
    rw [hmin] at hcopy
    exact hcopy
  rw [units_take_append a cs k]
  exact stringnnFrom_stops b a h32 hmax (stops_units b a htail hnext) hlen

theorem stringFrom_eq_terminate (b a : Form) (fuel dstMaxSize : Nat) (s : List a.Unit) :
    stringFrom b a fuel dstMaxSize s = terminate dstMaxSize
      (stringnnFrom b a fuel dstMaxSize s) := by
  cases b <;> cases a <;> rfl

theorem stringFrom_spec (b a : Form) {tail : List a.Unit} (htail : unit tail = 0)
    (cs : List Scalar) (hmax : (b.units cs).length < dstMaxSize) (hfuel : cs.length + 1 < fuel) :
    stringFrom b a fuel dstMaxSize (a.units cs ++ tail) =
      .ok ((b.units cs).length, b.units cs ++ [0]) := by
  have hall : Longest (fun k => (b.units (cs.take k)).length ≤ dstMaxSize) cs cs.length := by
    refine ⟨Nat.le_refl _, ?_, fun hlt => absurd hlt (Nat.lt_irrefl _)⟩
    rw [take_length]
    exact Nat.le_of_lt hmax
  rw [stringFrom_eq_terminate, stringnnFrom_longest b a htail hall hfuel, take_length,
    terminate_ok hmax]

theorem stringFromLen_longest (b a : Form) {tail : List a.Unit} (htail : unit tail = 0)
    (hk : Longest (fun k => (b.units (cs.take k)).length < dstMaxSize ∧ k ≤ len) cs k)
    (hfuel : cs.length + 1 < fuel) :
    stringFromLen b a fuel dstMaxSize (a.units cs ++ tail) len =
      .ok ((b.units (cs.take k)).length, b.units (cs.take k) ++ [0]) := by
  obtain ⟨hle, ⟨hmax, hklen⟩, hnext⟩ := hk
  have htake : (cs.take k).length = k := by rw [length_take, Nat.min_eq_left hle]
  have hlen : (cs.take k).length + 1 < fuel := by omega
  have hcount : (cs.take k).length ≤ len := by omega
  by_cases h32 : b = .utf32 ∧ a = .utf32
  · obtain ⟨rfl, rfl⟩ := h32
    have hmin : min (min cs.length len) (dstMaxSize - 1) = k := by
      simp only [Form.units, encode_utf32_length, length_take] at hmax hnext
      omega
    have hcopy := utf32StringFromUtf32StringLen_spec htail cs len
      (Nat.zero_lt_of_lt hmax) (Nat.lt_of_succ_lt hfuel)
    rw [hmin] at hcopy
    rw [show (Form.utf32.units (cs.take k)).length = k by
      rw [Form.units, encode_utf32_length, htake]]
    exact hcopy
  have hstop : len = (cs.take k).length ∨
      (k < cs.length → dstMaxSize - 1 < (b.units (cs.take (k + 1))).length) := by
    by_cases h : len = k
    · exact Or.inl (h.trans htake.symm)
    · refine Or.inr fun hlt => ?_
      omega
  rw [units_take_append a cs k]
  exact stringFromLen_stops b a h32 hmax hcount (hstop.imp_right (stops_units b a htail)) hlen

theorem stringFromLen_spec (b a : Form) {tail : List a.Unit} (htail : unit tail = 0)
    (cs : List Scalar) (len : Nat) (hmax : (b.units cs).length < dstMaxSize)
    (hfuel : cs.length + 1 < fuel) :
    stringFromLen b a fuel dstMaxSize (a.units cs ++ tail) len =
      .ok ((b.units (cs.take len)).length, b.units (cs.take len) ++ [0]) := by
  have hmin : cs.take (min len cs.length) = cs.take len := take_eq_take_min.symm
  have hroom := units_length_take_le b cs (min len cs.length)
  have hall : Longest (fun k => (b.units (cs.take k)).length < dstMaxSize ∧ k ≤ len) cs
      (min len cs.length) := by
    refine ⟨Nat.min_le_right _ _, ⟨by omega, Nat.min_le_left _ _⟩, ?_⟩
    rintro hlt ⟨-, hle⟩
    omega
  rw [stringFromLen_longest b a htail hall hfuel, hmin]

/-- On a text `cs` without NUL, and into destinations with room for it and a terminator:
every conversion between two encodings writes the text and a terminator, and returns the
number of units that the sizing function computes; so do the functions with a count of
characters, on that many characters of the text; and a conversion there and back gives the
text with its terminator. The source string is followed by anything. -/
theorem conversions_lossless (b a : Form) (cs : List Scalar) (junk : List a.Unit)
    (fuel roomA roomB : Nat) (hfuel : cs.length + 1 < fuel)
    (hA : (a.units cs).length < roomA) (hB : (b.units cs).length < roomB) :
    (sizeOfString b a fuel (a.units cs ++ 0 :: junk) = .ok (b.units cs).length ∧
      stringFrom b a fuel roomB (a.units cs ++ 0 :: junk) =
        .ok ((b.units cs).length, b.units cs ++ [0])) ∧
    (∀ len, sizeOfStringLen b a fuel (a.units cs ++ 0 :: junk) len =
        .ok (b.units (cs.take len)).length ∧
      stringFromLen b a fuel roomB (a.units cs ++ 0 :: junk) len =
        .ok ((b.units (cs.take len)).length, b.units (cs.take len) ++ [0])) ∧
    (do
      let r ← stringFrom b a fuel roomB (a.units cs ++ 0 :: junk)
      stringFrom a b fuel roomA r.2) = .ok ((a.units cs).length, a.units cs ++ [0]) := by
  have htail : unit (0 :: junk) = 0 := rfl
  have hthere := stringFrom_spec b a htail cs hB hfuel
  refine ⟨⟨sizeOfString_spec b a htail cs hfuel, hthere⟩, ?_, ?_⟩
  · intro len
    have hlen : (cs.take len).length + 1 < fuel :=
      Nat.lt_of_le_of_lt (Nat.succ_le_succ (length_take_le' len cs)) hfuel
    refine ⟨?_, stringFromLen_spec b a htail cs len hB hfuel⟩
    rw [units_take_append a cs len]
    exact sizeOfStringLen_spec b a (counted_units a htail cs len) hlen
  · rw [hthere]
    exact stringFrom_spec a b rfl cs hA hfuel

/-- The theorem at the text `aé€😀`, from UTF-8 to UTF-16. -/
theorem conversions_lossless_sample :
    let cs : List Scalar := [⟨'a', by decide⟩, ⟨'é', by decide⟩, ⟨'€', by decide⟩, ⟨'😀', by decide⟩]
    (Form.utf8.units cs).length = 10 ∧ (Form.utf16.units cs).length = 5 ∧
      (do
        let r ← stringFrom .utf16 .utf8 6 6 (Form.utf8.units cs ++ [0])
        stringFrom .utf8 .utf16 6 11 r.2) = .ok (10, Form.utf8.units cs ++ [0]) := by
  intro cs
  have h₈ : (Form.utf8.units cs).length = 10 := by decide +kernel
  have h₁₆ : (Form.utf16.units cs).length = 5 := by decide +kernel
  refine ⟨h₈, h₁₆, ?_⟩
  have h := (conversions_lossless .utf16 .utf8 cs [] 6 11 6 (by decide)
    (by omega) (by omega)).2.2
  exact h

end Clover.Unicode
