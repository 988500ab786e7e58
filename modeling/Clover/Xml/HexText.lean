import Clover.Xml.Strings

/-!
# Hex texts

The function `hex2bin` on a text whose characters alone may be read. The separators are skipped
before the end of the text is looked for, so those at the end of a text lead behind it. The messages
of the error exits are made from the text up to its terminator, wherever that is.
-/

namespace Clover.Xml

/-- The three error exits of `hex2bin`: `takeValueFrom` reads the whole text up to a zero. -/
def hexError (text out : Bytes) : Option (Nat × Bytes) :=
  if 0 ∈ text then some (0, out) else none

/-- The loop of `hex2bin` over the rest of the text, with the bytes decoded so far; `skipping` says
that the inner loop is entered. The result is the number returned and the bytes, which are only
counted where `out` is `NULL`; it is nothing where a character behind the text is read. -/
def hex2binLoop (text : Bytes) (outlen : Option Nat) : Bool → Bytes → Bytes → Option (Nat × Bytes)
  | skipping, [], out => if skipping then none else some (out.length, out)
  | _, [c], out => if isHexSeparator c then none else hexError text out
  | _, c₀ :: c₁ :: hex, out =>
    if isHexSeparator c₀ then hex2binLoop text outlen true (c₁ :: hex) out
    else if !isHexDigit c₀ || !isHexDigit c₁ then hexError text out
    else if outlen = some out.length then hexError text out
    else hex2binLoop text outlen false hex (out ++ [hexstrtouint8 c₀ c₁])

def hex2binIn (outlen : Option Nat) (text : Bytes) : Option (Nat × Bytes) :=
  hex2binLoop text outlen false text []

/-- The character of a hex digit in `Bytes2HexStr`. -/
def hexChar (b : UInt64) : UInt8 := ((87 : UInt64) + b + (((b - 10) >>> 31) &&& (0 - 39))).toUInt8

def bytes2HexStr (data : Bytes) : Bytes :=
  data.flatMap fun b : UInt8 => [hexChar (b.toUInt64 >>> 4), hexChar (b.toUInt64 &&& 0xf)]

/-! ## Pairs of digits -/

/-- The bytes of a text of pairs of hex digits, with separators before, between and behind them. -/
def hexBytes : Bytes → Option Bytes
  | [] => some []
  | [c] => if isHexSeparator c then some [] else none
  | c₀ :: c₁ :: text =>
    if isHexSeparator c₀ then hexBytes (c₁ :: text)
    else if isHexDigit c₀ && isHexDigit c₁ then
      (hexBytes text).map (hexstrtouint8 c₀ c₁ :: ·)
    else none

/-- The bytes have room in `out`. -/
def Room (outlen : Option Nat) (n : Nat) : Prop := ∀ k ∈ outlen, n ≤ k

/-- What a call is to do. -/
def Decodes (outlen : Option Nat) (text : Bytes) (result : Option (Nat × Bytes)) : Prop :=
  (∀ bytes, hexBytes text = some bytes → Room outlen bytes.length →
    result = some (bytes.length, bytes)) ∧
  ((∀ bytes, hexBytes text = some bytes → ¬ Room outlen bytes.length) →
    result.map (·.1) = some 0)

/-- The last character is a separator; `skipping` says so of the one before the text. -/
def endsSkipping : Bool → Bytes → Bool
  | skipping, [] => skipping
  | _, c :: text => endsSkipping (isHexSeparator c) text

theorem isHexSeparator_ne_digit {c : UInt8} (hsep : isHexSeparator c = true)
    (hdigit : isHexDigit c = true) : False := by
  rcases of_decide_eq_true hsep with rfl | rfl | rfl | rfl <;> exact absurd hdigit (by decide)

variable {outlen : Option Nat} {skipping : Bool} {whole text out bytes : Bytes}

theorem hexBytes_pair {c0 c1 : UInt8} (hc : ¬ isHexSeparator c0) :
    hexBytes (c0 :: c1 :: text) = some bytes ↔
      isHexDigit c0 = true ∧ isHexDigit c1 = true ∧
        ∃ rest, hexBytes text = some rest ∧ hexstrtouint8 c0 c1 :: rest = bytes := by
  simp [hexBytes, hc, and_assoc]

/-- Digits are decoded if there is room for the bytes. -/
theorem hex2binLoop_of_room (h : hexBytes text = some bytes)
    (hroom : Room outlen (out.length + bytes.length)) :
    hex2binLoop whole outlen skipping text out =
      if endsSkipping skipping text then none
      else some (out.length + bytes.length, out ++ bytes) := by
  fun_induction hex2binLoop whole outlen skipping text out generalizing bytes with
  | case1 => simp_all [hexBytes, endsSkipping]
  | case2 => simp_all [hexBytes, endsSkipping]
  | case3 => simp_all [hexBytes, endsSkipping]
  | case4 => simp_all [hexBytes]
  | case5 _ c0 c1 hex out hc ih =>
    rw [hexBytes, if_pos hc] at h
    exact ih h hroom
  | case6 _ c0 c1 hex out hc hd =>
    obtain ⟨h0, h1, -⟩ := (hexBytes_pair hc).mp h
    simp [h0, h1] at hd
  | case7 _ c0 c1 hex out hc hd hfull =>
    obtain ⟨-, -, rest, -, rfl⟩ := (hexBytes_pair hc).mp h
    have := hroom _ hfull
    rw [List.length_cons] at this
    omega
  | case8 _ c0 c1 hex out hc hd hfull ih =>
    obtain ⟨h0, h1, rest, hrest, rfl⟩ := (hexBytes_pair hc).mp h
    have hsep : isHexSeparator c1 = false :=
      Bool.eq_false_iff.mpr fun hsep => isHexSeparator_ne_digit hsep h1
    rw [ih hrest (by simpa [Nat.add_assoc, Nat.add_comm 1] using hroom)]
    simp [endsSkipping, hsep, Nat.add_assoc, Nat.add_comm 1]

/-- What is not to be decoded ends at an error exit. -/
theorem hex2binLoop_of_not_room
    (h : ∀ bytes, hexBytes text = some bytes → ¬ Room outlen (out.length + bytes.length))
    (hroom : Room outlen out.length) :
    ∃ out', hex2binLoop whole outlen skipping text out = hexError whole out' := by
  fun_induction hex2binLoop whole outlen skipping text out with
  | case1 => simp_all [hexBytes]
  | case2 => simp_all [hexBytes]
  | case3 => simp_all [hexBytes]
  | case5 _ c0 c1 hex out hc ih =>
    rw [hexBytes, if_pos hc] at h
    exact ih h hroom
  | case8 _ c0 c1 hex out hc hd hfull ih =>
    simp only [Bool.or_eq_true, Bool.not_eq_true', not_or, Bool.not_eq_false] at hd
    refine ih (fun rest hrest hrest' => ?_) fun k hk => ?_
    · refine h _ ((hexBytes_pair hc).mpr ⟨hd.1, hd.2, rest, hrest, rfl⟩) ?_
      simpa [Nat.add_assoc, Nat.add_comm 1] using hrest'
    · have := hroom k hk
      have hne : out.length ≠ k := fun hk' => hfull (hk' ▸ hk)
      rw [List.length_append, List.length_singleton]
      omega
  | _ => exact ⟨_, rfl⟩

/-! ## Calls -/

theorem hexChars_spec (b : UInt8) :
    isHexDigit (hexChar (b.toUInt64 >>> 4)) = true ∧
      isHexDigit (hexChar (b.toUInt64 &&& 0xf)) = true ∧
      hexstrtouint8 (hexChar (b.toUInt64 >>> 4)) (hexChar (b.toUInt64 &&& 0xf)) = b := by
  have hall : ∀ n : Fin 256,
      isHexDigit (hexChar ((UInt8.ofFin n).toUInt64 >>> 4)) = true ∧
      isHexDigit (hexChar ((UInt8.ofFin n).toUInt64 &&& 0xf)) = true ∧
      hexstrtouint8 (hexChar ((UInt8.ofFin n).toUInt64 >>> 4))
        (hexChar ((UInt8.ofFin n).toUInt64 &&& 0xf)) = UInt8.ofFin n := by decide +kernel
  exact hall b.toFin

theorem bytes2HexStr_spec (data : Bytes) :
    hexBytes (bytes2HexStr data) = some data ∧ endsSkipping false (bytes2HexStr data) = false := by
  induction data with
  | nil => exact ⟨rfl, rfl⟩
  | cons b data ih =>
    obtain ⟨h0, h1, hb⟩ := hexChars_spec b
    have hsep : ∀ c, isHexDigit c = true → isHexSeparator c = false := fun c hc =>
      Bool.eq_false_iff.mpr fun hsep => isHexSeparator_ne_digit hsep hc
    refine ⟨(hexBytes_pair (by simp [hsep _ h0])).mpr ⟨h0, h1, data, ih.1, by rw [hb]⟩, ?_⟩
    simpa [bytes2HexStr, endsSkipping, hsep _ h1] using ih.2

theorem zero_notMem_of_hexBytes (h : hexBytes text = some bytes) : 0 ∉ text := by
  fun_induction hexBytes text generalizing bytes with
  | case1 => exact List.not_mem_nil
  | case2 c hc =>
    intro hzero
    rw [← List.mem_singleton.mp hzero] at hc
    cases hc
  | case3 => cases h
  | case4 c0 c1 text hc ih =>
    intro hzero
    rcases List.mem_cons.mp hzero with rfl | hzero
    · cases hc
    · exact ih h hzero
  | case5 c0 c1 text hc hd ih =>
    obtain ⟨rest, hrest, -⟩ := Option.map_eq_some_iff.mp h
    intro hzero
    rcases List.mem_cons.mp hzero with rfl | hzero
    · cases hd
    rcases List.mem_cons.mp hzero with rfl | hzero
    · simp [show isHexDigit 0 = false from rfl] at hd
    · exact ih hrest hzero
  | case6 => cases h

/-- A call decodes its text, or refuses it, without reading behind it, if and only if the text holds
a zero, or is well formed, has room in `out` and does not end in a separator. The text of bytes is
decoded to them. -/
theorem hex2binIn_decodes_iff (outlen : Option Nat) (text data : Bytes) :
    (Decodes outlen text (hex2binIn outlen text) ↔
      0 ∈ text ∨ endsSkipping false text = false ∧
        ∃ bytes, hexBytes text = some bytes ∧ Room outlen bytes.length) ∧
    (Room outlen data.length →
      hex2binIn outlen (bytes2HexStr data) = some (data.length, data)) := by
  unfold hex2binIn
  refine ⟨?_, fun hroom => ?_⟩
  · by_cases hbytes : ∃ bytes, hexBytes text = some bytes ∧ Room outlen bytes.length
    · obtain ⟨bytes, hbytes, hroom⟩ := hbytes
      have hzero := zero_notMem_of_hexBytes hbytes
      have hrun := @hex2binLoop_of_room outlen false text text [] bytes hbytes
        (by simpa using hroom)
      cases hend : endsSkipping false text <;> simp [Decodes, hrun, hend, hbytes, hroom, hzero]
    · rw [and_iff_right_of_imp fun h => absurd h hbytes]
      simp only [hbytes, or_false]
      simp only [not_exists, not_and] at hbytes
      obtain ⟨out, hrun⟩ := @hex2binLoop_of_not_room outlen false text text []
        (by simpa using hbytes) fun k _ => Nat.zero_le k
      by_cases hzero : 0 ∈ text
      · refine iff_of_true ⟨fun bytes h hroom => absurd hroom (hbytes bytes h), fun _ => ?_⟩ hzero
        rw [hrun, hexError, if_pos hzero]
        rfl
      · refine iff_of_false (fun h => ?_) hzero
        have hresult := h.2 hbytes
        rw [hrun, hexError, if_neg hzero] at hresult
        cases hresult
  · obtain ⟨hbytes, hend⟩ := bytes2HexStr_spec data
    rw [hex2binLoop_of_room hbytes (by simpa using hroom)]
    simp [hend]

/-- A space at the end leads behind the text, and with the terminator there zero is returned. The
message about a single digit is made from what stands behind it, too. -/
theorem last_separator_overruns :
    hex2binIn none (lit "AB ") = none ∧ hex2bin (lit "AB " ++ [0]) 3 8 = [] ∧
      hex2binIn none (lit "A") = none := by
  decide

end Clover.Xml
