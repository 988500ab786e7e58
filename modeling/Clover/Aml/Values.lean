import Clover.Aml.Generator

/-!
# Property values

The values of device properties go into the generated code as buffers and strings. Their nodes keep
the length in eight bits, and `aml_add_byte_buffer` copies as many bytes as the node has, which is
two more than it was given: no byte buffer survives, and strings do up to a length
(`value_survives_iff`).
-/

namespace Clover.Aml

open Clover.Lib List

/-- The characters of an ASCII string, without its terminator. -/
abbrev AsciiString := { s : Bytes // ∀ b ∈ s, b ≠ 0 ∧ b < 0x80 }

/-- A value and the function that adds it. -/
inductive Value where
  | byteBuffer (data : Bytes)
  | stringBuffer (string : AsciiString)
  | string (string : AsciiString)

def Value.node : Value → AmlChunk
  | .byteBuffer data => amlAddByteBuffer data
  | .stringBuffer s => amlAddStringBuffer s.1
  | .string s => amlAddString s.1

/-- The bytes in memory that are the value: a string has its terminator. -/
def Value.bytes : Value → Bytes
  | .byteBuffer data => data
  | .stringBuffer s | .string s => s.1 ++ [0]

/-- The number of bytes that are read, from the first one on: by `CopyMem`, which takes the `Length`
of the node for a byte buffer, and by `AsciiStrLen`. -/
def Value.bytesRead : Value → Nat
  | .byteBuffer data => (data.length + 2).toUInt8.toNat
  | .stringBuffer s | .string s => s.1.length + 1

/-! ## Decoding -/

/-- The bytes of a buffer whose size is a byte constant. -/
def bufferContents : Bytes → Option Bytes
  | constant :: size :: data =>
    if constant = ChunkType.byte.code ∧ data.length = size.toNat then some data else none
  | _ => none

/-- The contents of a Buffer or String object. -/
def decodeData : Bytes → Option Bytes
  | [] => none
  | opcode :: rest =>
    if opcode = ChunkType.buffer.code then
      if rest.length = (getSize rest 0).toNat then
        bufferContents (rest.drop ((rest.getD 0 0 >>> 6).toNat + 1))
      else none
    else if opcode = ChunkType.string.code ∧ rest.getLast? = some 0 ∧ 0 ∉ rest.dropLast then
      some rest
    else none

/-- The bytes written for a tree. -/
def code (t : AmlChunk) : Bytes := amlWriteNode (amlCalculateSize t) []

/-- The length field of a buffer node with these bytes of contents. -/
def bufferField (length : UInt8) : UInt32 :=
  let size : UInt16 := 0 + (1 + length.toUInt16)
  (size + (amlGetSizeLength size.toUInt32).toUInt16).toUInt32 - 1

theorem bufferField_spec (length : UInt8) :
    (bufferField length).toNat < 2 ^ 28 ∧
      (sizeBytes (bufferField length)).length + length.toNat = (bufferField length).toNat ∧
      0 < (sizeBytes (bufferField length)).length ∧
      ((sizeBytes (bufferField length)).getD 0 0 >>> 6).toNat + 1 =
        (sizeBytes (bufferField length)).length := by
  revert length
  apply forall_byte
  decide +kernel

theorem decodeData_buffer {length : UInt8} {buffer : Bytes}
    (h : buffer.length = length.toNat) :
    decodeData (code (.leaf .buffer length.toUInt16 buffer)) = bufferContents buffer := by
  obtain ⟨hlt, hlength, hpos, hwidth⟩ := bufferField_spec length
  have hcode : code (.leaf .buffer length.toUInt16 buffer) =
      ChunkType.buffer.code :: (sizeBytes (bufferField length) ++ buffer) := by
    have htake : buffer.take length.toUInt16.toNat = buffer := by
      rw [UInt8.toNat_toUInt16, ← h, take_length]
    show _ :: (_ ++ buffer.take length.toUInt16.toNat) = _
    rw [htake]
    rfl
  have hsize := getSize_sizeBytes hlt [] buffer
  rw [nil_append, length_nil] at hsize
  rw [hcode, decodeData, if_pos rfl, hsize, length_append, h, hlength, if_pos rfl,
    getD_append _ _ _ _ hpos, hwidth, drop_left]

theorem bufferContents_take {size : UInt8} {data : Bytes} {n : Nat}
    (hn : n ≤ data.length + 2) :
    bufferContents (([ChunkType.byte.code, size] ++ data).take n) = some data ↔
      n = data.length + 2 ∧ size.toNat = data.length := by
  match n with
  | 0 => simp [bufferContents]
  | 1 => simp [bufferContents]
  | n + 2 =>
    have htake : ([ChunkType.byte.code, size] ++ data).take (n + 2) =
        ChunkType.byte.code :: size :: data.take n := rfl
    rw [htake, bufferContents]
    constructor
    · intro h
      split at h
      · next hsize =>
        have hdata : data.take n = data := Option.some.inj h
        have hlength := congrArg length hdata
        rw [length_take] at hlength
        rw [hdata] at hsize
        exact ⟨by omega, hsize.2.symm⟩
      · cases h
    · rintro ⟨hlength, hsize⟩
      rw [take_of_length_le (by omega), if_pos ⟨rfl, hsize.symm⟩]

/-! ## Which values survive -/

/-- The constructor reads only the value, and the code decodes to it. -/
def Value.Survives (v : Value) : Prop :=
  v.bytesRead ≤ v.bytes.length ∧ decodeData (code v.node) = some v.bytes

/-- The values that are short enough. -/
def Value.Fits : Value → Prop
  | .byteBuffer _ => False
  | .stringBuffer s => s.1.length ≤ 252
  | .string s => s.1.length ≤ 254

theorem toNat_toUInt8 (n : Nat) : n.toUInt8.toNat = n % 256 := UInt8.toNat_ofNat'

theorem value_survives_iff (v : Value) : v.Survives ↔ v.Fits := by
  cases v with
  | byteBuffer data =>
    refine iff_of_false (fun ⟨hread, hdecode⟩ => ?_) id
    have hread : (data.length + 2).toUInt8.toNat ≤ data.length := hread
    have hmod := Nat.mod_le (data.length + 2) 256
    rw [toNat_toUInt8] at hread
    rw [Value.node, amlAddByteBuffer, decodeData_buffer (by simp; omega)] at hdecode
    have hall := (bufferContents_take (by rw [toNat_toUInt8]; omega)).mp hdecode
    rw [toNat_toUInt8] at hall
    omega
  | stringBuffer s =>
    have hmod := Nat.mod_le (s.1.length + 3) 256
    have hlength : (s.1 ++ [0]).length = s.1.length + 1 := length_append
    show s.1.length + 1 ≤ _ ∧ decodeData (code (amlAddStringBuffer s.1)) = some (s.1 ++ [0]) ↔
      s.1.length ≤ 252
    rw [amlAddStringBuffer, decodeData_buffer (by simp; omega), append_assoc,
      bufferContents_take (by rw [toNat_toUInt8, hlength]; omega), toNat_toUInt8, toNat_toUInt8]
    show s.1.length + 1 ≤ (s.1 ++ [0]).length ∧ _ ↔ _
    omega
  | string s =>
    obtain ⟨s, hs⟩ := s
    have hlength : (s ++ [0]).length = s.length + 1 := length_append
    have hmod := Nat.mod_le (s.length + 1) 256
    have hcode : code (amlAddString s) =
        ChunkType.string.code :: (s ++ [0]).take ((s.length + 1) % 256) := by
      show _ :: (take _ _).take _ = _
      rw [UInt8.toNat_toUInt16, take_take, Nat.min_self, toNat_toUInt8]
    show s.length + 1 ≤ (s ++ [0]).length ∧ decodeData (code (amlAddString s)) = some (s ++ [0]) ↔
      s.length ≤ 254
    rw [hcode, hlength, and_iff_right (Nat.le_refl _), decodeData, if_neg (by decide)]
    constructor
    · intro h
      split at h
      · have hall := congrArg length (Option.some.inj h)
        rw [length_take, hlength] at hall
        omega
      · cases h
    · intro hshort
      have hterminator : 0 ∉ s := fun h0 => (hs 0 h0).1 rfl
      rw [take_of_length_le (by omega), if_pos]
      exact ⟨rfl, getLast?_concat, by rwa [dropLast_concat]⟩

/-- Of one byte the constructor reads three, and of 300 bytes 44 are left. -/
theorem byteBuffer_lost :
    (Value.byteBuffer [1]).bytesRead = 3 ∧
    decodeData (code (Value.byteBuffer (replicate 300 7)).node) =
      some (replicate 44 7) := by
  decide +kernel

end Clover.Aml
