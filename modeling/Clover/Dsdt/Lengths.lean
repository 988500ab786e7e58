import Clover.Aml.PkgLength
import Clover.Patch.Memory

/-!
# Resizing the length field of a package

The editing functions of `Platform/FixBiosDsdt.cpp` work on a table in place: `move_data` opens or
closes a gap, and `write_size` rewrites the length field of a package whose content has grown or
shrunk. The table stands in memory from address zero on, so that an address is an offset in it.

A length counts its own field, so a field that gets wider makes the length larger again.
`write_size` decides on the new width by the length without the change of width. It is wrong where
the change itself crosses a limit, and where a length shrinks over both limits at once.
`writeSize_iff` has the exact condition.
-/

namespace Clover.Dsdt

open Clover.Lib Clover.Aml Clover.Patch List

/-! ## The functions -/

/-- The value of an unsigned expression with a signed operand. -/
def uint32 (x : Int) : Nat := (x % 2 ^ 32).toNat

/-- One pass of the loop of `move_data` that moves bytes to the front. -/
def frontPass (last : Nat) (offset : Int) : Nat × Mem → Run (Pass (Nat × Mem) Mem)
  | (i, buffer) =>
    if i < last then .ok (.again (i + 1, buffer.store i (buffer (uint32 ((i : Int) - offset)))))
    else .ok (.leave buffer)

/-- One pass of the loop of `move_data` that moves bytes to the back. The counter is unsigned. -/
def backPass (start : Nat) (offset : Int) : Nat × Mem → Run (Pass (Nat × Mem) Mem)
  | (i, buffer) =>
    if start ≤ i then
      .ok (.again (uint32 ((i : Int) - 1), buffer.store (uint32 ((i : Int) + offset)) (buffer i)))
    else .ok (.leave buffer)

/-- The loops of `move_data`. -/
def moveBytes (fuel start : Nat) (buffer : Mem) (len : Nat) (offset : Int) : Run Mem :=
  if offset < 0 then
    Run.loop (frontPass (uint32 ((len : Int) + offset)) offset) fuel (start, buffer)
  else if 0 < offset ∧ 1 ≤ len then Run.loop (backPass start offset) fuel (len - 1, buffer)
  else .ok buffer

/-- The buffer after the move, and its new length. -/
def moveData (fuel start : Nat) (buffer : Mem) (len : Nat) (offset : Int) : Run (Mem × Nat) := do
  let buffer ← moveBytes fuel start buffer len offset
  .ok (buffer, uint32 ((len : Int) + offset))

/-- The length field at `adr`. -/
def getSize (buffer : Mem) (adr : Nat) : UInt32 :=
  Aml.getSize [buffer adr, buffer (adr + 1), buffer (adr + 2), buffer (adr + 3)] 0

/-- The function `aml_write_size` on a table. -/
def amlWriteSize (size : Nat) (buffer : Mem) (adr : Nat) : Mem :=
  copyMem buffer adr (sizeBytes (UInt32.ofNat size))

/-- The variable `offset` of `write_size`. The last branch is never taken. -/
def sizeFieldOffset (oldsize size : Nat) : Int :=
  if oldsize ≤ 0x3f ∧ 0x0fff < size then 2
  else if oldsize ≤ 0x3f ∧ 0x3f < size ∨ oldsize ≤ 0x0fff ∧ 0x0fff < size then 1
  else if size ≤ 0x3f ∧ 0x3f < oldsize ∨ size ≤ 0x0fff ∧ 0x0fff < oldsize then -1
  else if 0x0fff < oldsize ∧ size ≤ 0x3f then -2
  else 0

/-- The buffer with the new length, and by how much the field is wider. -/
def writeSize (fuel adr : Nat) (buffer : Mem) (len : Nat) (sizeoffset : Int) : Run (Mem × Int) :=
  let oldsize := (getSize buffer adr).toNat
  if oldsize = 0 then .ok (buffer, 0)
  else do
    let size := uint32 ((oldsize : Int) + sizeoffset)
    let offset := sizeFieldOffset oldsize size
    let (buffer, _) ← moveData fuel adr buffer len offset
    .ok (amlWriteSize (uint32 ((size : Int) + offset)) buffer adr, offset)

/-! ## Moves -/

theorem uint32_of_lt {x : Int} {n : Nat} (h : x = n) (hn : n < 2 ^ 32) : uint32 x = n := by
  unfold uint32
  omega

/-- What a move leaves: the bytes before `start` stay, and those of `[start, len)` stand `offset`
places further, except where that would be before `start`. -/
structure Moved (start len : Nat) (offset : Int) (m m' : Mem) : Prop where
  before : ∀ x, x < start → m' x = m x
  behind : ∀ x y : Nat, start ≤ x → x < len → start ≤ y → (y : Int) = x + offset → m' y = m x

/-- Nothing is moved to the back from the first byte on. -/
def Movable (start len : Nat) (offset : Int) : Prop := 0 < start ∨ offset ≤ 0 ∨ len = 0

section Moves

variable {m : Mem} {start len n fuel : Nat} {offset : Int}

/-- Bytes are moved to the front from the first one on. -/
theorem loop_frontPass (hn : n ≤ len) (hlen : len < 2 ^ 32) (hfuel : len < fuel) :
    Run.Returns (Run.loop (frontPass (len - n) (-(n : Int))) fuel (start, m))
      (Moved start len (-(n : Int)) m) := by
  -- the places before `i` already have their new bytes
  let I : Nat × Mem → Prop := fun s =>
    start ≤ s.1 ∧ (∀ x, x < start ∨ s.1 ≤ x → s.2 x = m x) ∧
      ∀ x, start ≤ x → x < s.1 → s.2 x = m (x + n)
  refine Run.returns_loop I (fun s => len - s.1) ?_ fuel (start, m) ?_ (by simp only; omega)
  · rintro ⟨i, b⟩ ⟨hstart, hsame, hmoved⟩
    by_cases hi : i < len - n
    · refine ⟨_, if_pos hi, ⟨Nat.le_succ_of_le hstart, ?_, ?_⟩, ?_⟩
      · intro x hx
        have hne : x ≠ i := by simp only at hx; omega
        simp only [Mem.store, if_neg hne]
        exact hsame x (by simp only at hx; omega)
      · intro x hx hlt
        simp only [Mem.store]
        split
        · next heq =>
          subst heq
          have hfrom : uint32 ((x : Int) - -(n : Int)) = x + n :=
            uint32_of_lt (by omega) (by omega)
          rw [hfrom]
          exact hsame (x + n) (by omega)
        · next hne => exact hmoved x hx (by simp only at hlt; omega)
      · omega
    · refine ⟨_, if_neg hi, ?_, ?_⟩
      · intro x hx
        exact hsame x (Or.inl hx)
      · intro x y hx hlt hy heq
        obtain rfl : x = y + n := by omega
        exact hmoved y hy (by omega)
  · refine ⟨Nat.le_refl _, fun x _ => rfl, fun x hx hlt => ?_⟩
    exact absurd hlt (Nat.not_lt.mpr hx)

theorem loop_backPass (hstart : 0 < start) (hpos : 0 < len) (hlen : len + n < 2 ^ 32)
    (hfuel : len < fuel) :
    Run.Returns (Run.loop (backPass start (n : Int)) fuel (len - 1, m))
      (Moved start len (n : Int) m) := by
  -- the bytes behind `i` already stand in their new places
  let I : Nat × Mem → Prop := fun s =>
    s.1 < len ∧ (∀ x, x ≤ s.1 ∨ x < start + n → s.2 x = m x) ∧
      ∀ x, start ≤ x → s.1 < x → x < len → s.2 (x + n) = m x
  refine Run.returns_loop I (fun s => s.1) ?_ fuel (len - 1, m) ?_ (by simp only; omega)
  · rintro ⟨i, b⟩ ⟨hi, hsame, hmoved⟩
    by_cases hle : start ≤ i
    · have hnext : uint32 ((i : Int) - 1) = i - 1 := uint32_of_lt (by omega) (by omega)
      have hto : uint32 ((i : Int) + n) = i + n := uint32_of_lt (by omega) (by omega)
      refine ⟨.again (i - 1, b.store (i + n) (b i)), ?_, ⟨by simp only; omega, ?_, ?_⟩, ?_⟩
      · simp [backPass, if_pos hle, hnext, hto]
      · intro x hx
        have hne : x ≠ i + n := by simp only at hx; omega
        simp only [Mem.store, if_neg hne]
        exact hsame x (by simp only at hx; omega)
      · intro x hx hlt hxlen
        simp only [Mem.store]
        split
        · next heq =>
          obtain rfl : x = i := by omega
          exact hsame x (Or.inl (Nat.le_refl x))
        · next hne => exact hmoved x hx (by simp only at hlt; omega) hxlen
      · omega
    · refine ⟨_, if_neg hle, ?_, ?_⟩
      · intro x hx
        exact hsame x (Or.inr (by omega))
      · intro x y hx hlt hy heq
        obtain rfl : y = x + n := by omega
        exact hmoved x hx (by omega) hlt
  · refine ⟨by simp only; omega, fun x _ => rfl, fun x _ hlt hxlen => ?_⟩
    omega

/-- A move returns, unless it is to the back and starts with the first byte. -/
theorem moveData_returns (hstart : Movable start len offset) (hlen : len < 2 ^ 32)
    {len' : Nat} (hlen' : (len' : Int) = len + offset) (hlt : len' < 2 ^ 32)
    (hfuel : len < fuel) :
    Run.Returns (moveData fuel start m len offset) fun r =>
      r.2 = len' ∧ Moved start len offset m r.1 := by
  have hnew : uint32 ((len : Int) + offset) = len' := uint32_of_lt hlen'.symm hlt
  refine Run.returns_bind (Q := Moved start len offset m) ?_
    fun m' hm' => Run.returns_ok ⟨hnew, hm'⟩
  unfold moveBytes
  rw [hnew]
  by_cases hneg : offset < 0
  · obtain ⟨n, rfl⟩ : ∃ n : Nat, offset = -(n : Int) := ⟨offset.natAbs, by omega⟩
    obtain rfl : len' = len - n := by omega
    rw [if_pos hneg]
    exact loop_frontPass (by omega) hlen hfuel
  · obtain ⟨n, rfl⟩ : ∃ n : Nat, offset = (n : Int) := ⟨offset.natAbs, by omega⟩
    by_cases hback : 0 < (n : Int) ∧ 1 ≤ len
    · rw [if_pos hback]
      exact loop_backPass (by unfold Movable at hstart; omega) hback.2 (by omega) hfuel
    · rw [if_neg hback]
      refine Run.returns_ok ⟨fun x _ => rfl, fun x y _ hx _ heq => ?_⟩
      obtain rfl : y = x := by omega
      rfl

/-- A move to the back that starts with the first byte does not return: its counter never gets
below zero. -/
theorem moveData_zero (hoffset : 0 < offset) (hlen : 1 ≤ len) (r : Mem × Nat) :
    moveData fuel 0 m len offset ≠ .ok r := by
  intro h
  unfold moveData moveBytes at h
  rw [if_neg (by omega), if_pos ⟨hoffset, hlen⟩] at h
  obtain ⟨m', hloop, -⟩ := bind_eq_ok.mp h
  refine Run.not_leaves (fun _ => True) ?_ trivial m' ⟨fuel, hloop⟩
  rintro ⟨i, b⟩ _
  have hagain : backPass 0 offset (i, b) = .ok (.again
      (uint32 ((i : Int) - 1), b.store (uint32 ((i : Int) + offset)) (b i))) := by
    simp [backPass]
  exact ⟨_, hagain, trivial⟩

/-- A move ends with the bytes in their places exactly if it is possible, and the new length is
no more than a `UINT32` holds. -/
theorem moveData_moves_iff (m : Mem) (hlen : len < 2 ^ 32) (hstart : start ≤ len)
    (hoffset : offset < 0 → start - offset ≤ len) :
    (∃ fuel, Run.Returns (moveData fuel start m len offset) fun r =>
        (r.2 : Int) = len + offset ∧ Moved start len offset m r.1) ↔
      Movable start len offset ∧ len + offset < 2 ^ 32 := by
  constructor
  · rintro ⟨fuel, r, hrun, hnew, -⟩
    refine ⟨?_, ?_⟩
    · by_contra hc
      unfold Movable at hc
      obtain rfl : start = 0 := by omega
      exact moveData_zero (by omega) (by omega) r hrun
    · obtain ⟨b, -, hb⟩ := bind_eq_ok.mp hrun
      rw [← Except.ok.inj hb, uint32] at hnew
      omega
  · rintro ⟨hmovable, hnew⟩
    obtain ⟨len', hlen'⟩ : ∃ n : Nat, (n : Int) = len + offset :=
      ⟨(len + offset).toNat, by omega⟩
    rw [← hlen']
    refine ⟨len + 1, ?_⟩
    simpa using moveData_returns hmovable hlen hlen' (by omega) len.lt_succ_self

/-- Three of four bytes are moved two places back, and one of them two places forward. -/
theorem moveData_moves_iff_sample :
    let m : Mem := fun a => [10, 11, 12, 13].getD a 0
    (∃ fuel, Run.Returns (moveData fuel 1 m 4 2) fun r =>
      (r.2 : Int) = 4 + 2 ∧ Moved 1 4 2 m r.1) ∧
    ∃ fuel, Run.Returns (moveData fuel 1 m 4 (-2)) fun r =>
      (r.2 : Int) = 4 + -2 ∧ Moved 1 4 (-2) m r.1 :=
  ⟨(moveData_moves_iff _ (by decide) (by decide) (by decide)).mpr (by unfold Movable; decide),
    (moveData_moves_iff _ (by decide) (by decide) (by decide)).mpr (by unfold Movable; decide)⟩

/-- A byte is to be put before the only byte of a buffer. -/
theorem first_byte_stuck : ¬ ∃ fuel r, moveData fuel 0 (fun _ => 0) 1 1 = .ok r := by
  rintro ⟨fuel, r, h⟩
  exact moveData_zero (by decide) (by decide) r h

end Moves

/-! ## Tables as lists of bytes -/

/-- A table with nothing behind it. -/
def tableOf (bytes : Bytes) : Mem := fun x => bytes.getD x 0

theorem holds_tableOf (bytes : Bytes) : Holds (tableOf bytes) 0 bytes := by
  intro k b hk
  rw [tableOf, Nat.zero_add, getD_eq_getElem?_getD, hk, Option.getD_some]

section Tables

variable {m m' : Mem} {before field behind : Bytes} {offset : Int}

/-- After a move that starts at `field`, what was behind it stands `offset` places further. -/
theorem Moved.holds {n : Nat} (hn : (n : Int) = field.length + offset)
    (h : Moved before.length (before ++ (field ++ behind)).length offset m m')
    (hm : Holds m 0 (before ++ (field ++ behind))) :
    Holds m' 0 before ∧ Holds m' (before.length + n) behind := by
  constructor
  · intro k b hk
    rw [h.before (0 + k) (by have := (List.getElem?_eq_some_iff.mp hk).1; omega)]
    exact hm.left k b hk
  · intro k b hk
    have hlt := (List.getElem?_eq_some_iff.mp hk).1
    have hfrom := hm.right.right k b hk
    rw [h.behind (0 + before.length + field.length + k) (before.length + n + k) (by omega)
      (by simp only [length_append]; omega) (by omega) (by omega)]
    exact hfrom

theorem holds_copyMem (hbefore : Holds m 0 before)
    (hbehind : Holds m (before.length + field.length) behind) :
    Holds (copyMem m before.length field) 0 (before ++ (field ++ behind)) := by
  intro k b hk
  rw [Nat.zero_add, copyMem_apply]
  by_cases hlt : k < before.length
  · rw [getElem?_append_left hlt] at hk
    rw [if_neg (by omega)]
    simpa only [Nat.zero_add] using hbefore k b hk
  · rw [getElem?_append_right (by omega)] at hk
    rw [if_pos (by omega)]
    by_cases hfield : k - before.length < field.length
    · rw [getElem?_append_left hfield] at hk
      rw [hk, Option.getD_some]
    · rw [getElem?_append_right (by omega)] at hk
      rw [getElem?_eq_none (by omega), Option.getD_none]
      have hb := hbehind _ b hk
      rwa [show before.length + field.length + (k - before.length - field.length) = k by omega]
        at hb

theorem fieldWidth_cases (s : Nat) :
    s ≤ 0x3f ∧ fieldWidth s = 1 ∨ 0x3f < s ∧ s ≤ 0xfff ∧ fieldWidth s = 2 ∨
    0xfff < s ∧ s ≤ 0xfffff ∧ fieldWidth s = 3 ∨ 0xfffff < s ∧ fieldWidth s = 4 := by
  unfold fieldWidth
  split
  · omega
  split
  · omega
  split <;> omega

theorem getSize_of_holds {size : UInt32} {adr : Nat} (hsize : size.toNat < 2 ^ 28)
    (h : Holds m adr (sizeBytes size)) : getSize m adr = size := by
  have hwidth : (sizeBytes size).length ≤ 4 := by
    rw [sizeBytes_length]
    have := fieldWidth_cases size.toNat
    omega
  obtain ⟨rest, hrest⟩ :
      sizeBytes size <+: [m adr, m (adr + 1), m (adr + 2), m (adr + 3)] := by
    rw [prefix_iff_getElem]
    refine ⟨hwidth, fun i hi => ?_⟩
    rw [← h i _ (getElem?_eq_getElem hi)]
    match i, Nat.lt_of_lt_of_le hi hwidth with
    | 0, _ => rfl
    | 1, _ => rfl
    | 2, _ => rfl
    | 3, _ => rfl
  rw [getSize, ← hrest]
  exact getSize_sizeBytes hsize [] rest

end Tables

/-! ## Resizing -/

/-- The outcome of `write_size` that the callers rely on: the field has the new length in the
fewest bytes, everything else stands around it as before, and the change of width is returned. -/
def Resized (before behind : Bytes) (s : UInt32) (d : Int) (r : Mem × Int) : Prop :=
  ∃ s' : UInt32, Holds r.1 0 (before ++ (sizeBytes s' ++ behind)) ∧
    getSize r.1 before.length = s' ∧ (s'.toNat : Int) = s.toNat + d + r.2 ∧
    r.2 = fieldWidth s'.toNat - fieldWidth s.toNat

/-- The condition for it. The length is that of a package, so not zero; it does not shrink from
three bytes to what would be one byte or just two, or grow from one byte to the largest length of
two or three; and a field that gets wider is not the first of the buffer. -/
def Resizable (adr s : Nat) (d : Int) : Prop :=
  0 < s ∧ ¬ (0xfff < s ∧ s + d ≤ 0x40) ∧ ¬ (s ≤ 0x3f ∧ (s + d = 0xfff ∨ s + d = 0xffffe)) ∧
    (adr = 0 → ¬ (s ≤ 0x3f ∧ 0x3f < s + d) ∧ ¬ (s ≤ 0xfff ∧ 0xfff < s + d))

instance (adr s : Nat) (d : Int) : Decidable (Resizable adr s d) :=
  inferInstanceAs (Decidable (_ ∧ _))

theorem sizeFieldOffset_cases (s t : Nat) :
    s ≤ 0x3f ∧ 0xfff < t ∧ sizeFieldOffset s t = 2 ∨
    s ≤ 0x3f ∧ 0x3f < t ∧ t ≤ 0xfff ∧ sizeFieldOffset s t = 1 ∨
    0x3f < s ∧ s ≤ 0xfff ∧ 0xfff < t ∧ sizeFieldOffset s t = 1 ∨
    0x3f < s ∧ t ≤ 0x3f ∧ sizeFieldOffset s t = -1 ∨
    0xfff < s ∧ 0x3f < t ∧ t ≤ 0xfff ∧ sizeFieldOffset s t = -1 ∨
    s ≤ 0x3f ∧ t ≤ 0x3f ∧ sizeFieldOffset s t = 0 ∨
    0x3f < s ∧ s ≤ 0xfff ∧ 0x3f < t ∧ t ≤ 0xfff ∧ sizeFieldOffset s t = 0 ∨
    0xfff < s ∧ 0xfff < t ∧ sizeFieldOffset s t = 0 := by
  unfold sizeFieldOffset
  split
  · next h => exact .inl ⟨h.1, h.2, rfl⟩
  split
  · next h2 h =>
    obtain h | h := h
    · exact .inr (.inl ⟨h.1, h.2, by omega, rfl⟩)
    · exact .inr (.inr (.inl ⟨by omega, h.1, h.2, rfl⟩))
  split
  · next h =>
    by_cases ht : t ≤ 0x3f
    · exact .inr (.inr (.inr (.inl ⟨by omega, ht, rfl⟩)))
    · exact .inr (.inr (.inr (.inr (.inl ⟨by omega, by omega, by omega, rfl⟩))))
  split
  · omega
  · by_cases hs1 : s ≤ 0x3f
    · exact .inr (.inr (.inr (.inr (.inr (.inl ⟨hs1, by omega, rfl⟩)))))
    · by_cases hs2 : s ≤ 0xfff
      · exact .inr (.inr (.inr (.inr (.inr (.inr (.inl
          ⟨by omega, hs2, by omega, by omega, rfl⟩))))))
      · exact .inr (.inr (.inr (.inr (.inr (.inr (.inr ⟨by omega, by omega, rfl⟩))))))

/-- The change of width is the right one, and the move returns, exactly under the condition. -/
theorem resizable_iff {adr s t u : Nat} {d : Int} (ht : (t : Int) = s + d) (hs : s ≤ 0xfffff)
    (h1 : 1 ≤ t) (h2 : t ≤ 0xffffe) (hu : (u : Int) = t + sizeFieldOffset s t) :
    Resizable adr s d ↔ 0 < s ∧ (0 < adr ∨ sizeFieldOffset s t ≤ 0) ∧
      sizeFieldOffset s t = fieldWidth u - fieldWidth s := by
  have hold := fieldWidth_cases s
  have hnew := fieldWidth_cases u
  unfold Resizable
  rcases sizeFieldOffset_cases s t with h | h | h | h | h | h | h | h <;> omega

section Resize

variable {m : Mem} {before behind : Bytes} {s : UInt32} {d : Int} {fuel t u : Nat}

theorem getSize_field (hs : s.toNat ≤ 0xfffff)
    (hm : Holds m 0 (before ++ (sizeBytes s ++ behind))) : getSize m before.length = s := by
  have hfield := hm.right.left
  rw [Nat.zero_add] at hfield
  exact getSize_of_holds (by omega) hfield

/-- The field gets the new size, and what follows it is moved. -/
theorem writeSize_eq (hs : s.toNat ≤ 0xfffff) (hpos : 0 < s.toNat)
    (hm : Holds m 0 (before ++ (sizeBytes s ++ behind)))
    (hlen : (before ++ (sizeBytes s ++ behind)).length + 2 < 2 ^ 32)
    (hfuel : (before ++ (sizeBytes s ++ behind)).length < fuel)
    (ht : (t : Int) = s.toNat + d) (ht2 : t ≤ 0xffffe)
    (hu : (u : Int) = t + sizeFieldOffset s.toNat t)
    (hmove : 0 < before.length ∨ sizeFieldOffset s.toNat t ≤ 0) :
    ∃ m1, Moved before.length (before ++ (sizeBytes s ++ behind)).length
        (sizeFieldOffset s.toNat t) m m1 ∧
      writeSize fuel before.length m (before ++ (sizeBytes s ++ behind)).length d =
        .ok (amlWriteSize u m1 before.length, sizeFieldOffset s.toNat t) := by
  have hoffset := sizeFieldOffset_cases s.toNat t
  have hwidth : 1 ≤ (sizeBytes s).length := by
    rw [sizeBytes_length]
    have := fieldWidth_cases s.toNat
    omega
  obtain ⟨len', hlen'⟩ : ∃ len' : Nat, (len' : Int) =
      ((before ++ (sizeBytes s ++ behind)).length : Int) + sizeFieldOffset s.toNat t := by
    refine ⟨(((before ++ (sizeBytes s ++ behind)).length : Int) +
      sizeFieldOffset s.toNat t).toNat, ?_⟩
    simp only [length_append] at hwidth ⊢
    omega
  obtain ⟨⟨m1, l1⟩, hrun, -, hmoved⟩ :=
    moveData_returns (m := m) (hmove.imp_right .inl) (by omega) hlen' (by omega) hfuel
  refine ⟨m1, hmoved, ?_⟩
  have hsize : uint32 ((s.toNat : Int) + d) = t := uint32_of_lt ht.symm (by omega)
  have hnew : uint32 ((t : Int) + sizeFieldOffset s.toNat t) = u :=
    uint32_of_lt hu.symm (by omega)
  unfold writeSize
  simp only [getSize_field hs hm, if_neg (Nat.ne_of_gt hpos), hsize, hnew, hrun, Run.ok_bind]

theorem Moved.resized (hm : Holds m 0 (before ++ (sizeBytes s ++ behind)))
    (ht : (t : Int) = s.toNat + d) (ht2 : t ≤ 0xffffe) {o : Int} (ho : o ≤ 2)
    (hu : (u : Int) = t + o) (hwidth : o = fieldWidth u - fieldWidth s.toNat) {m1 : Mem}
    (hmoved : Moved before.length (before ++ (sizeBytes s ++ behind)).length o m m1) :
    Resized before behind s d (amlWriteSize u m1 before.length, o) := by
  have hsize : (UInt32.ofNat u).toNat = u := UInt32.toNat_ofNat_of_lt' (by
    simp only [UInt32.size]
    omega)
  have hfield : (sizeBytes (UInt32.ofNat u)).length = fieldWidth u := by
    rw [sizeBytes_length, hsize]
  obtain ⟨hbefore, hbehind⟩ := hmoved.holds (n := fieldWidth u)
    (by rw [sizeBytes_length]; omega) hm
  have hholds : Holds (amlWriteSize u m1 before.length) 0
      (before ++ (sizeBytes (UInt32.ofNat u) ++ behind)) := by
    refine holds_copyMem hbefore ?_
    rw [hfield]
    exact hbehind
  refine ⟨UInt32.ofNat u, hholds, ?_, ?_, ?_⟩
  · have hget := hholds.right.left
    rw [Nat.zero_add] at hget
    exact getSize_of_holds (by omega) hget
  · omega
  · rw [hsize]
    exact hwidth

/-- `write_size` resizes a field exactly under this condition. -/
theorem writeSize_iff (hs : s.toNat ≤ 0xfffff)
    (hm : Holds m 0 (before ++ (sizeBytes s ++ behind)))
    (hlen : (before ++ (sizeBytes s ++ behind)).length + 2 < 2 ^ 32)
    (hd₁ : 1 ≤ s.toNat + d) (hd₂ : s.toNat + d ≤ 0xffffe)
    (hfuel : (before ++ (sizeBytes s ++ behind)).length < fuel) :
    Run.Returns
        (writeSize fuel before.length m (before ++ (sizeBytes s ++ behind)).length d)
        (Resized before behind s d) ↔
      Resizable before.length s.toNat d := by
  obtain ⟨t, ht⟩ : ∃ t : Nat, (t : Int) = s.toNat + d := ⟨(s.toNat + d).toNat, by omega⟩
  obtain ⟨u, hu⟩ : ∃ u : Nat, (u : Int) = t + sizeFieldOffset s.toNat t := by
    have := sizeFieldOffset_cases s.toNat t
    exact ⟨(t + sizeFieldOffset s.toNat t).toNat, by omega⟩
  rw [resizable_iff ht hs (by omega) (by omega) hu]
  constructor
  · rintro ⟨⟨m', w⟩, hrun, s', -, hget, hvalue, hwidth⟩
    have hpos : 0 < s.toNat := by
      by_contra hzero
      unfold writeSize at hrun
      simp only [getSize_field hs hm, if_pos (Nat.eq_zero_of_not_pos hzero)] at hrun
      cases hrun
      rw [getSize_field hs hm] at hget
      rw [← hget] at hvalue
      omega
    have hmove : 0 < before.length ∨ sizeFieldOffset s.toNat t ≤ 0 := by
      by_contra hc
      have hzero : before.length = 0 := by omega
      have hget₀ : getSize m 0 = s := hzero ▸ getSize_field hs hm
      have hsize : uint32 ((s.toNat : Int) + d) = t := uint32_of_lt ht.symm (by omega)
      unfold writeSize at hrun
      simp only [hzero, hget₀, if_neg (Nat.ne_of_gt hpos), hsize] at hrun
      obtain ⟨r, hmoved, -⟩ := bind_eq_ok.mp hrun
      refine moveData_zero (by omega) ?_ r hmoved
      have := fieldWidth_cases s.toNat
      simp only [length_append, sizeBytes_length]
      omega
    obtain ⟨m₁, -, heq⟩ := writeSize_eq hs hpos hm hlen hfuel ht (by omega) hu hmove
    rw [heq] at hrun
    cases hrun
    obtain rfl : u = s'.toNat := by omega
    exact ⟨hpos, hmove, hwidth⟩
  · rintro ⟨hpos, hmove, hwidth⟩
    obtain ⟨m₁, hmoved, heq⟩ := writeSize_eq hs hpos hm hlen hfuel ht (by omega) hu hmove
    rw [heq]
    apply Run.returns_ok
    have := sizeFieldOffset_cases s.toNat t
    exact Moved.resized hm ht (by omega) (by omega) hu hwidth hmoved

end Resize

/-- A length that grows from one byte to two. -/
theorem writeSize_iff_wider :
    Run.Returns (writeSize 4 1 (tableOf ([0x10] ++ (sizeBytes 0x3f ++ [0x2a])))
        ([0x10] ++ (sizeBytes 0x3f ++ [0x2a])).length 1) (Resized [0x10] [0x2a] 0x3f 1) :=
  (writeSize_iff (by decide) (holds_tableOf _) (by decide +kernel) (by decide) (by decide)
    (by decide +kernel)).mpr (by decide)

/-- A package of `0x1000` bytes that shrinks to `0x20` keeps the last byte of its old length. -/
theorem length_left_behind :
    Holds (tableOf [0x10, 0x80, 0x00, 0x01, 0x2a]) 0 ([0x10] ++ (sizeBytes 0x1000 ++ [0x2a])) ∧
      (writeSize 6 1 (tableOf [0x10, 0x80, 0x00, 0x01, 0x2a]) 5 (-0xfe0)).toOption.map
        (fun r => ([r.1 0, r.1 1, r.1 2, r.1 3], r.2)) = some ([0x10, 0x1f, 0x01, 0x2a], -1) ∧
      ¬ Run.Returns (writeSize 6 1 (tableOf [0x10, 0x80, 0x00, 0x01, 0x2a]) 5 (-0xfe0))
        (Resized [0x10] [0x2a] 0x1000 (-0xfe0)) := by
  have hrun : (writeSize 6 1 (tableOf [0x10, 0x80, 0x00, 0x01, 0x2a]) 5 (-0xfe0)).toOption.map
      (fun r => ([r.1 0, r.1 1, r.1 2, r.1 3], r.2)) = some ([0x10, 0x1f, 0x01, 0x2a], -1) := by
    decide +kernel
  have hbytes : [0x10] ++ (sizeBytes 0x1000 ++ [0x2a]) = [0x10, 0x80, 0x00, 0x01, 0x2a] := by
    decide +kernel
  refine ⟨hbytes ▸ holds_tableOf _, hrun, ?_⟩
  rintro ⟨r, hr, s', -, -, hvalue, hwidth⟩
  rw [hr] at hrun
  have hw : r.2 = -1 := congrArg Prod.snd (Option.some.inj hrun)
  have hs' : s'.toNat = 0x1f := by
    have : ((0x1000 : UInt32).toNat : Int) = 0x1000 := rfl
    omega
  rw [hw, hs'] at hwidth
  exact absurd hwidth (by decide)

end Clover.Dsdt
