import Clover.Lib.Bytes

/-!
# Reading a format

A reader takes a value from the start of some bytes and leaves the others. `Reads r bytes a` says
that `r` takes the value `a` from `bytes`, whatever follows them: that `bytes` is an encoding of `a`
in the format that `r` reads. The rules follow the way readers are put together, so that a round
trip is proved along the definition of the reader.
-/

namespace Clover.Lib

open List

variable {bs : Bytes}

def Reader (α : Type) : Type := Bytes → Option (α × Bytes)

namespace Reader

variable {α β : Type} {r : Reader α} {a : α}

instance : Monad Reader where
  pure a := fun bytes => some (a, bytes)
  bind r f := fun bytes => (r bytes).bind fun s => f s.1 s.2

/-- The next `n` bytes. -/
def bytes (n : Nat) : Reader Bytes := fun bs =>
  if n ≤ bs.length then some (bs.take n, bs.drop n) else none

/-- A number of `n` bytes. -/
def le (n : Nat) : Reader Nat := do
  let bs ← bytes n
  return leValue bs

def byte : Reader UInt8
  | [] => none
  | b :: bs => some (b, bs)

def fail : Reader α := fun _ => none

def check (p : Bool) : Reader Unit := fun bs => if p then some ((), bs) else none

/-- A fixed sequence of bytes. -/
def literal (bs : Bytes) : Reader Unit := do
  let cs ← bytes bs.length
  check (cs == bs)

def times : Nat → Reader α → Reader (List α)
  | 0, _ => return []
  | n + 1, r => do
    let a ← r
    let as ← times n r
    return a :: as

/-- A reader together with the number of bytes that it takes. -/
def counted (r : Reader α) : Reader (α × Nat) := fun bs =>
  (r bs).map fun s => ((s.1, bs.length - s.2.length), s.2)

/-- The reader takes `a` from `bs`, whatever follows. -/
def Reads (r : Reader α) (bs : Bytes) (a : α) : Prop :=
  ∀ rest, r (bs ++ rest) = some (a, rest)

/-! ## Rules -/

theorem reads_pure (a : α) : Reads (pure a) [] a := fun _ => rfl

theorem Reads.bind_eq (h : Reads r bs a) (f : α → Reader β) (rest : Bytes) :
    (r >>= f) (bs ++ rest) = f a rest := by
  change (r (bs ++ rest)).bind _ = _
  rw [h]
  rfl

theorem reads_bind {f : α → Reader β} {cs : Bytes} {b : β} (hr : Reads r bs a)
    (hf : Reads (f a) cs b) : Reads (r >>= f) (bs ++ cs) b := by
  intro rest
  rw [append_assoc, hr.bind_eq]
  exact hf rest

theorem reads_bind_pure (g : α → β) (hr : Reads r bs a) :
    Reads (r >>= fun a => pure (g a)) bs (g a) := by
  have hread : Reads (r >>= fun a => pure (g a)) (bs ++ []) (g a) := reads_bind hr (reads_pure _)
  rwa [append_nil] at hread

theorem reads_bytes (bs : Bytes) : Reads (bytes bs.length) bs bs := by
  intro rest
  rw [bytes, if_pos (by rw [length_append]; omega), take_left, drop_left]

theorem reads_bytes_of_length {n : Nat} (h : bs.length = n) : Reads (bytes n) bs bs :=
  h ▸ reads_bytes bs

theorem reads_byte (b : UInt8) : Reads byte [b] b := fun _ => rfl

theorem reads_check_bind {p : Bool} {f : Unit → Reader β} {b : β} (h : p = true)
    (hf : Reads (f ()) bs b) : Reads (check p >>= f) bs b := by
  intro rest
  change (check p (bs ++ rest)).bind _ = _
  rw [check, if_pos h]
  exact hf rest

theorem reads_le {n v : Nat} (h : v < 2 ^ (8 * n)) : Reads (le n) (leBytes n v) v := by
  have hread : Reads (le n) (leBytes n v) (leValue (leBytes n v)) :=
    reads_bind_pure leValue (reads_bytes_of_length (length_leBytes n v))
  rwa [leValue_leBytes, Nat.mod_eq_of_lt h] at hread

theorem reads_literal (bs : Bytes) : Reads (literal bs) bs () := by
  have hread : Reads (literal bs) (bs ++ []) () := by
    refine reads_bind (reads_bytes bs) (fun rest => ?_)
    rw [check, if_pos (beq_self_eq_true bs)]
    rfl
  rwa [append_nil] at hread

theorem reads_times (encode : β → Bytes) (view : β → α) {bs : List β}
    (h : ∀ b ∈ bs, Reads r (encode b) (view b)) :
    Reads (times bs.length r) (bs.flatMap encode) (bs.map view) := by
  induction bs with
  | nil => exact reads_pure []
  | cons b bs ih =>
    rw [flatMap_cons, length_cons, map_cons, times]
    refine reads_bind (h b mem_cons_self) ?_
    exact reads_bind_pure _ (ih fun c hc => h c (mem_cons_of_mem b hc))

theorem times_eq_none (encode : β → Bytes) (view : β → α) {bs : List β}
    (h : ∀ b ∈ bs, Reads r (encode b) (view b) ∨ ∀ rest, r (encode b ++ rest) = none)
    (hbad : ∃ b ∈ bs, ∀ rest, r (encode b ++ rest) = none) (rest : Bytes) :
    times bs.length r (bs.flatMap encode ++ rest) = none := by
  induction bs with
  | nil =>
    obtain ⟨b, hb, -⟩ := hbad
    cases hb
  | cons b bs ih =>
    rw [flatMap_cons, length_cons, append_assoc]
    change (r (encode b ++ _)).bind _ = none
    rcases h b mem_cons_self with hread | hnone
    · rw [hread, Option.bind_some]
      change (times bs.length r (bs.flatMap encode ++ rest)).bind _ = none
      by_cases hb : ∀ rest, r (encode b ++ rest) = none
      · have hread' := hread []
        rw [hb] at hread'
        cases hread'
      · rw [ih (fun c hc => h c (mem_cons_of_mem b hc))]
        · rfl
        · obtain ⟨c, hc, hnone⟩ := hbad
          rcases mem_cons.mp hc with rfl | hc
          · exact absurd hnone hb
          · exact ⟨c, hc, hnone⟩
    · rw [hnone]
      rfl

theorem reads_counted (h : Reads r bs a) : Reads (counted r) bs (a, bs.length) := by
  intro rest
  rw [counted, h rest, Option.map_some, length_append, Nat.add_sub_cancel]

end Reader

end Clover.Lib
