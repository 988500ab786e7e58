import Mathlib

/-!
# Block moves in an array of cells

An array in memory is the list of its cells. `copyCells` is the effect of a block move such as
`memmove` or `CopyMem`, whose ranges may overlap: the source is read before the destination is
written. Shifting the used part of an array by one cell is how an element is removed from it or
makes place for a new one.
-/

namespace Clover.Lib

open List

variable {α : Type} (f : Nat → α → α) {cells : List α}

/-- Copy the `n` cells from `src` on to the place from `dst` on. -/
def copyCells (cells : List α) (dst src n : Nat) : List α :=
  cells.take dst ++ ((cells.drop src).take n ++ cells.drop (dst + n))

section Copy

variable {cells : List α} {dst src n : Nat}

theorem length_copyCells (hdst : dst + n ≤ cells.length) (hsrc : src + n ≤ cells.length) :
    (copyCells cells dst src n).length = cells.length := by
  simp only [copyCells, length_append, length_take, length_drop]
  omega

theorem getElem?_copyCells (hdst : dst + n ≤ cells.length) (hsrc : src + n ≤ cells.length)
    (i : Nat) : (copyCells cells dst src n)[i]? =
      if i < dst then cells[i]? else if i < dst + n then cells[src + (i - dst)]?
        else cells[i]? := by
  have htake : (cells.take dst).length = dst := by
    rw [length_take]
    omega
  have hblock : ((cells.drop src).take n).length = n := by
    rw [length_take, length_drop]
    omega
  unfold copyCells
  split
  · next h =>
    rw [getElem?_append_left (by omega), getElem?_take, if_pos h]
  next h =>
  rw [getElem?_append_right (by omega), htake]
  split
  · next h' =>
    rw [getElem?_append_left (by omega), getElem?_take, if_pos (by omega),
      getElem?_drop]
  · next h' =>
    rw [getElem?_append_right (by omega), hblock, getElem?_drop]
    congr 1
    omega

theorem take_copyCells {p : Nat} (hp : p ≤ dst) (hdst : dst ≤ cells.length) :
    (copyCells cells dst src n).take p = cells.take p := by
  rw [copyCells, take_append_of_le_length, take_take, Nat.min_eq_left hp]
  rw [length_take]
  omega

theorem drop_copyCells {a : Nat} (ha : a ≤ n) (hdst : dst ≤ cells.length)
    (hsrc : src + n ≤ cells.length) : (copyCells cells dst src n).drop (dst + a) =
      ((cells.drop src).take n).drop a ++ cells.drop (dst + n) := by
  have hlength : (cells.take dst).length = dst := by
    rw [length_take]
    omega
  have hblock : a ≤ ((cells.drop src).take n).length := by
    rw [length_take, length_drop]
    omega
  rw [copyCells, ← drop_drop, drop_left' hlength, drop_append_of_le_length hblock]

end Copy

/-- Write some cells over those from `pos` on. -/
def writeCells (cells : List α) (pos : Nat) (new : List α) : List α :=
  cells.take pos ++ (new ++ cells.drop (pos + new.length))

theorem writeCells_append {front old back new : List α} (h : old.length = new.length) :
    writeCells (front ++ (old ++ back)) front.length new = front ++ (new ++ back) := by
  rw [writeCells, take_left, ← h, ← length_append, ← append_assoc front old back,
    drop_left]

/-- Moving what stands behind `old` to where `new` will end, and writing `new`, replaces `old`. -/
theorem writeCells_copyCells {front old back rest new : List α}
    (hcells : cells = front ++ (old ++ (back ++ rest)))
    (hroom : front.length + new.length + back.length ≤ cells.length) :
    writeCells (copyCells cells (front.length + new.length) (front.length + old.length)
      back.length) front.length new =
      front ++ (new ++ (back ++ cells.drop (front.length + new.length + back.length))) := by
  have hblock : (cells.drop (front.length + old.length)).take back.length = back := by
    rw [hcells, ← append_assoc front old, ← length_append, drop_left, take_left]
  have hfront : cells.take front.length = front := by rw [hcells, take_left]
  have hsplit : cells.take (front.length + new.length) =
      front ++ (cells.drop front.length).take new.length := by
    rw [take_add, hfront]
  rw [copyCells, hblock, hsplit, append_assoc]
  apply writeCells_append
  rw [length_take, length_drop]
  omega

theorem take_copyCells_down {len i : Nat} (hi : i < len)
    (hlen : len ≤ cells.length) :
    (copyCells cells i (i + 1) (len - i - 1)).take (len - 1) = (cells.take len).eraseIdx i := by
  apply ext_getElem?
  intro j
  rw [getElem?_take, getElem?_eraseIdx, getElem?_take, getElem?_take,
    getElem?_copyCells (by omega) (by omega)]
  split
  · split
    · rw [if_pos (by omega)]
    · rw [if_pos (by omega), if_pos (by omega)]
      congr 1
      omega
  · split
    · rw [if_neg (by omega)]
    · rw [if_neg (by omega)]

theorem take_copyCells_up {len i : Nat} (hi : i < len)
    (hlen : len + 1 ≤ cells.length) (x : α) :
    ((copyCells cells (i + 1) i (len - i)).set i x).take (len + 1) =
      (cells.take len).insertIdx i x := by
  have hlength : (copyCells cells (i + 1) i (len - i)).length = cells.length :=
    length_copyCells (by omega) (by omega)
  apply ext_getElem?
  intro j
  rw [getElem?_take, getElem?_insertIdx, getElem?_take, getElem?_take,
    getElem?_set, hlength, getElem?_copyCells (by omega) (by omega), length_take]
  grind

/-! ## Loops over the cells -/

/-- A loop over the first `n` cells that rewrites each of them. -/
def forCells (f : Nat → α → α) (n : Nat) (cells : List α) : List α :=
  (range n).foldl (fun cells i => cells.modify i (f i)) cells

theorem forCells_succ (n : Nat) (cells : List α) :
    forCells f (n + 1) cells = (forCells f n cells).modify n (f n) := by
  rw [forCells, range_succ, foldl_append]
  rfl

@[simp]
theorem length_forCells (n : Nat) (cells : List α) :
    (forCells f n cells).length = cells.length := by
  induction n with
  | zero => rfl
  | succ n ih => rw [forCells_succ, length_modify, ih]

theorem getElem?_forCells (n : Nat) (cells : List α) (i : Nat) :
    (forCells f n cells)[i]? = if i < n then cells[i]?.map (f i) else cells[i]? := by
  induction n with
  | zero => rfl
  | succ n ih =>
    rw [forCells_succ, getElem?_modify, ih]
    by_cases h : n = i
    · simp only [h, if_true, if_neg (Nat.lt_irrefl i), if_pos (Nat.lt_succ_self i)]
      rfl
    · simp only [h, if_false, id_map']
      by_cases h' : i < n
      · rw [if_pos h', if_pos (by omega)]
      · rw [if_neg h', if_neg (by omega)]

/-- One round of a compaction in place: the cell at `source` moves to the end of what is kept. -/
def compactStep (keep : α → Bool) (s : Nat × List α) (source : Nat) : Nat × List α :=
  match s.2[source]? with
  | some a => if keep a then (s.1 + 1, s.2.set s.1 a) else s
  | none => s

/-- Compact the first `n` cells in place; the result has the number of cells that are kept. -/
def compact (keep : α → Bool) (n : Nat) (cells : List α) : Nat × List α :=
  (range n).foldl (compactStep keep) (0, cells)

theorem compact_succ (keep : α → Bool) (n : Nat) (cells : List α) :
    compact keep (n + 1) cells = compactStep keep (compact keep n cells) n := by
  rw [compact, range_succ, foldl_append]
  rfl

/-- The second cursor never passes the first: what is still to be read is untouched. -/
theorem compact_spec (keep : α → Bool) {n : Nat} (hn : n ≤ cells.length) :
    let s := compact keep n cells
    s.2.length = cells.length ∧ s.1 ≤ n ∧ s.2.take s.1 = (cells.take n).filter keep ∧
      s.2.drop n = cells.drop n := by
  induction n with
  | zero => exact ⟨rfl, Nat.le_refl 0, rfl, rfl⟩
  | succ n ih =>
    obtain ⟨hlength, hle, htake, hdrop⟩ := ih (by omega)
    rw [compact_succ]
    generalize compact keep n cells = s at hlength hle htake hdrop
    have hread : s.2[n]? = some (cells[n]) := by
      have h := congrArg (fun l => l[0]?) hdrop
      simp only [getElem?_drop, Nat.add_zero] at h
      rw [h, getElem?_eq_getElem]
    have hnext : s.2.drop (n + 1) = cells.drop (n + 1) := by
      rw [← drop_drop, ← drop_drop, hdrop]
    have hfilter : (cells.take (n + 1)).filter keep =
        (cells.take n).filter keep ++ [cells[n]].filter keep := by
      rw [take_succ_eq_append_getElem (by omega), filter_append]
    rw [compactStep, hread]
    dsimp only
    split
    · next hkeep =>
      refine ⟨?_, by omega, ?_, ?_⟩
      · rw [length_set, hlength]
      · rw [hfilter, filter_cons_of_pos hkeep, filter_nil, ← htake,
          take_succ_eq_append_getElem (by rw [length_set]; omega),
          take_set_of_le (Nat.le_refl s.1), getElem_set_self]
      · rw [drop_set_of_lt (by omega), hnext]
    · next hkeep =>
      refine ⟨hlength, by omega, ?_, hnext⟩
      rw [hfilter, filter_cons_of_neg hkeep, filter_nil, append_nil, htake]

end Clover.Lib
