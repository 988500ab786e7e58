import Clover.Lib.Cells

/-!
# Arrays of object references

The class template `XObjArrayNC` of `cpp_foundation/XObjArray.h`: a growing array of entries, each
with a pointer and the flag `FreeIt`, which says whether the array owns the object. The model
keeps the allocated cells, of which the first `_Len` are in use, and the objects deleted so far.

Two abstractions are compared with it. As a container the array is a list of pointers
(`Op.onList`). As an owner it is an account (`Account`): what was added with ownership has been
deleted, is still held, or was taken out. The main result is `xObjArray_refines_list`.
-/

namespace Clover.Foundation

open Clover.Lib List

/-- The class template `XObjArrayEntry`. -/
structure XObjArrayEntry (P : Type) where
  object : P
  freeIt : Bool
  deriving DecidableEq, Repr

/-- An array: its cells (`_Data`, of which there are `m_allocatedSize`), the number `_Len` of those
in use, and the objects that have been deleted, in order. -/
structure XObjArray (P : Type) where
  data : List (XObjArrayEntry P)
  len : Nat
  deleted : List P
  len_le : len ≤ data.length

namespace XObjArray

variable {P : Type}

/-- The entries in use. -/
def entries (a : XObjArray P) : List (XObjArrayEntry P) := a.data.take a.len

@[simp] theorem length_entries (a : XObjArray P) : a.entries.length = a.len := by
  rw [entries, length_take, Nat.min_eq_left a.len_le]

/-! ## Functions of the source -/

/-- An array as the constructor leaves it. -/
def init : XObjArray P := ⟨[], 0, [], Nat.le_refl 0⟩

/-- What the allocator leaves in a new cell. -/
abbrev Fresh (P : Type) := Nat → XObjArrayEntry P

variable (fresh : Fresh P) (a : XObjArray P)

/-- `Xrealloc`: the old cells, and new ones with anything in them. -/
def xrealloc (fresh : Fresh P) (data : List (XObjArrayEntry P)) (n : Nat) :
    List (XObjArrayEntry P) :=
  data ++ (range (n - data.length)).map fresh

theorem length_xrealloc {data : List (XObjArrayEntry P)} {n : Nat} (h : data.length ≤ n) :
    (xrealloc fresh data n).length = n := by
  rw [xrealloc, length_append, length_map, length_range]
  omega

def xArrayGrowByDefault : Nat := 8

/-- Grow the storage if it is too small. -/
def checkSize (fresh : Fresh P) (a : XObjArray P) (nNewSize nGrowBy : Nat) : XObjArray P :=
  if h : a.data.length < nNewSize then
    { a with
      data := xrealloc fresh a.data (nNewSize + (nGrowBy + 1))
      len_le := by
        have hlen := a.len_le
        rw [length_xrealloc fresh (by omega)]
        omega }
  else a

theorem checkSize_spec (nNewSize nGrowBy : Nat) :
    nNewSize ≤ (a.checkSize fresh nNewSize nGrowBy).data.length ∧
      (a.checkSize fresh nNewSize nGrowBy).len = a.len ∧
      (a.checkSize fresh nNewSize nGrowBy).deleted = a.deleted ∧
      (a.checkSize fresh nNewSize nGrowBy).entries = a.entries := by
  unfold checkSize
  split
  · next h =>
    refine ⟨?_, rfl, rfl, ?_⟩
    · rw [length_xrealloc fresh (by omega)]
      omega
    · exact take_append_of_le_length a.len_le
  · next h => exact ⟨Nat.le_of_not_lt h, rfl, rfl, rfl⟩

/-- The new array and the index of the new element. -/
def addReference (fresh : Fresh P) (a : XObjArray P) (newElement : P) (freeIt : Bool) :
    XObjArray P × Nat :=
  let b := a.checkSize fresh (a.len + 1) xArrayGrowByDefault
  have hb : a.len + 1 ≤ b.data.length ∧ b.len = a.len :=
    ⟨(checkSize_spec fresh a _ _).1, (checkSize_spec fresh a _ _).2.1⟩
  (⟨b.data.set b.len ⟨newElement, freeIt⟩, b.len + 1, b.deleted, by rw [length_set]; omega⟩,
    b.len)

def insertRef (fresh : Fresh P) (a : XObjArray P) (newElement : P) (pos : Nat) (freeIt : Bool) :
    XObjArray P × Nat :=
  if h : pos < a.len then
    let b := a.checkSize fresh (a.len + 1) xArrayGrowByDefault
    have hb : a.len + 1 ≤ b.data.length ∧ b.len = a.len :=
      ⟨(checkSize_spec fresh a _ _).1, (checkSize_spec fresh a _ _).2.1⟩
    (⟨(copyCells b.data (pos + 1) pos (b.len - pos)).set pos ⟨newElement, freeIt⟩, b.len + 1,
      b.deleted, by rw [length_set, length_copyCells (by omega) (by omega)]; omega⟩, pos)
  else a.addReference fresh newElement freeIt

/-- The entry of a cell in use. -/
def cell (a : XObjArray P) (i : Nat) (h : i < a.len) : XObjArrayEntry P :=
  a.data.get ⟨i, Nat.lt_of_lt_of_le h a.len_le⟩

theorem getElem?_entries {i : Nat} (h : i < a.len) : a.entries[i]? = some (a.cell i h) := by
  rw [entries, getElem?_take, if_pos h, getElem?_eq_getElem]
  rfl

/-- The end of both functions that remove an entry: the cells behind it move down. -/
def closeUp (a : XObjArray P) (uIndex : Nat) (h : uIndex < a.len) : XObjArray P where
  data := if uIndex < a.len - 1 then copyCells a.data uIndex (uIndex + 1) (a.len - uIndex - 1)
    else a.data
  len := a.len - 1
  deleted := a.deleted
  len_le := by
    have hlen := a.len_le
    split
    · rw [length_copyCells (by omega) (by omega)]
      omega
    · omega

/-- An index that is out of range is only logged. -/
def removeAtIndex (a : XObjArray P) (nIndex : Int) : XObjArray P :=
  if nIndex < 0 then a
  else if h : nIndex.toNat < a.len then
    let b := a.closeUp nIndex.toNat h
    if (a.cell nIndex.toNat h).freeIt then
      { b with deleted := b.deleted ++ [(a.cell nIndex.toNat h).object] }
    else b
  else a

/-- The new array and the object, if the index is in range. -/
def removeWithoutFreeingAtIndex (a : XObjArray P) (nIndex : Int) : XObjArray P × Option P :=
  if nIndex < 0 then (a, none)
  else if h : nIndex.toNat < a.len then
    (a.closeUp nIndex.toNat h, some (a.cell nIndex.toNat h).object)
  else (a, none)

/-- One pass of the loop of `setEmpty`: delete the object if it is owned. -/
def free (deleted : List P) (e : XObjArrayEntry P) : List P :=
  if e.freeIt then deleted ++ [e.object] else deleted

/-- Delete what is owned, and keep nothing. -/
def setEmpty (a : XObjArray P) : XObjArray P :=
  if 0 < a.len then
    { a with deleted := a.entries.foldl free a.deleted, len := 0, len_le := Nat.zero_le _ }
  else a

/-! ## Entries -/

theorem entries_eq_nil {a : XObjArray P} (h : a.len = 0) : a.entries = [] :=
  eq_nil_of_length_eq_zero ((length_entries a).trans h)

theorem entries_addReference (p : P) (f : Bool) :
    (a.addReference fresh p f).1.entries = a.entries ++ [⟨p, f⟩] := by
  obtain ⟨hsize, hlen, -, hentries⟩ := checkSize_spec fresh a (a.len + 1) xArrayGrowByDefault
  unfold addReference
  rw [← hentries, entries, entries, take_succ_eq_append_getElem (by rw [length_set]; omega),
    getElem_set_self, take_set, set_eq_of_length_le]
  rw [length_take]
  exact Nat.min_le_left _ _

theorem entries_insertRef (p : P) (pos : Nat) (f : Bool) :
    (a.insertRef fresh p pos f).1.entries =
      if pos < a.entries.length then a.entries.insertIdx pos ⟨p, f⟩ else a.entries ++ [⟨p, f⟩] := by
  obtain ⟨hsize, hlen, -, hentries⟩ := checkSize_spec fresh a (a.len + 1) xArrayGrowByDefault
  unfold insertRef
  rw [length_entries]
  split
  · next h =>
    rw [entries, take_copyCells_up (by omega) (by omega), ← hentries]
    rfl
  · exact entries_addReference fresh a p f

theorem entries_closeUp {i : Nat} (h : i < a.len) :
    (a.closeUp i h).entries = a.entries.eraseIdx i := by
  have hlen := a.len_le
  unfold closeUp entries
  split
  · exact take_copyCells_down h hlen
  · next hlast =>
    obtain rfl : i = a.len - 1 := by omega
    rw [eraseIdx_eq_take_drop_succ, take_take, Nat.min_eq_left (Nat.sub_le _ _),
      drop_eq_nil_of_le (by rw [length_take]; omega), append_nil]

theorem entries_setEmpty : a.setEmpty.entries = [] := by
  unfold setEmpty
  split
  · exact entries_eq_nil rfl
  · exact entries_eq_nil (by omega)

theorem foldl_free (es : List (XObjArrayEntry P)) (deleted : List P) :
    es.foldl free deleted = deleted ++ (es.filter (·.freeIt)).map (·.object) := by
  induction es generalizing deleted with
  | nil => exact (append_nil deleted).symm
  | cons e es ih =>
    rw [foldl_cons, ih, free, filter_cons]
    split
    · rw [map_cons, append_assoc, singleton_append]
    · rfl

theorem deleted_setEmpty :
    a.setEmpty.deleted = a.deleted ++ (a.entries.filter (·.freeIt)).map (·.object) := by
  unfold setEmpty
  split
  · exact foldl_free a.entries a.deleted
  · rw [entries_eq_nil (by omega), filter_nil, map_nil, append_nil]

end XObjArray

/-! ## Sequences of operations -/

/-- A call on an array. -/
inductive Op (P : Type) where
  | addReference (newElement : P) (freeIt : Bool)
  | insertRef (newElement : P) (pos : Nat) (freeIt : Bool)
  | removeAtIndex (nIndex : Int)
  | removeWithoutFreeingAtIndex (nIndex : Int)
  | setEmpty
  deriving DecidableEq, Repr

namespace Op

variable {P E F : Type}
  (fresh : XObjArray.Fresh P) (ops : List (Op P)) (a : XObjArray P)
  (l : List (XObjArrayEntry P)) (op : Op P)

def run (fresh : XObjArray.Fresh P) (a : XObjArray P) : Op P → XObjArray P
  | addReference p f => (a.addReference fresh p f).1
  | insertRef p pos f => (a.insertRef fresh p pos f).1
  | removeAtIndex i => a.removeAtIndex i
  | removeWithoutFreeingAtIndex i => (a.removeWithoutFreeingAtIndex i).1
  | setEmpty => a.setEmpty

/-- The element with an index, if it is in range. -/
def nth (l : List E) (i : Int) : Option E := if i < 0 then none else l[i.toNat]?

/-- The list without the element with an index. -/
def without (l : List E) (i : Int) : List E := if i < 0 then l else l.eraseIdx i.toNat

/-- The same operation on a list, with `mk p f` for the element of an object `p` that is added with
the flag `f`. -/
def onList (mk : P → Bool → E) (l : List E) : Op P → List E
  | addReference p f => l ++ [mk p f]
  | insertRef p pos f => if pos < l.length then l.insertIdx pos (mk p f) else l ++ [mk p f]
  | removeAtIndex i => without l i
  | removeWithoutFreeingAtIndex i => without l i
  | setEmpty => []

/-- The objects the operation deletes, when `l` are the entries. -/
def deletes (l : List (XObjArrayEntry P)) : Op P → List P
  | removeAtIndex i => ((nth l i).toList.filter (·.freeIt)).map (·.object)
  | setEmpty => (l.filter (·.freeIt)).map (·.object)
  | _ => []

theorem entries_removeAtIndex (i : Int) : (a.removeAtIndex i).entries = without a.entries i := by
  unfold XObjArray.removeAtIndex without
  split
  · rfl
  split
  · next h =>
    split
    · exact a.entries_closeUp h
    · exact a.entries_closeUp h
  · next h =>
    rw [eraseIdx_of_length_le]
    rw [a.length_entries]
    exact Nat.le_of_not_lt h

theorem entries_removeWithoutFreeingAtIndex (i : Int) :
    (a.removeWithoutFreeingAtIndex i).1.entries = without a.entries i := by
  unfold XObjArray.removeWithoutFreeingAtIndex without
  split
  · rfl
  split
  · next h => exact a.entries_closeUp h
  · next h =>
    rw [eraseIdx_of_length_le]
    rw [a.length_entries]
    exact Nat.le_of_not_lt h

/-- One operation does to the entries what it does to a list. -/
theorem entries_run : (op.run fresh a).entries = op.onList XObjArrayEntry.mk a.entries := by
  cases op with
  | addReference p f => exact a.entries_addReference fresh p f
  | insertRef p pos f => exact a.entries_insertRef fresh p pos f
  | removeAtIndex i => exact entries_removeAtIndex a i
  | removeWithoutFreeingAtIndex i => exact entries_removeWithoutFreeingAtIndex a i
  | setEmpty => exact a.entries_setEmpty

theorem deleted_removeAtIndex (i : Int) :
    (a.removeAtIndex i).deleted =
      a.deleted ++ ((nth a.entries i).toList.filter (·.freeIt)).map (·.object) := by
  unfold XObjArray.removeAtIndex nth
  split
  · exact (append_nil _).symm
  split
  · next h =>
    rw [a.getElem?_entries h, Option.toList_some, filter_cons, filter_nil]
    split
    · rfl
    · exact (append_nil _).symm
  · next h =>
    rw [getElem?_eq_none (by rw [a.length_entries]; omega)]
    exact (append_nil _).symm

theorem deleted_run : (op.run fresh a).deleted = a.deleted ++ op.deletes a.entries := by
  have hsize := XObjArray.checkSize_spec fresh a (a.len + 1) XObjArray.xArrayGrowByDefault
  cases op with
  | addReference p f => exact hsize.2.2.1.trans (append_nil _).symm
  | insertRef p pos f =>
    rw [run, XObjArray.insertRef]
    split <;> exact hsize.2.2.1.trans (append_nil _).symm
  | removeAtIndex i => exact deleted_removeAtIndex a i
  | removeWithoutFreeingAtIndex i =>
    rw [run, XObjArray.removeWithoutFreeingAtIndex]
    split
    · exact (append_nil _).symm
    · split <;> exact (append_nil _).symm
  | setEmpty => exact a.deleted_setEmpty

theorem map_onList (f : E → F) (mk : P → Bool → E) (l : List E) (op : Op P) :
    (op.onList mk l).map f = op.onList (fun p b => f (mk p b)) (l.map f) := by
  have hwithout : ∀ i, (without l i).map f = without (l.map f) i := by
    intro i
    unfold without
    split
    · rfl
    · exact (eraseIdx_map f l _).symm
  cases op with
  | addReference p b => exact map_append
  | insertRef p pos b =>
    simp only [onList, length_map]
    split
    · exact map_insertIdx f l pos _
    · exact map_append
  | removeAtIndex i => exact hwithout i
  | removeWithoutFreeingAtIndex i => exact hwithout i
  | setEmpty => rfl

/-! ## The account of an array -/

/-- The entries the operation adds. -/
def adds : Op P → List (XObjArrayEntry P)
  | addReference p f => [⟨p, f⟩]
  | insertRef p _ f => [⟨p, f⟩]
  | _ => []

/-- The entries that are taken out without being freed, when `l` are the entries. -/
def takes (l : List (XObjArrayEntry P)) : Op P → List (XObjArrayEntry P)
  | removeWithoutFreeingAtIndex i => (nth l i).toList
  | _ => []

/-- The entries that an operation drops for good, when `l` are the entries. -/
def drops (l : List (XObjArrayEntry P)) : Op P → List (XObjArrayEntry P)
  | removeAtIndex i => (nth l i).toList
  | setEmpty => l
  | _ => []

theorem deletes_eq : op.deletes l = ((op.drops l).filter (·.freeIt)).map (·.object) := by
  cases op <;> rfl

theorem nth_without_perm (l : List E) (i : Int) : ((nth l i).toList ++ without l i).Perm l := by
  unfold nth without
  split
  · exact List.Perm.refl l
  · by_cases h : i.toNat < l.length
    · rw [getElem?_eq_getElem h]
      exact getElem_cons_eraseIdx_perm h
    · rw [getElem?_eq_none (Nat.le_of_not_lt h), eraseIdx_of_length_le (Nat.le_of_not_lt h)]
      exact List.Perm.refl l

/-- Nothing is lost and nothing appears: what an operation drops, takes out and keeps is what was
there and what it adds. -/
theorem step_perm :
    (op.drops l ++ (op.takes l ++ op.onList XObjArrayEntry.mk l)).Perm (l ++ op.adds) := by
  cases op with
  | addReference p f => exact List.Perm.refl _
  | insertRef p pos f =>
    simp only [drops, takes, onList, adds, nil_append]
    split
    · next h =>
      exact (perm_insertIdx _ l (Nat.le_of_lt h)).trans (perm_append_singleton _ l).symm
    · exact List.Perm.refl _
  | removeAtIndex i =>
    simp only [drops, takes, onList, adds, nil_append, append_nil]
    exact nth_without_perm l i
  | removeWithoutFreeingAtIndex i =>
    simp only [drops, takes, onList, adds, nil_append, append_nil]
    exact nth_without_perm l i
  | setEmpty => exact List.Perm.refl _

/-- The entries that a sequence of operations adds. -/
def added (ops : List (Op P)) : List (XObjArrayEntry P) := ops.flatMap adds

/-- The entries that it takes out without freeing them, when `l` are the entries at its start. -/
def takenOut (l : List (XObjArrayEntry P)) : List (Op P) → List (XObjArrayEntry P)
  | [] => []
  | op :: ops => op.takes l ++ takenOut (op.onList XObjArrayEntry.mk l) ops

/-- The entries that it drops. -/
def dropped (l : List (XObjArrayEntry P)) : List (Op P) → List (XObjArrayEntry P)
  | [] => []
  | op :: ops => op.drops l ++ dropped (op.onList XObjArrayEntry.mk l) ops

theorem run_perm :
    (dropped l ops ++ (takenOut l ops ++ ops.foldl (onList XObjArrayEntry.mk) l)).Perm
      (l ++ added ops) := by
  classical
  induction ops generalizing l with
  | nil => exact List.Perm.of_eq (append_nil l).symm
  | cons op ops ih =>
    have hrest := ih (op.onList XObjArrayEntry.mk l)
    have hstep := step_perm l op
    rw [perm_iff_count] at hrest hstep ⊢
    intro e
    have h1 := hrest e
    have h2 := hstep e
    simp only [dropped, takenOut, added, foldl_cons, flatMap_cons, count_append]
      at h1 h2 ⊢
    omega

theorem entries_foldl :
    (ops.foldl (run fresh) a).entries = ops.foldl (onList XObjArrayEntry.mk) a.entries := by
  induction ops generalizing a with
  | nil => rfl
  | cons op ops ih => rw [foldl_cons, foldl_cons, ih, entries_run]

theorem deleted_foldl :
    (ops.foldl (run fresh) a).deleted =
      a.deleted ++ ((dropped a.entries ops).filter (·.freeIt)).map (·.object) := by
  induction ops generalizing a with
  | nil => exact (append_nil a.deleted).symm
  | cons op ops ih =>
    rw [foldl_cons, ih, entries_run, deleted_run, deletes_eq, dropped, filter_append,
      map_append, append_assoc]

theorem objects_foldl :
    (ops.foldl (onList XObjArrayEntry.mk) l).map (·.object) =
      ops.foldl (onList fun p _ => p) (l.map (·.object)) := by
  induction ops generalizing l with
  | nil => rfl
  | cons op ops ih => rw [foldl_cons, foldl_cons, ih, map_onList]

end Op

section Ownership

variable {P : Type} [DecidableEq P]

theorem count_deleted (es : List (XObjArrayEntry P)) (p : P) :
    ((es.filter (·.freeIt)).map (·.object)).count p = es.count ⟨p, true⟩ := by
  induction es with
  | nil => rfl
  | cons e es ih =>
    obtain ⟨q, f⟩ := e
    rw [filter_cons, count_cons]
    cases f with
    | false => simpa using ih
    | true => simp only [if_true, map_cons, count_cons, ih, beq_iff_eq,
        XObjArrayEntry.mk.injEq, and_true]

theorem count_object (es : List (XObjArrayEntry P)) (p : P) :
    (es.map (·.object)).count p = es.count ⟨p, true⟩ + es.count ⟨p, false⟩ := by
  induction es with
  | nil => rfl
  | cons e es ih =>
    obtain ⟨q, f⟩ := e
    rw [map_cons, count_cons, count_cons, count_cons, ih]
    cases f <;> simp only [beq_iff_eq, XObjArrayEntry.mk.injEq, and_true, Bool.false_eq_true,
      Bool.true_eq_false, and_false, if_false] <;> omega

/-- For every sequence of calls on a new array. The stored pointers are those of the list that the
same operations build. Once the array has been emptied, every object has been deleted as often as it
was added with `FreeIt`, less the times it was taken out after that. So an object that was added
once has been deleted exactly once if it was added with `FreeIt` and not taken out, and never
otherwise. -/
theorem xObjArray_refines_list (fresh : XObjArray.Fresh P) (ops : List (Op P)) :
    let a := ops.foldl (Op.run fresh) XObjArray.init
    a.entries.map (·.object) = ops.foldl (Op.onList fun p _ => p) [] ∧
    (∀ p, a.setEmpty.deleted.count p + (Op.takenOut [] ops).count ⟨p, true⟩ =
      (Op.added ops).count ⟨p, true⟩) ∧
    ∀ p, ((Op.added ops).map (·.object)).count p = 1 →
      a.setEmpty.deleted.count p =
        if ⟨p, true⟩ ∈ Op.added ops ∧ p ∉ (Op.takenOut [] ops).map (·.object) then 1 else 0 := by
  intro a
  have hentries : a.entries = ops.foldl (Op.onList XObjArrayEntry.mk) [] :=
    Op.entries_foldl fresh ops XObjArray.init
  have hdeleted := Op.deleted_foldl fresh ops XObjArray.init
  have hperm := Op.run_perm ops ([] : List (XObjArrayEntry P))
  rw [← hentries, nil_append, perm_iff_count] at hperm
  have haccount : ∀ p, a.setEmpty.deleted.count p + (Op.takenOut [] ops).count ⟨p, true⟩ =
      (Op.added ops).count ⟨p, true⟩ := by
    intro p
    have hcount := hperm ⟨p, true⟩
    rw [count_append, count_append] at hcount
    rw [a.deleted_setEmpty, hdeleted, count_append, count_append, count_deleted,
      count_deleted]
    have hinit : count p (XObjArray.init : XObjArray P).deleted = 0 := rfl
    have hnil : (XObjArray.init : XObjArray P).entries = [] := rfl
    rw [hinit, hnil]
    omega
  refine ⟨?_, haccount, ?_⟩
  · rw [hentries]
    exact Op.objects_foldl ops []
  · intro p honce
    have hacc := haccount p
    have hother := hperm ⟨p, false⟩
    rw [count_append, count_append] at hother
    rw [count_object] at honce
    split
    · next h =>
      rw [← count_pos_iff, ← count_eq_zero, count_object] at h
      omega
    · next h =>
      rw [← count_pos_iff, ← count_eq_zero, count_object] at h
      omega

/-- The theorem at an array where one object is taken out, one removed and two are left: an owned
one and one that is not. -/
theorem xObjArray_refines_list_sample :
    let ops : List (Op Nat) := [.addReference 1 true, .insertRef 2 0 true, .addReference 3 false,
      .addReference 4 true, .removeWithoutFreeingAtIndex 1, .removeAtIndex 0]
    let a := ops.foldl (Op.run fun _ => ⟨0, true⟩) XObjArray.init
    a.entries.map (·.object) = [3, 4] ∧ a.setEmpty.deleted.count 4 = 1 ∧
      a.setEmpty.deleted.count 1 = 0 := by
  intro ops a
  obtain ⟨hlist, -, honce⟩ := xObjArray_refines_list (fun _ => ⟨0, true⟩) ops
  exact ⟨hlist, honce 4 (by decide), honce 1 (by decide)⟩

end Ownership

end Clover.Foundation
