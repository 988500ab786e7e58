import Clover.Boot.Options

/-!
# Adding a boot option

The functions `AddBootOption` and `DeleteBootOption` of `Platform/BootOptions.cpp`, and those that
change `BootOrder` for them. A new option gets the first free number, its variable is written, and
the number is put into the list; on the way `AddToBootOrder` removes numbers from it.

It asks `GetBootOption` about the *index* of an element, not about the number that stands there, and
goes on behind the element that moves up when one is removed. So round `i` removes the element that
stood at place `i` plus the number of options missing below `i`, if option `i` is missing
(`struck`). The list is the right one exactly if these are the places of the numbers without a
variable: `addBootOption_order_iff`.
-/

namespace Clover.Boot

open Clover.Lib List Nat

variable {i index q : Nat} {order : List UInt16} {bootNum : UInt16}

/-- The variables that the functions read and write. -/
structure Nvram where
  bootOrder : Option (List UInt16)
  boot : UInt16 → Option Bytes

/-- A variable of size zero is taken for a missing one. -/
def getNvramVariable {α : Type} (contents : Option (List α)) : Option (List α) :=
  match contents with
  | some [] => none
  | _ => contents

def getBootOrder (nvram : Nvram) : Except Status (List UInt16) :=
  match getNvramVariable nvram.bootOrder with
  | none => .error .notFound
  | some order => .ok order

def getBootOption (nvram : Nvram) (bootNum : UInt16) : Except Status BootOption :=
  match getNvramVariable (nvram.boot bootNum) with
  | none => .error .notFound
  | some data => parseBootOption data

/-- The first number from an index on that has no variable. -/
def findFreeLoop (nvram : Nvram) : Nat → Nat → Except Status UInt16
  | 0, _ => .error .notFound
  | rounds + 1, index =>
    if nvram.boot (UInt16.ofNat index) = none then .ok (UInt16.ofNat index)
    else findFreeLoop nvram rounds (index + 1)

def findFreeBootNum (nvram : Nvram) : Except Status UInt16 := findFreeLoop nvram 0x10000 0

/-- Copy the rest of the list over the element at `index`. -/
def removeAt (order : List UInt16) (index : Nat) : List UInt16 :=
  (copyCells order index (index + 1) (order.length - (index + 1))).take (order.length - 1)

/-- The loop that shrinks the list. The index grows in every round, so that as many rounds as the
list has elements are enough. -/
def shrinkLoop (missing : Nat → Bool) : Nat → Nat → List UInt16 → Nat → List UInt16 × Nat
  | 0, _, order, bootIndexNew => (order, bootIndexNew)
  | rounds + 1, index, order, bootIndexNew =>
    if index < order.length then
      if missing index then
        shrinkLoop missing rounds (index + 1) (removeAt order index)
          (if bootIndexNew > index then bootIndexNew - 1 else bootIndexNew)
      else shrinkLoop missing rounds (index + 1) order bootIndexNew
    else (order, bootIndexNew)

/-- The call `GetBootOption (Index, …)`, whose argument is of type `UINT16`. -/
def missingAt (nvram : Nvram) (index : Nat) : Bool :=
  match getBootOption nvram (UInt16.ofNat index) with
  | .error .notFound => true
  | _ => false

/-- Entries without a variable go, and the number is put in. -/
def addToBootOrder (nvram : Nvram) (bootNumNew : UInt16) (bootIndexNew : Nat) :
    Nvram × Except Status Unit :=
  match getBootOrder nvram with
  | .error status => (nvram, .error status)
  | .ok order =>
    let bootIndexNew := if bootIndexNew > order.length then order.length else bootIndexNew
    let (order, bootIndexNew) := shrinkLoop (missingAt nvram) order.length 0 order bootIndexNew
    ({ nvram with
        bootOrder := some (order.take bootIndexNew ++ bootNumNew :: order.drop bootIndexNew) },
      .ok ())

/-- The result is the variables and the number of the new option, or an error code. -/
def addBootOption (nvram : Nvram) (option : BootOption) (bootIndex : Nat) :
    Nvram × Except Status UInt16 :=
  match findFreeBootNum nvram with
  | .error status => (nvram, .error status)
  | .ok bootNum =>
    match compileBootOption option with
    | .error status => (nvram, .error status)
    | .ok data =>
      let nvram := { nvram with boot := Function.update nvram.boot bootNum (some data) }
      match addToBootOrder nvram bootNum bootIndex with
      | (nvram, .error status) => (nvram, .error status)
      | (nvram, .ok _) => (nvram, .ok bootNum)

/-! ## The places of a list -/

section Places

variable (missing : Nat → Bool)

/-- The place in the list, as it was, of the element that round `i` looks at. -/
def place (i : Nat) : Nat := i + (range i).countP missing

/-- The place is one whose element is removed. -/
def struck (q : Nat) : Bool :=
  (range (q + 1)).any fun i => missing i && place missing i == q

theorem place_succ (i : Nat) :
    place missing (i + 1) = place missing i + if missing i then 2 else 1 := by
  unfold place
  rw [range_succ, countP_append, countP_singleton]
  split <;> omega

theorem place_lt {j : Nat} (h : i < j) : place missing i < place missing j := by
  induction j with
  | zero => omega
  | succ j ih =>
    have hstep := place_succ missing j
    rcases Nat.lt_succ_iff_lt_or_eq.mp h with h | rfl
    · split at hstep <;> omega
    · split at hstep <;> omega

theorem struck_iff (q : Nat) : struck missing q ↔ ∃ i, missing i ∧ place missing i = q := by
  simp only [struck, any_eq_true, mem_range, Bool.and_eq_true, beq_iff_eq]
  refine exists_congr fun i => and_iff_right_of_imp fun h => ?_
  unfold place at h
  omega

theorem struck_place (i : Nat) : struck missing (place missing i) = missing i := by
  rw [Bool.eq_iff_iff, struck_iff]
  constructor
  · rintro ⟨j, hj, hplace⟩
    have hij : j = i := by
      rcases Nat.lt_trichotomy j i with h | h | h
      · have := place_lt missing h
        omega
      · exact h
      · have := place_lt missing h
        omega
    rwa [← hij]
  · exact fun h => ⟨i, h, rfl⟩

/-- The element behind one that is removed is never looked at. -/
theorem struck_place_succ (h : missing i) : struck missing (place missing i + 1) = false := by
  rw [Bool.eq_false_iff, Ne, struck_iff]
  rintro ⟨j, -, hplace⟩
  have hnext := place_succ missing i
  rw [if_pos h] at hnext
  rcases Nat.lt_trichotomy j (i + 1) with hj | rfl | hj
  · rcases Nat.lt_succ_iff_lt_or_eq.mp hj with hj | rfl
    · have := place_lt missing hj
      omega
    · omega
  · omega
  · have := place_lt missing hj
    omega

end Places

/-! ## Lists without some of their places -/

section Strike

variable {α : Type} (out : Nat → Bool)

/-- The list without the elements whose places, counted from `q` on, are out. -/
def strike : Nat → List α → List α
  | _, [] => []
  | q, a :: as => if out q then strike (q + 1) as else a :: strike (q + 1) as

theorem strike_append (q : Nat) (as bs : List α) :
    strike out q (as ++ bs) = strike out q as ++ strike out (q + as.length) bs := by
  induction as generalizing q with
  | nil => rfl
  | cons a as ih =>
    rw [cons_append, strike, strike, ih, length_cons, Nat.add_right_comm, Nat.add_assoc]
    split
    · rfl
    · rfl

theorem strike_cons_out (h : out q) (a : α) (as : List α) :
    strike out q (a :: as) = strike out (q + 1) as := by
  rw [strike, if_pos h]

theorem strike_cons_in (h : ¬ out q) (a : α) (as : List α) :
    strike out q (a :: as) = a :: strike out (q + 1) as := by
  rw [strike, if_neg h]

variable {out} {keep : α → Bool}

theorem strike_eq_filter {as : List α} (h : ∀ j (hj : j < as.length), out (q + j) = !keep as[j]) :
    strike out q as = as.filter keep := by
  induction as generalizing q with
  | nil => rfl
  | cons a as ih =>
    have hhead : out q = !keep a := h 0 (zero_lt_succ _)
    have htail := ih (q := q + 1) fun j hj => by
      have hnext := h (j + 1) (succ_lt_succ hj)
      rwa [show q + (j + 1) = q + 1 + j by omega] at hnext
    rw [strike, filter_cons, htail, hhead]
    cases keep a <;> rfl

/-- If nothing is left over that should not be kept, there is at most as much as should be, and as
much only if the places are the right ones. -/
theorem strike_length_le {as : List α} (hkeep : ∀ a ∈ strike out q as, keep a) :
    (strike out q as).length ≤ (as.filter keep).length ∧
      ((strike out q as).length = (as.filter keep).length →
        ∀ j (hj : j < as.length), out (q + j) = !keep as[j]) := by
  induction as generalizing q with
  | nil => exact ⟨Nat.le_refl 0, fun _ j hj => absurd hj (Nat.not_lt_zero j)⟩
  | cons a as ih =>
    have hcons : ∀ (htail : ∀ j (hj : j < as.length), out (q + 1 + j) = !keep as[j])
        (hhead : out q = !keep a) (j : Nat) (hj : j < (a :: as).length),
        out (q + j) = !keep (a :: as)[j] := by
      intro htail hhead j hj
      cases j with
      | zero => exact hhead
      | succ j =>
        rw [show q + (j + 1) = q + 1 + j by omega]
        exact htail j (lt_of_succ_lt_succ hj)
    by_cases hout : out q
    · rw [strike_cons_out out hout] at hkeep ⊢
      obtain ⟨hle, heq⟩ := ih hkeep
      by_cases ha : keep a
      · rw [filter_cons_of_pos ha, length_cons]
        exact ⟨by omega, fun h => by omega⟩
      · rw [filter_cons_of_neg ha]
        exact ⟨hle, fun h => hcons (heq h) (by rw [hout, Bool.eq_false_iff.mpr ha]; rfl)⟩
    · rw [strike_cons_in out hout] at hkeep ⊢
      have ha : keep a := hkeep a mem_cons_self
      obtain ⟨hle, heq⟩ := ih fun b hb => hkeep b (mem_cons_of_mem a hb)
      rw [filter_cons_of_pos ha, length_cons, length_cons]
      refine ⟨by omega, fun h => hcons (heq (by omega)) ?_⟩
      rw [ha, Bool.eq_false_iff.mpr hout]
      rfl

/-- With a new element spliced in, the lists are the same only if the places are the right ones:
both have the same elements, each as often. -/
theorem splice_eq_iff [DecidableEq α] (as bs : List α) (n : α) :
    strike out 0 as ++ n :: strike out as.length bs = as.filter keep ++ n :: bs.filter keep ↔
      ∀ j (hj : j < (as ++ bs).length), out j = !keep (as ++ bs)[j] := by
  have hall : strike out 0 (as ++ bs) = strike out 0 as ++ strike out as.length bs := by
    rw [strike_append, Nat.zero_add]
  constructor
  · intro h
    have hperm : (strike out 0 (as ++ bs)).Perm ((as ++ bs).filter keep) := by
      rw [hall, filter_append]
      apply List.Perm.cons_inv (a := n)
      exact (perm_middle.symm.trans (List.Perm.of_eq h)).trans perm_middle
    have hplaces := (strike_length_le fun a ha => (mem_filter.mp (hperm.mem_iff.mp ha)).2).2
      hperm.length_eq
    intro j hj
    have hj := hplaces j hj
    rwa [Nat.zero_add] at hj
  · intro h
    have hleft : strike out 0 as = as.filter keep := by
      apply strike_eq_filter
      intro j hj
      have hj' := h j (by rw [length_append]; omega)
      rw [getElem_append_left hj] at hj'
      rwa [Nat.zero_add]
    have hright : strike out as.length bs = bs.filter keep := by
      apply strike_eq_filter
      intro j hj
      have hj' := h (as.length + j) (by rw [length_append]; omega)
      rw [getElem_append_right (Nat.le_add_right _ _)] at hj'
      simpa only [Nat.add_sub_cancel_left] using hj'
    rw [hleft, hright]

end Strike

/-! ## The loop -/

theorem removeAt_eq (h : index < order.length) : removeAt order index = order.eraseIdx index := by
  have hdown := take_copyCells_down h (Nat.le_refl order.length)
  rwa [Nat.sub_sub, take_length] at hdown

section Shrink

variable (missing : Nat → Bool) (rounds : Nat) (done : List UInt16)

theorem shrinkLoop_end (h : order.length ≤ index) (new : Nat) :
    shrinkLoop missing rounds index order new = (order, new) := by
  cases rounds with
  | zero => rfl
  | succ rounds => rw [shrinkLoop, if_neg (Nat.not_lt.mpr h)]

theorem shrinkLoop_missing (a : UInt16) (rest : List UInt16) (new : Nat) (h : missing done.length) :
    shrinkLoop missing (rounds + 1) done.length (done ++ a :: rest) new =
      shrinkLoop missing rounds (done.length + 1) (done ++ rest)
        (if new > done.length then new - 1 else new) := by
  have hlt : done.length < (done ++ a :: rest).length := by
    rw [length_append, length_cons]
    omega
  rw [shrinkLoop, if_pos hlt, if_pos h, removeAt_eq hlt, eraseIdx_append_of_length_le
    (Nat.le_refl _), Nat.sub_self, eraseIdx_cons_zero]

theorem shrinkLoop_present (a : UInt16) (rest : List UInt16) (new : Nat)
    (h : ¬ missing done.length) :
    shrinkLoop missing (rounds + 1) done.length (done ++ a :: rest) new =
      shrinkLoop missing rounds (done.length + 1) (done ++ a :: rest) new := by
  have hlt : done.length < (done ++ a :: rest).length := by
    rw [length_append, length_cons]
    omega
  rw [shrinkLoop, if_pos hlt, if_neg h]

theorem shrinkLoop_stays (index : Nat) (order : List UInt16) {new : Nat} (h : new < index) :
    (shrinkLoop missing rounds index order new).2 = new := by
  induction rounds generalizing index order with
  | zero => rfl
  | succ rounds ih =>
    unfold shrinkLoop
    rw [if_neg (Nat.not_lt.mpr (Nat.le_of_lt h))]
    split
    · split
      · exact ih _ _ (by omega)
      · exact ih _ _ (by omega)
    · rfl

/-- The places that the rest of the list leaves at index `i`. -/
def survivors (i : Nat) (rest : List UInt16) : List UInt16 :=
  strike (struck missing) (place missing i) rest

theorem survivors_present (h : ¬ missing i) (a : UInt16) (rest : List UInt16) :
    survivors missing i (a :: rest) = a :: survivors missing (i + 1) rest := by
  rw [survivors, strike_cons_in _ (by rwa [struck_place]), survivors, place_succ, if_neg h]

theorem survivors_missing (h : missing i) (a : UInt16) (rest : List UInt16) :
    survivors missing i (a :: rest) =
      rest.take 1 ++ survivors missing (i + 1) (rest.drop 1) := by
  have hnext := struck_place_succ missing h
  rw [survivors, strike_cons_out _ (by rwa [struck_place]), survivors, place_succ, if_pos h]
  cases rest with
  | nil => rfl
  | cons b rest => exact strike_cons_in _ (by rw [hnext]; decide) b rest

/-- The list that the loop leaves from index `done.length` on, by induction on the rounds. -/
theorem shrinkLoop_order (rest : List UInt16) (h : rest.length ≤ rounds) (new : Nat) :
    (shrinkLoop missing rounds done.length (done ++ rest) new).1 =
      done ++ survivors missing done.length rest := by
  induction rounds generalizing done rest new with
  | zero =>
    obtain rfl : rest = [] := length_eq_zero_iff.mp (Nat.le_zero.mp h)
    rfl
  | succ rounds ih =>
    cases rest with
    | nil =>
      rw [append_nil, shrinkLoop_end missing _ (Nat.le_refl _)]
      exact (append_nil done).symm
    | cons a rest =>
      have hrest : rest.length ≤ rounds := le_of_succ_le_succ h
      by_cases hmissing : missing done.length
      · rw [shrinkLoop_missing missing _ _ _ _ _ hmissing, survivors_missing missing hmissing]
        cases rest with
        | nil =>
          rw [shrinkLoop_end missing _ (by rw [append_nil]; omega)]
          rfl
        | cons b rest =>
          have hb := ih (done ++ [b]) rest (by rw [length_cons] at hrest; omega)
            (if new > done.length then new - 1 else new)
          rwa [length_append, append_assoc, append_assoc] at hb
      · have ha := ih (done ++ [a]) rest hrest new
        rw [shrinkLoop_present missing _ _ _ _ _ hmissing, survivors_present missing hmissing]
        rwa [length_append, append_assoc, append_assoc] at ha

/-- The index moves down by the entries that are removed before it. -/
theorem shrinkLoop_index (rest : List UInt16) (h : rest.length ≤ rounds) (t : Nat)
    (ht : t ≤ rest.length) :
    (shrinkLoop missing rounds done.length (done ++ rest) (done.length + t)).2 =
      done.length + (survivors missing done.length (rest.take t)).length := by
  induction rounds generalizing done rest t with
  | zero =>
    obtain rfl : rest = [] := length_eq_zero_iff.mp (Nat.le_zero.mp h)
    obtain rfl : t = 0 := Nat.le_zero.mp ht
    rfl
  | succ rounds ih =>
    cases rest with
    | nil =>
      obtain rfl : t = 0 := Nat.le_zero.mp ht
      rw [append_nil, shrinkLoop_end missing _ (Nat.le_refl _)]
      rfl
    | cons a rest =>
      have hrest : rest.length ≤ rounds := le_of_succ_le_succ h
      by_cases hmissing : missing done.length
      · rw [shrinkLoop_missing missing _ _ _ _ _ hmissing]
        match t, ht with
        | 0, _ =>
          rw [if_neg (by omega), shrinkLoop_stays missing _ _ _ (by omega)]
          rfl
        | 1, _ =>
          rw [if_pos (by omega), shrinkLoop_stays missing _ _ _ (by omega), take_succ_cons,
            take_zero, survivors_missing missing hmissing]
          rfl
        | t + 2, ht =>
          cases rest with
          | nil => cases le_of_succ_le_succ ht
          | cons b rest =>
            have hb := ih (done ++ [b]) rest (by rw [length_cons] at hrest; omega) t
              (by simpa using ht)
            rw [length_append, append_assoc] at hb
            rw [if_pos (by omega), take_succ_cons, survivors_missing missing hmissing,
              take_succ_cons, show done.length + (t + 2) - 1 = done.length + 1 + t by omega]
            refine hb.trans ?_
            change done.length + 1 + (survivors missing (done.length + 1) (rest.take t)).length =
              done.length + ((survivors missing (done.length + 1) (rest.take t)).length + 1)
            omega
      · rw [shrinkLoop_present missing _ _ _ _ _ hmissing]
        cases t with
        | zero => exact shrinkLoop_stays missing _ _ _ (lt_succ_self _)
        | succ t =>
          have ha := ih (done ++ [a]) rest hrest t (le_of_succ_le_succ ht)
          rw [take_succ_cons, survivors_present missing hmissing]
          rw [length_append, append_assoc] at ha
          rw [show done.length + (t + 1) = done.length + 1 + t by omega]
          refine ha.trans ?_
          rw [length_singleton, length_cons]
          omega

end Shrink

/-! ## The result -/

variable {nvram : Nvram}

theorem findFreeLoop_free {rounds : Nat} (h : findFreeLoop nvram rounds index = .ok bootNum) :
    nvram.boot bootNum = none := by
  induction rounds generalizing index with
  | zero => cases h
  | succ rounds ih =>
    unfold findFreeLoop at h
    split at h
    · next hfree =>
      cases h
      exact hfree
    · exact ih h

/-- The new list: the survivors of what stood before the new place, the new number, and the other
survivors. -/
theorem addToBootOrder_ok {nvram' : Nvram} {bootIndex : Nat}
    (horder : nvram.bootOrder = some order)
    (h : addToBootOrder nvram bootNum bootIndex = (nvram', .ok ())) :
    let before := order.take (min bootIndex order.length)
    let out := strike (struck (missingAt nvram))
    nvram' = { nvram with bootOrder := some (out 0 before ++
      bootNum :: out before.length (order.drop (min bootIndex order.length))) } := by
  intro before out
  have hget : getBootOrder nvram = .ok order ∨ getBootOrder nvram = .error .notFound := by
    unfold getBootOrder getNvramVariable
    rw [horder]
    cases order with
    | nil => exact Or.inr rfl
    | cons a order => exact Or.inl rfl
  have hindex : (if bootIndex > order.length then order.length else bootIndex) =
      min bootIndex order.length := by
    split <;> omega
  have hsplit : out 0 order =
      out 0 before ++ out before.length (order.drop (min bootIndex order.length)) := by
    have happend := strike_append (struck (missingAt nvram)) 0 before
      (order.drop (min bootIndex order.length))
    rwa [take_append_drop, Nat.zero_add] at happend
  have hlist : (shrinkLoop (missingAt nvram) order.length 0 order
      (min bootIndex order.length)).1 = out 0 order :=
    shrinkLoop_order (missingAt nvram) order.length [] order (Nat.le_refl _) _
  have hplace := shrinkLoop_index (missingAt nvram) order.length [] order (Nat.le_refl _)
    (min bootIndex order.length) (Nat.min_le_right _ _)
  have hplace : (shrinkLoop (missingAt nvram) order.length 0 order
      (min bootIndex order.length)).2 = (out 0 before).length := by
    rwa [length_nil, Nat.zero_add, Nat.zero_add] at hplace
  unfold addToBootOrder at h
  rcases hget with hget | hget <;> rw [hget] at h
  · dsimp only at h
    rw [hindex, hlist, hplace, hsplit, take_left, drop_left] at h
    exact (Prod.mk.inj h).1.symm
  · cases h

/-- The numbers for which `GetBootOption` finds nothing once the new variable is written. -/
def stillMissing (nvram : Nvram) (bootNum : UInt16) (i : Nat) : Bool :=
  UInt16.ofNat i != bootNum && (nvram.boot (UInt16.ofNat i)).isNone

theorem missingAt_iff (nvram : Nvram) (i : Nat) :
    missingAt nvram i ↔ getNvramVariable (nvram.boot (UInt16.ofNat i)) = none := by
  have hparse : ∀ data, parseBootOption data ≠ .error .notFound := by
    intro data
    unfold parseBootOption
    split
    · exact nofun
    · dsimp only
      split
      · exact nofun
      · split <;> exact nofun
  unfold missingAt getBootOption
  cases getNvramVariable (nvram.boot (UInt16.ofNat i)) with
  | none => exact iff_of_true rfl rfl
  | some data =>
    refine iff_of_false ?_ nofun
    have hdata := hparse data
    split
    · next heq => exact absurd heq hdata
    · decide

theorem missingAt_update {data : Bytes}
    (hparse : ∀ n data, nvram.boot n = some data → ∃ option, parseBootOption data = .ok option)
    (hdata : 6 < data.length) :
    missingAt { nvram with boot := Function.update nvram.boot bootNum (some data) } =
      stillMissing nvram bootNum := by
  have hsome : ∀ {data : Bytes}, data ≠ [] → getNvramVariable (some data) ≠ none := by
    intro data h
    cases data with
    | nil => exact absurd rfl h
    | cons b data => exact nofun
  funext i
  rw [Bool.eq_iff_iff, missingAt_iff, stillMissing, Bool.and_eq_true, bne_iff_ne]
  dsimp only
  by_cases hi : UInt16.ofNat i = bootNum
  · rw [hi, Function.update_self]
    refine iff_of_false (hsome fun h => ?_) (fun h => h.1 rfl)
    rw [h] at hdata
    exact absurd hdata (by decide)
  · rw [Function.update_of_ne hi, and_iff_right hi]
    cases hboot : nvram.boot (UInt16.ofNat i) with
    | none => exact iff_of_true rfl rfl
    | some data =>
      refine iff_of_false (hsome fun h => ?_) nofun
      obtain ⟨option, hoption⟩ := hparse _ data hboot
      rw [h] at hoption
      cases hoption

/-- Adding an option writes its variable and no other, and the new list is the old one without the
numbers that have no variable, with the new number behind those of the first elements that are kept,
if and only if the places that the loop strikes are the places of these numbers. -/
theorem addBootOption_order_iff {nvram nvram' : Nvram} {option : BootOption} {bootIndex : Nat}
    {bootNum : UInt16} {order : List UInt16} (horder : nvram.bootOrder = some order)
    (hparse : ∀ n data, nvram.boot n = some data → ∃ option, parseBootOption data = .ok option)
    (h : addBootOption nvram option bootIndex = (nvram', .ok bootNum)) :
    let m := min bootIndex order.length
    let kept := fun n => (nvram.boot n).isSome
    (nvram'.bootOrder =
        some ((order.take m).filter kept ++ bootNum :: (order.drop m).filter kept) ∧
      nvram.boot bootNum = none ∧
      ∃ data, compileBootOption option = .ok data ∧
        nvram'.boot = Function.update nvram.boot bootNum (some data)) ↔
    ∀ q (hq : q < order.length),
      struck (stillMissing nvram bootNum) q ↔ nvram.boot order[q] = none := by
  intro m kept
  unfold addBootOption at h
  split at h
  · cases h
  next num hfree =>
  split at h
  · cases h
  next data hcompile =>
  dsimp only at h
  split at h
  · cases h
  next nvram₁ _ hadd =>
  obtain ⟨rfl, rfl⟩ : nvram₁ = nvram' ∧ num = bootNum := by
    rw [Prod.mk.injEq, Except.ok.injEq] at h
    exact h
  have hshape := addToBootOrder_ok (by exact horder) hadd
  rw [missingAt_update hparse (compileBootOption_length hcompile)] at hshape
  rw [hshape, and_iff_left ⟨findFreeLoop_free hfree, data, hcompile, rfl⟩]
  rw [Option.some.injEq, splice_eq_iff]
  simp only [take_append_drop]
  refine forall_congr' fun q => forall_congr' fun hq => ?_
  rw [Bool.eq_iff_iff, Bool.not_eq_true', Option.isSome_eq_false_iff, Option.isNone_iff_eq_none]

/-- A variable with an empty description and a path of one byte. -/
def sampleOption : BootOption :=
  { attributes := 0, filePathListLength := 1, description := some [], filePathList := some [127]
    optionalData := none, optionalDataSize := 0 }

/-- The variables of the options in `numbers`, and the list `order`. -/
def sampleNvram (numbers order : List UInt16) : Nvram :=
  { bootOrder := some order
    boot := fun n => if n ∈ numbers then some [0, 0, 0, 0, 1, 0, 0, 0, 127] else none }

theorem sampleNvram_parses {numbers : List UInt16} (n : UInt16) (data : Bytes)
    (h : (sampleNvram numbers order).boot n = some data) :
    ∃ option, parseBootOption data = .ok option := by
  unfold sampleNvram at h
  dsimp only at h
  split at h
  · obtain rfl := Option.some.inj h
    exact ⟨sampleOption, by decide⟩
  · cases h

/-- The theorem at a list with options 0 and 3, which both exist. -/
theorem addBootOption_order_iff_sample :
    (addBootOption (sampleNvram [0, 3] [3, 0]) sampleOption 1).1.bootOrder = some [3, 1, 0] := by
  have horder : (sampleNvram [0, 3] [3, 0]).bootOrder = some [3, 0] := rfl
  have hadd : addBootOption (sampleNvram [0, 3] [3, 0]) sampleOption 1 =
      ((addBootOption (sampleNvram [0, 3] [3, 0]) sampleOption 1).1, .ok 1) := rfl
  have hiff := addBootOption_order_iff horder sampleNvram_parses hadd
  exact (hiff.mpr (by decide)).1

/-- Options 0, 3 and 4 exist and stand in the list. The new option gets number 1, option 2 is
missing, and so the element at index 2 is lost: option 4. -/
theorem addBootOption_loses_option :
    (addBootOption (sampleNvram [0, 3, 4] [0, 3, 4]) sampleOption 0).1.bootOrder =
      some [1, 0, 3] ∧
    (addBootOption (sampleNvram [0, 3, 4] [0, 3, 4]) sampleOption 0).2 = .ok 1 ∧
    (sampleNvram [0, 3, 4] [0, 3, 4]).boot 4 ≠ none := by
  decide

/-! ## Deleting options, and runs of calls -/

/-- Saving a list of length zero deletes the variable. -/
def deleteFromBootOrder (nvram : Nvram) (bootNum : UInt16) : Nvram × Except Status Unit :=
  match getBootOrder nvram with
  | .error status => (nvram, .error status)
  | .ok order =>
    let index := order.idxOf bootNum
    if index ≥ order.length then (nvram, .error .notFound)
    else
      let order := removeAt order index
      ({ nvram with bootOrder := if order = [] then none else some order }, .ok ())

/-- A variable that is missing cannot be deleted. -/
def deleteBootOption (nvram : Nvram) (bootNum : UInt16) : Nvram × Except Status Unit :=
  if nvram.boot bootNum = none then (nvram, .error .notFound)
  else deleteFromBootOrder { nvram with boot := Function.update nvram.boot bootNum none } bootNum

/-- The calls that change the boot order. -/
inductive Call
  | add (option : BootOption) (bootIndex : Nat)
  | delete (bootNum : UInt16)

/-- What a call leaves in the variables, whether it succeeds or fails. -/
def Call.run (nvram : Nvram) : Call → Nvram
  | add option bootIndex => (addBootOption nvram option bootIndex).1
  | delete bootNum => (deleteBootOption nvram bootNum).1

def Nvram.listed (nvram : Nvram) : List UInt16 := nvram.bootOrder.getD []

/-- A number is listed at most once, and only with a variable. -/
def Nvram.Consistent (nvram : Nvram) : Prop :=
  ∀ n, nvram.listed.count n ≤ if nvram.boot n = none then 0 else 1

theorem getBootOrder_eq (nvram : Nvram) :
    getBootOrder nvram = if nvram.listed = [] then .error .notFound else .ok nvram.listed := by
  unfold getBootOrder Nvram.listed
  rcases nvram.bootOrder with _ | _ | _ <;> rfl

theorem shrinkLoop_sublist (missing : Nat → Bool) (rounds new : Nat) :
    (shrinkLoop missing rounds index order new).1.Sublist order := by
  induction rounds generalizing index order new with
  | zero => exact Sublist.refl order
  | succ rounds ih =>
    unfold shrinkLoop
    have herase := eraseIdx_sublist order index
    grind [removeAt_eq, Sublist.trans]

theorem addToBootOrder_count (nvram : Nvram) (n m : UInt16) (i : Nat) :
    (addToBootOrder nvram n i).1.boot = nvram.boot ∧
      (addToBootOrder nvram n i).1.listed.count m ≤ (n :: nvram.listed).count m := by
  rw [addToBootOrder, getBootOrder_eq]
  by_cases hnil : nvram.listed = []
  · rw [if_pos hnil]
    exact ⟨rfl, count_le_count_cons⟩
  · rw [if_neg hnil]
    refine ⟨rfl, (perm_middle.count_eq m).trans_le ?_⟩
    rw [take_append_drop]
    exact ((shrinkLoop_sublist _ _ _).cons_cons n).count_le m

theorem deleteFromBootOrder_erase (nvram : Nvram) (n : UInt16) :
    (deleteFromBootOrder nvram n).1.boot = nvram.boot ∧
      (deleteFromBootOrder nvram n).1.listed = nvram.listed.erase n := by
  rw [deleteFromBootOrder, getBootOrder_eq]
  by_cases hnil : nvram.listed = []
  · simp [hnil]
  by_cases hn : n ∈ nvram.listed
  · have hlt := idxOf_lt_length_of_mem hn
    simp only [if_neg hnil, removeAt_eq hlt, eraseIdx_idxOf_eq_erase, if_neg (Nat.not_le.mpr hlt)]
    grind [Nvram.listed]
  · simp [hnil, hn, erase_of_not_mem]

/-- A call keeps the order and the variables consistent. -/
theorem Call.run_consistent (call : Call) (h : nvram.Consistent) : (run nvram call).Consistent := by
  cases call with
  | add option i =>
    unfold run addBootOption
    dsimp only
    split
    · exact h
    next n hfree =>
    split
    · exact h
    next data _ =>
    intro m
    obtain ⟨hboot, hcount⟩ := addToBootOrder_count
      ⟨nvram.bootOrder, Function.update nvram.boot n (some data)⟩ n m i
    have hnone := findFreeLoop_free hfree
    have hm := h m
    rw [count_cons] at hcount
    split <;> next heq =>
      simp only [heq] at hboot hcount
      simp only [hboot, Function.update_apply]
      apply hcount.trans
      change nvram.listed.count m + _ ≤ _
      grind
  | delete n =>
    rw [run, deleteBootOption]
    split
    · exact h
    intro m
    have hm := h m
    obtain ⟨hboot, hlisted⟩ := deleteFromBootOrder_erase
      ⟨nvram.bootOrder, Function.update nvram.boot n none⟩ n
    simp only [hboot, Function.update_apply, hlisted, count_erase]
    change nvram.listed.count m - _ ≤ _
    grind

/-- After any calls, whether they succeed or fail, `BootOrder` lists no number twice and none
without a variable, if it did not before. -/
theorem consistent_run (h : nvram.Consistent) (calls : List Call) :
    (calls.foldl Call.run nvram).Consistent :=
  foldlRecOn calls _ h fun _ h call _ => call.run_consistent h

/-- An option is added to a list with one, which is then deleted. -/
theorem consistent_run_sample :
    ([.add sampleOption 0, .delete 7].foldl Call.run (sampleNvram [7] [7])).Consistent :=
  consistent_run (by intro n; simp [Nvram.listed, sampleNvram]; grind) _

end Clover.Boot
