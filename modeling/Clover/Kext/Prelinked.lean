import Clover.Kext.PrelinkValues
import Clover.Lib.Run

/-!
# Kexts in the prelink information

The function `LOADER_ENTRY::PatchPrelinkedKexts` of `Platform/kext_patcher.cpp`. The prelink
information is a dictionary whose inner dictionaries are those of the kexts. The function looks for
`dict>`, tells by the bytes before it which tag it is the end of, and counts the level. For every
dictionary at level 2 it puts a zero behind it, calls `PatchKext`, and puts the byte back.

The bytes before a `dict>` at the very start of the text are outside of it. If they make it a tag,
the level is wrong from there on; and the size of a dictionary is cut to 32 bits. Otherwise every
kext is visited once, with its own dictionary: `patchPrelinkedKexts_iff`.
-/

namespace Clover.Kext

open Clover.Lib Clover.Xml List

variable {pat : Bytes} {e i q : Nat} {elements : List (Nat × Nat)}

/-! ## The function -/

/-- A call of `PatchKext`, with the memory that it sees. -/
structure PatchCall where
  kextAddr : UInt64
  kextSize : UInt32
  infoPlist : Nat
  infoPlistSize : UInt32
  mem : Bytes

/-- The variables of the loop, and the calls so far. Pointers are places in the memory. -/
structure Scan where
  mem : Bytes
  dictPtr : Nat
  dictLevel : Int
  infoPlistStart : Option Nat
  calls : List PatchCall

/-- What the function gets from the loader entry. -/
structure LoaderEntry where
  prelinkInfoAddr : Nat
  kernelSlide : UInt64
  kernelRelocBase : UInt64

def dictTail : Bytes := lit "dict>"

def kPrelinkExecutableSourceKey : Bytes := lit "_PrelinkExecutableSourceAddr"

def kPrelinkExecutableSizeKey : Bytes := lit "_PrelinkExecutableSize"

section Function

variable (entry : LoaderEntry)

/-- The call for the dictionary from `start` to `infoPlistEnd`. -/
def callPatchKext (mem : Bytes) (start infoPlistEnd : Nat) : PatchCall :=
  let cut := mem.set infoPlistEnd 0
  let wholePlist := cString (cut.drop entry.prelinkInfoAddr)
  let infoPlist := cString (cut.drop start)
  { kextAddr :=
      (getPlistHexValue infoPlist kPrelinkExecutableSourceKey wholePlist).toUInt32.toUInt64 +
        entry.kernelSlide + entry.kernelRelocBase
    kextSize := (getPlistHexValue infoPlist kPrelinkExecutableSizeKey wholePlist).toUInt32
    infoPlist := start
    infoPlistSize := UInt32.ofNat (infoPlistEnd - start)
    mem := cut }

/-- What is done at the end tag of a dictionary: a call if it is at level 2, and the byte behind the
dictionary is saved and put back. `PatchKext` leaves the text alone. -/
def closeDict (s : Scan) (infoPlistEnd : Nat) : Scan :=
  match s.infoPlistStart with
  | some start =>
    if s.dictLevel = 2 then
      let savedValue := s.mem.getD infoPlistEnd 0
      let call := callPatchKext entry s.mem start infoPlistEnd
      { s with mem := call.mem.set infoPlistEnd savedValue, calls := s.calls ++ [call] }
    else s
  | none => s

/-- One pass of the loop. -/
def kextPass (s : Scan) : Run (Pass Scan Scan) :=
  match asciiStrStr (cString (s.mem.drop s.dictPtr)) dictTail with
  | none => .ok (.leave s)
  | some i =>
    let dictPtr := s.dictPtr + i
    if s.mem.getD (dictPtr - 1) 0 = 60 then
      .ok (.again { s with
        dictPtr := dictPtr + 5
        dictLevel := s.dictLevel + 1
        infoPlistStart := if s.dictLevel + 1 = 2 then some (dictPtr - 1) else s.infoPlistStart })
    else if s.mem.getD (dictPtr - 2) 0 = 60 ∧ s.mem.getD (dictPtr - 1) 0 = 47 then
      let s := closeDict entry s (dictPtr + 5)
      .ok (.again { s with dictPtr := dictPtr + 5, dictLevel := s.dictLevel - 1 })
    else .ok (.again { s with dictPtr := dictPtr + 5 })

/-- The memory and the calls in the end; `fuel` bounds the passes of the loop. -/
def patchPrelinkedKexts (fuel : Nat) (mem : Bytes) : Run Scan :=
  Run.loop (kextPass entry) fuel ⟨mem, entry.prelinkInfoAddr, 0, none, []⟩

end Function

/-! ## Dictionaries at a depth -/

/-- The element from `s` to `e` is a dictionary at depth `d`. -/
structure IsElement (text : Bytes) (d : Int) (s e : Nat) : Prop where
  start : dictStart <+: text.drop s
  depth_start : depth text s = d - 1
  seven_le : 7 ≤ e
  stop : dictEnd <+: text.drop (e - 7)
  lt : s < e - 7
  depth_stop : depth text (e - 7) = d
  inside : ∀ j, s < j → j ≤ e - 7 → d ≤ depth text j

/-- The call is for the element from `p.1` to `p.2` of the text at `base`. -/
def CallFor (base : Nat) (mem : Bytes) (call : PatchCall) (p : Nat × Nat) : Prop :=
  call.infoPlist = base + p.1 ∧ call.infoPlistSize.toNat = p.2 - p.1 ∧
    call.mem = mem.set (base + p.2) 0

/-- Every dictionary at depth 2 has been visited once, in the order of the text, and the memory is
as it was. -/
def VisitsAll (text : Bytes) (base : Nat) (mem : Bytes) (r : Scan) : Prop :=
  r.mem = mem ∧ ∃ elements : List (Nat × Nat),
    (∀ s e, (s, e) ∈ elements ↔ IsElement text 2 s e) ∧
    elements.Pairwise (fun p q => p.1 < q.1) ∧
    List.Forall₂ (CallFor base mem) r.calls elements

/-- What a `dict>` at the start of the text adds to the level by the two bytes before the text. -/
def outerTag (b₂ b₁ : UInt8) (text : Bytes) : Int :=
  if dictTail <+: text then
    if b₁ = 60 then 1 else if b₂ = 60 ∧ b₁ = 47 then -1 else 0
  else if lit "/dict>" <+: text ∧ b₁ = 60 then -1
  else 0

/-! ## The next tag -/

section NextTag

variable {text : Bytes} {i q : Nat} {a : UInt8}

theorem letter_of_starts {j : Nat} (h : pat <+: text.drop q) (hj : j < pat.length) :
    text[q + j]? = pat[j]? := by
  obtain ⟨rest, hrest⟩ := h
  rw [← getElem?_drop, ← hrest, getElem?_append_left hj]

theorem starts_tail (h : a :: pat <+: text.drop q) : pat <+: text.drop (q + 1) := by
  obtain ⟨rest, hrest⟩ := h
  refine ⟨rest, ?_⟩
  rw [← drop_drop, ← hrest]
  rfl

theorem starts_cons (ha : text[q]? = some a) (h : pat <+: text.drop (q + 1)) :
    a :: pat <+: text.drop q := by
  obtain ⟨hq, ha⟩ := List.getElem?_eq_some_iff.mp ha
  rw [drop_eq_getElem_cons hq, ha]
  exact List.cons_prefix_cons.mpr ⟨rfl, h⟩

theorem dictTail_letters (h : dictTail <+: text.drop q) :
    ∀ j, q ≤ j → j < q + 5 → text[j]? ≠ some 60 := by
  intro j hle hlt hj
  have hletter := letter_of_starts h (j := j - q) (by have : dictTail.length = 5 := rfl; omega)
  rw [Nat.add_sub_cancel' hle, hj] at hletter
  have : ∀ n < 5, some 60 ≠ dictTail[n]? := by decide
  exact this (j - q) (by omega) hletter

theorem letter_unique {b : UInt8} (ha : text[q]? = some a) (hb : text[q]? = some b) : a = b :=
  Option.some.inj (ha.symm.trans hb)

theorem tags_exclusive (hstart : dictStart <+: text.drop (q + 1)) (hend : dictEnd <+: text.drop q) :
    False :=
  absurd (letter_unique (getElem?_of_starts hstart) (getElem?_of_starts (starts_tail hend)))
    (by decide)

/-- Before the only tag up to `e` the depth stays, and behind it also. -/
theorem depth_one_tag {t : Nat} (hit : i ≤ t) (hte : t ≤ e)
    (honly : ∀ x, i ≤ x → x < e → x ≠ t → nesting (text.drop x) = 0) :
    (∀ j, i ≤ j → j ≤ t → depth text j = depth text i) ∧
      ∀ j, t < j → j ≤ e → depth text j = depth text i + nesting (text.drop t) := by
  have hbefore : ∀ j, i ≤ j → j ≤ t → depth text j = depth text i := by
    intro j hle hlt
    obtain ⟨n, rfl⟩ := Nat.exists_eq_add_of_le hle
    exact depth_of_nesting fun x hx hx' => honly x hx (by omega) (by omega)
  refine ⟨hbefore, fun j hlt hle => ?_⟩
  obtain ⟨n, rfl⟩ := Nat.exists_eq_add_of_le hlt
  rw [depth_of_nesting fun x hx hx' => honly x (by omega) (by omega) (by omega), depth,
    hbefore t hit (le_refl t)]

variable (hq : dictTail <+: text.drop q) (hfirst : ∀ x, i ≤ x → x < q → ¬ dictTail <+: text.drop x)

include hq hfirst

/-- The only tag up to the end of the first `dict>` is the one that this belongs to. -/
theorem tag_before {t : Nat} (ht : i ≤ t) (hlt : t < q + 5) (hnest : nesting (text.drop t) ≠ 0) :
    t + 1 = q ∧ dictStart <+: text.drop t ∨ t + 2 = q ∧ dictEnd <+: text.drop t := by
  have hletter : text[t]? = some 60 := by
    by_contra hne
    exact hnest (nesting_letter hne)
  have hbefore : t < q := by
    by_contra hge
    exact dictTail_letters hq t (by omega) hlt hletter
  by_cases hstart : dictStart <+: text.drop t
  · left
    have htail : dictTail <+: text.drop (t + 1) := starts_tail hstart
    refine ⟨?_, hstart⟩
    by_contra hne
    exact hfirst (t + 1) (by omega) (by omega) htail
  · have hend : dictEnd <+: text.drop t := by
      by_contra hend
      exact hnest (nesting_other hstart hend)
    right
    have htail : dictTail <+: text.drop (t + 2) := starts_tail (starts_tail hend)
    refine ⟨?_, hend⟩
    by_contra hne
    rcases lt_or_ge (t + 2) q with hlt' | hge
    · exact hfirst (t + 2) (by omega) hlt' htail
    · -- the slash would be the first letter of `dict>`
      obtain rfl : q = t + 1 := by omega
      exact absurd (letter_unique (getElem?_of_starts (starts_tail hend)) (getElem?_of_starts hq))
        (by decide)

/-- Up to a start tag the depth stays, and behind it is one more. -/
theorem depth_start_tag (hstart : dictStart <+: text.drop (q - 1)) (hi : i + 1 ≤ q) :
    (∀ j, i ≤ j → j ≤ q - 1 → depth text j = depth text i) ∧
      ∀ j, q - 1 < j → j ≤ q + 5 → depth text j = depth text i + 1 := by
  rw [← nesting_dictStart hstart]
  refine depth_one_tag (by omega) (by omega) fun t ht hlt hne => ?_
  by_contra hnest
  rcases tag_before hq hfirst ht hlt hnest with ⟨heq, -⟩ | ⟨heq, hend⟩
  · omega
  · exact tags_exclusive (by rwa [show t + 1 = q - 1 by omega]) hend

theorem depth_end_tag (hend : dictEnd <+: text.drop (q - 2)) (hi : i + 2 ≤ q) :
    (∀ j, i ≤ j → j ≤ q - 2 → depth text j = depth text i) ∧
      ∀ j, q - 2 < j → j ≤ q + 5 → depth text j = depth text i - 1 := by
  rw [Int.sub_eq_add_neg, ← nesting_dictEnd hend]
  refine depth_one_tag (by omega) (by omega) fun t ht hlt hne => ?_
  by_contra hnest
  rcases tag_before hq hfirst ht hlt hnest with ⟨heq, hstart⟩ | ⟨heq, -⟩
  · exact tags_exclusive (by rwa [show q - 2 + 1 = t by omega]) hend
  · omega

theorem depth_no_tag (hstart : ¬ (i + 1 ≤ q ∧ dictStart <+: text.drop (q - 1)))
    (hend : ¬ (i + 2 ≤ q ∧ dictEnd <+: text.drop (q - 2))) :
    ∀ j, i ≤ j → j ≤ q + 5 → depth text j = depth text i := by
  intro j hle hle'
  obtain ⟨n, rfl⟩ : ∃ n, j = i + n := ⟨j - i, by omega⟩
  apply depth_of_nesting
  intro t ht hlt
  by_contra hnest
  rcases tag_before hq hfirst ht (by omega) hnest with ⟨rfl, h⟩ | ⟨rfl, h⟩
  · exact hstart ⟨by omega, h⟩
  · exact hend ⟨by omega, h⟩

end NextTag

/-! ## The text in memory -/

/-- A text in memory, with the two bytes before it and the zero behind it. -/
def around (front : Bytes) (b₂ b₁ : UInt8) (text rest : Bytes) : Bytes :=
  front ++ b₂ :: b₁ :: (text ++ 0 :: rest)

section Around

variable {front text rest : Bytes} {b₂ b₁ : UInt8} {i q : Nat}

theorem drop_around (i : Nat) : (around front b₂ b₁ text rest).drop (front.length + 2 + i) =
    (text ++ 0 :: rest).drop i := by
  rw [around, ← drop_drop, ← drop_drop, drop_left]
  rfl

theorem cString_around (hzero : 0 ∉ text) (hi : i ≤ text.length) :
    cString ((around front b₂ b₁ text rest).drop (front.length + 2 + i)) = text.drop i := by
  rw [drop_around, drop_append_of_le_length hi]
  apply takeWhile_stop
  · intro x hx
    rw [decide_eq_true_iff]
    rintro rfl
    exact hzero (mem_of_mem_drop hx)
  · decide

theorem getD_around {c : UInt8} (h : text[i]? = some c) :
    (around front b₂ b₁ text rest).getD (front.length + 2 + i) 0 = c := by
  have hi := (List.getElem?_eq_some_iff.mp h).1
  rw [getD_eq_getElem?_getD, ← Nat.add_zero (front.length + 2 + i), ← getElem?_drop,
    drop_around, getElem?_drop, Nat.add_zero, getElem?_append_left hi, h]
  rfl

theorem getD_before (front text rest : Bytes) (b₂ b₁ : UInt8) :
    (around front b₂ b₁ text rest).getD (front.length + 1) 0 = b₁ ∧
      (around front b₂ b₁ text rest).getD front.length 0 = b₂ := by
  constructor
  · simp [around, getD_eq_getElem?_getD]
  · simp [around, getD_eq_getElem?_getD]

/-- The places where the bytes before a `dict>` tell what it is: the bytes before the text make no
tag, or a tag ends here. -/
def Boundary (b₂ b₁ : UInt8) (text : Bytes) (i : Nat) : Prop :=
  i = 0 ∧ outerTag b₂ b₁ text = 0 ∨ 0 < i ∧ text[i - 1]? = some 62

variable (hboundary : Boundary b₂ b₁ text i) (hi : i ≤ q) (hq : dictTail <+: text.drop q)
  (hfirst : ∀ x, i ≤ x → x < q → ¬ dictTail <+: text.drop x)

include hboundary hi hq hfirst

/-- The byte before `dict>` tells a start tag. -/
theorem start_test : (around front b₂ b₁ text rest).getD (front.length + 2 + q - 1) 0 = 60 ↔
    i + 1 ≤ q ∧ dictStart <+: text.drop (q - 1) := by
  cases q with
  | zero =>
    rcases hboundary with ⟨-, houter⟩ | ⟨hpos, -⟩
    · rw [drop_zero] at hq
      rw [outerTag, if_pos hq] at houter
      have hne : b₁ ≠ 60 := by
        intro h
        rw [if_pos h] at houter
        exact absurd houter (by decide)
      have hbefore := (getD_before front text rest b₂ b₁).1
      rw [show front.length + 2 + 0 - 1 = front.length + 1 by omega, hbefore]
      simp [hne]
    · omega
  | succ q =>
    have hlength := lt_length_of_starts hq
    have hget : text[q]? = some text[q] := getElem?_eq_getElem (by omega)
    rw [show front.length + 2 + (q + 1) - 1 = front.length + 2 + q by omega, getD_around hget,
      Nat.add_sub_cancel]
    constructor
    · intro hopen
      rw [hopen] at hget
      refine ⟨?_, starts_cons hget hq⟩
      rcases hboundary with ⟨rfl, -⟩ | ⟨hpos, hend⟩
      · omega
      · by_contra hlt
        rw [show i - 1 = q by omega] at hend
        exact absurd (letter_unique hget hend) (by decide)
    · rintro ⟨-, hstart⟩
      exact letter_unique hget (getElem?_of_starts hstart)

theorem end_test : ((around front b₂ b₁ text rest).getD (front.length + 2 + q - 2) 0 = 60 ∧
    (around front b₂ b₁ text rest).getD (front.length + 2 + q - 1) 0 = 47) ↔
    i + 2 ≤ q ∧ dictEnd <+: text.drop (q - 2) := by
  obtain ⟨hb1, hb2⟩ := getD_before front text rest b₂ b₁
  match q with
  | 0 =>
    rcases hboundary with ⟨-, houter⟩ | ⟨hpos, -⟩
    · rw [drop_zero] at hq
      rw [outerTag, if_pos hq] at houter
      rw [show front.length + 2 + 0 - 1 = front.length + 1 by omega,
        show front.length + 2 + 0 - 2 = front.length by omega, hb1, hb2]
      constructor
      · rintro ⟨rfl, rfl⟩
        exact absurd houter (by decide)
      · rintro ⟨hle, -⟩
        omega
    · omega
  | 1 =>
    have hlength := lt_length_of_starts hq
    have hget : text[0]? = some text[0] := getElem?_eq_getElem (by omega)
    have htext : (around front b₂ b₁ text rest).getD (front.length + 2 + 0) 0 = text[0] :=
      getD_around hget
    rw [show front.length + 2 + 1 - 1 = front.length + 2 + 0 by omega,
      show front.length + 2 + 1 - 2 = front.length + 1 by omega, hb1, htext]
    constructor
    · rintro ⟨rfl, hslash⟩
      rw [hslash] at hget
      rcases hboundary with ⟨rfl, houter⟩ | ⟨hpos, hend⟩
      · have hnot : ¬ dictTail <+: text := hfirst 0 (le_refl 0) (by omega)
        have houtside : lit "/dict>" <+: text := starts_cons (q := 0) hget hq
        rw [outerTag, if_neg hnot, if_pos ⟨houtside, rfl⟩] at houter
        exact absurd houter (by decide)
      · rw [show i - 1 = 0 by omega] at hend
        exact absurd (letter_unique hget hend) (by decide)
    · rintro ⟨hle, -⟩
      omega
  | q + 2 =>
    have hlength := lt_length_of_starts hq
    have hget2 : text[q]? = some text[q] := getElem?_eq_getElem (by omega)
    have hget1 : text[q + 1]? = some text[q + 1] := getElem?_eq_getElem (by omega)
    rw [show front.length + 2 + (q + 2) - 2 = front.length + 2 + q by omega,
      show front.length + 2 + (q + 2) - 1 = front.length + 2 + (q + 1) by omega,
      getD_around hget2, getD_around hget1, Nat.add_sub_cancel]
    constructor
    · rintro ⟨hopen, hslash⟩
      rw [hopen] at hget2
      rw [hslash] at hget1
      refine ⟨?_, starts_cons hget2 (starts_cons hget1 hq)⟩
      rcases hboundary with ⟨rfl, -⟩ | ⟨hpos, hend⟩
      · omega
      · by_contra hlt
        rcases (by omega : i - 1 = q ∨ i - 1 = q + 1) with h | h
        · exact absurd (letter_unique hget2 (h ▸ hend)) (by decide)
        · exact absurd (letter_unique hget1 (h ▸ hend)) (by decide)
    · rintro ⟨-, hend⟩
      exact ⟨letter_unique hget2 (getElem?_of_starts hend),
        letter_unique hget1 (getElem?_of_starts (starts_tail hend))⟩

end Around

/-! ## The invariant of the loop -/

section Invariant

variable {front text rest : Bytes} {b₂ b₁ : UInt8}

/-- The call is for the element from `p.1` to `p.2`, with the size cut to 32 bits. -/
def CallCut (base : Nat) (mem : Bytes) (call : PatchCall) (p : Nat × Nat) : Prop :=
  call.infoPlist = base + p.1 ∧ call.infoPlistSize = UInt32.ofNat (p.2 - p.1) ∧
    call.mem = mem.set (base + p.2) 0

/-- The dictionary at depth `d` that is open at `i` has been noted. -/
def Noted (front text : Bytes) (d : Int) (i : Nat) (infoPlistStart : Option Nat) : Prop :=
  ∃ a < i, infoPlistStart = some (front.length + 2 + a) ∧ dictStart <+: text.drop a ∧
    depth text a = d - 1 ∧ ∀ j, a < j → j ≤ i → d ≤ depth text j

/-- What holds when the loop has come to `i`: the level is two at depth `d`, a dictionary at depth
`d` that is open has been noted, and those that end before have been visited. -/
structure ScanInv (front : Bytes) (b₂ b₁ : UInt8) (text rest : Bytes) (d : Int) (i : Nat)
    (s : Scan) (elements : List (Nat × Nat)) : Prop where
  le : i ≤ text.length
  boundary : Boundary b₂ b₁ text i
  mem : s.mem = around front b₂ b₁ text rest
  ptr : s.dictPtr = front.length + 2 + i
  level : s.dictLevel = depth text i + (2 - d)
  noted : d ≤ depth text i → Noted front text d i s.infoPlistStart
  complete : ∀ a e, (a, e) ∈ elements ↔ IsElement text d a e ∧ e ≤ i
  sorted : elements.Pairwise (fun p q => p.1 < q.1)
  calls : List.Forall₂ (CallCut (front.length + 2) (around front b₂ b₁ text rest)) s.calls elements

theorem IsElement.start_unique {d : Int} {a a' : Nat} (h : IsElement text d a e)
    (h' : IsElement text d a' e) : a = a' := by
  have hlt := h.lt
  have hlt' := h'.lt
  rcases lt_trichotomy a a' with hcmp | rfl | hcmp
  · have := h.inside a' hcmp (by omega)
    have := h'.depth_start
    omega
  · rfl
  · have := h'.inside a hcmp (by omega)
    have := h.depth_start
    omega

theorem IsElement.start_lt {d : Int} {a a' e' : Nat} (h : IsElement text d a e)
    (h' : IsElement text d a' e') (he : e < e') : a < a' := by
  have hlt := h.lt
  have hdepth : depth text (e - 7 + 1) = d - 1 := by
    rw [depth, nesting_dictEnd h.stop, h.depth_stop]
    rfl
  by_contra hge
  have := h'.inside (e - 7 + 1) (by omega) (by omega)
  omega

theorem end_tag_boundary {c : Nat} (hboundary : Boundary b₂ b₁ text i)
    (hend : dictEnd <+: text.drop c) : c + 7 ≤ i ∨ i ≤ c := by
  by_contra hnot
  rcases hboundary with ⟨rfl, -⟩ | ⟨hpos, hlast⟩
  · omega
  · have hletter := letter_of_starts hend (j := i - 1 - c)
      (by have : dictEnd.length = 7 := rfl; omega)
    rw [Nat.add_sub_cancel' (by omega), hlast] at hletter
    have : ∀ n < 6, some 62 ≠ dictEnd[n]? := by decide
    exact this (i - 1 - c) (by omega) hletter

theorem dictTail_of_dictEnd {c : Nat} (hend : dictEnd <+: text.drop c) :
    dictTail <+: text.drop (c + 2) := starts_tail (starts_tail hend)

theorem boundary_next (hq : dictTail <+: text.drop q) : Boundary b₂ b₁ text (q + 5) :=
  Or.inr ⟨Nat.succ_pos _, letter_of_starts hq (j := 4) (by decide)⟩

theorem length_next (hq : dictTail <+: text.drop q) : q + 5 ≤ text.length := by
  have hend : text[q + 4]? = some 62 := letter_of_starts hq (by decide)
  exact (List.getElem?_eq_some_iff.mp hend).1

variable {d : Int} {i q : Nat} {s : Scan} {elements : List (Nat × Nat)}
  (h : ScanInv front b₂ b₁ text rest d i s elements)

include h

theorem ScanInv.complete_of_none (hnone : ∀ x, i ≤ x → ¬ dictTail <+: text.drop x) (a e : Nat) :
    (a, e) ∈ elements ↔ IsElement text d a e := by
  rw [h.complete]
  constructor
  · exact fun h => h.1
  · intro helement
    refine ⟨helement, ?_⟩
    rcases end_tag_boundary h.boundary helement.stop with hle | hge
    · omega
    · exact absurd (dictTail_of_dictEnd helement.stop) (hnone _ (by omega))

variable (hi : i ≤ q)

include hi

/-- A dictionary that was open stays noted while the depth does not fall below `d`. -/
theorem ScanInv.noted_next (hd : d ≤ depth text i)
    (hdepth : ∀ j, i ≤ j → j ≤ q + 5 → d ≤ depth text j) :
    Noted front text d (q + 5) s.infoPlistStart := by
  obtain ⟨a, hlt, hstart, htag, hbefore, hinside⟩ := h.noted hd
  refine ⟨a, by omega, hstart, htag, hbefore, ?_⟩
  intro j hj hle
  rcases lt_or_ge i j with hgt | hge
  · exact hdepth j (le_of_lt hgt) hle
  · exact hinside j hj hge

variable (hfirst : ∀ x, i ≤ x → x < q → ¬ dictTail <+: text.drop x)

include hfirst

/-- The elements that end up to `q + 5` are those that end up to `i`, and those whose end tag is
here. -/
theorem ScanInv.complete_next (a e : Nat) : IsElement text d a e ∧ e ≤ q + 5 ↔
    (a, e) ∈ elements ∨ IsElement text d a e ∧ e = q + 5 ∧ i + 2 ≤ q := by
  rw [h.complete]
  constructor
  · rintro ⟨helement, hle⟩
    have h7 := helement.seven_le
    rcases end_tag_boundary h.boundary helement.stop with hbefore | hbehind
    · exact Or.inl ⟨helement, by omega⟩
    · right
      have htail := dictTail_of_dictEnd helement.stop
      have hge : q ≤ e - 7 + 2 := by
        by_contra hlt
        exact hfirst _ (by omega) (by omega) htail
      exact ⟨helement, by omega, by omega⟩
  · rintro (⟨helement, hle⟩ | ⟨helement, rfl, -⟩)
    · exact ⟨helement, by omega⟩
    · exact ⟨helement, le_refl _⟩

variable (hq : dictTail <+: text.drop q)

include hq

/-- A pass in which no dictionary at depth `d` ends. -/
theorem ScanInv.advance {s' : Scan} (hmem : s'.mem = s.mem) (hcalls : s'.calls = s.calls)
    (hptr : s'.dictPtr = s.dictPtr + (q - i) + 5)
    (hlevel : s'.dictLevel - s.dictLevel = depth text (q + 5) - depth text i)
    (hnoted : d ≤ depth text (q + 5) → Noted front text d (q + 5) s'.infoPlistStart)
    (hnone : ∀ a, ¬ (IsElement text d a (q + 5) ∧ i + 2 ≤ q)) :
    ScanInv front b₂ b₁ text rest d (q + 5) s' elements where
  le := length_next hq
  boundary := boundary_next hq
  mem := hmem.trans h.mem
  ptr := by
    clear hnoted hnone
    rw [hptr, h.ptr]
    omega
  level := by
    have := h.level
    omega
  noted := hnoted
  complete := by
    intro a e
    rw [h.complete_next hi hfirst]
    constructor
    · exact Or.inl
    · rintro (hmem | ⟨helement, rfl, hle⟩)
      · exact hmem
      · exact absurd ⟨helement, hle⟩ (hnone a)
  sorted := h.sorted
  calls := hcalls ▸ h.calls

theorem ScanInv.no_tag (hstart : ¬ (i + 1 ≤ q ∧ dictStart <+: text.drop (q - 1)))
    (hend : ¬ (i + 2 ≤ q ∧ dictEnd <+: text.drop (q - 2))) :
    ScanInv front b₂ b₁ text rest d (q + 5) { s with dictPtr := s.dictPtr + (q - i) + 5 }
      elements := by
  have hdepth := depth_no_tag hq hfirst hstart hend
  refine h.advance hi hfirst hq rfl rfl rfl ?_ ?_ ?_
  · rw [hdepth (q + 5) (by omega) (le_refl _), Int.sub_self, Int.sub_self]
  · intro hd
    rw [hdepth (q + 5) (by omega) (le_refl _)] at hd
    apply h.noted_next hi hd
    intro j hle hle'
    rw [hdepth j hle hle']
    exact hd
  · rintro a ⟨helement, hle⟩
    exact hend ⟨hle, helement.stop⟩

/-- The pass at a start tag keeps the invariant. -/
theorem ScanInv.start_tag (hle : i + 1 ≤ q) (hstart : dictStart <+: text.drop (q - 1)) :
    ScanInv front b₂ b₁ text rest d (q + 5)
      { s with
        dictPtr := s.dictPtr + (q - i) + 5
        dictLevel := s.dictLevel + 1
        infoPlistStart :=
          if s.dictLevel + 1 = 2 then some (s.dictPtr + (q - i) - 1) else s.infoPlistStart }
      elements := by
  obtain ⟨hbefore, hbehind⟩ := depth_start_tag hq hfirst hstart hle
  have hlast := hbehind (q + 5) (by omega) (le_refl _)
  have hlevel := h.level
  refine h.advance hi hfirst hq rfl rfl rfl ?_ ?_ ?_
  · show s.dictLevel + 1 - s.dictLevel = _
    omega
  · intro hd
    by_cases hnew : s.dictLevel + 1 = 2
    · -- the dictionary at depth `d` starts here
      refine ⟨q - 1, by omega, ?_, hstart, ?_, ?_⟩
      · show (if s.dictLevel + 1 = 2 then some (s.dictPtr + (q - i) - 1) else s.infoPlistStart) = _
        rw [if_pos hnew, h.ptr]
        congr 1
        omega
      · rw [hbefore (q - 1) (by omega) (le_refl _)]
        omega
      · intro j hj hj'
        rw [hbehind j hj hj']
        omega
    · rw [if_neg hnew]
      apply h.noted_next hi (by omega)
      intro j hj hj'
      rcases lt_or_ge (q - 1) j with hgt | hge
      · rw [hbehind j hgt hj']
        omega
      · rw [hbefore j hj hge]
        omega
  · rintro a ⟨helement, hle⟩
    exact tags_exclusive (by rwa [show q + 5 - 7 + 1 = q - 1 by omega]) helement.stop

/-- The pass at an end tag keeps the invariant. -/
theorem ScanInv.end_tag (entry : LoaderEntry) (hle : i + 2 ≤ q)
    (hend : dictEnd <+: text.drop (q - 2)) : ∃ elements,
    ScanInv front b₂ b₁ text rest d (q + 5)
      { closeDict entry s (s.dictPtr + (q - i) + 5) with
        dictPtr := s.dictPtr + (q - i) + 5
        dictLevel := (closeDict entry s (s.dictPtr + (q - i) + 5)).dictLevel - 1 }
      elements := by
  obtain ⟨hbefore, hbehind⟩ := depth_end_tag hq hfirst hend hle
  have hlast := hbehind (q + 5) (by omega) (le_refl _)
  have hhere := hbefore (q - 2) (by omega) (le_refl _)
  have hlevel := h.level
  have hnoted : d ≤ depth text (q + 5) → Noted front text d (q + 5) s.infoPlistStart := by
    intro hd
    apply h.noted_next hi (by omega)
    intro j hj hj'
    rcases lt_or_ge (q - 2) j with hgt | hge
    · rw [hbehind j hgt hj']
      omega
    · rw [hbefore j hj hge]
      omega
  by_cases htwo : s.dictLevel = 2
  · -- the dictionary that has been noted ends here
    obtain ⟨a, hlt, hstart, htag, hdepth, hinside⟩ := h.noted (by omega)
    have hstop : q + 5 - 7 = q - 2 := by omega
    have helement : IsElement text d a (q + 5) := by
      refine ⟨htag, hdepth, by omega, hend, by omega, by rw [hstop]; omega, ?_⟩
      intro j hj hj'
      rcases lt_or_ge i j with hgt | hge
      · rw [hbefore j (le_of_lt hgt) hj']
        omega
      · exact hinside j hj hge
    have hplace : s.dictPtr + (q - i) + 5 = front.length + 2 + (q + 5) := by
      rw [h.ptr]
      omega
    have hclose : closeDict entry s (s.dictPtr + (q - i) + 5) =
        { s with calls := s.calls ++
            [callPatchKext entry s.mem (front.length + 2 + a) (front.length + 2 + (q + 5))] } := by
      have hlength : front.length + 2 + (q + 5) < s.mem.length := by
        have := length_next hq
        rw [h.mem, around]
        simp only [length_append, length_cons]
        omega
      rw [closeDict, hstart, hplace]
      dsimp only
      rw [if_pos htwo, callPatchKext]
      simp only [set_set, getD_eq_getElem _ 0 hlength, set_getElem_self]
    rw [hclose]
    refine ⟨elements ++ [(a, q + 5)], ?_⟩
    exact {
      le := length_next hq
      boundary := boundary_next hq
      mem := h.mem
      ptr := hplace
      level := by
        show s.dictLevel - 1 = _
        omega
      noted := hnoted
      complete := by
        intro a' e
        rw [h.complete_next hi hfirst, mem_append, mem_singleton, Prod.mk.injEq]
        apply or_congr Iff.rfl
        constructor
        · rintro ⟨rfl, rfl⟩
          exact ⟨helement, rfl, hle⟩
        · rintro ⟨helement', rfl, -⟩
          exact ⟨helement'.start_unique helement, rfl⟩
      sorted := by
        rw [pairwise_append]
        refine ⟨h.sorted, pairwise_singleton _ _, ?_⟩
        rintro ⟨a', e'⟩ hmem p hp
        rw [mem_singleton] at hp
        rw [hp]
        obtain ⟨helement', hle'⟩ := (h.complete a' e').mp hmem
        exact helement'.start_lt helement (by omega)
      calls := by
        refine rel_append h.calls (List.Forall₂.cons ⟨rfl, ?_, ?_⟩ List.Forall₂.nil)
        · show UInt32.ofNat (front.length + 2 + (q + 5) - (front.length + 2 + a)) = _
          rw [Nat.add_sub_add_left]
        · rw [← h.mem]
          rfl }
  · have hclose : closeDict entry s (s.dictPtr + (q - i) + 5) = s := by
      rw [closeDict]
      split
      · rw [if_neg htwo]
      · rfl
    rw [hclose]
    refine ⟨elements, h.advance hi hfirst hq rfl rfl rfl ?_ hnoted ?_⟩
    · show s.dictLevel - 1 - s.dictLevel = _
      omega
    · rintro a ⟨helement, -⟩
      have hd := helement.depth_stop
      rw [show q + 5 - 7 = q - 2 by omega] at hd
      omega

end Invariant

/-! ## Whole runs -/

section Run

variable {front text rest : Bytes} {b₂ b₁ : UInt8} {d : Int} (entry : LoaderEntry)
  (hzero : 0 ∉ text) {fuel : Nat} {s : Scan}

include hzero

/-- A pass leaves the loop with all elements visited, or goes on. -/
theorem kextPass_spec (h : ScanInv front b₂ b₁ text rest d i s elements) :
    (kextPass entry s = .ok (.leave s) ∧ ∀ a e, (a, e) ∈ elements ↔ IsElement text d a e) ∨
    ∃ i' s' elements', kextPass entry s = .ok (.again s') ∧ i < i' ∧
      ScanInv front b₂ b₁ text rest d i' s' elements' := by
  have hsearch : asciiStrStr (cString (s.mem.drop s.dictPtr)) dictTail =
      findPat dictTail (text.drop i) := by
    rw [asciiStrStr_eq, h.mem, h.ptr, cString_around hzero h.le]
  rw [kextPass, hsearch]
  cases hfind : findPat dictTail (text.drop i) with
  | none =>
    left
    refine ⟨rfl, h.complete_of_none ?_⟩
    intro x hx
    have := findPat_eq_none_iff.mp hfind (x - i)
    rwa [drop_drop, Nat.add_sub_cancel' hx] at this
  | some off =>
    right
    obtain ⟨hq, hmin⟩ := findPat_eq_some_iff.mp hfind
    rw [drop_drop] at hq
    have hi : i ≤ i + off := Nat.le_add_right i off
    have hoff : i + off - i = off := Nat.add_sub_cancel_left i off
    have hfirst : ∀ x, i ≤ x → x < i + off → ¬ dictTail <+: text.drop x := by
      intro x hx hlt
      have := hmin (x - i) (by omega)
      rwa [drop_drop, Nat.add_sub_cancel' hx] at this
    have hptr : s.dictPtr + off = front.length + 2 + (i + off) := by
      rw [h.ptr]
      omega
    have hstart : s.mem.getD (s.dictPtr + off - 1) 0 = 60 ↔
        i + 1 ≤ i + off ∧ dictStart <+: text.drop (i + off - 1) := by
      rw [hptr, h.mem]
      exact start_test h.boundary hi hq hfirst
    have hend : (s.mem.getD (s.dictPtr + off - 2) 0 = 60 ∧
        s.mem.getD (s.dictPtr + off - 1) 0 = 47) ↔
        i + 2 ≤ i + off ∧ dictEnd <+: text.drop (i + off - 2) := by
      rw [hptr, h.mem]
      exact end_test h.boundary hi hq hfirst
    dsimp only
    split
    · next hopen =>
      obtain ⟨hle, htag⟩ := hstart.mp hopen
      have hnext := h.start_tag hi hfirst hq hle htag
      rw [hoff] at hnext
      exact ⟨_, _, _, rfl, by omega, hnext⟩
    next hopen =>
    split
    · next hclose =>
      obtain ⟨hle, htag⟩ := hend.mp hclose
      obtain ⟨elements', hnext⟩ := h.end_tag hi hfirst hq entry hle htag
      rw [hoff] at hnext
      exact ⟨_, _, _, rfl, by omega, hnext⟩
    next hclose =>
    have hnext := h.no_tag hi hfirst hq (fun htag => hopen (hstart.mpr htag))
      fun htag => hclose (hend.mpr htag)
    rw [hoff] at hnext
    exact ⟨_, _, _, rfl, by omega, hnext⟩

omit hzero in
/-- A state at the start of the text, before any element and at depth zero. -/
theorem scanInv_first {level : Int} (hle : i ≤ 6) (hlength : i ≤ text.length)
    (hboundary : Boundary b₂ b₁ text i) (hdepth : depth text i = 0) (hd : 1 ≤ d)
    (hlevel : level = 2 - d) :
    ScanInv front b₂ b₁ text rest d i
      ⟨around front b₂ b₁ text rest, front.length + 2 + i, level, none, []⟩ [] where
  le := hlength
  boundary := hboundary
  mem := rfl
  ptr := rfl
  level := by rw [hdepth, hlevel, Int.zero_add]
  noted := by
    intro h
    omega
  complete := by
    intro a e
    refine iff_of_false not_mem_nil fun ⟨helement, he⟩ => ?_
    have := helement.seven_le
    omega
  sorted := List.Pairwise.nil
  calls := List.Forall₂.nil

theorem kextLoop_returns
    (h : ScanInv front b₂ b₁ text rest d i s elements) (hfuel : text.length - i < fuel) :
    Run.Returns (Run.loop (kextPass entry) fuel s) fun r => ∃ i elements,
      ScanInv front b₂ b₁ text rest d i r elements ∧
        ∀ a e, (a, e) ∈ elements ↔ IsElement text d a e := by
  apply Run.returns_loop (fun s => ∃ i elements, ScanInv front b₂ b₁ text rest d i s elements)
    (fun s => front.length + 2 + text.length - s.dictPtr)
  · rintro s ⟨i, elements, hs⟩
    rcases kextPass_spec entry hzero hs with ⟨hpass, hcomplete⟩ | ⟨i', s', elements',
      hpass, hlt, hs'⟩
    · rw [hpass]
      exact Run.returns_ok ⟨i, elements, hs, hcomplete⟩
    · rw [hpass]
      apply Run.returns_ok
      refine ⟨⟨i', elements', hs'⟩, ?_⟩
      have hle := hs'.le
      rw [hs.ptr, hs'.ptr]
      omega
  · exact ⟨i, elements, h⟩
  · rw [h.ptr]
    omega

theorem first_pass (houter : outerTag b₂ b₁ text ≠ 0) : ∃ i s,
    kextPass entry ⟨around front b₂ b₁ text rest, front.length + 2, 0, none, []⟩ = .ok (.again s) ∧
      ScanInv front b₂ b₁ text rest (2 - outerTag b₂ b₁ text) i s [] := by
  have hsearch : asciiStrStr (cString ((around front b₂ b₁ text rest).drop (front.length + 2)))
      dictTail = findPat dictTail text := by
    rw [asciiStrStr_eq]
    exact congrArg _ (cString_around hzero (Nat.zero_le _))
  obtain ⟨hb1, hb2⟩ := getD_before front text rest b₂ b₁
  rw [kextPass]
  rw [hsearch]
  unfold outerTag at houter ⊢
  split at houter
  · next htail =>
    have hdepth : depth text 5 = 0 :=
      depth_no_tag (i := 0) (q := 0) htail (fun x _ hx => absurd hx (Nat.not_lt_zero x)) (by simp)
        (by simp) 5 (by omega) (by omega)
    rw [findPat_eq_zero htail, if_pos htail]
    dsimp only
    rw [Nat.add_zero, show front.length + 2 - 1 = front.length + 1 by omega,
      Nat.add_sub_cancel, hb1, hb2]
    split at houter
    · next hopen =>
      rw [if_pos hopen, if_pos hopen]
      exact ⟨5, _, rfl, scanInv_first (by decide) (length_next (q := 0) htail)
        (boundary_next (q := 0) htail) hdepth (by decide) rfl⟩
    next hopen =>
    split at houter
    · next hclose =>
      rw [if_neg hopen, if_neg hopen, if_pos hclose, if_pos hclose]
      exact ⟨5, _, rfl, scanInv_first (by decide) (length_next (q := 0) htail)
        (boundary_next (q := 0) htail) hdepth (by decide) rfl⟩
    · exact absurd rfl houter
  next htail =>
  split at houter
  · next hslash =>
    have hbehind : dictTail <+: text.drop 1 := starts_tail (q := 0) hslash.1
    have hletter : text[0]? = some 47 := getElem?_of_starts (i := 0) hslash.1
    have hfirst : ∀ x < 1, ¬ dictTail <+: text.drop x := by
      intro x hx
      obtain rfl : x = 0 := by omega
      exact htail
    have hstart : ¬ (0 + 1 ≤ 1 ∧ dictStart <+: text.drop (1 - 1)) := by
      rintro ⟨-, h⟩
      exact absurd (letter_unique hletter (getElem?_of_starts h)) (by decide)
    have hdepth : depth text 6 = 0 :=
      depth_no_tag hbehind (fun x _ hx => hfirst x hx) hstart (by simp) 6 (by omega) (by omega)
    have hbyte : (around front b₂ b₁ text rest).getD (front.length + 2 + 0) 0 = 47 :=
      getD_around hletter
    rw [findPat_eq_some_iff.mpr ⟨hbehind, hfirst⟩, if_neg htail, if_pos hslash]
    dsimp only
    rw [show front.length + 2 + 1 - 1 = front.length + 2 + 0 by omega,
      show front.length + 2 + 1 - 2 = front.length + 1 by omega, hbyte, hb1, if_neg (by decide),
      if_pos ⟨hslash.2, rfl⟩]
    exact ⟨6, _, rfl, scanInv_first (by decide) (length_next hbehind) (boundary_next hbehind) hdepth
      (by decide) rfl⟩
  · exact absurd rfl houter

theorem patchPrelinkedKexts_returns (hentry : entry.prelinkInfoAddr = front.length + 2)
    (hfuel : text.length + 1 < fuel) :
    Run.Returns (patchPrelinkedKexts entry fuel (around front b₂ b₁ text rest)) fun r =>
      r.mem = around front b₂ b₁ text rest ∧ ∃ elements : List (Nat × Nat),
        (∀ a e, (a, e) ∈ elements ↔ IsElement text (2 - outerTag b₂ b₁ text) a e) ∧
        elements.Pairwise (fun p q => p.1 < q.1) ∧
        List.Forall₂ (CallCut (front.length + 2) (around front b₂ b₁ text rest)) r.calls
          elements := by
  have hresult : Run.Returns (patchPrelinkedKexts entry fuel (around front b₂ b₁ text rest))
      fun r => ∃ i elements,
        ScanInv front b₂ b₁ text rest (2 - outerTag b₂ b₁ text) i r elements ∧
          ∀ a e, (a, e) ∈ elements ↔ IsElement text (2 - outerTag b₂ b₁ text) a e := by
    rw [patchPrelinkedKexts, hentry]
    by_cases houter : outerTag b₂ b₁ text = 0
    · have hinit : ScanInv front b₂ b₁ text rest (2 - outerTag b₂ b₁ text) 0
          ⟨around front b₂ b₁ text rest, front.length + 2, 0, none, []⟩ [] := by
        rw [houter]
        exact scanInv_first (by decide) (Nat.zero_le _) (Or.inl ⟨rfl, houter⟩) rfl (by decide) rfl
      exact kextLoop_returns entry hzero hinit (by omega)
    · obtain ⟨i, s, hpass, hs⟩ := @first_pass front text rest b₂ b₁ entry hzero houter
      obtain ⟨n, rfl⟩ : ∃ n, fuel = n + 1 := ⟨fuel - 1, by omega⟩
      rw [Run.loop_again hpass]
      exact kextLoop_returns entry hzero hs (by omega)
  apply hresult.mono
  rintro r ⟨i, elements, hr, hcomplete⟩
  exact ⟨hr.mem, elements, hcomplete, hr.sorted, hr.calls⟩

end Run

theorem exists_call {R : PatchCall → Nat × Nat → Prop} {calls : List PatchCall}
    (h : List.Forall₂ R calls elements) :
    (∀ p ∈ elements, ∃ call ∈ calls, R call p) ∧ ∀ call ∈ calls, ∃ p ∈ elements, R call p := by
  induction h with
  | nil => simp
  | cons hhead _ ih =>
    simp only [mem_cons, forall_eq_or_imp, exists_eq_or_imp]
    refine ⟨⟨Or.inl hhead, fun p hp => Or.inr (ih.1 p hp)⟩, Or.inl hhead, fun call hcall => ?_⟩
    exact Or.inr (ih.2 call hcall)

theorem callFor_of_callCut {base : Nat} {mem : Bytes} {calls : List PatchCall}
    (h : List.Forall₂ (CallCut base mem) calls elements)
    (hsize : ∀ p ∈ elements, p.2 - p.1 < 2 ^ 32) :
    List.Forall₂ (CallFor base mem) calls elements := by
  induction h with
  | nil => exact List.Forall₂.nil
  | cons hhead _ ih =>
    refine List.Forall₂.cons ⟨hhead.1, ?_, hhead.2.2⟩
      (ih fun p hp => hsize p (mem_cons_of_mem _ hp))
    rw [hhead.2.1]
    exact UInt32.toNat_ofNat_of_lt' (hsize _ mem_cons_self)

/-- Every kext is visited once with its own dictionary, unless the bytes before the text make a tag
of a `dict>` at its start and there are dictionaries at a depth that counts, or a dictionary has 4
GiB or more. -/
theorem patchPrelinkedKexts_iff (entry : LoaderEntry) (front text rest : Bytes) (b₂ b₁ : UInt8)
    (fuel : Nat) (hentry : entry.prelinkInfoAddr = front.length + 2) (hzero : 0 ∉ text)
    (hfuel : text.length + 1 < fuel) :
    Run.Returns (patchPrelinkedKexts entry fuel (around front b₂ b₁ text rest))
        (VisitsAll text (front.length + 2) (around front b₂ b₁ text rest)) ↔
      if outerTag b₂ b₁ text = 0 then ∀ a e, IsElement text 2 a e → e - a < 2 ^ 32
      else ∀ a e, ¬ IsElement text 2 a e ∧ ¬ IsElement text (2 - outerTag b₂ b₁ text) a e := by
  obtain ⟨r, hr, hmem, elements, hcomplete, hsorted, hcalls⟩ :
      Run.Returns (patchPrelinkedKexts entry fuel (around front b₂ b₁ text rest)) _ :=
    patchPrelinkedKexts_returns entry hzero hentry hfuel
  have hreturns : Run.Returns (patchPrelinkedKexts entry fuel (around front b₂ b₁ text rest))
      (VisitsAll text (front.length + 2) (around front b₂ b₁ text rest)) ↔
      VisitsAll text (front.length + 2) (around front b₂ b₁ text rest) r := by
    rw [hr]
    constructor
    · rintro ⟨r', hr', h⟩
      rwa [Except.ok.inj hr']
    · exact Run.returns_ok
  rw [hreturns]
  split
  · next houter =>
    rw [houter, Int.sub_zero] at hcomplete
    constructor
    · rintro ⟨-, elements', hcomplete', -, hcalls'⟩ a e helement
      obtain ⟨call, -, -, hsize, -⟩ :=
        (exists_call hcalls').1 (a, e) ((hcomplete' a e).mpr helement)
      have hlt := call.infoPlistSize.toNat_lt
      omega
    · intro hsize
      refine ⟨hmem, elements, hcomplete, hsorted, callFor_of_callCut hcalls ?_⟩
      rintro ⟨a, e⟩ hp
      exact hsize a e ((hcomplete a e).mp hp)
  · next houter =>
    constructor
    · rintro ⟨-, elements', hcomplete', -, hcalls'⟩
      -- a call would be for dictionaries at two depths
      have hnone : r.calls = [] := by
        apply eq_nil_iff_forall_not_mem.mpr
        intro call hcall
        obtain ⟨⟨a, e⟩, hp, hplace, -⟩ := (exists_call hcalls).2 call hcall
        obtain ⟨⟨a', e'⟩, hp', hplace', -⟩ := (exists_call hcalls').2 call hcall
        obtain rfl : a = a' := by
          omega
        have hdepth := ((hcomplete a e).mp hp).depth_start
        have hdepth' := ((hcomplete' a e').mp hp').depth_start
        omega
      rw [hnone, forall₂_nil_left_iff] at hcalls hcalls'
      intro a e
      rw [← hcomplete', ← hcomplete, hcalls, hcalls']
      exact ⟨not_mem_nil, not_mem_nil⟩
    · intro hnone
      have helements : elements = [] := by
        apply eq_nil_iff_forall_not_mem.mpr
        rintro ⟨a, e⟩ hp
        exact (hnone a e).2 ((hcomplete a e).mp hp)
      rw [helements, forall₂_nil_right_iff] at hcalls
      refine ⟨hmem, [], ?_, List.Pairwise.nil, forall₂_nil_right_iff.mpr hcalls⟩
      intro a e
      exact ⟨fun h => absurd h not_mem_nil, fun h => absurd h (hnone a e).1⟩

/-! ## Samples -/

def sampleEntry : LoaderEntry := ⟨2, 0, 0⟩

def prelinkText : Bytes := lit "<dict><array><dict>A</dict><dict>B</dict></array></dict>"

theorem patchPrelinkedKexts_iff_sample :
    Run.Returns (patchPrelinkedKexts sampleEntry 100 (around [] 10 10 prelinkText []))
      (VisitsAll prelinkText 2 (around [] 10 10 prelinkText [])) := by
  apply (patchPrelinkedKexts_iff sampleEntry [] prelinkText [] 10 10 100 rfl (by decide)
    (by decide)).mpr
  intro a e helement
  have hstop := lt_length_of_starts helement.stop
  have hlength : prelinkText.length = 56 := rfl
  omega

/-- A text that starts with `dict>`. -/
def cutText : Bytes := lit "dict><dict><dict></dict></dict>"

theorem isElement_cutText : IsElement cutText 2 11 24 := by
  have hinside : ∀ j < 18, 11 < j → 2 ≤ depth cutText j := by decide +kernel
  exact {
    start := by decide +kernel
    depth_start := by decide +kernel
    seven_le := by decide
    stop := by decide +kernel
    lt := by decide
    depth_stop := by decide +kernel
    inside := fun j hlt hle => hinside j (by omega) hlt }

/-- With `<` before it, the outer dictionary is taken for that of a kext, and the inner one, which
is at depth 2, is not visited. -/
theorem outer_dict_visited : Balanced cutText ∧
    (patchPrelinkedKexts sampleEntry 100 (around [] 10 60 cutText [])).toOption.map (fun r =>
      r.calls.map PatchCall.infoPlist) = some [2 + 5] ∧
    ¬ Run.Returns (patchPrelinkedKexts sampleEntry 100 (around [] 10 60 cutText []))
      (VisitsAll cutText 2 (around [] 10 60 cutText [])) := by
  have hcalls : (patchPrelinkedKexts sampleEntry 100 (around [] 10 60 cutText [])).toOption.map
      (fun r => r.calls.map PatchCall.infoPlist) = some [2 + 5] := by decide +kernel
  refine ⟨⟨by decide +kernel, by decide +kernel⟩, hcalls, ?_⟩
  rintro ⟨r, hr, -, elements, hcomplete, -, hfor⟩
  rw [hr] at hcalls
  obtain ⟨call, hcall, hplace, -⟩ :=
    (exists_call hfor).1 (11, 24) ((hcomplete 11 24).mpr isElement_cutText)
  have hlist : r.calls.map PatchCall.infoPlist = [2 + 5] := Option.some.inj hcalls
  have hmem : call.infoPlist ∈ r.calls.map PatchCall.infoPlist := mem_map_of_mem hcall
  rw [hlist, hplace] at hmem
  exact absurd hmem (by decide)

end Clover.Kext
