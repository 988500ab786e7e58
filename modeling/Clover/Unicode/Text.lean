import Clover.Unicode.Conversions

/-!
# Loop shapes on well-formed text

On the coding form of a list of characters every loop shape of
`Clover.Unicode.Conversions` converts, or counts, character by character. The invariant of
the converting loops is `Pending`, and `loop_converts` the rule that carries it along. A
converting loop stops at the end of the string or for lack of room (`Stops`), and the variants
with a bound also where the bound is reached. The lemmas hold for a string with anything after
its terminator, so that the output of a conversion, which carries the terminator, is again such
a string.
-/

namespace Clover.Unicode

open Clover.Lib Clover.Lib.Run List

variable {c : Scalar} {cs : List Scalar} {dstMaxSize fuel len n : Nat}

/-- The coding form of a text. -/
def encode {α : Type} (enc : Char → List α) (cs : List Scalar) : List α :=
  cs.flatMap fun c => enc c.1

section Text

variable {α β : Type} {dst : Dst β} (enc : Char → List α)

@[simp] theorem encode_nil : encode enc [] = [] := rfl

@[simp] theorem encode_cons (c : Scalar) (cs : List Scalar) :
    encode enc (c :: cs) = enc c.1 ++ encode enc cs := flatMap_cons

theorem encode_append (cs ds : List Scalar) :
    encode enc (cs ++ ds) = encode enc cs ++ encode enc ds := flatMap_append

theorem encode_take_append (cs : List Scalar) (len : Nat) (tail : List α) :
    encode enc cs ++ tail = encode enc (cs.take len) ++ (encode enc (cs.drop len) ++ tail) := by
  rw [← append_assoc]
  rw [← encode_append, take_append_drop]

variable [OfNat α 0] {get : List α → List α × UInt32} {encA : Char → List α} {tail : List α}

theorem Reads.get_cons (h : Reads get encA) (c : Scalar) (cs : List Scalar) (tail : List α) :
    get (encode encA (c :: cs) ++ tail) = (encode encA cs ++ tail, c.1.val) := by
  rw [encode_cons, append_assoc, h.char]

theorem Reads.unit_cons (h : Reads get encA) (c : Scalar) (cs : List Scalar) (tail : List α) :
    unit (encode encA (c :: cs) ++ tail) ≠ 0 := by
  rw [encode_cons, append_assoc]
  exact h.head_ne_zero c _

/-- The characters `cs` are those that a count of `len` leaves before `tail`: all that the
count allows, or fewer when the string ends there. -/
def Counted (tail : List α) (cs : List Scalar) (len : Nat) : Prop :=
  len = cs.length ∨ (unit tail = 0 ∧ cs.length ≤ len)

theorem counted_take (cs : List Scalar) (htail : unit tail = 0) (len : Nat) :
    Counted (encode encA (cs.drop len) ++ tail) (cs.take len) len := by
  by_cases h : len ≤ cs.length
  · left
    rw [length_take, Nat.min_eq_left h]
  · right
    rw [drop_eq_nil_of_le (by omega), encode_nil, nil_append]
    exact ⟨htail, by rw [length_take]; omega⟩

theorem Counted.step (h : Counted tail (c :: cs) len) : 0 < len ∧ Counted tail cs (len - 1) := by
  rcases h with h | ⟨ht, h⟩ <;> simp only [length_cons] at h
  · exact ⟨by omega, Or.inl (by omega)⟩
  · exact ⟨by omega, Or.inr ⟨ht, by omega⟩⟩

theorem Counted.eq_nil (h : Counted tail cs 0) : cs = [] := by
  rcases h with h | ⟨-, h⟩
  · exact eq_nil_of_length_eq_zero h.symm
  · exact eq_nil_of_length_eq_zero (Nat.le_zero.mp h)

theorem Counted.done (h : Counted tail [] len) (ht : unit tail ≠ 0) : ¬ 0 < len := by
  rcases h with rfl | ⟨h, -⟩
  · exact Nat.lt_irrefl 0
  · exact absurd h ht

/-! ## Converting -/

variable {put : Dst β → UInt32 → Dst β} {encB : Char → List β} {v : Conv α β} {total : List β}
  {s : List α} {ρ : Type}

/-- What is still to be converted in a state of a converting loop: the characters `cs`, which
fit into the destination and complete `total`. -/
structure Pending (encA : Char → List α) (encB : Char → List β) (tail : List α)
    (total : List β) (cs : List Scalar) (dst : Dst β) (s : List α) : Prop where
  source : s = encode encA cs ++ tail
  target : dst.written ++ encode encB cs = total
  room : (encode encB cs).length ≤ dst.room

theorem Pending.step (hget : Reads get encA) (hput : Writes put encB)
    {dst : Dst β} (h : Pending encA encB tail total (c :: cs) dst s) :
    unit s ≠ 0 ∧ 0 < dst.room ∧ (get s).2 = c.1.val ∧
      Pending encA encB tail total cs (put dst c.1.val) (get s).1 := by
  obtain ⟨rfl, htarget, hroom⟩ := h
  simp only [encode_cons, length_append] at htarget hroom
  have hpos := hput.length_pos c.1
  have hp := hput.char c.1 dst (by omega)
  refine ⟨hget.unit_cons c cs tail, by omega, ?_, ?_, ?_, ?_⟩
  · rw [hget.get_cons]
  · rw [hget.get_cons]
  · rw [hp, append_assoc, htarget]
  · rw [hp]
    show _ ≤ dst.room - (encB c.1).length
    omega

omit [OfNat α 0] in
theorem Pending.balanced (hput : Writes put encB)
    (h : Pending encA encB tail total (c :: cs) dst s) (hn : dst.written.length + dst.room = n) :
    (put dst c.1.val).written.length + (put dst c.1.val).room = n := by
  have hroom := h.room
  rw [encode_cons, length_append] at hroom
  rw [hput.char c.1 dst (by omega), length_append]
  show _ + _ + (dst.room - _) = n
  omega

omit [OfNat α 0] in
theorem Pending.done (h : Pending encA encB tail total [] dst s)
    (hn : dst.written.length + dst.room = n) : s = tail ∧ dst = ⟨total, n - total.length⟩ := by
  obtain ⟨hs, ht, -⟩ := h
  rw [encode_nil, append_nil] at ht
  refine ⟨by simpa using hs, ?_⟩
  obtain ⟨written, room⟩ := dst
  subst ht
  simp only [Dst.mk.injEq, true_and]
  have hn : written.length + room = n := hn
  omega

/-- Where a converting loop stops before the string `tail`: the string ends there, the destination
is full, or there is no room in it for the next character. -/
def Stops (get : List α → List α × UInt32) (put : Dst β → UInt32 → Dst β) (tail : List α)
    (dst : Dst β) : Prop :=
  unit tail = 0 ∨ dst.room = 0 ∨ ((get tail).2 ≠ 0 ∧ put dst (get tail).2 = dst.full)

theorem Stops.full (h : Stops get put tail dst) (hu : unit tail ≠ 0) (hroom : 0 < dst.room) :
    put dst (get tail).2 = dst.full := by
  rcases h with h | h | ⟨-, h⟩
  · exact absurd h hu
  · exact absurd h (Nat.ne_of_gt hroom)
  · exact h

theorem Stops.char_ne_zero (h : Stops get put tail dst) (hu : unit tail ≠ 0)
    (hroom : 0 < dst.room) : (get tail).2 ≠ 0 := by
  rcases h with h | h | ⟨h, -⟩
  · exact absurd h hu
  · exact absurd h (Nat.ne_of_gt hroom)
  · exact h

/-- With the first `k` characters converted, the loop stops if the next one does not fit. -/
theorem stops_drop (hget : Reads get encA) (hput : Refuses put encB) (htail : unit tail = 0)
    {k : Nat} (hk : k < cs.length → n < (encode encB (cs.take (k + 1))).length) :
    Stops get put (encode encA (cs.drop k) ++ tail)
      ⟨encode encB (cs.take k), n - (encode encB (cs.take k)).length⟩ := by
  by_cases hlt : k < cs.length
  · have hnext := hk hlt
    rw [take_succ_eq_append_getElem hlt, encode_append, length_append] at hnext
    rw [drop_eq_getElem_cons hlt]
    by_cases hroom : n - (encode encB (cs.take k)).length = 0
    · exact Or.inr (Or.inl hroom)
    · refine Or.inr (Or.inr ?_)
      rw [hget.get_cons]
      refine ⟨cs[k].2, hput cs[k].1 _ hroom ?_⟩
      rw [encode_cons, encode_nil, append_nil] at hnext
      show n - (encode encB (cs.take k)).length < (encB cs[k].1).length
      omega
  · rw [drop_eq_nil_of_le (Nat.le_of_not_lt hlt)]
    exact Or.inl htail

omit [OfNat α 0] in
/-- The last passes of a converting loop: it leaves, or makes a pass that only gives up the room
that is left, and then leaves. -/
theorem loop_stops {body : Conv α β → Run (Pass (Conv α β) ρ)} {f : List β → ρ}
    (hbody : body v = .ok (.leave (f v.dst.written)) ∨ ∃ v', body v = .ok (.again v') ∧
      v'.dst = v.dst.full)
    (hfull : ∀ v', v'.dst.room = 0 → body v' = .ok (.leave (f v'.dst.written))) (hfuel : 1 < fuel) :
    loop body fuel v = .ok (f v.dst.written) := by
  obtain ⟨n, rfl⟩ : ∃ n, fuel = n + 1 := ⟨fuel - 1, by omega⟩
  rcases hbody with hleave | ⟨v', hagain, hdst⟩
  · exact loop_leave hleave (Nat.succ_pos n)
  · have hroom : v'.dst.room = 0 := by rw [hdst]; rfl
    have hwritten : v'.dst.written = v.dst.written := by rw [hdst]; rfl
    rw [loop_again hagain, loop_leave (hfull v' hroom) (by omega), hwritten]

theorem encode_eq_nil_of_room (h : (encode encB cs).length ≤ 0) : encode encB cs = [] :=
  length_eq_zero_iff.mp (Nat.le_zero.mp h)

section Shapes

variable [DecidableEq α] {more : Conv α β → Prop}

omit [DecidableEq α] in
/-- A converting loop whose passes each convert one character, until it stops before `tail`. The
invariant `At cs s v` says how the variables `v` stand to the string `s` with the characters `cs`
still to be converted. -/
theorem loop_converts (hget : Reads get encA) (hput : Writes put encB)
    {body : Conv α β → Run (Pass (Conv α β) ρ)} {f : List β → ρ}
    (At : List Scalar → List α → Conv α β → Prop)
    (hcons : ∀ c cs s v, At (c :: cs) s v → unit s ≠ 0 → (get s).2 = c.1.val → 0 < v.dst.room →
      ∃ v', body v = .ok (.again v') ∧ v'.dst = put v.dst c.1.val ∧ At cs (get s).1 v')
    (hnil : ∀ v, At [] tail v → v.dst = ⟨encode encB cs, n - (encode encB cs).length⟩ → body v =
      .ok (.leave (f v.dst.written)) ∨ ∃ v', body v = .ok (.again v') ∧ v'.dst = v.dst.full)
    (hfull : ∀ v, v.dst.room = 0 → body v = .ok (.leave (f v.dst.written)))
    (hmax : (encode encB cs).length ≤ n) (hdst : v.dst = ⟨[], n⟩)
    (hv : At cs (encode encA cs ++ tail) v) (hfuel : cs.length + 1 < fuel) :
    loop body fuel v = .ok (f (encode encB cs)) := by
  refine loop_list_then
    (fun cs' (v : Conv α β) => v.dst.written.length + v.dst.room = n ∧
      ∃ s, Pending encA encB tail (encode encB cs) cs' v.dst s ∧ At cs' s v)
    1 ?_ ?_ cs v fuel ?_ hfuel
  · rintro c cs' v ⟨hn, s, hp, hat⟩
    obtain ⟨hs, hroom, hc, hnext⟩ := hp.step hget hput
    obtain ⟨v', hbody, hdst', hat'⟩ := hcons c cs' s v hat hs hc hroom
    have hn' := hp.balanced hput hn
    rw [← hdst'] at hnext hn'
    exact Or.inl ⟨v', hbody, hn', _, hnext, hat'⟩
  · rintro v fuel ⟨hn, s, hp, hat⟩ hf
    obtain ⟨rfl, hd⟩ := hp.done hn
    have hw : v.dst.written = encode encB cs := congrArg Dst.written hd
    rw [← hw]
    exact loop_stops (hnil v hat hd) hfull hf
  · rw [hdst]
    exact ⟨Nat.zero_add n, _, ⟨rfl, rfl, hmax⟩, hv⟩

omit [DecidableEq α] in
/-- The same for a loop that goes on only while `more` holds, which takes some room. -/
theorem loop_converts_while (hget : Reads get encA) (hput : Writes put encB)
    [DecidablePred more] {step : Conv α β → Run (Pass (Conv α β) ρ)}
    {f : List β → ρ} (At : List Scalar → List α → Conv α β → Prop)
    (hroom : ∀ v, more v → 0 < v.dst.room)
    (hcons : ∀ c cs s v, At (c :: cs) s v → unit s ≠ 0 → (get s).2 = c.1.val → 0 < v.dst.room →
      more v ∧ ∃ v', step v = .ok (.again v') ∧ v'.dst = put v.dst c.1.val ∧ At cs (get s).1 v')
    (hnil : ∀ v, At [] tail v → v.dst = ⟨encode encB cs, n - (encode encB cs).length⟩ → more v →
      ∃ v', step v = .ok (.again v') ∧ v'.dst = v.dst.full)
    (hmax : (encode encB cs).length ≤ n) (hdst : v.dst = ⟨[], n⟩)
    (hv : At cs (encode encA cs ++ tail) v) (hfuel : cs.length + 1 < fuel) :
    loop (fun v => if more v then step v else .ok (.leave (f v.dst.written))) fuel v =
      .ok (f (encode encB cs)) := by
  refine loop_converts hget hput At ?_ ?_ ?_ hmax hdst hv hfuel
  · intro c cs s v hat hs hc hpos
    obtain ⟨hmore, hstep⟩ := hcons c cs s v hat hs hc hpos
    rwa [if_pos hmore]
  · intro v hat hd
    by_cases hmore : more v
    · rw [if_pos hmore]
      exact .inr (hnil v hat hd hmore)
    · exact .inl (if_neg hmore)
  · exact fun v h => if_neg fun hmore => Nat.ne_of_gt (hroom v hmore) h

/-- A loop over the units, which may leave at a zero character. -/
theorem units_stops (hget : Reads get encA) (hput : Writes put encB) (cs : List Scalar)
    (hmax : (encode encB cs).length ≤ n)
    (hstop : Stops get put tail ⟨encode encB cs, n - (encode encB cs).length⟩)
    (hfuel : cs.length + 1 < fuel) {step : Conv α β → Run (Pass (Conv α β) (List β))}
    (hstep : ∀ v, (get v.s).2 ≠ 0 →
      step v = .ok (.again { v with s := (get v.s).1, dst := put v.dst (get v.s).2 })) :
    loop (fun v => if unit v.s ≠ 0 ∧ 0 < v.dst.room then step v else .ok (.leave v.dst.written))
      fuel ⟨encode encA cs ++ tail, 0, ⟨[], n⟩, 0⟩ = .ok (encode encB cs) := by
  refine loop_converts_while hget hput (fun _ s v => v.s = s) (f := id) (fun v h => h.2) ?_ ?_ hmax
    rfl rfl hfuel
  · rintro c cs' s v rfl hs hc hroom
    exact ⟨⟨hs, hroom⟩, _, hstep v (hc ▸ c.2), congrArg _ hc, rfl⟩
  · rintro v rfl hd hmore
    rw [← hd] at hstop
    exact ⟨_, hstep v (hstop.char_ne_zero hmore.1 hmore.2), hstop.full hmore.1 hmore.2⟩

theorem whileUnits_stops (hget : Reads get encA) (hput : Writes put encB) (cs : List Scalar)
    (hmax : (encode encB cs).length ≤ dstMaxSize)
    (hstop : Stops get put tail ⟨encode encB cs, dstMaxSize - (encode encB cs).length⟩)
    (hfuel : cs.length + 1 < fuel) :
    whileUnits get put fuel dstMaxSize (encode encA cs ++ tail) = .ok (encode encB cs) ∧
      whileUnitsStop get put fuel dstMaxSize (encode encA cs ++ tail) = .ok (encode encB cs) := by
  rw [whileUnits, whileUnitsStop]
  split
  · next h0 =>
    rw [encode_eq_nil_of_room (h0 ▸ hmax)]
    exact ⟨rfl, rfl⟩
  · exact ⟨units_stops hget hput cs hmax hstop hfuel fun _ _ => rfl,
      units_stops hget hput cs hmax hstop hfuel fun _ h => if_neg h⟩

omit [DecidableEq α] in
/-- The loop writes the characters up to where it stops. -/
theorem readAhead_stops (hget : Reads get encA) (hput : Writes put encB) (cs : List Scalar)
    (hmax : (encode encB cs).length ≤ dstMaxSize)
    (hstop : Stops get put tail ⟨encode encB cs, dstMaxSize - (encode encB cs).length⟩)
    (hfuel : cs.length < fuel) :
    readAhead get put fuel dstMaxSize (encode encA cs ++ tail) = .ok (encode encB cs) := by
  rw [readAhead]
  split
  · next h0 => rw [encode_eq_nil_of_room (h0 ▸ hmax)]
  next hpos =>
  -- the pointer of this loop is one character ahead of that of the other shapes, and it leaves as
  -- soon as the destination is full
  refine loop_list
    (fun cs' (v : Conv α β) => (v.dst.written.length + v.dst.room = dstMaxSize ∧ v.dst.room ≠ 0) ∧
      ∃ s, v.s = (get s).1 ∧ v.char32 = (get s).2 ∧
        Pending encA encB tail (encode encB cs) cs' v.dst s)
    ?_ ?_ cs _ fuel ⟨⟨Nat.zero_add _, hpos⟩, _, rfl, rfl, rfl, rfl, hmax⟩ hfuel
  · rintro c cs' v ⟨⟨hn, -⟩, s, hvs, hvc, hv⟩
    obtain ⟨-, -, hc, hnext⟩ := hv.step hget hput
    rw [hvc, hc, hvs, if_neg c.2]
    by_cases hfull : (put v.dst c.1.val).room = 0
    · have hnil := encode_eq_nil_of_room (hfull ▸ hnext.room)
      have hw := hnext.target
      rw [hnil, append_nil] at hw
      right
      simp only [if_pos hfull, hw]
    · left
      simp only [if_neg hfull]
      exact ⟨_, rfl, ⟨hv.balanced hput hn, hfull⟩, _, rfl, rfl, hnext⟩
  · rintro v ⟨⟨hn, hroom⟩, s, hvs, hvc, hv⟩
    obtain ⟨rfl, hd⟩ := hv.done hn
    have hw : v.dst.written = encode encB cs := congrArg Dst.written hd
    rw [← hd] at hstop
    rcases hstop with hu | hr | ⟨hne, hfull⟩
    · rw [if_pos (hvc.trans (hget.terminator _ hu)), hw]
    · exact absurd hr hroom
    · have hput' : put v.dst v.char32 = v.dst.full := by rw [hvc, hfull]
      rw [if_neg (hvc ▸ hne), hput']
      exact congrArg (fun w => Except.ok (Pass.leave w)) hw

variable [OfNat β 0]

omit [DecidableEq α] in
theorem terminate_ok {w : List β} (h : w.length < dstMaxSize) :
    terminate dstMaxSize (.ok w) = .ok (w.length, w ++ [0]) := by
  rw [terminate, if_neg (by omega)]
  show (if dstMaxSize ≤ w.length then _ else _) = _
  rw [if_neg (by omega)]

section Bounded

variable {cs : List Scalar} {small dstMaxSize fuel size : Nat} (hget : Reads get encA)
  (hput : Writes put encB) (hsmall : small ≤ 1) (hmax : (encode encB cs).length < dstMaxSize)
  (hfuel : cs.length + 1 < fuel) {step : Conv α β → Run (Pass (Conv α β) (Nat × List β))}

include hget hput hsmall hmax hfuel

omit [DecidableEq α] in
/-- The rule `loop_converts_while` for the conversions with a bound. -/
theorem bounded_converts {bound : Nat} (hbound : bound = 0 → cs = [])
    [DecidablePred more]
    (At : List Scalar → List α → Conv α β → Prop) (hroom : ∀ v, more v → 0 < v.dst.room)
    (hdst : v.dst = ⟨[], dstMaxSize - 1⟩) (hv : At cs (encode encA cs ++ tail) v)
    (hcons : ∀ c cs s v, At (c :: cs) s v → unit s ≠ 0 → (get s).2 = c.1.val → 0 < v.dst.room →
      more v ∧ ∃ v', step v = .ok (.again v') ∧ v'.dst = put v.dst c.1.val ∧ At cs (get s).1 v')
    (hnil : ∀ v, At [] tail v →
      v.dst = ⟨encode encB cs, dstMaxSize - 1 - (encode encB cs).length⟩ → more v →
      ∃ v', step v = .ok (.again v') ∧ v'.dst = v.dst.full) :
    (if dstMaxSize = 0 then .ok (0, [])
      else if bound = 0 ∨ dstMaxSize ≤ small then .ok (0, [0])
      else loop (fun v => if more v then step v
        else .ok (.leave (v.dst.written.length, v.dst.written ++ [0]))) fuel v) =
      .ok ((encode encB cs).length, encode encB cs ++ [0]) := by
  rw [if_neg (by omega)]
  split
  · next h =>
    have hempty : encode encB cs = [] := by
      rcases h with h | h
      · rw [hbound h, encode_nil]
      · exact encode_eq_nil_of_room (by omega)
    rw [hempty]
    rfl
  · exact loop_converts_while hget hput At (f := fun w => (w.length, w ++ [0])) hroom hcons hnil
      (Nat.le_sub_one_of_lt hmax) hdst hv hfuel

theorem unitsLen_stops (hlen : cs.length ≤ len)
    (hstop : len = cs.length ∨
      Stops get put tail ⟨encode encB cs, dstMaxSize - 1 - (encode encB cs).length⟩)
    (hstep : ∀ v, (get v.s).2 ≠ 0 →
      step v = .ok (.again ⟨(get v.s).1, 0, put v.dst (get v.s).2, v.len - 1⟩)) :
    (if dstMaxSize = 0 then .ok (0, [])
      else if len = 0 ∨ dstMaxSize ≤ small then .ok (0, [0])
      else loop (fun v => if unit v.s ≠ 0 ∧ 0 < v.dst.room ∧ 0 < v.len then step v
        else .ok (.leave (v.dst.written.length, v.dst.written ++ [0]))) fuel
        ⟨encode encA cs ++ tail, 0, ⟨[], dstMaxSize - 1⟩, len⟩) =
      .ok ((encode encB cs).length, encode encB cs ++ [0]) := by
  refine bounded_converts hget hput hsmall hmax hfuel
    (fun h => eq_nil_of_length_eq_zero (by omega))
    (fun cs' s v => v.s = s ∧ v.len + cs.length = cs'.length + len) (fun v h => h.2.1) rfl
    ⟨rfl, Nat.add_comm _ _⟩ ?_ ?_
  · rintro c cs' s v ⟨rfl, hl⟩ hs hc hroom
    rw [length_cons] at hl
    refine ⟨⟨hs, hroom, by omega⟩, _, hstep v (hc ▸ c.2), congrArg _ hc, rfl, ?_⟩
    show v.len - 1 + cs.length = cs'.length + len
    omega
  · rintro v ⟨rfl, hl⟩ hd ⟨hs, hroom, hmore⟩
    rw [length_nil] at hl
    have hstops := hd ▸ hstop.resolve_left (by omega)
    exact ⟨_, hstep v (hstops.char_ne_zero hs hroom), hstops.full hs hroom⟩

theorem whileUnitsLen_stops (hlen : cs.length ≤ len)
    (hstop : len = cs.length ∨
      Stops get put tail ⟨encode encB cs, dstMaxSize - 1 - (encode encB cs).length⟩) :
    whileUnitsLen get put small fuel dstMaxSize (encode encA cs ++ tail) len =
        .ok ((encode encB cs).length, encode encB cs ++ [0]) ∧
      whileUnitsStopLen get put small fuel dstMaxSize (encode encA cs ++ tail) len =
        .ok ((encode encB cs).length, encode encB cs ++ [0]) :=
  ⟨unitsLen_stops hget hput hsmall hmax hfuel hlen hstop fun _ _ => rfl,
    unitsLen_stops hget hput hsmall hmax hfuel hlen hstop fun _ h => if_neg h⟩

omit [DecidableEq α] in
theorem readAheadLen_stops (hlen : cs.length ≤ len)
    (hstop : len = cs.length ∨
      Stops get put tail ⟨encode encB cs, dstMaxSize - 1 - (encode encB cs).length⟩) :
    readAheadLen get put small fuel dstMaxSize (encode encA cs ++ tail) len =
      .ok ((encode encB cs).length, encode encB cs ++ [0]) := by
  refine bounded_converts hget hput hsmall hmax hfuel
    (fun h => eq_nil_of_length_eq_zero (by omega))
    (fun cs' s v => (v.s = (get s).1 ∧ v.char32 = (get s).2) ∧
      v.len + cs.length = cs'.length + len)
    (fun v h => h.2.1) rfl ⟨⟨rfl, rfl⟩, Nat.add_comm _ _⟩ ?_ ?_
  · rintro c cs' s v ⟨⟨hvs, hvc⟩, hl⟩ hs hc hroom
    rw [length_cons] at hl
    rw [hc] at hvc
    refine ⟨⟨hvc ▸ c.2, hroom, by omega⟩, _, rfl, congrArg _ hvc, ⟨by rw [hvs], by rw [hvs]⟩, ?_⟩
    show v.len - 1 + cs.length = cs'.length + len
    omega
  · rintro v ⟨⟨hvs, hvc⟩, hl⟩ hd ⟨hchar, hroom, hmore⟩
    rw [length_nil] at hl
    have hu := fun h => hchar (hvc.trans (hget.terminator _ h))
    exact ⟨_, rfl, hvc ▸ (hd ▸ hstop.resolve_left (by omega)).full hu hroom⟩

omit [DecidableEq α] in
/-- The loop with a number of source units stops where the next character ends behind them, too. -/
theorem readAheadSize_stops (hsize : (encode encA cs).length ≤ size)
    (hpos : size = 0 → cs = [])
    (hstop : size < (encode encA cs ++ tail).length - (get tail).1.length ∨
      Stops get put tail ⟨encode encB cs, dstMaxSize - 1 - (encode encB cs).length⟩) :
    readAheadSize get put small fuel dstMaxSize (encode encA cs ++ tail) size =
      .ok ((encode encB cs).length, encode encB cs ++ [0]) := by
  refine bounded_converts hget hput hsmall hmax hfuel hpos
    (fun cs' s v => (v.s = (get s).1 ∧ v.char32 = (get s).2) ∧ s = encode encA cs' ++ tail)
    (fun v h => h.2.1) rfl ⟨⟨rfl, rfl⟩, rfl⟩ ?_ ?_
  · rintro c cs' s v ⟨⟨hvs, hvc⟩, rfl⟩ hs hc hroom
    have hnext : (get (encode encA (c :: cs') ++ tail)).1 = encode encA cs' ++ tail := by
      rw [hget.get_cons]
    have hend : (encode encA cs ++ tail).length - v.s.length ≤ size := by
      rw [hvs, hnext, length_append, length_append]
      omega
    rw [hc] at hvc
    exact ⟨⟨hvc ▸ c.2, hroom, hend⟩, _, rfl, congrArg _ hvc, ⟨by rw [hvs], by rw [hvs]⟩, hnext⟩
  · rintro v ⟨⟨hvs, hvc⟩, hs⟩ hd ⟨hchar, hroom, hend⟩
    rw [hvs] at hend
    have hu := fun h => hchar (hvc.trans (hget.terminator _ h))
    exact ⟨_, rfl, hvc ▸ (hd ▸ hstop.resolve_left (Nat.not_lt.mpr hend)).full hu hroom⟩

/-- Here it stops where the next character starts behind them. -/
theorem whileUnitsSize_stops (hsize : ∀ k, k < cs.length →
      (encode encA (cs.take k)).length < size)
    (hstop : size ≤ (encode encA cs).length ∨
      Stops get put tail ⟨encode encB cs, dstMaxSize - 1 - (encode encB cs).length⟩) :
    whileUnitsSize get put small fuel dstMaxSize (encode encA cs ++ tail) size =
      .ok ((encode encB cs).length, encode encB cs ++ [0]) := by
  have hnil : size = 0 → cs = [] := by
    intro h0
    refine eq_nil_of_length_eq_zero (Nat.eq_zero_of_not_pos fun hlt => ?_)
    exact absurd (hsize 0 hlt) (by omega)
  refine bounded_converts hget hput hsmall hmax hfuel hnil
    (fun cs' s v => v.s = s ∧ ∃ k, cs' = cs.drop k ∧ s = encode encA cs' ++ tail)
    (fun v h => h.2.1) rfl ⟨rfl, 0, rfl, rfl⟩ ?_ ?_
  · rintro c cs' s v ⟨rfl, k, hk, hs⟩ hu hc hroom
    have hlt : k < cs.length := by
      rw [← drop_eq_nil_iff.not.trans Nat.not_le, ← hk]
      exact cons_ne_nil c cs'
    have hstart : (encode encA cs ++ tail).length - v.s.length < size := by
      rw [encode_take_append encA cs k tail, ← hk, ← hs, length_append, Nat.add_sub_cancel]
      exact hsize k hlt
    refine ⟨⟨hu, hroom, hstart⟩, _, rfl, congrArg _ hc, rfl, k + 1, ?_, ?_⟩
    · rw [← drop_drop, ← hk, drop_one, tail_cons]
    · rw [hs, hget.get_cons]
  · rintro v ⟨rfl, -, -, hs⟩ hd ⟨hu, hroom, hstart⟩
    rw [length_append, Nat.add_sub_cancel] at hstart
    exact ⟨_, rfl, (hd ▸ hstop.resolve_left (Nat.not_le.mpr hstart)).full hu hroom⟩

end Bounded

end Shapes

/-! ## Sizing -/

section Sizes

variable {width : UInt32 → Nat} {step : List α → Nat → List α × Nat}

/-- The number of units `width` gives for a character is that of the coding form `enc`. -/
def Width (width : UInt32 → Nat) (enc : Char → List β) : Prop :=
  ∀ c : Scalar, width c.1.val = (enc c.1).length

omit [OfNat α 0] in
/-- A sizing loop whose passes each count one character. -/
theorem loop_counts {body : Sizing α → Run (Pass (Sizing α) Nat)}
    (At : List Scalar → Sizing α → Prop)
    (hcons : ∀ c cs v, At (c :: cs) v →
      ∃ v', body v = .ok (.again v') ∧ v'.size = v.size + (encB c.1).length ∧ At cs v')
    (hnil : ∀ v, At [] v → body v = .ok (.leave v.size)) {v : Sizing α} (hv : At cs v)
    (hsize : v.size = 0) (hfuel : cs.length < fuel) :
    loop body fuel v = .ok (encode encB cs).length := by
  refine loop_list
    (fun cs' v => v.size + (encode encB cs').length = (encode encB cs).length ∧ At cs' v)
    ?_ ?_ cs v fuel ⟨hsize ▸ Nat.zero_add _, hv⟩ hfuel
  · rintro c cs' v ⟨hn, hat⟩
    obtain ⟨v', hbody, hsize', hat'⟩ := hcons c cs' v hat
    rw [encode_cons, length_append] at hn
    exact Or.inl ⟨v', hbody, by omega, hat'⟩
  · rintro v ⟨hn, hat⟩
    rw [hnil v hat, ← hn]
    rfl

theorem sizeReadAhead_spec (hget : Reads get encA) (hwidth : Width width encB)
    (htail : unit tail = 0) (cs : List Scalar) (hfuel : cs.length < fuel) :
    sizeReadAhead get width fuel (encode encA cs ++ tail) = .ok (encode encB cs).length := by
  refine loop_counts (fun cs' v => v.s = (get (encode encA cs' ++ tail)).1 ∧
    v.char32 = (get (encode encA cs' ++ tail)).2) ?_ ?_ ⟨rfl, rfl⟩ rfl hfuel
  · rintro c cs' v ⟨hs, hc⟩
    rw [hget.get_cons] at hs hc
    rw [hc, hs, if_neg c.2, hwidth c]
    exact ⟨_, rfl, rfl, rfl, rfl⟩
  · rintro v ⟨-, hc⟩
    rw [if_pos (hc.trans (hget.terminator _ htail))]

theorem sizeReadAheadLen_spec (hget : Reads get encA) (hwidth : Width width encB)
    (hlen : Counted tail cs len) (hfuel : cs.length < fuel) :
    sizeReadAheadLen get width fuel (encode encA cs ++ tail) len =
      .ok (encode encB cs).length := by
  refine loop_counts (fun cs' v => Counted tail cs' v.len ∧
    v.s = (get (encode encA cs' ++ tail)).1 ∧ v.char32 = (get (encode encA cs' ++ tail)).2)
    ?_ ?_ ⟨hlen, rfl, rfl⟩ rfl hfuel
  · rintro c cs' v ⟨hl, hs, hc⟩
    rw [hget.get_cons] at hs hc
    obtain ⟨hl, hlnext⟩ := hl.step
    rw [hc, hs, if_pos ⟨c.2, hl⟩, hwidth c]
    exact ⟨_, rfl, rfl, hlnext, rfl, rfl⟩
  · rintro v ⟨hl, -, hc⟩
    have hstop : ¬ (v.char32 ≠ 0 ∧ 0 < v.len) := fun h =>
      hl.done (fun ht => h.1 (hc.trans (hget.terminator _ ht))) h.2
    rw [if_neg hstop]

variable [DecidableEq α]

theorem sizeWhileUnits_spec (hget : Reads get encA)
    (hstep : ∀ (c : Scalar) rest size, step (encA c.1 ++ rest) size =
      (rest, size + (encB c.1).length))
    (htail : unit tail = 0) (cs : List Scalar) (hfuel : cs.length < fuel) :
    sizeWhileUnits step fuel (encode encA cs ++ tail) = .ok (encode encB cs).length := by
  refine loop_counts (fun cs' v => v.s = encode encA cs' ++ tail) ?_ ?_ rfl rfl hfuel
  · intro c cs' v hs
    have hne := hget.unit_cons c cs' tail
    rw [encode_cons, append_assoc] at hs hne
    rw [hs, if_neg hne, hstep]
    exact ⟨_, rfl, rfl, rfl⟩
  · intro v hs
    rw [hs, encode_nil, nil_append, if_pos htail]

theorem sizeWhileUnitsLen_spec (hget : Reads get encA)
    (hstep : ∀ (c : Scalar) rest size, step (encA c.1 ++ rest) size =
      (rest, size + (encB c.1).length))
    (hlen : Counted tail cs len) (hfuel : cs.length < fuel) :
    sizeWhileUnitsLen step fuel (encode encA cs ++ tail) len = .ok (encode encB cs).length := by
  refine loop_counts (fun cs' v => Counted tail cs' v.len ∧ v.s = encode encA cs' ++ tail)
    ?_ ?_ ⟨hlen, rfl⟩ rfl hfuel
  · rintro c cs' v ⟨hl, hs⟩
    have hne := hget.unit_cons c cs' tail
    rw [encode_cons, append_assoc] at hs hne
    obtain ⟨hl, hlnext⟩ := hl.step
    rw [hs, if_pos ⟨hne, hl⟩, hstep]
    exact ⟨_, rfl, rfl, hlnext, rfl⟩
  · rintro v ⟨hl, hs⟩
    rw [hs, encode_nil, nil_append, if_neg fun h => hl.done h.1 h.2]

end Sizes

end Text

/-! ## Functions of their own shape -/

section Own

theorem utf8SizeOfUtf32CharPtr_char (c : Scalar) (rest : List UInt32) (size : Nat) :
    utf8SizeOfUtf32CharPtr (utf32EncodeChar c.1 ++ rest) size =
      (rest, size + (String.utf8EncodeChar c.1).length) := by
  rw [← utf8SizeOfUtf32Char_eq]
  exact if_neg c.2

theorem utf8SizeOfUtf16CharPtr_char (c : Scalar) (rest : List UInt16) (size : Nat) :
    utf8SizeOfUtf16CharPtr (utf16EncodeChar c.1 ++ rest) size =
      (rest, size + (String.utf8EncodeChar c.1).length) := by
  rw [utf8SizeOfUtf16CharPtr, reads_utf16.char, ← utf8SizeOfUtf32Char_eq]
  exact if_neg c.2

theorem width_utf16 : Width utf16SizeOfUtf32Char utf16EncodeChar := utf16SizeOfUtf32Char_eq

theorem width_utf32 : Width (fun _ => 1) utf32EncodeChar := fun _ => rfl

theorem utf16SizeOfUtf32CharPtr_char (c : Scalar) (rest : List UInt32) (size : Nat) :
    utf16SizeOfUtf32CharPtr (utf32EncodeChar c.1 ++ rest) size =
      (rest, size + (utf16EncodeChar c.1).length) := by
  rw [← utf16SizeOfUtf32Char_eq]
  rfl

variable {tail₈ : Bytes} {tail₁₆ : List UInt16} {tail₃₂ : List UInt32}

theorem utf8EncodeChar_ne_zero {b : UInt8} (h : b ∈ String.utf8EncodeChar c.1) : b ≠ 0 := by
  obtain ⟨c, hc⟩ := c
  have hlead := fun x => (lead_byte_two x).1
  have hlead3 := fun x => (lead_byte_three x).1
  have hlead4 := fun x => (lead_byte_four x).1
  have htrail : ∀ x : UInt8, x &&& 0x3f ||| 0x80 ≠ 0 := by
    apply forall_byte
    decide +kernel
  rcases utf8EncodeChar_cases c with ⟨h1, he⟩ | ⟨-, -, he⟩ | ⟨-, -, he⟩ | ⟨-, he⟩
  · rw [he, mem_singleton] at h
    rw [h]
    exact toUInt8_ne_zero h1 hc
  all_goals
    simp only [he, mem_cons, not_mem_nil, or_false] at h
    rcases h with rfl | rfl | rfl | rfl <;> simp only [hlead, hlead3, hlead4, htrail, ne_eq,
      not_false_eq_true]

theorem utf8SizeOfUtf8String_spec (htail : unit tail₈ = 0) (cs : List Scalar) :
    utf8SizeOfUtf8String (encode String.utf8EncodeChar cs ++ tail₈) =
      (encode String.utf8EncodeChar cs).length := by
  have hall : ∀ b ∈ encode String.utf8EncodeChar cs, decide (b ≠ 0) = true := by
    intro b hb
    obtain ⟨c, -, hc⟩ := mem_flatMap.mp hb
    exact decide_eq_true (utf8EncodeChar_ne_zero hc)
  have htake : tail₈.takeWhile (· ≠ 0) = [] := by
    cases tail₈ with
    | nil => rfl
    | cons b bs =>
      have hb : b = 0 := htail
      rw [takeWhile_cons, if_neg (by simp [hb])]
  rw [utf8SizeOfUtf8String, takeWhile_append_of_pos hall, htake, append_nil]

theorem getChar32FromUtf8String_terminator (h : unit tail₈ = 0) :
    getChar32FromUtf8String tail₈ = (tail₈, 0) := by
  rw [unit] at h
  simp only [getChar32FromUtf8String, h, if_true]

theorem getChar32FromUtf16String_terminator (h : unit tail₁₆ = 0) :
    getChar32FromUtf16String tail₁₆ = (tail₁₆, 0) := by
  rw [unit] at h
  simp only [getChar32FromUtf16String, h, if_true]

/-- The loop reads the terminator too, where it stays, so it may need a pass more than there
are characters. -/
theorem utf8SizeOfUtf8StringLen_spec (hlen : Counted tail₈ cs len) (hfuel : cs.length + 1 < fuel) :
    utf8SizeOfUtf8StringLen fuel (encode String.utf8EncodeChar cs ++ tail₈) len =
      .ok (encode String.utf8EncodeChar cs).length := by
  rw [utf8SizeOfUtf8StringLen]
  split
  · next h =>
    rw [h] at hlen
    rw [hlen.eq_nil]
    rfl
  · refine loop_list_then
      (fun cs' (v : Sizing UInt8) => Counted tail₈ cs' v.len ∧
        v.s = encode String.utf8EncodeChar cs' ++ tail₈ ∧ v.char32 ≠ 0)
      1 ?_ ?_ cs _ fuel ⟨hlen, rfl, (by decide : (1 : UInt32) ≠ 0)⟩ hfuel
    · rintro c cs' v ⟨hl, hs, hc⟩
      obtain ⟨hl, hlnext⟩ := hl.step
      rw [if_pos ⟨hc, hl⟩, hs, reads_utf8.get_cons]
      exact Or.inl ⟨_, rfl, hlnext, rfl, c.2⟩
    · rintro v fuel ⟨hl, hs, hc⟩ hf
      have hdist : (encode String.utf8EncodeChar cs ++ tail₈).length - tail₈.length =
          (encode String.utf8EncodeChar cs).length := by
        rw [length_append, Nat.add_sub_cancel]
      rw [encode_nil, nil_append] at hs
      obtain ⟨n, rfl⟩ : ∃ n, fuel = n + 1 := ⟨fuel - 1, by omega⟩
      by_cases hpos : 0 < v.len
      · have htail : unit tail₈ = 0 := Decidable.not_not.mp fun h => hl.done h hpos
        refine (loop_again (?_ : _ = Except.ok (Pass.again
          (⟨tail₈, 0, v.size, v.len - 1⟩ : Sizing UInt8))) n).trans ?_
        · rw [if_pos ⟨hc, hpos⟩, hs, getChar32FromUtf8String_terminator htail]
        · exact loop_leave (by rw [if_neg fun h => h.1 rfl, hdist]) (by omega)
      · exact loop_leave (by rw [if_neg fun h => hpos h.2, hs, hdist]) (by omega)

theorem utf16SizeOfUtf16String_spec (htail : unit tail₁₆ = 0) (cs : List Scalar)
    (hfuel : cs.length + 1 < fuel) :
    utf16SizeOfUtf16String fuel (encode utf16EncodeChar cs ++ tail₁₆) =
      .ok (encode utf16EncodeChar cs).length := by
  refine loop_list_then
    (fun cs' (v : Sizing UInt16) => v.s = encode utf16EncodeChar cs' ++ tail₁₆ ∧ v.char32 ≠ 0)
    1 ?_ ?_ cs _ fuel ⟨rfl, (by decide : (1 : UInt32) ≠ 0)⟩ hfuel
  · rintro c cs' v ⟨hs, hc⟩
    rw [if_pos hc, hs, reads_utf16.get_cons]
    exact Or.inl ⟨_, rfl, rfl, c.2⟩
  · rintro v fuel ⟨hs, hc⟩ hf
    rw [encode_nil, nil_append] at hs
    obtain ⟨n, rfl⟩ : ∃ n, fuel = n + 1 := ⟨fuel - 1, by omega⟩
    refine (loop_again (?_ : _ = Except.ok (Pass.again
      (⟨tail₁₆, 0, v.size, v.len⟩ : Sizing UInt16))) n).trans ?_
    · rw [if_pos hc, hs, getChar32FromUtf16String_terminator htail]
    · refine loop_leave ?_ (by omega)
      rw [if_neg fun h => h rfl, length_append, Nat.add_sub_cancel]

theorem utf32SizeOfUtf32StringLen_spec (hlen : Counted tail₃₂ cs len) (hfuel : cs.length < fuel) :
    utf32SizeOfUtf32StringLen fuel (encode utf32EncodeChar cs ++ tail₃₂) len =
      .ok (encode utf32EncodeChar cs).length := by
  refine loop_counts (fun cs' v => Counted tail₃₂ cs' v.len ∧
    v.s = encode utf32EncodeChar cs' ++ tail₃₂) ?_ ?_ ⟨hlen, rfl⟩ rfl hfuel
  · rintro c cs' v ⟨hl, hs⟩
    obtain ⟨hl, hlnext⟩ := hl.step
    rw [hs, if_pos ⟨reads_utf32.unit_cons c cs' tail₃₂, hl⟩]
    exact ⟨_, rfl, rfl, hlnext, rfl⟩
  · rintro v ⟨hl, hs⟩
    rw [hs, encode_nil, nil_append, if_neg fun h => hl.done h.1 h.2, Nat.add_sub_cancel]

theorem utf32SizeOfUtf32String_spec (htail : unit tail₃₂ = 0) (cs : List Scalar)
    (hfuel : cs.length < fuel) :
    utf32SizeOfUtf32String fuel (encode utf32EncodeChar cs ++ tail₃₂) =
      .ok (encode utf32EncodeChar cs).length := by
  refine loop_counts (fun cs' v => v.s = encode utf32EncodeChar cs' ++ tail₃₂) ?_ ?_ rfl rfl hfuel
  · intro c cs' v hs
    rw [hs, if_pos (reads_utf32.unit_cons c cs' tail₃₂)]
    exact ⟨_, rfl, rfl, rfl⟩
  · intro v hs
    rw [hs, encode_nil, nil_append, if_neg fun h => h htail, Nat.add_sub_cancel]

theorem encode_utf32_length (cs : List Scalar) :
    (encode utf32EncodeChar cs).length = cs.length := by
  induction cs with
  | nil => rfl
  | cons c cs ih =>
    rw [encode_cons, length_append, ih, length_cons, Nat.add_comm]
    rfl

theorem encode_utf32_take (hn : n ≤ cs.length) (tail : List UInt32) :
    (encode utf32EncodeChar cs ++ tail).take n = encode utf32EncodeChar (cs.take n) := by
  rw [encode_take_append utf32EncodeChar cs n tail]
  apply take_left'
  rw [encode_utf32_length, length_take, Nat.min_eq_left hn]

theorem utf32StringnnFromUtf32String_spec (htail : unit tail₃₂ = 0) (cs : List Scalar)
    (dstMaxSize : Nat) (hfuel : cs.length < fuel) :
    utf32StringnnFromUtf32String fuel dstMaxSize (encode utf32EncodeChar cs ++ tail₃₂) =
      .ok (encode utf32EncodeChar (cs.take (min dstMaxSize cs.length))) := by
  rw [utf32StringnnFromUtf32String]
  split
  · next h0 => rw [h0, Nat.zero_min, take_zero, encode_nil]
  · rw [utf32SizeOfUtf32String_spec htail cs hfuel, encode_utf32_length, ok_bind,
      ← encode_utf32_take (Nat.min_le_right _ _) tail₃₂]
    congr 2
    split <;> omega

theorem utf32StringFromUtf32StringLen_spec (htail : unit tail₃₂ = 0) (cs : List Scalar)
    (len : Nat) (hpos : 0 < dstMaxSize) (hfuel : cs.length < fuel) :
    utf32StringFromUtf32StringLen fuel dstMaxSize (encode utf32EncodeChar cs ++ tail₃₂) len =
      .ok (min (min cs.length len) (dstMaxSize - 1),
        encode utf32EncodeChar (cs.take (min (min cs.length len) (dstMaxSize - 1))) ++ [0]) := by
  rw [utf32StringFromUtf32StringLen]
  split
  · next h =>
    rw [show min (min cs.length len) (dstMaxSize - 1) = 0 by omega, take_zero]
    rfl
  · have hcount : Counted (encode utf32EncodeChar (cs.drop len) ++ tail₃₂) (cs.take len) len :=
      counted_take cs htail len
    have hsize := utf32SizeOfUtf32StringLen_spec hcount
      (Nat.lt_of_le_of_lt (length_take_le' len cs) hfuel)
    rw [← encode_take_append, encode_utf32_length, length_take] at hsize
    have hmin : (if min len cs.length < dstMaxSize then min len cs.length else dstMaxSize - 1) =
        min (min cs.length len) (dstMaxSize - 1) := by
      split <;> omega
    rw [hsize, ok_bind, hmin]
    dsimp only
    rw [encode_utf32_take (by omega)]

theorem utf32StringFromUtf32StringSize_spec (htail : unit tail₃₂ = 0) (cs : List Scalar)
    (size : Nat) (hpos : 0 < dstMaxSize) (hfuel : cs.length < fuel) :
    utf32StringFromUtf32StringSize fuel dstMaxSize (encode utf32EncodeChar cs ++ tail₃₂) size =
      .ok (min (min cs.length size) (dstMaxSize - 1),
        encode utf32EncodeChar (cs.take (min (min cs.length size) (dstMaxSize - 1))) ++ [0]) := by
  rw [utf32StringFromUtf32StringSize]
  split
  · next h =>
    rw [show min (min cs.length size) (dstMaxSize - 1) = 0 by omega, take_zero]
    rfl
  · rw [utf32SizeOfUtf32String_spec htail cs hfuel, encode_utf32_length, ok_bind]
    split
    · next h0 =>
      rw [show min (min cs.length size) (dstMaxSize - 1) = 0 by omega, take_zero]
      rfl
    · dsimp only
      rw [encode_utf32_take (by omega)]

end Own

end Clover.Unicode
