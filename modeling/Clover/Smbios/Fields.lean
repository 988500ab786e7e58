import Clover.Smbios.Table

/-!
# The string fields of an SMBIOS structure are independent

`UpdateSmbiosString` on a field that names a string replaces that string; on a field that names none
it adds a string and gives its number to the field. Both are operations on a `Table`, and
`GetSmbiosString` reads its strings. After `UniquifySmbiosTableStr` no two fields of the list name
the same string, so that a call changes what its own field reads and nothing else, as long as no
field has the number of a string that does not exist: such a number is not an empty field for
`UniquifySmbiosTableStr`, and a string that is added later can get it.
-/

namespace Clover.Smbios

open Clover.Lib List

variable {junk mem : Bytes} {i field : Nat} {earlier fields : List Nat} {t : Table}
  {call : Nat × Bytes}

/-! ## Operations on structures -/

namespace Table

variable (t : Table)

/-- The structure with another formatted area, of the same length. -/
def withFormatted (formatted : Bytes) (hlength : formatted.length = t.formatted.length)
    (hbyte : formatted.getD 1 0 = t.formatted.getD 1 0) : Table where
  formatted := formatted
  strings := t.strings
  length_eq := by rw [hdrLength, hbyte, hlength, ← t.length_eq, hdrLength]
  four_le := hlength ▸ t.four_le
  isString := t.isString

def setString (i : Nat) (s : Bytes) (hs : IsString s) : Table where
  formatted := t.formatted
  strings := t.strings.set i s
  length_eq := t.length_eq
  four_le := t.four_le
  isString := fun r hr => (mem_or_eq_of_mem_set hr).elim (t.isString r) fun h => h ▸ hs

def addString (field : Nat) (s : Bytes) (hfield : 4 ≤ field) (hs : IsString s) : Table where
  formatted := t.formatted.set field (UInt8.ofNat (t.strings.length + 1))
  strings := t.strings ++ [s]
  length_eq := by
    rw [length_set, ← t.length_eq, hdrLength, hdrLength, getD_eq_getElem?_getD,
      getD_eq_getElem?_getD, getElem?_set_ne (by omega)]
  four_le := by
    rw [length_set]
    exact t.four_le
  isString := fun r hr => (mem_append.mp hr).elim (t.isString r) fun h =>
    mem_singleton.mp h ▸ hs

/-- The number of a string in a field. -/
def number (field : Nat) : Nat := (t.formatted.getD field 0).toNat

/-- The string that a field names. -/
def reading (field : Nat) : Bytes :=
  if t.number field = 0 then [] else t.strings.getD (t.number field - 1) []

end Table

section Represents

variable {t : Table} {mem : Bytes}

theorem image_append (hne : t.strings ≠ []) (junk : Bytes) :
    t.image ++ junk = t.formatted ++ (encode t.strings ++ 0 :: junk) := by
  obtain ⟨s, strings, h⟩ := exists_cons_of_ne_nil hne
  rw [Table.image, h, body, append_assoc, append_assoc, singleton_append]

theorem image_nil (h : t.strings = []) (junk : Bytes) :
    t.image ++ junk = t.formatted ++ 0 :: 0 :: junk := by
  rw [Table.image, h, body, append_assoc]
  rfl

theorem length_image (hne : t.strings ≠ []) :
    t.image.length = t.formatted.length + (encode t.strings).length + 1 := by
  rw [← append_nil t.image, image_append hne, length_append, length_append,
    length_singleton, Nat.add_assoc]

theorem getD_image (hfield : field < t.formatted.length) (junk : Bytes) :
    (t.image ++ junk).getD field 0 = t.formatted.getD field 0 := by
  rw [Table.image, append_assoc, getD_append _ _ _ _ hfield]

theorem hdrLength_image (junk : Bytes) : hdrLength (t.image ++ junk) = t.formatted.length := by
  rw [Table.image, append_assoc, hdrLength_append]

theorem length_strings_le (junk : Bytes) : t.strings.length ≤ (t.image ++ junk).length := by
  have hencode : t.strings.length ≤ (encode t.strings).length := by
    generalize t.strings = strings
    induction strings with
    | nil => exact le_refl 0
    | cons s strings ih =>
      rw [length_encode_cons, length_cons]
      omega
  by_cases hne : t.strings = []
  · rw [hne]
    exact Nat.zero_le _
  · rw [length_append, length_image hne]
    omega

theorem encode_inj {strings strings' : List Bytes} (h : ∀ s ∈ strings, IsString s)
    (h' : ∀ s ∈ strings', IsString s) {post post' : Bytes}
    (heq : encode strings ++ 0 :: post = encode strings' ++ 0 :: post') :
    strings = strings' ∧ post = post' := by
  induction strings generalizing strings' with
  | nil =>
    obtain ⟨b, rest, hcons, hb⟩ := head_encode h' post'
    have hnil : strings' = [] := hb.mp (cons.inj (heq.trans hcons)).1.symm
    subst hnil
    exact ⟨rfl, (cons.inj heq).2⟩
  | cons s strings ih =>
    cases strings' with
    | nil =>
      obtain ⟨b, rest, hcons, hb⟩ := head_encode h post
      exact absurd (hb.mp (cons.inj (hcons.symm.trans heq)).1) (cons_ne_nil _ _)
    | cons s' strings' =>
      rw [encode_cons, encode_cons] at heq
      have hs : s = s' := by
        have hcstr := cStr_append (h s mem_cons_self).no_zero [] (encode strings ++ 0 :: post)
        rw [← hcstr, heq]
        exact cStr_append (h' s' mem_cons_self).no_zero [] _
      subst hs
      obtain ⟨rfl, hpost⟩ := ih (fun r hr => h r (mem_cons_of_mem _ hr))
        (fun r hr => h' r (mem_cons_of_mem _ hr))
        (cons.inj (append_cancel_left heq)).2
      exact ⟨rfl, hpost⟩

theorem image_inj {t' : Table} {junk' : Bytes} (heq : t.image ++ junk = t'.image ++ junk') :
    t = t' ∧ junk = junk' := by
  have hlength : t.formatted.length = t'.formatted.length := by
    rw [← hdrLength_image junk, heq, hdrLength_image]
  have hshape : ∀ (t : Table) (junk : Bytes), t.image ++ junk = t.formatted ++
      (encode t.strings ++ 0 :: if t.strings = [] then 0 :: junk else junk) := by
    intro t junk
    split
    · next hnil =>
      rw [image_nil hnil, hnil]
      rfl
    · next hne => exact image_append hne junk
  rw [hshape t, hshape t'] at heq
  obtain ⟨hformatted, hbody⟩ := append_inj heq hlength
  obtain ⟨hstrings, hpost⟩ := encode_inj t.isString t'.isString hbody
  obtain ⟨formatted, strings, _, _, _⟩ := t
  cases hformatted
  cases hstrings
  refine ⟨rfl, ?_⟩
  split at hpost
  · exact (cons.inj hpost).2
  · exact hpost

end Represents

/-! ## One call -/

section Update

variable {t : Table} {junk text : Bytes} {field : Nat}

theorem encode_middle (as : List Bytes) (b : Bytes) (bs : List Bytes)
    (post : Bytes) :
    encode (as ++ b :: bs) ++ post = encode as ++ (b ++ 0 :: (encode bs ++ post)) := by
  rw [encode_append, append_assoc, encode_cons]

theorem strings_split {j : Nat} (hlt : j < t.strings.length) :
    t.strings = t.strings.take j ++ t.strings[j] :: t.strings.drop (j + 1) := by
  rw [← drop_eq_getElem_cons hlt, take_append_drop]

/-- A field that names a string: the string is replaced. -/
theorem update_numbered (htext : IsText text) (hfield : field < t.formatted.length)
    (hsize : t.image.length < 2 ^ 16) (hroom : (stored text).length < junk.length)
    (hpos : t.number field ≠ 0) (hle : t.number field ≤ t.strings.length) :
    Represents (updateSmbiosString (t.image ++ junk) field text)
      (t.setString (t.number field - 1) (stored text) htext.isString) := by
  obtain ⟨j, hj⟩ : ∃ j, t.number field = j + 1 := Nat.exists_eq_succ_of_ne_zero hpos
  have hlt : j < t.strings.length := by omega
  have hne : t.strings ≠ [] := ne_nil_of_length_pos (Nat.zero_lt_of_lt hlt)
  have hk : ((t.image ++ junk).getD field 0).toNat = 0 + 1 + j := by
    rw [getD_image hfield]
    exact hj.trans (by omega)
  have hlocate : locate (t.image ++ junk) ((t.image ++ junk).getD field 0)
      (t.image ++ junk).length 1 (hdrLength (t.image ++ junk)) =
        (t.formatted.length + (encode (t.strings.take j)).length, none) := by
    have hrounds := length_strings_le (t := t) junk
    rw [hdrLength_image]
    generalize (t.image ++ junk).getD field 0 = k at hk
    generalize (t.image ++ junk).length = rounds at hrounds
    rw [image_append hne]
    exact locate_found t.isString t.formatted junk hrounds hlt hk
  have hsplit : t.image ++ junk = t.formatted ++ encode (t.strings.take j) ++
      (t.strings[j] ++ 0 :: (encode (t.strings.drop (j + 1)) ++ [0])) ++ junk := by
    rw [image_append hne]
    nth_rewrite 1 [strings_split hlt]
    rw [encode_middle]
    simp
  have hlength : t.image.length = (t.formatted ++ encode (t.strings.take j)).length +
      t.strings[j].length + 1 + (encode (t.strings.drop (j + 1)) ++ [0]).length := by
    have := congrArg length hsplit
    simp only [length_append, length_cons, length_nil] at this ⊢
    omega
  obtain ⟨junk', hreplace, -⟩ := replaceAt_spec (t.formatted ++ encode (t.strings.take j))
    t.strings[j] junk (encode (t.strings.drop (j + 1)) ++ [0])
    (0 :: encode (t.strings.drop (j + 1))) (t.isString _ (getElem_mem hlt)).no_zero rfl
    (take_iStrLen htext.no_zero).symm (iStrLen_le text) hroom
  refine ⟨junk', ?_⟩
  rw [updateSmbiosString, if_neg htext.ne_nil, hlocate, smbiosTableLength_image hsize]
  dsimp only
  have hp : (t.formatted ++ encode (t.strings.take j)).length = _ := length_append
  rw [hsplit, hlength, ← hp, hreplace]
  have hset : (t.setString (t.number field - 1) (stored text) htext.isString).strings =
      t.strings.take j ++ stored text :: t.strings.drop (j + 1) := by
    rw [hj]
    exact set_eq_take_append_cons_drop.trans (if_pos hlt)
  rw [image_append (by simp [hset]), hset, encode_middle]
  simp only [append_assoc, cons_append, nil_append]
  rfl

theorem locate_zero (junk : Bytes) (hcount : t.strings.length < 255) :
    locate (t.image ++ junk) 0 (t.image ++ junk).length 1 (hdrLength (t.image ++ junk)) =
      (t.image.length - 1, some (UInt8.ofNat (t.strings.length + 1))) := by
  have hrounds := length_strings_le (t := t) junk
  rw [hdrLength_image]
  by_cases hne : t.strings = []
  · have hmem : t.image ++ junk = t.formatted ++ ([] ++ 0 :: 0 :: junk) := image_nil hne junk
    have hlength : t.image.length = t.formatted.length + 2 := by
      rw [← append_nil t.image, image_nil hne, length_append]
      rfl
    have hsecond : (t.image ++ junk).getD (t.formatted.length + 1) 0 = 0 := by
      rw [image_nil hne, getD_append_right _ _ _ _ (Nat.le_add_right _ _),
        Nat.add_sub_cancel_left]
      rfl
    have hcstr : cStr (t.image ++ junk) t.formatted.length = [] := by
      rw [hmem]
      exact cStr_append not_mem_nil _ _
    have hfirst : (t.image ++ junk).getD t.formatted.length 0 = 0 := by
      rw [hmem]
      exact getD_append_cons ..
    obtain ⟨rounds, hr⟩ : ∃ rounds, (t.image ++ junk).length = rounds + 1 := ⟨_, by
      rw [length_append, hlength]
      exact Nat.add_right_comm ..⟩
    rw [hr, locate, if_neg (by decide), hcstr, hfirst]
    dsimp only
    rw [length_nil, Nat.add_zero, hsecond, hlength, hne]
    rfl
  · generalize (t.image ++ junk).length = rounds at hrounds
    rw [image_append hne, length_image hne, Nat.add_sub_cancel]
    have h := locate_end (i := 0) (k := 0) t.isString t.formatted junk hrounds hne (by omega)
      (.inl (Nat.le_refl 0))
    rwa [Nat.zero_add t.strings.length] at h

/-- A field that names no string: the string is added, and its number written to the field. -/
theorem update_unnumbered (htext : IsText text) (hfield : field < t.formatted.length)
    (hfour : 4 ≤ field) (hsize : t.image.length < 2 ^ 16)
    (hroom : (stored text).length < junk.length) (hzero : t.number field = 0)
    (hcount : t.strings.length < 255) :
    Represents (updateSmbiosString (t.image ++ junk) field text)
      (t.addString field (stored text) hfour htext.isString) := by
  have hk : (t.image ++ junk).getD field 0 = 0 := by
    rw [getD_image hfield]
    exact UInt8.toNat_inj.mp hzero
  obtain ⟨first, junk, rfl⟩ := exists_cons_of_length_pos (Nat.zero_lt_of_lt hroom)
  have hpositive : 0 < (stored text).length := length_pos_iff.mpr htext.isString.ne_nil
  have himage : 0 < t.image.length := by
    rw [Table.image, length_append]
    omega
  rw [updateSmbiosString, if_neg htext.ne_nil, hk, locate_zero _ hcount,
    smbiosTableLength_image hsize]
  dsimp only
  rw [if_pos rfl, Nat.sub_add_cancel himage, set_append_right _ _ (Nat.le_refl _), Nat.sub_self,
    set_cons_zero, Table.image, append_assoc, set_append_left _ _ hfield,
    length_append]
  generalize hformatted : t.formatted.set field (UInt8.ofNat (t.strings.length + 1)) = formatted
  have hlength : formatted.length = t.formatted.length := by rw [← hformatted, length_set]
  have htable : (t.addString field (stored text) hfour htext.isString).formatted = formatted :=
    hformatted
  have hstrings : (t.addString field (stored text) hfour htext.isString).strings =
      t.strings ++ [stored text] := rfl
  have hadded : (t.addString field (stored text) hfour htext.isString).strings ≠ [] := by
    simp [hstrings]
  have hwritten := take_iStrLen htext.no_zero
  by_cases hne : t.strings = []
  · -- The first string takes the place of the two zeros.
    obtain ⟨junk', hreplace, -⟩ := replaceAt_spec formatted [] (0 :: junk) [0] [0]
      not_mem_nil rfl hwritten.symm (iStrLen_le text) hroom
    refine ⟨junk', ?_⟩
    rw [image_append hadded, htable, hstrings, hne, body, if_pos (by rfl), ← hlength]
    rw [append_assoc] at hreplace
    refine hreplace.trans ?_
    rw [nil_append, encode_cons]
    rfl
  · obtain ⟨junk', hreplace, hgrown⟩ := replaceAt_spec (formatted ++ encode t.strings) []
      (0 :: junk) [] [] not_mem_nil rfl hwritten.symm (iStrLen_le text) hroom
    obtain ⟨rest, rfl⟩ := hgrown hpositive
    have hbody : body t.strings = encode t.strings ++ [0] := by
      obtain ⟨s, strings, h⟩ := exists_cons_of_ne_nil hne
      rw [h, body]
    have hnumber : UInt8.ofNat (t.strings.length + 1) ≠ 1 := by
      have := length_pos_iff.mpr hne
      exact ofNat_ne_of_toNat_ne (by omega) (by
        change 1 ≠ _
        omega)
    refine ⟨rest, ?_⟩
    rw [image_append hadded, htable, hstrings, if_neg hnumber, hbody, ← hlength, encode_middle]
    rw [length_append] at hreplace
    rw [length_append, ← append_assoc, ← append_assoc, ← Nat.add_assoc]
    refine hreplace.trans ?_
    rw [append_assoc]
    rfl

end Update

/-! ## Reading -/

section Reading

variable {t : Table}

theorem getSmbiosString_nil (junk : Bytes) (k : UInt8) (hnil : t.strings = []) :
    getSmbiosString (t.image ++ junk) k = [] := by
  have hmem : t.image ++ junk = t.formatted ++ ([] ++ 0 :: 0 :: junk) := image_nil hnil junk
  have hmem' : t.image ++ junk = (t.formatted ++ [0]) ++ ([] ++ 0 :: junk) := by
    rw [hmem, append_assoc]
    rfl
  have hfirst : cStr (t.image ++ junk) t.formatted.length = [] := by
    rw [hmem]
    exact cStr_append not_mem_nil _ _
  have hlength : (t.formatted ++ [0]).length = t.formatted.length + 1 := length_append
  have hsecond : cStr (t.image ++ junk) (t.formatted.length + 1) = [] := by
    rw [hmem', ← hlength]
    exact cStr_append not_mem_nil _ _
  have hbyte : (t.image ++ junk).getD (t.formatted.length + 1) 0 = 0 := by
    rw [hmem', ← hlength]
    exact getD_append_cons ..
  obtain ⟨rounds, hrounds⟩ : ∃ rounds, (t.image ++ junk).length = rounds + 1 :=
    Nat.exists_eq_succ_of_ne_zero (by simp [hmem])
  rw [getSmbiosString, hdrLength_image, hrounds, getLoop, hfirst]
  split
  · exact hfirst
  · exact (congrArg _ (if_pos hbyte)).trans hsecond

/-- The walk of `GetSmbiosString` ends at the string with the number, if there is one. -/
theorem getSmbiosString_image (junk : Bytes) (k : UInt8) (hcount : t.strings.length < 256) :
    getSmbiosString (t.image ++ junk) k =
      if k.toNat = 0 then [] else t.strings.getD (k.toNat - 1) [] := by
  by_cases hne : t.strings = []
  · rw [getSmbiosString_nil junk k hne, hne]
    split
    · rfl
    · rfl
  have hrounds := length_strings_le (t := t) junk
  rw [getSmbiosString, hdrLength_image]
  generalize (t.image ++ junk).length = rounds at hrounds
  rw [image_append hne, getLoop_eq_locate t.isString _ _ _ _ _ hne]
  by_cases hk : k.toNat = 0 ∨ t.strings.length < k.toNat
  · have h := locate_end (i := 0) t.isString t.formatted junk hrounds hne (by omega)
      (by omega : k.toNat ≤ 0 ∨ 0 + t.strings.length < k.toNat)
    have hlength : (t.formatted ++ encode t.strings).length = _ := length_append
    rw [show (1 : UInt8) = UInt8.ofNat (0 + 1) from rfl, h, ← hlength, ← append_assoc]
    refine (cStr_append not_mem_nil _ _).trans ?_
    split
    · rfl
    · rw [getD_eq_default]
      omega
  · obtain ⟨j, hj⟩ : ∃ j, k.toNat = 0 + 1 + j := ⟨k.toNat - 1, by omega⟩
    have hlt : j < t.strings.length := by omega
    have hlength : (t.formatted ++ encode (t.strings.take j)).length = _ := length_append
    rw [show (1 : UInt8) = UInt8.ofNat (0 + 1) from rfl,
      locate_found t.isString t.formatted junk hrounds hlt hj, if_neg (by omega),
      show k.toNat - 1 = j by omega, getD_eq_getElem _ _ hlt, ← hlength]
    nth_rewrite 1 [strings_split hlt]
    rw [encode_middle, ← append_assoc]
    exact cStr_append (t.isString _ (getElem_mem hlt)).no_zero _ _

theorem getSmbiosString_field (h : Represents mem t) (hcount : t.strings.length < 256)
    (hfield : field < t.formatted.length) :
    getSmbiosString mem (mem.getD field 0) = t.reading field := by
  obtain ⟨junk, rfl⟩ := h
  rw [getSmbiosString_image junk _ hcount, getD_image hfield]
  rfl

end Reading

/-! ## Fields of a list -/

/-- No two of the fields name the same string. -/
def Unique (mem : Bytes) (fields : List Nat) : Prop :=
  ∀ i ∈ fields, ∀ j ∈ fields, i ≠ j → mem.getD i 0 = mem.getD j 0 → mem.getD i 0 = 0

section Uniquify

variable {mem : Bytes} {rest : List Nat}

theorem uniquifyStep_cases (mem : Bytes) (earlier : List Nat) (cmpIdx : Nat) :
    uniquifyStep mem earlier cmpIdx = mem.set cmpIdx 0 ∨
      uniquifyStep mem earlier cmpIdx = mem ∧ (mem.getD cmpIdx 0 = 0 ∨
        ∀ j ∈ earlier, mem.getD cmpIdx 0 ≠ mem.getD j 0) := by
  rw [uniquifyStep]
  split
  · next hzero => exact .inr ⟨rfl, .inl hzero⟩
  split
  · exact .inl rfl
  · next hany =>
    refine .inr ⟨rfl, .inr fun j hj heq => hany (any_eq_true.mpr ⟨j, hj, ?_⟩)⟩
    exact decide_eq_true heq

theorem getD_set_self (mem : Bytes) (i : Nat) : (mem.set i 0).getD i 0 = 0 := by
  rw [getD_eq_getElem?_getD, getElem?_set_self']
  cases mem[i]? <;> rfl

theorem getD_set_ne (mem : Bytes) {j : Nat} (h : i ≠ j) (b : UInt8) :
    (mem.set i b).getD j 0 = mem.getD j 0 := by
  rw [getD_eq_getElem?_getD, getElem?_set_ne h, ← getD_eq_getElem?_getD]

theorem uniquifyStep_unique (h : Unique mem earlier) (cmpIdx : Nat) :
    Unique (uniquifyStep mem earlier cmpIdx) (earlier ++ [cmpIdx]) := by
  intro i hi j hj hij heq
  rw [mem_append, mem_singleton] at hi hj
  obtain hset | ⟨hsame, hcmp⟩ := uniquifyStep_cases mem earlier cmpIdx
  · rw [hset] at heq ⊢
    by_cases hic : cmpIdx = i
    · rw [← hic, getD_set_self]
    by_cases hjc : cmpIdx = j
    · rw [heq, ← hjc, getD_set_self]
    rw [getD_set_ne _ hic, getD_set_ne _ hjc] at heq
    rw [getD_set_ne _ hic]
    exact h i (hi.resolve_right (Ne.symm hic)) j (hj.resolve_right (Ne.symm hjc)) hij heq
  · rw [hsame] at heq ⊢
    obtain hi | rfl := hi
    · obtain hj | rfl := hj
      · exact h i hi j hj hij heq
      · exact hcmp.elim (heq.trans ·) fun hne => absurd heq.symm (hne i hi)
    · obtain hj | rfl := hj
      · exact hcmp.elim id fun hne => absurd heq (hne j hj)
      · exact absurd rfl hij

theorem uniquifyLoop_getD (earlier rest : List Nat) (mem : Bytes) (i : Nat) :
    (uniquifyLoop earlier rest mem).getD i 0 = mem.getD i 0 ∨
      i ∈ rest ∧ (uniquifyLoop earlier rest mem).getD i 0 = 0 := by
  induction rest generalizing earlier mem with
  | nil => exact .inl rfl
  | cons cmpIdx rest ih =>
    obtain hrest | ⟨hmem, hzero⟩ := ih (earlier ++ [cmpIdx]) (uniquifyStep mem earlier cmpIdx)
    · rw [uniquifyLoop, hrest]
      obtain hset | ⟨hsame, -⟩ := uniquifyStep_cases mem earlier cmpIdx
      · rw [hset]
        by_cases hi : cmpIdx = i
        · exact .inr ⟨hi ▸ mem_cons_self, hi ▸ getD_set_self mem cmpIdx⟩
        · exact .inl (getD_set_ne mem hi 0)
      · rw [hsame]
        exact .inl rfl
    · exact .inr ⟨mem_cons_of_mem _ hmem, hzero⟩

theorem length_uniquifyLoop (earlier rest : List Nat) (mem : Bytes) :
    (uniquifyLoop earlier rest mem).length = mem.length := by
  induction rest generalizing earlier mem with
  | nil => rfl
  | cons cmpIdx rest ih =>
    rw [uniquifyLoop, ih]
    obtain hset | ⟨hsame, -⟩ := uniquifyStep_cases mem earlier cmpIdx
    · rw [hset, length_set]
    · rw [hsame]

theorem uniquifyLoop_unique (h : Unique mem earlier) :
    Unique (uniquifyLoop earlier rest mem) (earlier ++ rest) := by
  induction rest generalizing earlier mem with
  | nil => rwa [append_nil]
  | cons cmpIdx rest ih =>
    rw [append_cons]
    exact ih (uniquifyStep_unique h cmpIdx)

/-- The rounds stay in the formatted area, as the fields do. -/
theorem uniquifyLoop_append {bytes : Bytes}
    (hearlier : ∀ i ∈ earlier, i < mem.length) (hrest : ∀ i ∈ rest, i < mem.length) :
    uniquifyLoop earlier rest (mem ++ bytes) = uniquifyLoop earlier rest mem ++ bytes := by
  induction rest generalizing earlier mem with
  | nil => rfl
  | cons cmpIdx rest ih =>
    have hcmp : cmpIdx < mem.length := hrest cmpIdx mem_cons_self
    have hstep : uniquifyStep (mem ++ bytes) earlier cmpIdx =
        uniquifyStep mem earlier cmpIdx ++ bytes := by
      have hany : (earlier.any fun j => (mem ++ bytes).getD cmpIdx 0 = (mem ++ bytes).getD j 0) =
          earlier.any fun j => mem.getD cmpIdx 0 = mem.getD j 0 := by
        rw [Bool.eq_iff_iff, any_eq_true, any_eq_true]
        refine exists_congr fun j => and_congr_right fun hj => ?_
        rw [getD_append _ _ _ _ hcmp, getD_append _ _ _ _ (hearlier j hj)]
      rw [uniquifyStep, uniquifyStep, hany, getD_append _ _ _ _ hcmp,
        set_append_left _ _ hcmp]
      split
      · rfl
      split
      · rfl
      · rfl
    have hlength : (uniquifyStep mem earlier cmpIdx).length = mem.length := by
      obtain hset | ⟨hsame, -⟩ := uniquifyStep_cases mem earlier cmpIdx
      · rw [hset, length_set]
      · rw [hsame]
    rw [uniquifyLoop, uniquifyLoop, hstep]
    apply ih
    · intro i hi
      rw [hlength]
      exact (mem_append.mp hi).elim (hearlier i) fun h => mem_singleton.mp h ▸ hcmp
    · intro i hi
      rw [hlength]
      exact hrest i (mem_cons_of_mem _ hi)

/-- Only fields are changed, and the strings stay. -/
theorem uniquify_represents (junk : Bytes)
    (hinside : ∀ i ∈ fields, 4 ≤ i ∧ i < t.formatted.length) :
    ∃ t' : Table, uniquifySmbiosTableStr (t.image ++ junk) fields = t'.image ++ junk ∧
      t'.strings = t.strings ∧ t'.formatted.length = t.formatted.length ∧
      Unique t'.formatted fields ∧ (∀ i, t'.number i ≤ t.number i) ∧
      ∀ i, i ∉ fields → t'.formatted.getD i 0 = t.formatted.getD i 0 := by
  cases fields with
  | nil =>
    exact ⟨t, rfl, rfl, rfl, fun i hi => (nomatch hi), fun i => le_refl _, fun i _ => rfl⟩
  | cons first rest =>
    have hbyte := uniquifyLoop_getD [first] rest t.formatted
    have hone : 1 ∉ rest := fun h => by
      have := hinside 1 (mem_cons_of_mem _ h)
      omega
    refine ⟨t.withFormatted (uniquifyLoop [first] rest t.formatted) (length_uniquifyLoop ..)
      ((hbyte 1).resolve_right fun h => hone h.1), ?_, rfl, length_uniquifyLoop .., ?_, ?_, ?_⟩
    · rw [uniquifySmbiosTableStr, Table.image, append_assoc, uniquifyLoop_append]
      · rw [Table.image, append_assoc]
        rfl
      · intro i hi
        exact (hinside i (mem_singleton.mp hi ▸ mem_cons_self)).2
      · exact fun i hi => (hinside i (mem_cons_of_mem _ hi)).2
    · apply uniquifyLoop_unique
      intro i hi j hj hij
      exact absurd ((mem_singleton.mp hi).trans (mem_singleton.mp hj).symm) hij
    · intro i
      change ((uniquifyLoop [first] rest t.formatted).getD i 0).toNat ≤ (t.formatted.getD i 0).toNat
      obtain h | ⟨-, h⟩ := hbyte i
      · rw [h]
      · rw [h]
        exact Nat.zero_le _
    · intro i hi
      exact (hbyte i).resolve_right fun h => hi (mem_cons_of_mem _ h.1)

end Uniquify

/-! ## Whole runs -/

/-- A sequence of calls, each with a field and a text. -/
def updateAll (mem : Bytes) (calls : List (Nat × Bytes)) : Bytes :=
  calls.foldl (fun mem call => updateSmbiosString mem call.1 call.2) mem

/-- The text that the last call to a field writes. -/
def lastText (calls : List (Nat × Bytes)) (field : Nat) : Option Bytes :=
  (calls.reverse.find? fun call => call.1 == field).map Prod.snd

/-- The structure in the buffer has room for another string, its length is a `UINT16`, and if the
field names no string, the number of the next one is a `UINT8`. -/
def Fits (mem : Bytes) (call : Nat × Bytes) : Prop :=
  ∀ (t : Table) (junk : Bytes), mem = t.image ++ junk →
    t.image.length < 2 ^ 16 ∧ (stored call.2).length < junk.length ∧
      (t.number call.1 = 0 → t.strings.length < 255)

/-- Every listed field names a string of its own, or none. -/
structure Separate (t : Table) (fields : List Nat) : Prop where
  inside : ∀ i ∈ fields, 4 ≤ i ∧ i < t.formatted.length
  named : ∀ i ∈ fields, t.number i ≤ t.strings.length
  unique : ∀ i ∈ fields, ∀ j ∈ fields, i ≠ j → t.number i = t.number j → t.number i = 0
  count : t.strings.length < 256

namespace Separate

variable {t : Table} {fields : List Nat} {field : Nat} {s : Bytes}

theorem number_ne (h : Separate t fields) (hi : i ∈ fields) (hfield : field ∈ fields)
    (hne : i ≠ field) (hpos : t.number field ≠ 0) : t.number i ≠ t.number field := by
  intro heq
  apply hpos
  rw [← heq]
  exact h.unique i hi field hfield hne heq

theorem setString (h : Separate t fields) (i : Nat) (hs : IsString s) :
    Separate (t.setString i s hs) fields where
  inside := h.inside
  named j hj := le_trans (h.named j hj) (le_of_eq length_set.symm)
  unique := h.unique
  count := lt_of_le_of_lt (le_of_eq length_set) h.count

theorem reading_setString (h : Separate t fields) (hs : IsString s) (hfield : field ∈ fields)
    (hpos : t.number field ≠ 0) (hi : i ∈ fields) :
    (t.setString (t.number field - 1) s hs).reading i = if i = field then s else t.reading i := by
  have hle := h.named field hfield
  change (if t.number i = 0 then [] else (t.strings.set (t.number field - 1) s).getD
    (t.number i - 1) []) = _
  by_cases heq : i = field
  · rw [if_pos heq, heq, if_neg hpos, getD_eq_getElem?_getD,
      getElem?_set_self (by omega)]
    rfl
  · rw [if_neg heq, Table.reading]
    have hne := h.number_ne hi hfield heq hpos
    by_cases hzero : t.number i = 0
    · rw [if_pos hzero, if_pos hzero]
    · rw [if_neg hzero, if_neg hzero, getD_eq_getElem?_getD, getElem?_set_ne (by omega),
        ← getD_eq_getElem?_getD]

theorem number_addString (hfour : 4 ≤ field) (hs : IsString s)
    (hfield : field < t.formatted.length) (hcount : t.strings.length < 255) (i : Nat) :
    (t.addString field s hfour hs).number i =
      if i = field then t.strings.length + 1 else t.number i := by
  rw [Table.number, Table.addString]
  by_cases heq : i = field
  · rw [if_pos heq, heq, getD_eq_getElem?_getD, getElem?_set_self hfield]
    exact Nat.mod_eq_of_lt (by omega)
  · rw [if_neg heq, getD_set_ne _ (Ne.symm heq)]
    rfl

theorem addString (h : Separate t fields) (hfour : 4 ≤ field) (hs : IsString s)
    (hfield : field ∈ fields) (hcount : t.strings.length < 255) :
    Separate (t.addString field s hfour hs) fields where
  inside i hi := by
    rw [Table.addString, length_set]
    exact h.inside i hi
  named i hi := by
    have := h.named i hi
    rw [number_addString hfour hs (h.inside field hfield).2 hcount, Table.addString,
      length_append, length_singleton]
    split
    · exact le_refl _
    · omega
  unique i hi j hj hij := by
    have hnumber := number_addString hfour hs (h.inside field hfield).2 hcount
    have := h.named i hi
    have := h.named j hj
    have hold := h.unique i hi j hj hij
    rw [hnumber i, hnumber j]
    split
    · rw [if_neg (by omega)]
      omega
    · split
      · omega
      · exact hold
  count := by
    rw [Table.addString, length_append, length_singleton]
    omega

theorem reading_addString (h : Separate t fields) (hfour : 4 ≤ field) (hs : IsString s)
    (hfield : field ∈ fields) (hcount : t.strings.length < 255) (hi : i ∈ fields) :
    (t.addString field s hfour hs).reading i = if i = field then s else t.reading i := by
  have hle := h.named i hi
  rw [Table.reading, number_addString hfour hs (h.inside field hfield).2 hcount]
  by_cases heq : i = field
  · rw [if_pos heq, if_pos heq, if_neg (Nat.succ_ne_zero _)]
    simp [Table.addString]
  · rw [if_neg heq, if_neg heq, Table.reading]
    by_cases hzero : t.number i = 0
    · rw [if_pos hzero, if_pos hzero]
    · rw [if_neg hzero, if_neg hzero, Table.addString, getD_append _ _ _ _ (by omega)]

end Separate

/-- One call changes what its field reads, and nothing else. -/
theorem update_step (hmem : Represents mem t) (h : Separate t fields)
    (hfield : call.1 ∈ fields) (htext : IsText call.2) (hfits : Fits mem call) :
    ∃ t', Represents (updateSmbiosString mem call.1 call.2) t' ∧ Separate t' fields ∧
      t'.formatted.length = t.formatted.length ∧ t'.strings.length ≤ t.strings.length + 1 ∧
      (∀ i ∈ fields, t'.reading i = if i = call.1 then stored call.2 else t.reading i) ∧
      ∀ i, i ∉ fields → t'.formatted.getD i 0 = t.formatted.getD i 0 := by
  obtain ⟨junk, rfl⟩ := hmem
  obtain ⟨hsize, hroom, hcount⟩ := hfits t junk rfl
  obtain ⟨hfour, hlt⟩ := h.inside call.1 hfield
  by_cases hzero : t.number call.1 = 0
  · refine ⟨t.addString call.1 (stored call.2) hfour htext.isString,
      update_unnumbered htext hlt hfour hsize hroom hzero (hcount hzero),
      h.addString hfour htext.isString hfield (hcount hzero), length_set, ?_,
      fun i => h.reading_addString hfour htext.isString hfield (hcount hzero), ?_⟩
    · exact le_of_eq length_append
    · intro i hi
      exact getD_set_ne _ (show call.1 ≠ i from fun heq => hi (heq ▸ hfield)) _
  · refine ⟨t.setString (t.number call.1 - 1) (stored call.2) htext.isString,
      update_numbered htext hlt hsize hroom hzero (h.named _ hfield),
      h.setString _ htext.isString, rfl, ?_,
      fun i => h.reading_setString htext.isString hfield hzero, fun i _ => rfl⟩
    exact Nat.le_succ_of_le (le_of_eq length_set)

theorem lastText_concat (calls : List (Nat × Bytes)) (call : Nat × Bytes) (field : Nat) :
    lastText (calls ++ [call]) field =
      if field = call.1 then some call.2 else lastText calls field := by
  rw [lastText, reverse_append, reverse_singleton, singleton_append,
    find?_cons]
  by_cases heq : field = call.1
  · rw [if_pos heq, heq, beq_self_eq_true]
    rfl
  · rw [if_neg heq, beq_false_of_ne (Ne.symm heq)]
    rfl

/-- A run of updates, and what the fields then read. -/
theorem updateAll_run {calls : List (Nat × Bytes)} (hmem : Represents mem t)
    (h : Separate t fields) (hcalls : ∀ call ∈ calls, call.1 ∈ fields ∧ IsText call.2)
    (hfits : ∀ pre call post, calls = pre ++ call :: post → Fits (updateAll mem pre) call) :
    ∃ t', Represents (updateAll mem calls) t' ∧ Separate t' fields ∧
      t'.formatted.length = t.formatted.length ∧
      t'.strings.length ≤ t.strings.length + calls.length ∧
      (∀ i ∈ fields, t'.reading i = ((lastText calls i).map stored).getD (t.reading i)) ∧
      ∀ i, i ∉ fields → t'.formatted.getD i 0 = t.formatted.getD i 0 := by
  induction calls using reverseRecOn with
  | nil => exact ⟨t, hmem, h, rfl, le_refl _, fun i _ => rfl, fun i _ => rfl⟩
  | append_singleton calls call ih =>
    obtain ⟨t1, hmem1, h1, hlength1, hcount1, hreading1, hbytes1⟩ := ih
      (fun c hc => hcalls c (mem_append_left _ hc))
      (fun pre c post heq => hfits pre c (post ++ [call]) (by
        rw [heq, append_assoc]
        rfl))
    obtain ⟨hfield, htext⟩ := hcalls call (mem_append_right _ mem_cons_self)
    obtain ⟨t2, hmem2, h2, hlength2, hcount2, hreading2, hbytes2⟩ :=
      update_step hmem1 h1 hfield htext (hfits calls call [] rfl)
    refine ⟨t2, ?_, h2, hlength2.trans hlength1, ?_, ?_, ?_⟩
    · rw [updateAll, foldl_append]
      exact hmem2
    · rw [length_append, length_singleton]
      omega
    · intro i hi
      rw [hreading2 i hi, hreading1 i hi, lastText_concat]
      split
      · rfl
      · rfl
    · intro i hi
      rw [hbytes2 i hi, hbytes1 i hi]

theorem fits_image :
    Fits (t.image ++ junk) call ↔ t.image.length < 2 ^ 16 ∧
      (stored call.2).length < junk.length ∧ (t.number call.1 = 0 → t.strings.length < 255) := by
  constructor
  · exact fun h => h t junk rfl
  · intro h t' junk' heq
    obtain ⟨rfl, rfl⟩ := image_inj heq
    exact h

/-- After `UniquifySmbiosTableStr` the listed fields are independent of each other: every field
reads what was last written to it, or what it read before. The fields must not name strings that do
not exist, and every call must fit. -/
theorem updateAll_independent {t : Table} {junk : Bytes} {fields : List Nat}
    {calls : List (Nat × Bytes)} (hcount : t.strings.length < 200)
    (hinside : ∀ i ∈ fields, 4 ≤ i ∧ i < t.formatted.length)
    (hcalls : ∀ call ∈ calls, call.1 ∈ fields ∧ IsText call.2)
    (hnamed : ∀ i ∈ fields, t.number i ≤ t.strings.length)
    (hfits : ∀ pre call post, calls = pre ++ call :: post →
      Fits (updateAll (uniquifySmbiosTableStr (t.image ++ junk) fields) pre) call) :
    let start := uniquifySmbiosTableStr (t.image ++ junk) fields
    let mem := updateAll start calls
    (∃ t', Represents mem t' ∧ t'.formatted.length = t.formatted.length ∧
      t'.strings.length ≤ t.strings.length + calls.length) ∧
    (∀ i ∈ fields, getSmbiosString mem (mem.getD i 0) =
      ((lastText calls i).map stored).getD (getSmbiosString start (start.getD i 0))) ∧
    ∀ i < t.formatted.length, i ∉ fields → mem.getD i 0 = t.formatted.getD i 0 := by
  intro start mem
  obtain ⟨t₁, heq, hstrings, hlength, hunique, hnumber, hbytes⟩ :=
    uniquify_represents junk hinside
  have hseparate : Separate t₁ fields :=
    { inside := fun i hi => hlength ▸ hinside i hi
      named := fun i hi => hstrings ▸ le_trans (hnumber i) (hnamed i hi)
      unique := fun i hi j hj hij hij' => by
        rw [Table.number, hunique i hi j hj hij (UInt8.toNat_inj.mp hij')]
        rfl
      count := by
        rw [hstrings]
        omega }
  have hstart : Represents start t₁ := ⟨junk, heq⟩
  obtain ⟨t₂, hmem, h₂, hlength₂, hcount₂, hreading, hbytes₂⟩ :=
    updateAll_run hstart hseparate hcalls hfits
  refine ⟨⟨t₂, hmem, hlength₂.trans hlength, hstrings ▸ hcount₂⟩, ?_, ?_⟩
  · intro i hi
    rw [getSmbiosString_field hmem h₂.count (h₂.inside i hi).2, hreading i hi,
      getSmbiosString_field hstart hseparate.count (hseparate.inside i hi).2]
  · intro i hlt hi
    obtain ⟨junk', hjunk⟩ := hmem
    rw [show mem = t₂.image ++ junk' from hjunk, getD_image (by omega), hbytes₂ i hi, hbytes i hi]

/-- A structure with one string, which two of its fields name. -/
def sharedTable : Table where
  formatted := [1, 7, 0, 0, 1, 1, 0]
  strings := [[0x41]]
  length_eq := by decide
  four_le := by decide
  isString s hs := by
    obtain rfl := mem_singleton.mp hs
    exact ⟨by decide, by decide⟩

/-- Its fields become independent. -/
theorem updateAll_sharedTable :
    let start := uniquifySmbiosTableStr (sharedTable.image ++ replicate 8 0) [4, 5, 6]
    let mem := updateAll start [(5, [0x42, 0x20])]
    getSmbiosString mem (mem.getD 4 0) = [0x41] ∧ getSmbiosString mem (mem.getD 5 0) = [0x42] := by
  have hinside : ∀ i ∈ [4, 5, 6], 4 ≤ i ∧ i < sharedTable.formatted.length := by decide
  have hcalls : ∀ call ∈ [(5, [0x42, 0x20])], call.1 ∈ [4, 5, 6] ∧ IsText call.2 := by
    intro call hcall
    obtain rfl := mem_singleton.mp hcall
    exact ⟨by decide, by decide, 0x42, by decide, by decide⟩
  have hnamed : ∀ i ∈ [4, 5, 6], sharedTable.number i ≤ sharedTable.strings.length := by decide
  have hfits : ∀ pre call post, [(5, [0x42, 0x20])] = pre ++ call :: post →
      Fits (updateAll (uniquifySmbiosTableStr (sharedTable.image ++ replicate 8 0) [4, 5, 6])
        pre) call := by
    intro pre call post heq
    cases pre with
    | nil =>
      obtain ⟨rfl, -⟩ := cons.inj heq
      change Fits ((sharedTable.withFormatted [1, 7, 0, 0, 1, 0, 0] rfl rfl).image ++
        replicate 8 0) _
      exact fits_image.mpr ⟨by decide, by decide, by decide⟩
    | cons first pre =>
      have hlength := congrArg length heq
      simp at hlength
  obtain ⟨-, hreading, -⟩ := @updateAll_independent sharedTable (replicate 8 0) [4, 5, 6]
    [(5, [0x42, 0x20])] (by decide) hinside hcalls hnamed hfits
  intro start mem
  exact ⟨hreading 4 (by decide), hreading 5 (by decide)⟩

/-- A structure without strings, with a field that has a number all the same. -/
def danglingTable : Table where
  formatted := [1, 7, 0, 0, 2, 0, 0]
  strings := []
  length_eq := by decide
  four_le := by decide
  isString s hs := nomatch hs

/-- The second string that is added gets the number of that field, which no call has written to. -/
theorem danglingTable_changes :
    let calls := [(5, [0x41]), (6, [0x42])]
    let start := uniquifySmbiosTableStr (danglingTable.image ++ replicate 8 0) [4, 5, 6]
    let mem := updateAll start calls
    lastText calls 4 = none ∧ getSmbiosString start (start.getD 4 0) = [] ∧
      getSmbiosString mem (mem.getD 4 0) = [0x42] := by
  decide

end Clover.Smbios
