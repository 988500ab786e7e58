import Clover.Plist.Semantics
import Clover.Plist.Values

/-!
# Reading what was printed

A tag is printed so that it can be read again if none of its leaves is a float or a date, which are
printed without their tags, no key has a `<` in it, and no string a `<` or a `&`, which are printed
as they are (`Tag.Plain`). The proof follows the printer: each kind of tag is printed between a
start tag and an end tag of the same name, and the parser finds these if there is no other tag
between them.
-/

namespace Clover.Plist

open Clover.Xml List

variable {b b' rest s : Bytes}

variable {F : Type}

/-! ## Leaves -/

mutual

/-- The tags in a tag that are not lists. -/
def Tag.leaves : Tag F → List (Tag F)
  | .dict content => leavesAll content
  | .array content => leavesAll content
  | leaf => [leaf]

def leavesAll : List (Tag F) → List (Tag F)
  | [] => []
  | tag :: content => tag.leaves ++ leavesAll content

end

/-- A leaf that can be read again. -/
def Tag.Plain : Tag F → Prop
  | .key s => 60 ∉ s
  | .string s => 60 ∉ s ∧ 38 ∉ s
  | .float _ | .date _ => False
  | _ => True

instance : (tag : Tag F) → Decidable tag.Plain
  | .dict _ | .array _ | .int64 _ | .data _ | .bool _ => inferInstanceAs (Decidable True)
  | .float _ | .date _ => inferInstanceAs (Decidable False)
  | .key s => inferInstanceAs (Decidable (60 ∉ s))
  | .string s => inferInstanceAs (Decidable (60 ∉ s ∧ 38 ∉ s))

/-- The strings of a leaf are texts. -/
def Tag.Written : Tag F → Prop
  | .key s | .string s | .date s => Canonical s
  | _ => True

/-- The tags with a content of tags, and their names. -/
inductive ListTag : (List (Tag F) → Tag F) → Bytes → Prop where
  | dict : ListTag .dict (lit "dict")
  | array : ListTag .array (lit "array")

def Tag.isList : Tag F → Bool
  | .dict _ | .array _ => true
  | _ => false

theorem Tag.induction {P : Tag F → Prop} {Q : List (Tag F) → Prop}
    (list : ∀ {make name} (_ : ListTag make name) content, Q content → P (make content))
    (leaf : ∀ tag, tag.isList = false → P tag) (nil : Q [])
    (cons : ∀ tag content, P tag → Q content → Q (tag :: content)) :
    (∀ tag, P tag) ∧ ∀ content, Q content := by
  have h : ∀ tag, P tag := fun tag =>
    @Tag.rec F P Q (list .dict) (list .array) (fun _ => leaf _ rfl) (fun _ => leaf _ rfl)
      (fun _ => leaf _ rfl)
      (fun _ => leaf _ rfl) (fun _ => leaf _ rfl) (fun _ => leaf _ rfl) (fun _ => leaf _ rfl)
      nil cons tag
  refine ⟨h, fun content => ?_⟩
  induction content with
  | nil => exact nil
  | cons tag content ih => exact cons tag content (h tag) ih

section Same

variable [DecidableEq F]

mutual

/-- The comparison of tags. -/
def Tag.same : Tag F → Tag F → Bool
  | .dict a, .dict b => sameAll a b
  | .array a, .array b => sameAll a b
  | .key a, .key b => a = b
  | .string a, .string b => a = b
  | .int64 a, .int64 b => a = b
  | .float a, .float b => a = b
  | .data a, .data b => a = b
  | .date a, .date b => a = b
  | .bool a, .bool b => a = b
  | _, _ => false

def sameAll : List (Tag F) → List (Tag F) → Bool
  | [], [] => true
  | a :: as, b :: bs => a.same b && sameAll as bs
  | _, _ => false

end

theorem same_iff : (∀ a b : Tag F, a.same b = true ↔ a = b) ∧
    ∀ as bs : List (Tag F), sameAll as bs = true ↔ as = bs := by
  apply Tag.induction
  · intro make name hmake as ih b
    cases hmake <;> cases b <;> simp [Tag.same, ih]
  · intro a ha b
    cases a <;> cases b <;> simp [Tag.same] <;> cases ha
  · intro bs
    cases bs <;> simp [sameAll]
  · intro a as ha ih bs
    cases bs <;> simp [sameAll, ha, ih]

instance : DecidableEq (Tag F) := fun a b => decidable_of_iff _ (same_iff.1 a b)

end Same

/-! ## Calls -/

/-- A call on `b` gives `tag`, and leaves `rest`. -/
def Reads (lib : FloatLib F) (b : Bytes) (tag : Option (Tag F)) (rest : Bytes) : Prop :=
  ∃ r, Returns lib b r ∧ r.tag = tag ∧ r.length ≤ r.buffer.length ∧ r.buffer.drop r.length = rest

def ReadsList (lib : FloatLib F) (b : Bytes) (tags : List (Tag F)) (rest : Bytes) : Prop :=
  ∃ r, ReturnsList lib b r ∧ r.tag = tags ∧ r.length ≤ r.buffer.length ∧
    r.buffer.drop r.length = rest

theorem drop_take_append {n k : Nat} (hn : n ≤ b.length) :
    (b.take n ++ b').drop (n + k) = b'.drop k := by
  have htake : (b.take n).length = n := length_take_of_le hn
  rw [← drop_drop, drop_left' htake]

theorem length_take_append {n k : Nat} (hn : n ≤ b.length) (hk : k ≤ b'.length) :
    n + k ≤ (b.take n ++ b').length := by
  rw [length_append, length_take_of_le hn]
  exact Nat.add_le_add_left hk n

section Rules

variable {lib : FloatLib F} {name : Bytes} {tag : Tag F} (ident : Nat)
  {make : List (Tag F) → Tag F} {tags : List (Tag F)}

theorem ReadsList.nil (h : Reads lib b none rest) : ReadsList lib b [] rest := by
  obtain ⟨r, hr, htag, hlength, hdrop⟩ := h
  exact ⟨_, returnsList_iff.mpr ⟨r, hr, .inl ⟨htag, rfl⟩⟩, rfl, hlength, hdrop⟩

theorem ReadsList.cons (h : Reads lib b (some tag) b')
    (htags : ReadsList lib b' tags rest) : ReadsList lib b (tag :: tags) rest := by
  obtain ⟨r, hr, htag, hlength, rfl⟩ := h
  obtain ⟨others, hothers, rfl, hlength', rfl⟩ := htags
  refine ⟨_, returnsList_iff.mpr ⟨r, hr, .inr ⟨tag, others, htag, hothers, rfl⟩⟩, rfl, ?_, ?_⟩
  · exact length_take_append hlength hlength'
  · exact drop_take_append hlength

section Tagged

variable {blank name left : Bytes} (hblank : Passed blank) (hname : Named name) {tag : Tag F}

theorem length_tag (blank : Bytes) (x : UInt8) (name : Bytes) (y : UInt8)
    (rest : Bytes) :
    blank.length + 1 + name.length + 1 ≤ (blank ++ x :: (name ++ y :: rest)).length := by
  simp only [length_append, length_cons]
  omega

include hblank hname

theorem Reads.nothing (h : element name = .plist ∨ element name = .unknown) (rest : Bytes) :
    Reads lib (blank ++ 60 :: (name ++ 62 :: rest)) none rest :=
  ⟨_, returns_iff.mpr ⟨_, getNextTag_tag hblank hname rest, .nothing h⟩, rfl, length_tag ..,
    drop_tag ..⟩

theorem Reads.behind (parsed : Parsed (Tag F))
    (h : ∀ t : NextTag, t.tag = name → t.buffer.drop t.length = rest → Outcome lib Fixes
      (ReturnsList lib) t (t.result parsed))
    (hlength : parsed.length ≤ parsed.buffer.length)
    (hdrop : parsed.buffer.drop parsed.length = left) :
    Reads lib (blank ++ 60 :: (name ++ 62 :: rest)) (some parsed.tag) left := by
  refine ⟨_, returns_iff.mpr ⟨_, getNextTag_tag hblank hname rest, h _ rfl (drop_tag ..)⟩, rfl,
    ?_, ?_⟩
  · exact length_take_append (length_tag ..) hlength
  · exact (drop_take_append (length_tag ..)).trans hdrop

theorem Reads.constant (h : (element name).constant = some tag) (rest : Bytes) :
    Reads lib (blank ++ 60 :: (name ++ 62 :: rest)) (some tag) rest := by
  apply Reads.behind hblank hname ⟨tag, 0, rest⟩ ?_ (Nat.zero_le _) rfl
  rintro t rfl rfl
  exact .constant h

theorem Reads.list (h : (element name).list = some make)
    (hlist : ReadsList lib rest tags left) :
    Reads lib (blank ++ 60 :: (name ++ 62 :: rest)) (some (make tags)) left := by
  obtain ⟨parsed, hparsed, rfl, hlength, hdrop⟩ := hlist
  apply Reads.behind hblank hname { parsed with tag := make parsed.tag } ?_ hlength hdrop
  rintro t rfl rfl
  exact .list h hparsed

theorem Reads.content {reader : Nat → Reader F} {endName : Bytes}
    (hreader : ∀ lenPtr, (element name).reader lib lenPtr = some (reader lenPtr))
    (hend : ∀ lenPtr, (reader lenPtr).name = endName) (hendName : Named endName) (hs : Passed s)
    (hread : ∀ lenPtr y size, s.length < size → (reader lenPtr).read (s ++ 0 :: y, size) =
      .ok ⟨tag, size, s ++ 0 :: y⟩) :
    Reads lib (blank ++ 60 :: (name ++ 62 :: (s ++ 60 :: 47 :: (endName ++ 62 :: rest))))
      (some tag) rest := by
  have hlt : s.length < s.length + endName.length + 3 := by omega
  apply Reads.behind hblank hname ⟨tag, s.length + endName.length + 3,
    s ++ 0 :: 47 :: (endName ++ 0 :: rest)⟩
  · rintro t rfl hrest
    refine .content (hreader t.length) ?_ (hread _ _ _ hlt)
    rw [hrest, hend]
    exact ⟨1, fixDataMatchingTag_content hs hendName 0 rest⟩
  · simp only [length_append, length_cons]
    omega
  · have h := drop_tag s 0 (47 :: endName) 0 rest
    rw [show s.length + endName.length + 3 = s.length + 1 + (endName.length + 1) + 1 by omega]
    exact h

end Tagged

/-! ## What is printed -/

theorem clean_spaces : Clean (spaces ident) := by
  intro c hc
  rw [eq_of_mem_replicate hc]
  decide

theorem Passed.append {s' : Bytes} (h : Passed s) (h' : Passed s') : Passed (s ++ s') :=
  ⟨fun hmem => (mem_append.mp hmem).elim h.1 h'.1,
    fun hmem => (mem_append.mp hmem).elim h.2 h'.2⟩

theorem Passed.getD_zero (h : Passed s) (rest : Bytes) : (s ++ 0 :: rest).getD 0 0 ≠ 60 := by
  cases s with
  | nil => exact (by decide : (0 : UInt8) ≠ 60)
  | cons c s => exact fun hc => h.2 (hc ▸ mem_cons_self)

/-- A line break behind the indented element `name` with the content `s`. -/
def enclosed (ident : Nat) (name s : Bytes) : Bytes :=
  spaces ident ++ 60 :: (name ++ 62 :: (s ++ 60 :: 47 :: (name ++ [62, 10])))

theorem enclosed_append (blank name s rest : Bytes) :
    blank ++ (enclosed ident name s ++ rest) =
      (blank ++ spaces ident) ++
        60 :: (name ++ 62 :: (s ++ 60 :: 47 :: (name ++ 62 :: 10 :: rest))) := by
  simp [enclosed]

section Sprintf

variable (lib) (ident : Nat)

theorem sprintf_list {name : Bytes} (h : ListTag make name)
    (content : List (Tag F)) : (make content).sprintf lib ident =
      enclosed ident name (10 :: (sprintfAll lib (ident + 8) content ++ spaces ident)) := by
  cases h with
  | dict | array =>
    rw [Tag.sprintf, enclosed]
    simp [lit]

theorem sprintf_key (s : Bytes) : (Tag.key s).sprintf lib ident = enclosed ident (lit "key") s := by
  rw [Tag.sprintf, enclosed]
  simp [lit]

theorem sprintf_string (s : Bytes) :
    (Tag.string s).sprintf lib ident = enclosed ident (lit "string") s := by
  rw [Tag.sprintf, enclosed]
  simp [lit]

theorem sprintf_int64 (value : BitVec 64) :
    (Tag.int64 value).sprintf lib ident = enclosed ident (lit "integer") (printInt64 value) := by
  rw [Tag.sprintf, enclosed]
  simp [lit]

/-- The content of printed data. -/
def dataText (ident : Nat) (data : Bytes) : Bytes :=
  10 :: ((if data = [] then [] else spaces ident ++ base64Encode data) ++ spaces ident)

theorem sprintf_data (data : Bytes) :
    (Tag.data data).sprintf lib ident = enclosed ident (lit "data") (dataText ident data) := by
  rw [Tag.sprintf, enclosed, dataText]
  simp [lit]

theorem sprintf_bool (value : Bool) : (Tag.bool value).sprintf lib ident =
    spaces ident ++ 60 :: ((if value then lit "true/" else lit "false/") ++ [62, 10]) := by
  rw [Tag.sprintf]
  cases value <;> simp [lit]

end Sprintf

/-! ## Reading it again -/

theorem length_le_utf8 (cs : List UInt32) : cs.length ≤ (utf8 cs).length := by
  induction cs with
  | nil => exact le_refl _
  | cons c cs ih =>
    have hc := length_pos_iff.mpr (utf8Bytes_ne_nil c)
    rw [utf8_cons, length_append, length_cons]
    omega

theorem strncpy_canonical (h : Canonical s) (rest : Bytes) :
    strncpy (s ++ 0 :: rest) s.length = s := by
  obtain ⟨cs, hcs, rfl⟩ := h
  exact strncpy_utf8 hcs (length_le_utf8 cs) rest

theorem Canonical.zero_notMem (h : Canonical s) : 0 ∉ s := by
  obtain ⟨cs, hcs, rfl⟩ := h
  exact zero_notMem_utf8 hcs

theorem skipped_spaces : Skipped (spaces ident) := by
  intro c hc
  rw [eq_of_mem_replicate hc]
  decide

theorem clean_dataText (data : Bytes) : Clean (dataText ident data) := by
  have hnewline : Clean [10] := by decide
  apply hnewline.append
  refine Clean.append ?_ (clean_spaces ident)
  split
  · exact nofun
  · exact (clean_spaces ident).append (clean_base64Encode data)

theorem base64DecodeClover_dataText (data : Bytes) :
    (base64DecodeClover (dataText ident data)).getD [] = data := by
  have hnewline : Skipped [10] := by
    intro c hc
    rw [mem_singleton.mp hc]
    decide
  rw [dataText]
  split
  · next hdata =>
    subst hdata
    exact base64DecodeClover_encode [] hnewline (skipped_spaces ident)
  · have h := base64DecodeClover_encode data (s := 10 :: spaces ident)
      (fun c hc => (mem_cons.mp hc).elim (fun h => hnewline c (h ▸ mem_cons_self))
        (skipped_spaces ident c)) (skipped_spaces ident)
    exact h

/-- A plain leaf is read back. -/
theorem reads_leaf (hleaf : tag.isList = false) (hplain : tag.Plain) (hwritten : tag.Written)
    {blank : Bytes} (hblank : Passed blank) (ident : Nat) (rest : Bytes) :
    Reads lib (blank ++ (tag.sprintf lib ident ++ rest)) (some tag)
      (10 :: rest) := by
  have hblank := hblank.append (clean_spaces ident).passed
  cases tag with
  | dict | array => cases hleaf
  | float | date => exact hplain.elim
  | key s =>
    have hzero := hwritten.zero_notMem
    rw [sprintf_key, enclosed_append]
    refine Reads.content hblank (by decide) (fun _ => rfl) (fun _ => rfl) (by decide)
      ⟨hzero, hplain⟩ fun _ y size _ => ?_
    dsimp only
    rw [cString_append hzero, strncpy_canonical hwritten]
  | string s =>
    have hzero := hwritten.zero_notMem
    rw [sprintf_string, enclosed_append]
    refine Reads.content hblank (by decide) (fun _ => rfl) (fun _ => rfl) (by decide)
      ⟨hzero, hplain.1⟩ fun _ y size _ => ?_
    dsimp only
    rw [cString_append hzero, xmlDecode_plain hplain.2, decoded, cString_append hzero,
      if_neg (lt_irrefl _), drop_left, strncpy_canonical hwritten]
  | int64 value =>
    rw [sprintf_int64, enclosed_append]
    refine Reads.content hblank (by decide) (fun _ => rfl) (fun _ => rfl) (by decide)
      (clean_printInt64 value).passed fun _ y size hsize => ?_
    dsimp only
    rw [if_neg, readInteger_printInt64 value hsize]
    · rfl
    · exact (clean_printInt64 value).passed.getD_zero y
  | data data =>
    rw [sprintf_data, enclosed_append]
    refine Reads.content hblank (by decide) (fun _ => rfl) (fun _ => rfl) (by decide)
      (clean_dataText ident data).passed fun _ y size _ => ?_
    dsimp only
    rw [cString_append (clean_dataText ident data).passed.1, base64DecodeClover_dataText]
  | bool value =>
    rw [sprintf_bool]
    cases value with
    | false =>
      have h := @Reads.constant F lib _ (lit "false/") hblank (by decide) _ rfl (10 :: rest)
      simpa using h
    | true =>
      have h := @Reads.constant F lib _ (lit "true/") hblank (by decide) _ rfl (10 :: rest)
      simpa using h

theorem reads_end {blank : Bytes} (hblank : Passed blank) (hname : Named name)
    (h : element (47 :: name) = .unknown) (rest : Bytes) :
    Reads lib (blank ++ 60 :: 47 :: (name ++ 62 :: rest)) none rest := by
  have hend : Named (47 :: name) := ⟨by simpa using hname.1, by simpa using hname.2⟩
  exact Reads.nothing hblank hend (.inr h) rest

/-- The name of a list is read as such, and its end tag as nothing. -/
theorem ListTag.named (h : ListTag make name) :
    Named name ∧ Clean name ∧ (element name).list = some make ∧
      element (47 :: name) = .unknown := by
  cases h with
  | dict | array => exact ⟨by decide, by decide, rfl, by decide⟩

theorem ListTag.leaves (h : ListTag make name)
    (content : List (Tag F)) : (make content).leaves = leavesAll content := by
  cases h with
  | dict | array => rfl

theorem Tag.leaves_of_isList (h : tag.isList = false) : tag.leaves = [tag] := by
  cases tag with
  | dict | array => cases h
  | _ => rfl

/-- A list is read as it was printed, up to an end tag. -/
def Rereads (lib : FloatLib F) (content : List (Tag F)) : Prop :=
  (∀ leaf ∈ leavesAll content, leaf.Plain ∧ leaf.Written) → ∀ {blank blank' : Bytes},
    Passed blank → Passed blank' → ∀ name, Named name → element (47 :: name) = .unknown →
    ∀ (ident : Nat) (rest : Bytes), ReadsList lib (blank ++ (sprintfAll lib ident content ++
      (blank' ++ 60 :: 47 :: (name ++ 62 :: rest)))) content rest

/-- A tag with plain leaves is read back. -/
theorem rereads (lib : FloatLib F) :
    (∀ tag : Tag F, (∀ leaf ∈ tag.leaves, leaf.Plain ∧ leaf.Written) → ∀ {blank : Bytes},
      Passed blank → ∀ (ident : Nat) (rest : Bytes),
      Reads lib (blank ++ (tag.sprintf lib ident ++ rest)) (some tag) (10 :: rest)) ∧
    ∀ content : List (Tag F), Rereads lib content := by
  have hnewline : Passed [10] := by decide
  apply Tag.induction
  · intro make name hmake content ih hleaves blank hblank ident rest
    obtain ⟨hname, -, hlist, hend⟩ := hmake.named
    rw [hmake.leaves] at hleaves
    rw [sprintf_list lib ident hmake, enclosed_append]
    apply Reads.list (hblank.append (clean_spaces ident).passed) hname hlist
    have h := ih hleaves hnewline (clean_spaces ident).passed name hname hend
        (ident + 8) (10 :: rest)
    simpa using h
  · intro tag htag hleaves blank hblank ident rest
    obtain ⟨hplain, hwritten⟩ := hleaves tag (by
      rw [Tag.leaves_of_isList htag]
      exact mem_singleton_self tag)
    exact reads_leaf htag hplain hwritten hblank ident rest
  · intro _ blank blank' hblank hblank' name hname hend ident rest
    rw [sprintfAll, nil_append, ← append_assoc]
    exact .nil (reads_end (hblank.append hblank') hname hend rest)
  · intro tag content htag ih hleaves blank blank' hblank hblank' name hname hend ident rest
    rw [sprintfAll, append_assoc]
    refine .cons (htag (fun leaf h => hleaves leaf (mem_append_left _ h)) hblank ident _) ?_
    exact ih (fun leaf h => hleaves leaf (mem_append_right _ h)) hnewline hblank' name hname
      hend ident rest

end Rules

end Clover.Plist
