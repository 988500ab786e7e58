import Clover.Xml.HexText
import Clover.Xml.Document
import Clover.Xml.Composites

/-!
# Values do not depend on what follows

The scalar types are given a pointer to the text of an element and its length, and some of them
read on behind it. An element without children ends its text with a `<`, or has no text at all
(`Closed`), and then what a type makes of the text does not depend on the rest of the buffer:
entities, keys, hex texts and the rest come out the same wherever the element stands.
-/

namespace Clover.Xml

open Clover.Lib Clover.Lib.Run Clover.Unicode XmlLiteParser List

variable {u v : Bytes}

/-- Where the text `v` of an element without children stands, `u` follows. -/
def Closed (v u : Bytes) : Prop := (∃ u', u = chLt :: u') ∨ v = []

theorem Element.closed {e : Element} (hv : e.simple = some v) (t : Bytes) :
    Closed v (e.close t) := by
  match e, hv with
  | .empty n, rfl => exact Or.inr rfl
  | .text n v, rfl => exact Or.inl ⟨_, rfl⟩
  | .node n (.nil w), rfl => exact Or.inl ⟨_, rfl⟩

/-! ## Entities -/

theorem chLt_trail : (chLt &&& 0xc0 = 0x80) = False := eq_false (by decide)

theorem getChar32FromUtf8String_before_chLt {x : Bytes} (hx : x ≠ []) :
    ∃ k c, ∀ u, getChar32FromUtf8String (x ++ chLt :: u) = (x.drop k ++ chLt :: u, c) := by
  -- a longer character needs trail bytes, and `<` is none
  rcases x with _ | ⟨b0, _ | ⟨b1, _ | ⟨b2, _ | ⟨b3, x⟩⟩⟩⟩
  · exact absurd rfl hx
  all_goals
    simp only [getChar32FromUtf8String, cons_append, nil_append, getD_cons_zero,
      getD_cons_succ, chLt_trail, ne_eq, not_false_eq_true, if_true, or_true]
    split_ifs
    all_goals first
      | exact ⟨0, _, fun _ => rfl⟩
      | exact ⟨1, _, fun _ => rfl⟩
      | exact ⟨2, _, fun _ => rfl⟩
      | exact ⟨3, _, fun _ => rfl⟩
      | exact ⟨4, _, fun _ => rfl⟩

theorem getChar32FromUtf8String_chLt (u : Bytes) :
    getChar32FromUtf8String (chLt :: u) = (u, 60) := by
  have hne : chLt ≠ 0 := by decide
  have hascii : chLt &&& 0x80 = 0 := by decide
  simp only [getChar32FromUtf8String, getD_cons_zero, hne, hascii, ne_eq, not_true_eq_false,
    if_false, drop_succ_cons, drop_zero]
  rfl

theorem startsWithName_chLt {name : Bytes} (hname : chLt ∉ name) :
    ∀ x u : Bytes,
      startsWithName name (x ++ chLt :: u) = startsWithName name (x ++ [chLt]) := by
  induction name with
  | nil =>
    intro x u
    rfl
  | cons c name ih =>
    intro x u
    have hrest := ih fun h => hname (mem_cons_of_mem _ h)
    unfold startsWithName
    by_cases hx : x = []
    · have hc : (60 : UInt32) ≠ c.toUInt32 := by
        intro h
        have hlt : chLt = c := UInt8.toUInt32_inj.mp h
        exact hname (hlt ▸ mem_cons_self)
      rw [hx, nil_append, nil_append]
      simp [getChar32FromUtf8String_chLt, hc]
    · obtain ⟨k, d, hk⟩ := getChar32FromUtf8String_before_chLt hx
      simp [hk, hrest]

theorem getD_append_chLt (v u : Bytes) {i : Nat} (hi : i ≤ v.length) :
    (v ++ chLt :: u).getD i 0 = (v ++ [chLt]).getD i 0 := by
  rcases lt_or_eq_of_le hi with h | rfl
  · rw [getD_append _ _ _ _ h, getD_append _ _ _ _ h]
  · rw [getD_append_right _ _ _ _ (le_refl _),
      getD_append_right _ _ _ _ (Nat.le_refl _), Nat.sub_self]
    rfl

theorem xmlDecodeFrom_chLt (v u : Bytes) (outlen m : Nat) :
    ∀ (i : Nat) (out : Bytes),
      xmlDecodeFrom (v ++ chLt :: u) v.length outlen m i out =
        xmlDecodeFrom (v ++ [chLt]) v.length outlen m i out := by
  induction m with
  | zero =>
    intro i out
    rfl
  | succ m ih =>
    intro i out
    unfold xmlDecodeFrom
    by_cases hi : i < v.length
    · have hfind : (ents.find? fun e => startsWithName e.1 ((v ++ chLt :: u).drop (i + 1))) =
          ents.find? fun e => startsWithName e.1 ((v ++ [chLt]).drop (i + 1)) := by
        refine find?_congr fun e he => ?_
        rw [drop_append_of_le_length hi, drop_append_of_le_length hi]
        have hnames : ∀ e ∈ ents, chLt ∉ e.1 := by decide
        exact startsWithName_chLt (hnames e he) _ _
      simp only [hi, if_true, getD_append_chLt v u (le_of_lt hi), hfind, getD_append_chLt v u hi,
        ih]
    · rw [if_neg hi, if_neg hi]

theorem xmlDecode_closed (h : Closed v u) (outlen : Nat) :
    xmlDecode (v ++ u) v.length outlen = xmlDecode (v ++ [chLt]) v.length outlen := by
  rcases h with ⟨u', rfl⟩ | rfl
  · exact xmlDecodeFrom_chLt v u' outlen _ _ _
  · rfl

/-! ## Keys -/

theorem utf8CopySize_take (s : Bytes) {size : Nat} (hsize : 0 < size) :
    utf8CopySize (s.take size) size = utf8CopySize s size := by
  have hgetD : ∀ i, i < size → (s.take size).getD i 0 = s.getD i 0 := by
    intro i hi
    rw [getD_eq_getElem?_getD, getD_eq_getElem?_getD, getElem?_take_of_lt hi]
  have hfirst : ∀ k, size - 1 - k < size := by
    intro k
    omega
  unfold utf8CopySize
  simp only [take_take, min_self, hgetD _ (hfirst _), hgetD _ (Nat.sub_one_lt_of_lt hsize)]

theorem utf8CopySize_le (s : Bytes) {size : Nat} (hsize : 0 < size) :
    utf8CopySize s size ≤ size := by
  unfold utf8CopySize
  dsimp only
  split_ifs <;> omega

theorem min_takeWhile_append (v u : Bytes) :
    min (((v ++ u).takeWhile (· ≠ 0)).length) v.length = (v.takeWhile (· ≠ 0)).length := by
  rw [takeWhile_append]
  split
  · next hall =>
    rw [length_append, hall]
    omega
  · exact min_eq_left (takeWhile_sublist _).length_le

theorem strsicpy_append (v u : Bytes) : strsicpy (v ++ u) v.length = strsicpy v v.length := by
  have hmin := min_takeWhile_append v u
  have hmin' : min ((v.takeWhile (· ≠ 0)).length) v.length = (v.takeWhile (· ≠ 0)).length :=
    min_eq_left (takeWhile_sublist _).length_le
  unfold strsicpy
  simp only [hmin, hmin']
  by_cases hempty : (v.takeWhile (· ≠ 0)).length = 0 ∨ v.length = 0
  · have hempty' : ((v ++ u).takeWhile (· ≠ 0)).length = 0 ∨ v.length = 0 := by omega
    rw [if_pos hempty, if_pos hempty']
  · have hempty' : ¬ (((v ++ u).takeWhile (· ≠ 0)).length = 0 ∨ v.length = 0) := by omega
    rw [if_neg hempty, if_neg hempty']
    have hpos : 0 < (v.takeWhile (· ≠ 0)).length := by omega
    have hle : (v.takeWhile (· ≠ 0)).length ≤ v.length := (takeWhile_sublist _).length_le
    have hsize : utf8CopySize (v ++ u) (v.takeWhile (· ≠ 0)).length =
        utf8CopySize v (v.takeWhile (· ≠ 0)).length := by
      rw [← utf8CopySize_take (v ++ u) hpos, take_append_of_le_length hle,
        utf8CopySize_take v hpos]
    rw [hsize, take_append_of_le_length (le_trans (utf8CopySize_le v hpos) hle)]

theorem setKeyValue_append (disablable : Bool) (v u : Bytes) :
    setKeyValue disablable (v ++ u) v.length = setKeyValue disablable v v.length := by
  unfold setKeyValue
  rw [strsicpy_append v u]
  cases v with
  | nil => rw [if_neg (fun h => absurd h.2.1 (by decide)),
    if_neg (fun h => absurd h.2.1 (by decide))]
  | cons c v =>
    have htail := strsicpy_append v u
    simp [htail]

/-! ## Hex texts -/

theorem hex2binFrom_append (hv : ∀ c ∈ v, isHexDigit c = true) (u : Bytes) (outlen m : Nat) :
    ∀ (i : Nat) (out : Bytes),
      hex2binFrom (v ++ u) v.length outlen m i out = hex2binFrom v v.length outlen m i out := by
  induction m with
  | zero =>
    intro i out
    rfl
  | succ m ih =>
    intro i out
    unfold hex2binFrom
    by_cases hi : i < v.length
    · -- a hex digit is no separator, so nothing is skipped
      have hskip : ∀ u, ((v ++ u).drop i).takeWhile isHexSeparator = [] := by
        intro u
        rw [drop_append_of_le_length (Nat.le_of_lt hi), drop_eq_getElem_cons hi,
          cons_append]
        refine takeWhile_cons_of_neg ?_
        have hdigit := hv _ (getElem_mem hi)
        exact fun hsep => isHexSeparator_ne_digit hsep hdigit
      have hskip' : (v.drop i).takeWhile isHexSeparator = [] := by
        have hnil := hskip []
        rwa [append_nil] at hnil
      have hgetD : ∀ j, j < v.length → (v ++ u).getD j 0 = v.getD j 0 :=
        fun j hj => getD_append _ _ _ _ hj
      simp only [hi, if_true, hskip, hskip', length_nil, Nat.add_zero, hgetD i hi, ih]
      by_cases hlast : i + 1 = v.length
      · simp [hlast]
      · rw [hgetD (i + 1) (by omega)]
    · rw [if_neg hi, if_neg hi]

/-! ## Messages -/

/-- What changes besides the cursor from `a` to `a'`: nothing, unless it is `loud`, and then there
are messages. The buffer stays the same. -/
structure Noted (loud : Bool) (a a' : XmlLiteParser) : Prop where
  buf : a'.buf = a.buf
  quiet : loud = false → a' = a
  messages : loud = true → a'.xmlParserMessageArray ≠ []

theorem Noted.refl (a : XmlLiteParser) : Noted false a a :=
  ⟨rfl, fun _ => rfl, nofun⟩

theorem Noted.trans {l l' : Bool} {a a' a'' : XmlLiteParser} (h : Noted l a a')
    (h' : Noted l' a' a'') : Noted (l || l') a a'' := by
  refine ⟨h'.buf.trans h.buf, fun hl => ?_, fun hl => ?_⟩
  · rw [Bool.or_eq_false_iff] at hl
    rw [h'.quiet hl.2, h.quiet hl.1]
  · cases l' with
    | true => exact h'.messages rfl
    | false =>
      rw [Bool.or_false] at hl
      rw [h'.quiet rfl]
      exact h.messages hl

section Notes

variable (a : XmlLiteParser) (g : Bool) (format : String) (args : List MsgArg)

theorem noted_addWarning : Noted g a (a.addWarning g format args) :=
  ⟨addWarning_buf .., fun hg => by rw [hg]; rfl, addWarning_ne_nil⟩

theorem noted_addError : Noted g a (a.addError g format args) :=
  ⟨addError_buf .., fun hg => by rw [hg]; rfl, addError_ne_nil⟩

theorem noted_addXmlError : Noted g a (a.addXmlError g format args) :=
  ⟨addXmlError_buf .., fun hg => by rw [hg]; rfl, fun hg => (reported_addXmlError hg).1⟩

end Notes

/-! ## Scalar types -/

/-- Wherever the tag `n` and the text `v` stand, `o` is stored for them, and there are messages
if it is `loud` and they are asked for. -/
def MadeOf {α : Type} (content : XmlLiteParser → Bytes → XmlParserPosition → Slice → Slice →
    Bool → Option α × XmlLiteParser) (n v : Bytes) (o : Option α) (loud : Bool) : Prop :=
  ∀ (a : XmlLiteParser) (g : Bool) (t x u xmlPath : Bytes) (pos : XmlParserPosition),
    n ++ x <:+ a.buf → v ++ u <:+ a.buf → Closed v u →
    ∃ a', Noted (loud && g) a a' ∧
      content (a.before t) xmlPath pos (a.sliceOf n x) (a.sliceOf v u) g = (o, a'.before t)

/-- The same is made of a tag and a text wherever they stand. -/
def Steady {α : Type} (content : XmlLiteParser → Bytes → XmlParserPosition → Slice → Slice →
    Bool → Option α × XmlLiteParser) : Prop :=
  ∀ n v : Bytes, ∃ o loud, MadeOf content n v o loud

theorem memory_sliceOf {a : XmlLiteParser} (h : v ++ u <:+ a.buf) (t : Bytes) :
    (a.before t).memory (a.sliceOf v u).start = v ++ (u ++ [0]) := by
  show (a.buf ++ [0]).drop (a.size - (v ++ u).length) = v ++ (u ++ [0])
  have hle : a.size - (v ++ u).length ≤ a.buf.length := Nat.sub_le _ _
  rw [drop_append_of_le_length hle, drop_before h, append_assoc]

theorem Closed.append (h : Closed v u) (x : Bytes) : Closed v (u ++ x) := by
  rcases h with ⟨u', rfl⟩ | rfl
  · exact Or.inl ⟨_, rfl⟩
  · exact Or.inr rfl

theorem steady_tagContent {α : Type} (name : Bytes) (format : String)
    {read : Bytes → Nat → Stored α}
    (hread : ∀ v u, Closed v u → read (v ++ u) v.length = read (v ++ [chLt]) v.length) :
    Steady (tagContent name format read) := by
  intro n v
  by_cases hname : n = name
  · refine ⟨some (read (v ++ [chLt]) v.length), false, fun a g t x u xmlPath pos hn hv hu => ?_⟩
    have htag : strnIsEqual (a.before t) (a.sliceOf n x) name = true :=
      (strnIsEqual_sliceOf hn name).trans (decide_eq_true hname)
    refine ⟨a, Noted.refl a, ?_⟩
    unfold tagContent
    rw [if_pos htag, memory_sliceOf hv]
    have hown := hread v (u ++ [0]) (hu.append [0])
    exact congrArg (fun r => (some r, a.before t)) hown
  · refine ⟨none, true, fun a g t x u xmlPath pos hn hv hu => ?_⟩
    have htag : strnIsEqual (a.before t) (a.sliceOf n x) name = false :=
      (strnIsEqual_sliceOf hn name).trans (decide_eq_false hname)
    refine ⟨_, noted_addXmlError a (true && g) format [.str xmlPath, .int pos.line], ?_⟩
    unfold tagContent
    rw [htag, if_neg Bool.false_ne_true, before_addXmlError, Bool.true_and]

/-- What a boolean type makes of a tag and a text: the value, and whether there is a message. -/
def boolText (mode : BoolString) (n v : Bytes) : Option Bool × Bool :=
  if n.map toLower = (lit "true").map toLower then
    if v.length = 0 then (some true, false) else (none, true)
  else if n.map toLower = (lit "false").map toLower then
    if v.length = 0 then (some false, false) else (none, true)
  else if mode ≠ .refuse ∧ n = lit "string" then
    match boolWords.find? fun w => decide (v.map toLower = w.1.map toLower) with
    | some w => (some w.2.1, decide (mode = .warn))
    | none => (none, true)
  else (none, true)

section Content

variable {a : XmlLiteParser} {n v x u : Bytes} (t xmlPath : Bytes)
  (pos : XmlParserPosition) (g : Bool)

theorem boolContent_eq (mode : BoolString) (hn : n ++ x <:+ a.buf) (hv : v ++ u <:+ a.buf) :
    ∃ a', Noted ((boolText mode n v).2 && g) a a' ∧
      boolContent mode (a.before t) xmlPath pos (a.sliceOf n x) (a.sliceOf v u) g =
        ((boolText mode n v).1.map Stored.accept, a'.before t) := by
  have htag : ∀ y, strnIsEqualIC (a.before t) (a.sliceOf n x) y =
      decide (n.map toLower = y.map toLower) := fun y => strnIsEqualIC_sliceOf hn y
  have hstring : strnIsEqual (a.before t) (a.sliceOf n x) (lit "string") =
      decide (n = lit "string") := strnIsEqual_sliceOf hn _
  have hwords : (boolWords.find? fun w => strnIsEqualIC (a.before t) (a.sliceOf v u) w.1) =
      boolWords.find? fun w => decide (v.map toLower = w.1.map toLower) :=
    find?_congr fun w _ => strnIsEqualIC_sliceOf hv w.1
  have hlength : (a.sliceOf v u).length = v.length := rfl
  -- a refusal, perhaps behind another error
  have hrefuse : ∀ a' : XmlLiteParser, a'.buf = a.buf → (g = false → a' = a) →
      Noted (true && g) a (a'.addError g mode.format [.str xmlPath, .int pos.line]) := by
    intro a' hbuf hquiet
    have h := noted_addError a' g mode.format [.str xmlPath, .int pos.line]
    exact ⟨h.buf.trans hbuf, fun hg => (h.quiet hg).trans (hquiet hg), h.messages⟩
  unfold boolContent boolText
  simp only [htag, hstring, hwords, hlength, decide_eq_true_eq, before_addError, before_addWarning]
  split
  · split
    · exact ⟨a, Noted.refl a, rfl⟩
    · exact ⟨_, hrefuse _ (addError_buf ..) (noted_addError a g _ _).quiet, rfl⟩
  split
  · split
    · exact ⟨a, Noted.refl a, rfl⟩
    · exact ⟨_, hrefuse _ (addError_buf ..) (noted_addError a g _ _).quiet, rfl⟩
  split
  · cases boolWords.find? fun w => decide (v.map toLower = w.1.map toLower) with
    | some w =>
      refine ⟨_, noted_addWarning a (decide (mode = .warn) && g) w.2.2
        [.str xmlPath, .int pos.line], ?_⟩
      rw [Bool.and_comm]
      rfl
    | none => exact ⟨_, hrefuse a rfl fun _ => rfl, rfl⟩
  · exact ⟨_, hrefuse a rfl fun _ => rfl, rfl⟩

/-- What an integer type with some bounds makes of a tag and a text. -/
def integerValue (minimum : Int) (maximum : Nat) (n v : Bytes) : Option (Nat × Bool) × Bool :=
  if n = lit "integer" ∨ n = lit "string" then
    match integerText minimum maximum v with
    | .error _ => (none, true)
    | .ok (result, negative) =>
      if negative ∧ result = 0 then (some (result, false), true)
        else (some (result, negative), false)
  else if n = lit "data" then
    match base64DecodeClover v with
    | some decoded => (some (littleEndian decoded, false), true)
    | none => (some (0, false), true)
  else (none, true)

theorem integerContent_eq (minimum : Int) (maximum : Nat) (hn : n ++ x <:+ a.buf)
    (hv : v ++ u <:+ a.buf) :
    ∃ a', Noted ((integerValue minimum maximum n v).2 && g) a a' ∧
      integerContent minimum maximum (a.before t) xmlPath pos (a.sliceOf n x) (a.sliceOf v u) g =
        ((integerValue minimum maximum n v).1, a'.before t) := by
  have htag : ∀ y, strnIsEqual (a.before t) (a.sliceOf n x) y = decide (n = y) :=
    fun y => strnIsEqual_sliceOf hn y
  have hbytes : ∀ b : XmlLiteParser, b.buf = a.buf → b.bytes (a.sliceOf v u) = v := by
    intro b hb
    have hv' := bytes_sliceOf hv
    unfold bytes at hv' ⊢
    rw [hb]
    exact hv'
  have hwarn : ∀ format args, Noted (true && g) a (a.addWarning g format args) := by
    intro format args
    exact noted_addWarning a g format args
  have herror : ∀ format args, Noted (true && g) a (a.addError g format args) := by
    intro format args
    exact noted_addError a g format args
  unfold integerContent integerValue
  simp only [htag, hbytes _ (before_buf a t), before_addError, before_addWarning, Bool.or_eq_true,
    decide_eq_true_eq, hbytes _ ((before_buf _ t).trans (addWarning_buf a g _ _))]
  split
  · cases integerText minimum maximum v with
    | error e => cases e <;> exact ⟨_, herror _ _, rfl⟩
    | ok r =>
      dsimp only
      split
      · exact ⟨_, hwarn _ _, rfl⟩
      · exact ⟨a, Noted.refl a, rfl⟩
  split
  · cases base64DecodeClover v with
    | some decoded => exact ⟨_, hwarn _ _, rfl⟩
    | none =>
      have htwice : ∀ format format' args,
          Noted (true && g) a ((a.addWarning g format args).addWarning g format' args) := by
        intro format format' args
        have h := (noted_addWarning a g format args).trans (noted_addWarning _ g format' args)
        rwa [Bool.or_self, ← Bool.true_and g] at h
      exact ⟨_, htwice _ _ _, rfl⟩
  · exact ⟨_, herror _ _, rfl⟩

end Content

theorem madeOf_boolContent (mode : BoolString) (n v : Bytes) :
    MadeOf (boolContent mode) n v ((boolText mode n v).1.map Stored.accept)
      (boolText mode n v).2 :=
  fun _ g t _ _ xmlPath pos hn hv _ => boolContent_eq t xmlPath pos g mode hn hv

theorem steady_boolContent (mode : BoolString) : Steady (boolContent mode) :=
  fun n v => ⟨_, _, madeOf_boolContent mode n v⟩

theorem madeOf_xmlInteger (i : IntegerType) (n v : Bytes) :
    MadeOf (xmlInteger i).content n v
      ((integerValue i.minimum i.maximum n v).1.map fun r => i.store r.1 r.2)
      (integerValue i.minimum i.maximum n v).2 := by
  intro a g t x u xmlPath pos hn hv _
  obtain ⟨a', hnoted, hrun⟩ :=
    integerContent_eq t xmlPath pos g i.minimum i.maximum hn hv
  refine ⟨a', hnoted, ?_⟩
  unfold xmlInteger
  dsimp only
  rw [hrun]
  cases (integerValue i.minimum i.maximum n v).1 with
  | none => rfl
  | some r => rfl

theorem steady_dataContent : Steady dataContent := by
  intro n v
  have htag : ∀ {a : XmlLiteParser} {x : Bytes} (t y : Bytes), n ++ x <:+ a.buf →
      strnIsEqual (a.before t) (a.sliceOf n x) y = decide (n = y) :=
    fun t y hn => strnIsEqual_sliceOf hn y
  have hrefused : ∀ (a : XmlLiteParser) (g : Bool) (t : Bytes) (format : String)
      (args : List MsgArg), ∃ a', Noted (true && g) a a' ∧
        ((none, (a.before t).addError g format args) :
          Option (Stored Bytes) × XmlLiteParser) = (none, a'.before t) := by
    intro a g t format args
    refine ⟨_, ?_, congrArg (Prod.mk none) (before_addError ..)⟩
    exact noted_addError a g format args
  by_cases hstring : n = lit "string"
  · by_cases hdigits : v.any fun c => !isHex c && !isDigit c
    · refine ⟨none, true, fun a g t x u xmlPath pos hn hv _ => ?_⟩
      unfold dataContent
      rw [htag t _ hn, if_pos (decide_eq_true hstring), before_bytes, bytes_sliceOf hv,
        if_pos hdigits]
      exact hrefused a g t _ _
    · refine ⟨some (.accept (hex2bin v v.length (v.length / 2))), false,
        fun a g t x u xmlPath pos hn hv _ => ⟨a, Noted.refl a, ?_⟩⟩
      have hall : ∀ c ∈ v, isHexDigit c = true := by
        intro c hc
        by_contra hdigit
        refine hdigits (any_eq_true.mpr ⟨c, hc, ?_⟩)
        unfold isHexDigit at hdigit
        rw [Bool.not_eq_true, Bool.or_eq_false_iff] at hdigit
        rw [hdigit.1, hdigit.2]
        rfl
      unfold dataContent
      rw [htag t _ hn, if_pos (decide_eq_true hstring), before_bytes, bytes_sliceOf hv,
        if_neg hdigits, memory_sliceOf hv]
      have hlength : (a.sliceOf v u).length = v.length := rfl
      rw [hlength, hex2bin, hex2binFrom_append hall]
      rfl
  · by_cases hdata : n = lit "data"
    · refine ⟨some (.accept ((base64DecodeClover v).getD [])), false,
        fun a g t x u xmlPath pos hn hv _ => ⟨a, Noted.refl a, ?_⟩⟩
      unfold dataContent
      rw [htag t _ hn, decide_eq_false hstring, if_neg Bool.false_ne_true, htag t _ hn,
        if_pos (decide_eq_true hdata), before_bytes, bytes_sliceOf hv]
    · refine ⟨none, true, fun a g t x u xmlPath pos hn hv _ => ?_⟩
      unfold dataContent
      rw [htag t _ hn, decide_eq_false hstring, if_neg Bool.false_ne_true, htag t _ hn,
        decide_eq_false hdata, if_neg Bool.false_ne_true]
      exact hrefused a g t _ _

/-- Every scalar class makes the same of an element wherever it stands. -/
theorem ScalarClass.steady (c : ScalarClass) : Steady c.type.content := by
  have hdecode : ∀ v u : Bytes, Closed v u →
      xmlDecode (v ++ u) v.length (v.length + 1) =
        xmlDecode (v ++ [chLt]) v.length (v.length + 1) := fun v u h => xmlDecode_closed h _
  cases c with
  | strictBool => exact steady_boolContent _
  | bool => exact steady_boolContent _
  | boolYesNo => exact steady_boolContent _
  | string8 canBeEmpty trimmed =>
    simp only [ScalarClass.type, xmlString8]
    refine steady_tagContent _ _ fun v u h => ?_
    simp [hdecode v u h]
  | stringW canBeEmpty =>
    simp only [ScalarClass.type, xmlStringW]
    refine steady_tagContent _ _ fun v u h => ?_
    simp [hdecode v u h]
  | key disablable =>
    simp only [ScalarClass.type, xmlKey]
    refine steady_tagContent _ _ fun v u _ => ?_
    rw [setKeyValue_append, setKeyValue_append]
  | data => exact steady_dataContent
  | integer i => exact fun n v => ⟨_, _, madeOf_xmlInteger i n v⟩

end Clover.Xml
