import Clover.Xml.Schemas

/-!
# Unknown keys

An entry whose key names no field is put into a dictionary that is read without messages. The
reader skips it, with a warning at most: it returns the same, leaves every field in the same state
and sets no latch. This fails for the keys that start with `/>`. Behind `<key>` these two characters
are taken for the end of an empty tag, whose name would be `key>`, and an error is reported.
-/

namespace Clover.Xml

open Clover.Lib Clover.Lib.Run XmlLiteParser List

variable {u k : Bytes} {post : Children} {v : Element} {b : Bool}

/-! ## Entries as text -/

/-- The text of an entry, with `u` behind it. -/
def Entry.write (x : Entry) (u : Bytes) : Bytes :=
  x.gap.val ++ x.key.write (x.between.val ++ x.value.write u)

/-- The text of some entries, with `u` behind them. -/
def writeEntries (xs : List Entry) (u : Bytes) : Bytes := xs.foldr Entry.write u

/-- The children of a dictionary that starts with some entries. -/
def Children.prepend (xs : List Entry) (cs : Children) : Children :=
  xs.foldr (fun x cs => .cons x.gap x.key (.cons x.between x.value cs)) cs

theorem Children.write_prepend (xs : List Entry) (cs : Children) (t : Bytes) :
    (Children.prepend xs cs).write t = writeEntries xs (cs.write t) := by
  induction xs with
  | nil => rfl
  | cons x xs ih =>
    show (Children.cons x.gap x.key (.cons x.between x.value (prepend xs cs))).write t = _
    rw [Children.write, Children.write, ih]
    rfl

/-- The dictionary with the text `u` inside. -/
def dictText (u : Bytes) : Bytes := chLt :: (dictTag.val ++ chGt :: u)

/-- The name of the tag of a key. -/
def keyTag : TagName := ⟨lit "key", by decide⟩

/-- The text of the key `k`, with `u` behind it. -/
def keyText (k u : Bytes) : Bytes :=
  chLt :: (keyTag.val ++ chGt :: (k ++ closing keyTag u))

/-- The dictionary with the entries `pre` and the children `post` behind them. -/
def dictOf (pre : List Entry) (post : Children) : Bytes :=
  dictText (writeEntries pre (post.write (closing dictTag [])))

/-- The dictionary with the key `k` and the value `v` put before the first of the children
`post`, or before the closing tag. -/
def dictWith (pre : List Entry) (k : Bytes) (v : Element) (post : Children) : Bytes :=
  dictText (writeEntries pre
    (post.gap.val ++ keyText k (v.write (post.core (closing dictTag [])))))

/-- A new parser with a text to read. -/
def fresh (text : Bytes) : XmlLiteParser := ⟨text, ⟨0, 1, 1⟩, [], false⟩

theorem fresh_before (text : Bytes) : (fresh text).before text = fresh text := by
  unfold before
  have hzero : (fresh text).size - text.length = 0 := Nat.sub_self _
  rw [hzero]
  rfl

/-! ## Entries that are read without messages -/

namespace XmlDict

variable {fields : Fields} {fuel : Nat} {a : XmlLiteParser} {st st' : DictState fields}
  {h : ∀ i, (fields.class i).Contract} {takes : Fin fields.length → Element → Bool} {x : Entry}
  (xmlPath : Bytes) {st1 : DictState fields} {pre : List Entry} {w : Blank}

theorem follows_entries (hu : Follows u) (xs : List Entry) : Follows (writeEntries xs u) := by
  cases xs with
  | nil => exact hu
  | cons x xs =>
    show Follows (x.gap.val ++ x.key.write _)
    unfold Follows
    rw [dropBlank_write, x.key.write_eq]
    exact Or.inr rfl

/-- From the entries the loop comes to what stands behind them, without messages. -/
def TakesAll (xs : List Entry) (st st' : DictState fields) : Prop :=
  ∀ (fuel : Nat) (a : XmlLiteParser) (w : Blank) (u v xmlPath : Bytes),
    writeEntries xs u = w.val ++ v → Scene false fuel a v → Follows u →
    ∃ (w' : Blank) (u' : Bytes), u = w'.val ++ u' ∧ u' <:+ a.buf ∧
      Leads (pass fuel xmlPath true) v.length (st, a.before v) u'.length (st', a.before u')

theorem TakesAll.nil (st : DictState fields) : TakesAll [] st st :=
  fun _ _ w _ v _ hwrite hscene _ => ⟨w, v, hwrite, hscene.suffix, Leads.refl _ _ _⟩

theorem TakesAll.cons {xs : List Entry} {st'' : DictState fields} (hx : Takes x st st')
    (hxs : TakesAll xs st' st'') : TakesAll (x :: xs) st st'' := by
  intro fuel a w u v xmlPath hwrite hscene hfollows
  have hfirst : x.gap.val ++
      x.key.write (x.between.val ++ x.value.write (writeEntries xs u)) = w.val ++ v := hwrite
  obtain ⟨r, hr⟩ : ∃ r, x.key.write (x.between.val ++ x.value.write (writeEntries xs u)) =
      chLt :: r := ⟨_, x.key.write_eq _⟩
  rw [hr] at hfirst
  obtain ⟨w1, rfl⟩ := exists_blank hfirst
  rw [← hr] at hscene ⊢
  obtain ⟨w', u', hu', hrun⟩ := hx fuel a w1 _ xmlPath hscene (follows_entries hfollows xs)
  have hbehind : u' <:+ x.between.val ++ x.value.write (writeEntries xs u) := by
    have hown : u' <:+ writeEntries xs u := by
      rw [hu']
      exact suffix_append _ _
    exact x.value.suffix_of_behind hown suffix_rfl
  have hscene' : Scene false fuel a u' := hscene.mono (x.key.suffix_of_behind hbehind suffix_rfl)
  obtain ⟨w'', u'', hu'', hsuffix, hleads⟩ := hxs fuel a w' u u' xmlPath hu' hscene' hfollows
  exact ⟨w'', u'', hu'', hsuffix,
    (leads_again hrun (x.key.length_lt_of_suffix w1 hbehind)).trans hleads⟩

theorem entries_cases (o : ∀ i, (fields.class i).Outcomes (h i) (takes i))
    (xs : List Entry) :
    ∀ {st : DictState fields}, Inv h st →
      (∃ st', Inv h st' ∧ TakesAll xs st st') ∨
        ∀ cs, (childLoop h).Drops st (Children.prepend xs cs) := by
  induction xs with
  | nil => exact fun {st} hst => Or.inl ⟨st, hst, TakesAll.nil st⟩
  | cons x xs ih =>
    intro st hst
    rcases entry_cases o hst x with ⟨st1, hst1, hx⟩ | hdrops
    · rcases ih hst1 with ⟨st2, hst2, hxs⟩ | hdrops
      · exact Or.inl ⟨st2, hst2, TakesAll.cons hx hxs⟩
      · exact Or.inr fun cs => (hx.steps h _).drops_trans (hdrops cs)
    · exact Or.inr fun cs => hdrops _

/-! ## Whole dictionaries -/

/-- The rest of a dictionary, from where the opening tag has been read. -/
def parseInside (fuel : Nat) (st : DictState fields) (s : XmlLiteParser) (xmlPath : Bytes) :
    Run (Bool × DictState fields × XmlLiteParser) := do
  let (b, st, s) ← Run.loop (pass fuel xmlPath true) fuel ({ st with isDefined := true }, s)
  if !b then .ok (false, st, s)
  else do
    let (b, s) ← consumeClosingTag fuel s (lit "dict") true
    .ok (b, st, s)

theorem suffix_dictText (u : Bytes) : u <:+ dictText u :=
  ((suffix_cons _ _).trans (suffix_append _ _)).trans (suffix_cons _ _)

theorem parse_dictText (hst : st.isDefined = false) (hsuffix : dictText u <:+ a.buf)
    (hfuel : a.size < fuel) :
    parseFromXmlLite fuel st (a.before (dictText u)) xmlPath true =
      parseInside fuel st (a.before u) xmlPath := by
  have hname : dictTag.val ++ chGt :: u <:+ a.buf := (suffix_cons _ _).trans hsuffix
  have hopen : getNextTag fuel (a.before (dictText u)) true =
      .ok (some ⟨a.sliceOf dictTag.val (chGt :: u), true⟩, a.before u) :=
    getNextTag_open (w := []) hsuffix (forall_mem_nil _) dictTag.property.1
      dictTag.property.2 hfuel
  have heq : strnIsEqual (a.before u) (a.sliceOf dictTag.val (chGt :: u)) (lit "dict") = true :=
    (strnIsEqual_sliceOf hname _).trans rfl
  have hconsume : consumeOpeningTag fuel (a.before (dictText u)) (lit "dict") true =
      .ok (true, a.before u) := by
    unfold consumeOpeningTag
    simp [hopen, heq]
  unfold parseFromXmlLite parseInside
  simp [hst, hconsume]

theorem parseInside_of_leads {a' : XmlLiteParser} (hbuf : a'.buf = a.buf)
    (hu : u <:+ a.buf) (hfuel : a.size < fuel) (hsuffix : w.val ++ closing dictTag [] <:+ a.buf)
    (h : ∀ i, (fields.class i).Contract)
    (hleads : Leads (pass fuel xmlPath true) u.length ({ st with isDefined := true }, a.before u)
      (w.val ++ closing dictTag []).length (st', a'.before (w.val ++ closing dictTag []))) :
    parseInside fuel st (a.before u) xmlPath = .ok (true, st', a'.before []) := by
  obtain ⟨k, hk, hloop⟩ := hleads fuel (lt_of_le_of_lt hu.length_le hfuel)
  have hfuel' : a'.size < fuel := by
    show a'.buf.length < fuel
    rw [hbuf]
    exact hfuel
  have hclosing : w.val ++ closing dictTag [] <:+ a'.buf := hbuf ▸ hsuffix
  have hleave := (childLoop h).leaves_closing fuel xmlPath st' a' w [] hfuel' hclosing
  have hrun := hloop.trans (loop_leave hleave (Nat.lt_of_le_of_lt (Nat.zero_le _) hk))
  have hclose : consumeClosingTag fuel (a'.before (w.val ++ closing dictTag [])) (lit "dict") true =
      .ok (true, a'.before []) := consumeClosingTag_closing rfl hclosing hfuel'
  unfold parseInside
  simp only [hrun, ok_bind, Bool.not_true, Bool.false_eq_true, if_false]
  show (do
    let (b, s) ← consumeClosingTag fuel (a'.before (w.val ++ closing dictTag [])) (lit "dict") true
    .ok (b, st', s)) = _
  rw [hclose]
  rfl

/-- What a later parser keeps of an earlier one holds at the end, if it holds once the loop has
made some passes. -/
theorem parseInside_keeps {P : XmlLiteParser → Prop} (hP : ∀ {s s'}, Onward s s' → P s → P s')
    (h : ∀ i, (fields.class i).Contract) (hfuel : a.size < fuel)
    (hloop : Safe (Run.loop (pass fuel xmlPath true) fuel ({ st with isDefined := true },
      a.before u)) fun r => P r.2.2) :
    Safe (parseInside fuel st (a.before u) xmlPath) fun r => P r.2.2 := by
  have hends : Ends False (Run.loop (pass fuel xmlPath true) fuel
      ({ st with isDefined := true }, a.before u)) _ :=
    ends_passes (fun x s hs hfuel _ => (childLoop h).advances fuel xmlPath x s hs hfuel)
      (located_before a u) hfuel trivial
  refine safe_bind (hends.safe.and hloop) ?_
  rintro ⟨b, st1, s1⟩ ⟨⟨h1, -⟩, hs1⟩
  cases b with
  | false => exact hs1
  | true =>
    have hfuel1 := h1.fuel hfuel
    refine safe_bind (returns_consumeClosingTag (g := true) (lit "dict") h1.located hfuel1).safe ?_
    rintro ⟨b, s2⟩ ⟨h2, -⟩
    exact hP h2 hs1

/-- A dictionary that is read without messages. -/
theorem takes_of_quiet (o : ∀ i, (fields.class i).Outcomes (h i) (takes i))
    {s : XmlLiteParser} (hst : Inv h st) (hundefined : st.isDefined = false)
    (hfuel : (dictOf pre post).length < fuel)
    (hparse : parseFromXmlLite fuel st (fresh (dictOf pre post)) xmlPath true = .ok (b, st', s))
    (hquiet : s.xmlParserMessageArray = []) :
    b = true ∧ ∃ st1 last, TakesAll pre { st with isDefined := true } st1 ∧
      (childLoop h).Steps false st1 st' false post (.nil last) := by
  have hst0 : Inv h { st with isDefined := true } := hst
  have hinside : writeEntries pre (post.write (closing dictTag [])) <:+ dictOf pre post :=
    suffix_dictText _
  have hscene : Scene false fuel (fresh (dictOf pre post))
      (writeEntries pre (post.write (closing dictTag []))) := ⟨hfuel, hinside, fun _ => rfl⟩
  rw [← fresh_before] at hparse
  have hrun : parseInside fuel st ((fresh (dictOf pre post)).before
      (writeEntries pre (post.write (closing dictTag [])))) xmlPath = .ok (b, st', s) :=
    (parse_dictText xmlPath hundefined (suffix_refl _) hfuel).symm.trans hparse
  -- a message of the loop would still be there
  have hnever : ∀ {k : Nat} {y : DictState fields × XmlLiteParser},
      Run.loop (pass fuel xmlPath true) fuel ({ st with isDefined := true },
        (fresh (dictOf pre post)).before (writeEntries pre (post.write (closing dictTag [])))) =
          Run.loop (pass fuel xmlPath true) k y →
      Alarms (Run.loop (pass fuel xmlPath true) k y) → False := by
    intro k y hloop halarms
    have hsafe : Safe (parseInside fuel st ((fresh (dictOf pre post)).before
        (writeEntries pre (post.write (closing dictTag [])))) xmlPath) fun r =>
          r.2.2.xmlParserMessageArray ≠ [] :=
      parseInside_keeps xmlPath (P := fun s => s.xmlParserMessageArray ≠ [])
        (fun h hs => h.messages_ne_nil hs) h hfuel (hloop ▸ halarms)
    rw [hrun] at hsafe
    exact hsafe hquiet
  rcases entries_cases o pre hst0 with ⟨st1, hst1, hpre⟩ | hdrops
  · obtain ⟨w', u', hu', hsuffix', hleads⟩ := hpre fuel _ noGap _ _ xmlPath rfl hscene
      (follows_children post dictTag [])
    obtain ⟨w1, rfl⟩ := Children.exists_gap hu'
    have hrest : Scene false fuel (fresh (dictOf pre post))
        (w1.val ++ post.core (closing dictTag [])) := ⟨hfuel, hsuffix', fun _ => rfl⟩
    rcases covers o post hst1 with ⟨st2, last, hsteps⟩ | hdrops
    · obtain ⟨a2, w2, st2, hst2, hsuffix2, hnoted2, hleads2⟩ := hsteps fuel _ w1 [] xmlPath st1 rfl
        hrest
      obtain rfl := hst2
      have hbuf2 : a2.buf = (fresh (dictOf pre post)).buf := hnoted2.buf
      have hwhole := parseInside_of_leads xmlPath hbuf2 hinside hfuel hsuffix2 h
        (hleads.trans hleads2)
      obtain ⟨rfl, rfl, -⟩ : b = true ∧ st' = st2 ∧ s = _ := by
        have heq := Except.ok.inj (hrun.symm.trans hwhole)
        exact ⟨congrArg (·.1) heq, congrArg (·.2.1) heq, congrArg (·.2.2) heq⟩
      exact ⟨rfl, st1, last, hpre, hsteps⟩
    · obtain ⟨k, hk, hloop⟩ := hleads fuel (lt_of_le_of_lt hinside.length_le hfuel)
      exact (hnever hloop (hdrops fuel _ w1 [] xmlPath st1 k rfl hrest hk)).elim
  · have hwrite := Children.write_prepend pre post (closing dictTag [])
    rw [Children.write_eq] at hwrite
    refine (hnever rfl ?_).elim
    rw [← hwrite] at hscene ⊢
    exact hdrops post fuel _ _ [] xmlPath _ fuel rfl hscene
      (lt_of_le_of_lt hscene.suffix.length_le hfuel)

/-! ## One more entry -/

/-- The element of a key. -/
def keyElement (k : TextRun) : Element := .text keyTag k

theorem key_keyElement (k : TextRun) : (keyElement k).key = some k.val := rfl

theorem leads_entries {g : Blank} {r text : Bytes}
    (hpre : TakesAll pre { st with isDefined := true } st1) (hu : u = chLt :: r)
    (htext : writeEntries pre (g.val ++ u) <:+ text) (hfuel : text.length < fuel) :
    ∃ w : Blank, w.val ++ u <:+ text ∧
      Leads (pass fuel xmlPath true) (writeEntries pre (g.val ++ u)).length
        ({ st with isDefined := true }, (fresh text).before (writeEntries pre (g.val ++ u)))
        (w.val ++ u).length (st1, (fresh text).before (w.val ++ u)) := by
  subst hu
  have hscene : Scene false fuel (fresh text) (writeEntries pre (g.val ++ chLt :: r)) :=
    ⟨hfuel, htext, fun _ => rfl⟩
  have hfollows : Follows (g.val ++ chLt :: r) := by
    unfold Follows
    rw [dropBlank_append g r isSpace_chLt]
    exact Or.inr rfl
  obtain ⟨w', u', hu', hsuffix, hleads⟩ := hpre fuel (fresh text) noGap (g.val ++ chLt :: r)
    (writeEntries pre (g.val ++ chLt :: r)) xmlPath rfl hscene hfollows
  obtain ⟨w, rfl⟩ := exists_blank hu'
  exact ⟨w, hsuffix, hleads⟩

theorem leads_unknown (st1 : DictState fields) {text : Bytes} {k : TextRun}
    (hne : k.val ≠ []) (hlookup : fields.lookup k.val = none)
    (hsuffix : w.val ++ (keyElement k).write (noGap.val ++ v.write u) <:+ text)
    (hfollows : Follows u) (hfuel : text.length < fuel) :
    ∃ a1 : XmlLiteParser, a1.buf = text ∧ a1.xmlParsingError = false ∧ dropBlank u <:+ text ∧
      Leads (pass fuel xmlPath true)
        (w.val ++ (keyElement k).write (noGap.val ++ v.write u)).length
        (st1, (fresh text).before (w.val ++ (keyElement k).write (noGap.val ++ v.write u)))
        (dropBlank u).length (st1, a1.before (dropBlank u)) := by
  obtain ⟨a1, hrun, hnoted1, hlatch1⟩ := pass_unknown (a := fresh text) xmlPath (key_keyElement k)
    hne hlookup hsuffix hfollows hfuel
  have hbehind := dropBlank_behind noGap v u
  exact ⟨a1, hnoted1.buf, hlatch1, (keyElement k).suffix_of_behind hbehind hsuffix,
    leads_again hrun ((keyElement k).length_lt_of_suffix w hbehind)⟩

/-- The dictionary with an entry more is read as without it. -/
theorem parse_with {k : TextRun} {last : Blank} (h : ∀ i, (fields.class i).Contract)
    (hundefined : st.isDefined = false) (hne : k.val ≠ []) (hlookup : fields.lookup k.val = none)
    (hfuel : (dictWith pre k.val v post).length < fuel)
    (hpre : TakesAll pre { st with isDefined := true } st1)
    (hpost : (childLoop h).Steps false st1 st' false post (.nil last)) :
    ∃ s, parseFromXmlLite fuel st (fresh (dictWith pre k.val v post)) xmlPath true =
        .ok (true, st', s) ∧ s.xmlParsingError = false := by
  obtain ⟨r, hr⟩ := post.exists_core dictTag []
  have hcore : dropBlank (post.core (closing dictTag [])) = post.core (closing dictTag []) := by
    rw [hr]
    exact dropBlank_append noGap r isSpace_chLt
  have hfollows : Follows (post.core (closing dictTag [])) := by
    unfold Follows
    rw [hcore, hr]
    exact Or.inr rfl
  have htext : writeEntries pre (post.gap.val ++
      (keyElement k).write (noGap.val ++ v.write (post.core (closing dictTag [])))) <:+
        dictWith pre k.val v post := by
    exact suffix_dictText _
  obtain ⟨w, hsuffix, hleads⟩ := leads_entries xmlPath hpre (Element.write_eq _ _) htext hfuel
  obtain ⟨a1, hbuf1, hlatch1, hsuffix1, hskipped⟩ := leads_unknown xmlPath st1 hne hlookup
    hsuffix hfollows hfuel
  rw [hcore] at hsuffix1 hskipped
  have hscene1 : Scene false fuel a1 (noGap.val ++ post.core (closing dictTag [])) := by
    refine ⟨?_, hbuf1 ▸ hsuffix1, fun _ => hlatch1⟩
    show a1.buf.length < fuel
    rw [hbuf1]
    exact hfuel
  obtain ⟨a2, w2, st2, hst2, hsuffix2, hnoted2, hleads2⟩ := hpost fuel a1 noGap [] xmlPath st1 rfl
    hscene1
  obtain rfl := hst2
  have hbuf : a2.buf = (fresh (dictWith pre k.val v post)).buf := hnoted2.buf.trans hbuf1
  have hwhole := parseInside_of_leads xmlPath hbuf htext hfuel (hbuf1 ▸ hsuffix2) h
    ((hleads.trans hskipped).trans hleads2)
  refine ⟨a2.before [], ?_, ?_⟩
  · rw [← fresh_before]
    exact (parse_dictText xmlPath hundefined (suffix_refl _) hfuel).trans hwhole
  · rw [hnoted2.quiet rfl]
    exact hlatch1

/-! ## Keys that start with the end of an empty tag -/

section SlashKey

variable {w : Blank} {r : Bytes}

/-- The text of a key that starts with `/>`. -/
def slashKey (r : Bytes) : Bytes :=
  chLt :: (keyTag.val ++ chGt :: (chSlash :: chGt :: r))

theorem getNextTag_slashKey {g : Bool} (h : w.val ++ slashKey r <:+ a.buf) (hfuel : a.size < fuel) :
    getNextTag fuel (a.before (w.val ++ slashKey r)) g =
      .ok (some ⟨a.sliceOf keyTag.val (chGt :: chSlash :: chGt :: r), true⟩,
        a.before (chSlash :: chGt :: r)) :=
  getNextTag_open h w.property keyTag.property.1 keyTag.property.2 hfuel

/-- The two characters end a tag with the name `key>`, so there is no key. -/
theorem getKeyTagValue_slashKey (h : w.val ++ slashKey r <:+ a.buf) (hfuel : a.size < fuel) :
    ∃ pos s, getKeyTagValue fuel (a.before (w.val ++ slashKey r)) true = .ok (none, pos, s) := by
  have hown : noGap.val ++ slashKey r <:+ a.buf := (suffix_append _ _).trans h
  have hname : keyTag.val ++ chGt :: chSlash :: chGt :: r <:+ a.buf :=
    (suffix_cons chLt _).trans hown
  have hslash : chSlash :: chGt :: r <:+ a.buf :=
    ((suffix_cons _ _).trans (suffix_append _ _)).trans hname
  have hmove : moveForwardUntilSignificant fuel (a.before (w.val ++ slashKey r)) =
      .ok (chLt, a.before (slashKey r)) :=
    moveForwardUntilSignificant_before h w.property isSpace_chLt hfuel
  have hopen := getNextTag_slashKey (g := true) hown hfuel
  rw [noGap_append] at hopen
  have hkey : strnIsEqual (a.before (chSlash :: chGt :: r))
      (a.sliceOf keyTag.val (chGt :: chSlash :: chGt :: r)) (lit "key") = true :=
    (strnIsEqual_sliceOf hname _).trans rfl
  have hfull : chLt :: (lit "key>" ++ chSlash :: chGt :: r) <:+ a.buf := hown
  have hclose : getNextTag fuel (a.before (chSlash :: chGt :: r)) true =
      .ok (some ⟨a.sliceOf (lit "key>") (chSlash :: chGt :: r), false⟩, a.before r) := by
    have hblank := getNextTag_blank (w := []) (g := true) hslash (forall_mem_nil _) rfl hfuel
    rw [nil_append] at hblank
    rw [hblank, if_neg (by decide), if_pos rfl, getSlashTag_before hfull (by decide) hfuel]
  have hother : strnnIsEqual (a.before r) (a.sliceOf (lit "key>") (chSlash :: chGt :: r))
      (a.sliceOf keyTag.val (chGt :: chSlash :: chGt :: r)) = false := by
    rfl
  unfold getKeyTagValue getSimpleTag
  simp only [hmove, ok_bind, hopen, Bool.not_true, Bool.false_eq_true, if_false, Option.any_some,
    hkey, getString_empty hslash, hclose, hother, Bool.not_false, or_true, if_true]
  exact ⟨_, _, rfl⟩

/-- An error has been reported, and the loop goes on or not. -/
def Latched (fuel : Nat) :
    Pass (DictState fields × XmlLiteParser) (Bool × DictState fields × XmlLiteParser) → Prop
  | .again (_, s) => s.Located ∧ s.size < fuel ∧ s.xmlParsingError = true
  | .leave (_, _, s) => s.xmlParsingError = true

theorem pass_slashKey (h : ∀ i, (fields.class i).Contract) (st : DictState fields)
    (hsuffix : w.val ++ slashKey r <:+ a.buf) (hfuel : a.size < fuel) :
    Safe (pass fuel xmlPath true (st, a.before (w.val ++ slashKey r))) (Latched fuel) := by
  have hne : w.val ++ slashKey r ≠ [] :=
    append_ne_nil_of_right_ne_nil _ (cons_ne_nil _ _)
  have hrestore : (a.before (chSlash :: chGt :: r)).restorePosition
      (a.before (w.val ++ slashKey r)).currentPos = a.before (w.val ++ slashKey r) :=
    restorePosition_before rfl
  have hnext : nextTagIsClosingTag fuel (a.before (w.val ++ slashKey r)) (lit "dict") =
      .ok (false, a.before (w.val ++ slashKey r)) := by
    unfold nextTagIsClosingTag nextTagIs
    simp [getNextTag_slashKey hsuffix hfuel, hrestore]
  obtain ⟨pos, s1, hkey⟩ := getKeyTagValue_slashKey hsuffix hfuel
  obtain ⟨y, hy, h1, -, hreported⟩ := returns_getKeyTagValue (g := true)
    (located_before a (w.val ++ slashKey r)) hfuel
  obtain rfl := Except.ok.inj (hkey.symm.trans hy)
  have hlatch1 : s1.xmlParsingError = true := (hreported rfl rfl).2
  have hfuel1 := h1.fuel hfuel
  unfold pass parseKeyAndValueFromXmlLite
  simp only [before_isEof hsuffix hne, Bool.false_eq_true, if_false, hnext, ok_bind, hkey]
  refine safe_bind (safe_bind (returns_skipNextTag (g := false) h1.located hfuel1).safe
    (P := fun x => Onward s1 x.2.2) ?_) ?_
  · rintro ⟨b, s2⟩ ⟨h2, -⟩
    exact h2
  · rintro ⟨entry, st2, s2⟩ h2
    have hfuel2 := h2.fuel hfuel1
    refine safe_bind (onward_endEntry xmlPath h _ entry st2 h2.located hfuel2).safe ?_
    rintro ⟨b, st3, s3⟩ h3
    have hlatch3 : s3.xmlParsingError = true := h3.latch (h2.latch hlatch1)
    cases b with
    | false => exact hlatch3
    | true => exact ⟨h3.located, h3.fuel hfuel2, hlatch3⟩

theorem loop_latched (h : ∀ i, (fields.class i).Contract) (k : Nat)
    {y : DictState fields × XmlLiteParser}
    (hpass : Safe (pass fuel xmlPath true y) (Latched fuel)) :
    Safe (Run.loop (pass fuel xmlPath true) k y) fun r => r.2.2.xmlParsingError = true := by
  refine (childLoop h).keeps_of_pass (fun h hs => h.latch hs) k (hpass.mono fun p hp => ?_)
  cases p <;> exact hp

end SlashKey

/-- A key that starts with `/>` leaves an error. -/
theorem parse_with_slash (h : ∀ i, (fields.class i).Contract)
    (hundefined : st.isDefined = false)
    (hfuel : (dictWith pre (chSlash :: chGt :: k) v post).length < fuel)
    (hpre : TakesAll pre { st with isDefined := true } st1) :
    Safe (parseFromXmlLite fuel st (fresh (dictWith pre (chSlash :: chGt :: k) v post))
      xmlPath true)
      fun r => r.2.2.xmlParsingError = true := by
  have hkey : keyText (chSlash :: chGt :: k) (v.write (post.core (closing dictTag []))) =
      slashKey (k ++ closing keyTag (v.write (post.core (closing dictTag [])))) := rfl
  have htext : writeEntries pre (post.gap.val ++
      slashKey (k ++ closing keyTag (v.write (post.core (closing dictTag []))))) <:+
        dictWith pre (chSlash :: chGt :: k) v post := by
    exact suffix_dictText _
  obtain ⟨w, hsuffix, hleads⟩ := leads_entries
    (u := slashKey (k ++ closing keyTag (v.write (post.core (closing dictTag [])))))
      xmlPath hpre rfl
    htext hfuel
  obtain ⟨j, -, hloop⟩ := hleads fuel (lt_of_le_of_lt htext.length_le hfuel)
  have hlatched := loop_latched xmlPath h j
    (pass_slashKey (a := fresh (dictWith pre (chSlash :: chGt :: k) v post)) xmlPath h st1 hsuffix
      hfuel)
  rw [← hloop] at hlatched
  have hinside := parseInside_keeps xmlPath (P := fun s => s.xmlParsingError = true)
    (fun h hs => h.latch hs) h hfuel hlatched
  rw [← hkey, ← parse_dictText xmlPath hundefined (suffix_refl _) hfuel] at hinside
  rw [← fresh_before]
  exact hinside

end XmlDict

/-! ## Unknown keys -/

theorem Fields.lookup_eq_none {fields : List (Bytes × XmlSchema)}
    (h : ∀ f ∈ fields, k.map toLower ≠ f.1.map toLower) :
    (XmlSchema.toFields fields).lookup k = none := by
  have hnames : ∀ f ∈ XmlSchema.toFields fields, k.map toLower ≠ f.1.map toLower := by
    induction fields with
    | nil => exact nofun
    | cons f fields ih =>
      intro f' hf'
      rcases mem_cons.mp hf' with rfl | hf'
      · exact h f mem_cons_self
      · exact ih (fun f hf => h f (mem_cons_of_mem _ hf)) f' hf'
  unfold Fields.lookup
  rw [find?_eq_none]
  intro i _
  rw [decide_eq_true_eq]
  exact hnames _ (get_mem _ i)

mutual

theorem Element.length_write_le : ∀ (e : Element) {t u : Bytes}, t.length ≤ u.length →
    (e.write t).length ≤ (e.write u).length
  | .empty n, t, u, h => by
    simp only [Element.write, length_cons, length_append]
    omega
  | .text n v, t, u, h => by
    simp only [Element.write, closing, length_cons, length_append]
    omega
  | .node n cs, t, u, h => by
    have hclosing : (closing n t).length ≤ (closing n u).length := by
      simp only [closing, length_cons, length_append]
      omega
    have hcs := cs.length_write_le hclosing
    simp only [Element.write, length_cons, length_append]
    omega

theorem Children.length_write_le : ∀ (cs : Children) {t u : Bytes}, t.length ≤ u.length →
    (cs.write t).length ≤ (cs.write u).length
  | .nil w, t, u, h => by
    simp only [Children.write, length_append]
    omega
  | .cons w e cs, t, u, h => by
    have he := e.length_write_le (cs.length_write_le h)
    simp only [Children.write, length_append]
    omega

end

theorem length_writeEntries_le (pre : List Entry) {t : Bytes} (h : t.length ≤ u.length) :
    (writeEntries pre t).length ≤ (writeEntries pre u).length := by
  induction pre with
  | nil => exact h
  | cons x pre ih =>
    have hvalue := x.value.length_write_le ih
    have hbetween : (x.between.val ++ x.value.write (writeEntries pre t)).length ≤
        (x.between.val ++ x.value.write (writeEntries pre u)).length := by
      rw [length_append, length_append]
      exact Nat.add_le_add_left hvalue _
    have hkey := x.key.length_write_le hbetween
    show (x.gap.val ++ _).length ≤ (x.gap.val ++ _).length
    rw [length_append, length_append]
    exact Nat.add_le_add_left hkey _

theorem length_dictOf_le (pre : List Entry) (k : Bytes) (v : Element) (post : Children) :
    (dictOf pre post).length ≤ (dictWith pre k v post).length := by
  have hrest : (post.write (closing dictTag [])).length ≤
      (post.gap.val ++ keyText k (v.write (post.core (closing dictTag [])))).length := by
    have hvalue := v.length_lt_write (post.core (closing dictTag []))
    rw [post.write_eq]
    simp only [keyText, closing, length_append, length_cons]
    unfold closing at hvalue
    omega
  have hentries := length_writeEntries_le pre hrest
  simp only [dictOf, dictWith, dictText, length_cons, length_append]
  omega

/-- The class of a dictionary with the fields of a schema. -/
abbrev dictNew (fields : List (Bytes × XmlSchema)) : DictState (XmlSchema.toFields fields) :=
  (dictClass (XmlSchema.toFields fields)).new

/-- An entry with an unknown key is put into a dictionary that is read without messages. The
dictionary is then read with the same result, and without an error, just when the key does not
start with `/>`. -/
theorem unknown_key_iff (fields : List (Bytes × XmlSchema)) (pre : List Entry)
    (post : Children) (k : Bytes) (v : Element) (xmlPath : Bytes) (fuel : Nat)
    (hk : k ≠ []) (htext : chLt ∉ k) (hunknown : ∀ f ∈ fields, k.map toLower ≠ f.1.map toLower)
    (hfuel : (dictWith pre k v post).length < fuel) (b : Bool)
    (st : DictState (XmlSchema.toFields fields)) (s : XmlLiteParser)
    (hparse : XmlDict.parseFromXmlLite fuel (dictNew fields) (fresh (dictOf pre post))
      xmlPath true = .ok (b, st, s))
    (hquiet : s.xmlParserMessageArray = []) :
    (∃ s', XmlDict.parseFromXmlLite fuel (dictNew fields) (fresh (dictWith pre k v post)) xmlPath
        true = .ok (b, st, s') ∧ s'.xmlParsingError = false) ↔
      ¬ [chSlash, chGt] <+: k := by
  choose h takes o using XmlSchema.outcomes_toFields fields
  have hshort := lt_of_le_of_lt (length_dictOf_le pre k v post) hfuel
  obtain ⟨rfl, st₁, last, hpre, hpost⟩ := XmlDict.takes_of_quiet xmlPath o
    (dictContract h).new rfl hshort hparse hquiet
  constructor
  · rintro ⟨s', hrun, hlatch⟩ ⟨k', rfl⟩
    have hsafe := XmlDict.parse_with_slash (k := k') xmlPath h rfl hfuel hpre
    rw [cons_append, cons_append, nil_append] at hrun
    rw [hrun] at hsafe
    exact Bool.noConfusion (hlatch.symm.trans hsafe)
  · intro hslash
    exact XmlDict.parse_with (k := ⟨k, htext, hslash⟩) xmlPath h rfl hk
      (Fields.lookup_eq_none hunknown) hfuel hpre hpost

/-- A run that returns `b`, and what it leaves passes a test. -/
def endsWith {σ : Type} (b : Bool) (test : σ → XmlLiteParser → Bool) :
    Run (Bool × σ × XmlLiteParser) → Bool
  | .ok (b', st, s) => b' == b && test st s
  | .error _ => false

theorem exists_of_endsWith {σ : Type} {test : σ → XmlLiteParser → Bool}
    {x : Run (Bool × σ × XmlLiteParser)} (h : endsWith b test x = true) :
    ∃ st s, x = .ok (b, st, s) ∧ test st s = true := by
  match x, h with
  | .ok (b', st, s), h =>
    obtain ⟨hb, htest⟩ := Bool.and_eq_true_iff.mp h
    obtain rfl := eq_of_beq hb
    exact ⟨st, s, rfl, htest⟩

/-- A dictionary with the field `A`. -/
def sampleFields : List (Bytes × XmlSchema) := [(lit "A", .scalar (.integer .uint8))]

/-- The entry `<key>A</key><integer>7</integer>`. -/
def sampleEntry : Entry :=
  ⟨noGap, .text keyTag ⟨lit "A", by decide⟩, noGap, .text integerTag ⟨lit "7", by decide⟩⟩

/-- The entry `<key>B</key><true/>` behind it. -/
theorem unknown_key_iff_sample :
    ∃ st s s',
      XmlDict.parseFromXmlLite 100 (dictNew sampleFields)
        (fresh (dictOf [sampleEntry] (.nil noGap))) [] true = .ok (true, st, s) ∧
      XmlDict.parseFromXmlLite 100 (dictNew sampleFields)
        (fresh (dictWith [sampleEntry] (lit "B") (.empty ⟨lit "true", by decide⟩) (.nil noGap))) []
        true = .ok (true, st, s') ∧ s'.xmlParsingError = false := by
  have hends : endsWith true (fun _ s => s.xmlParserMessageArray.isEmpty)
      (XmlDict.parseFromXmlLite 100 (dictNew sampleFields)
        (fresh (dictOf [sampleEntry] (.nil noGap))) [] true) = true := by decide +kernel
  obtain ⟨st, s, hparse, hquiet⟩ := exists_of_endsWith hends
  obtain ⟨s', hwith, hlatch⟩ := (unknown_key_iff sampleFields [sampleEntry] (.nil noGap) (lit "B")
    (.empty ⟨lit "true", by decide⟩) [] 100 (by decide) (by decide) (by decide +kernel)
    (by decide +kernel) true st s hparse (isEmpty_iff.mp hquiet)).mpr (by decide)
  exact ⟨st, s, s', hparse, hwith, hlatch⟩

/-- The entry `<key>/>B</key><true/>` behind it leaves an error. -/
theorem slash_key_disturbs :
    (∃ st s, XmlDict.parseFromXmlLite 100 (dictNew sampleFields)
        (fresh (dictOf [sampleEntry] (.nil noGap))) [] true = .ok (true, st, s) ∧
      s.xmlParserMessageArray = []) ∧
    ∃ st s, XmlDict.parseFromXmlLite 100 (dictNew sampleFields)
        (fresh (dictWith [sampleEntry] (lit "/>B") (.empty ⟨lit "true", by decide⟩) (.nil noGap)))
        [] true = .ok (true, st, s) ∧ s.xmlParsingError = true := by
  have hends : endsWith true (fun _ s => s.xmlParserMessageArray.isEmpty)
      (XmlDict.parseFromXmlLite 100 (dictNew sampleFields)
        (fresh (dictOf [sampleEntry] (.nil noGap))) [] true) = true := by decide +kernel
  have hwith : endsWith true (fun _ s => s.xmlParsingError)
      (XmlDict.parseFromXmlLite 100 (dictNew sampleFields)
        (fresh (dictWith [sampleEntry] (lit "/>B") (.empty ⟨lit "true", by decide⟩) (.nil noGap)))
        [] true) = true := by decide +kernel
  obtain ⟨st, s, hparse, hquiet⟩ := exists_of_endsWith hends
  exact ⟨⟨st, s, hparse, isEmpty_iff.mp hquiet⟩, exists_of_endsWith hwith⟩

end Clover.Xml
