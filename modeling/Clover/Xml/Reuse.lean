import Clover.Xml.Termination

/-!
# Using one parser again

A parser object can be given buffer after buffer. What a run returns, what it leaves in the
configuration and what it leaves in the parser are then those of a new parser, as long as the
latch `xmlParsingError` is not set: `init` resets everything else. A latch that an earlier run
has set stays set, so some later run always differs.
-/

namespace Clover.Xml

open Clover.Lib Clover.Lib.Run XmlLiteParser

/-- A buffer that is parsed into a new configuration of some schema. -/
structure ParseJob where
  schema : XmlSchema
  buf : Bytes
  xmlPath : Bytes

namespace ParseJob

/-- The run of a job on a parser: what is returned, the configuration and the parser. -/
def run (job : ParseJob) (s : XmlLiteParser) :
    Run (Bool × job.schema.toClass.State × XmlLiteParser) :=
  parseBuffer (job.buf.length + 1) job.schema.toClass job.schema.toClass.new s job.buf job.xmlPath

/-- The parser after a sequence of jobs. -/
def runAll : List ParseJob → XmlLiteParser → Run XmlLiteParser
  | [], s => .ok s
  | job :: jobs, s => do
    let (_, _, s) ← job.run s
    runAll jobs s

/-- An empty dictionary without fields. -/
def emptyDict : ParseJob := ⟨.dict [], lit "<dict></dict>", []⟩

end ParseJob

theorem foldl_replaceZero_latch (is : List Nat) (latch : Bool) :
    ∀ s : XmlLiteParser, is.foldl replaceZero { s with xmlParsingError := latch } =
      { is.foldl replaceZero s with xmlParsingError := latch } := by
  induction is with
  | nil =>
    intro s
    rfl
  | cons i is ih =>
    intro s
    have hstep : replaceZero { s with xmlParsingError := latch } i =
        { replaceZero s i with xmlParsingError := latch } := by
      unfold replaceZero
      by_cases hzero : s.buf.getD i 0 = 0
      · rw [if_pos hzero, if_pos hzero]
        rfl
      · rw [if_neg hzero, if_neg hzero]
    rw [List.foldl_cons, List.foldl_cons, hstep, ih]

theorem init_eq (s : XmlLiteParser) (buf : Bytes) :
    s.init buf = { new.init buf with xmlParsingError := s.xmlParsingError } :=
  foldl_replaceZero_latch _ s.xmlParsingError ⟨buf, ⟨0, 1, 1⟩, [], false⟩

theorem ParseJob.returns_run (job : ParseJob) (s : XmlLiteParser) :
    Returns (job.run s) fun r => s.xmlParsingError = true → r.2.2.xmlParsingError = true := by
  obtain ⟨h⟩ := job.schema.contract
  obtain ⟨-, hsize⟩ := init_spec s job.buf
  have hfuel : (s.init job.buf).size < job.buf.length + 1 := by
    rw [hsize]
    exact Nat.lt_succ_self _
  refine (returns_parseConfig h job.xmlPath (located_init s job.buf) hfuel).mono
    fun r hr hlatch => ?_
  apply hr.latch
  rw [init_eq]
  exact hlatch

theorem ParseJob.returns_runAll (jobs : List ParseJob) :
    ∀ s : XmlLiteParser, Returns (ParseJob.runAll jobs s) fun _ => True := by
  induction jobs with
  | nil =>
    intro s
    exact returns_ok trivial
  | cons job jobs ih =>
    intro s
    refine returns_bind (job.returns_run s) ?_
    rintro ⟨b, st, s'⟩ -
    exact ih s'

/-- A parser whose latch is not set runs every job as a new parser does. -/
theorem ParseJob.run_eq_run_new (job : ParseJob) {s : XmlLiteParser}
    (hlatch : s.xmlParsingError = false) : job.run s = job.run new := by
  have hinit : s.init job.buf = new.init job.buf := by
    rw [init_eq s, hlatch, init_eq new]
    rfl
  unfold ParseJob.run parseBuffer
  rw [hinit]

/-- After any sequence of jobs, the parser runs every job exactly as a new one does if and only
if the latch is not set. -/
theorem reuse_iff_latch_clear (jobs : List ParseJob) :
    ∃ s, ParseJob.runAll jobs new = .ok s ∧
      ((∀ job : ParseJob, job.run s = job.run new) ↔ s.xmlParsingError = false) := by
  obtain ⟨s, hrun, -⟩ := ParseJob.returns_runAll jobs new
  refine ⟨s, hrun, fun hall => ?_, fun hlatch job => job.run_eq_run_new hlatch⟩
  by_contra hlatch
  rw [Bool.not_eq_false] at hlatch
  -- a new parser reads an empty dictionary without setting the latch
  obtain ⟨r, hr, hset⟩ := ParseJob.emptyDict.returns_run s
  have hclear : (ParseJob.emptyDict.run new).map (fun r => r.2.2.xmlParsingError) = .ok false := by
    decide +kernel
  rw [← hall ParseJob.emptyDict, hr] at hclear
  have hfalse : r.2.2.xmlParsingError = false := Except.ok.inj hclear
  rw [hset hlatch] at hfalse
  exact Bool.noConfusion hfalse

/-- A dictionary that breaks off. -/
def ParseJob.brokenDict : ParseJob := ⟨.dict [], lit "<dict>", []⟩

/-- A correct repeating dictionary. -/
def ParseJob.repeatingDict : ParseJob :=
  ⟨.repeatingDict false false (.scalar (.integer .uint8)),
    lit "<dict><key>A</key><integer>7</integer></dict>", []⟩

/-- A new parser accepts the repeating dictionary; behind the broken one it is refused, without
a message. -/
theorem reuse_after_error_differs :
    (ParseJob.repeatingDict.run new).map (fun r => (r.1, r.2.2.xmlParserMessageArray)) =
      .ok (true, []) ∧
    (ParseJob.runAll [ParseJob.brokenDict] new >>= fun s =>
      (ParseJob.repeatingDict.run s).map fun r => (r.1, r.2.2.xmlParserMessageArray)) =
      .ok (false, []) := by
  decide +kernel

end Clover.Xml
