import Clover.Xml.Progress

/-!
# Looking ahead

The header promises of `nextTagIsOpeningTag`, `nextTagIsClosingTag`, `consumeOpeningTag` and
`consumeClosingTag` that the position is not changed if the answer is no. All four read a tag with
`getNextTag`, which has moved on when it fails, unless it is at the end of the buffer already, and
the four return at once when it fails; `consumeClosingTag` does not restore the position when the
tag is another one either. The promise is kept exactly where there is a tag to read (`nextTag`), for
`consumeClosingTag` the expected one, and at the end of the buffer.
-/

namespace Clover.Xml

open Clover.Lib Clover.Lib.Run

namespace XmlLiteParser

variable {s : XmlLiteParser} {fuel : Nat} {g : Bool}

/-! ## Keeping the position -/

theorem returns_nextTagIs_stays (hs : s.Located) (hfuel : s.size < fuel) (expectedTag : Bytes)
    (opening : Bool) :
    Returns (nextTagIs fuel s expectedTag opening) fun r => (r.2.currentPos = s.currentPos ↔
      (nextTag s.buf s.currentPos.p).isSome ∨ s.isEof = true) := by
  unfold nextTagIs
  refine returns_bind (returns_getNextTag_nextTag hs hfuel) ?_
  rintro ⟨t, s'⟩ ⟨⟨htag, hbuf, hstay⟩, -⟩
  rw [← htag]
  cases t with
  | none =>
    apply returns_ok
    rw [hstay]
    simp
  | some tag =>
    apply returns_ok
    simp [restorePosition]

theorem returns_consumeOpeningTag_stays (hs : s.Located) (hfuel : s.size < fuel)
    (expectedTag : Bytes) :
    Returns (consumeOpeningTag fuel s expectedTag g) fun r =>
      ((r.1 = false → r.2.currentPos = s.currentPos) ↔
        (nextTag s.buf s.currentPos.p).isSome ∨ s.isEof = true) := by
  unfold consumeOpeningTag
  refine returns_bind (returns_getNextTag_nextTag hs hfuel) ?_
  rintro ⟨t, s'⟩ ⟨⟨htag, hbuf, hstay⟩, -⟩
  rw [← htag]
  cases t with
  | none =>
    apply returns_ok
    rw [hstay]
    simp
  | some tag =>
    dsimp only
    split
    · apply returns_ok
      simp [restorePosition]
    · split
      · apply returns_ok
        simp [restorePosition]
      · apply returns_ok
        simp

/-- Where `consumeClosingTag` stays when it says no: only there where it has nothing to read, or
says yes. -/
theorem returns_consumeClosingTag_stays (hs : s.Located) (hfuel : s.size < fuel)
    (expectedTag : Bytes) :
    Returns (consumeClosingTag fuel s expectedTag g) fun r =>
      ((r.1 = false → r.2.currentPos = s.currentPos) ↔
        (nextTag s.buf s.currentPos.p).any
          (fun tag => strnIsEqual s tag.tag expectedTag && !tag.isOpeningTag) = true ∨
        s.isEof = true) := by
  unfold consumeClosingTag
  refine returns_bind (returns_getNextTag_nextTag hs hfuel) ?_
  rintro ⟨t, s'⟩ ⟨⟨htag, hbuf, hstay⟩, -⟩
  have hequal : ∀ tag, strnIsEqual s' tag expectedTag = strnIsEqual s tag expectedTag := by
    intro tag
    rw [strnIsEqual, strnIsEqual, bytes, bytes]
    rw [show s'.buf = s.buf from hbuf]
  rw [← htag]
  cases t with
  | none =>
    apply returns_ok
    rw [hstay]
    simp
  | some tag =>
    dsimp only
    rw [hequal, Option.any_some]
    cases strnIsEqual s tag.tag expectedTag with
    | false =>
      apply returns_ok
      rw [addXmlError_p, hstay]
      simp
    | true =>
      cases tag.isOpeningTag with
      | true =>
        apply returns_ok
        rw [addXmlError_p, hstay]
        simp
      | false =>
        apply returns_ok
        simp

/-- Looking ahead keeps the position exactly where there is a tag to read, or nothing at all;
`consumeClosingTag` that says no keeps it at the end of the buffer only. -/
theorem lookAhead_stays_iff (hs : s.Located) (hfuel : s.size < fuel) (expectedTag : Bytes)
    (generateErrors : Bool) :
    (Returns (nextTagIsOpeningTag fuel s expectedTag) fun r => (r.2.currentPos = s.currentPos ↔
      (nextTag s.buf s.currentPos.p).isSome ∨ s.isEof = true)) ∧
    (Returns (nextTagIsClosingTag fuel s expectedTag) fun r => (r.2.currentPos = s.currentPos ↔
      (nextTag s.buf s.currentPos.p).isSome ∨ s.isEof = true)) ∧
    (Returns (consumeOpeningTag fuel s expectedTag generateErrors) fun r =>
      ((r.1 = false → r.2.currentPos = s.currentPos) ↔
        (nextTag s.buf s.currentPos.p).isSome ∨ s.isEof = true)) ∧
    (Returns (consumeClosingTag fuel s expectedTag generateErrors) fun r =>
      ((r.1 = false → r.2.currentPos = s.currentPos) ↔
        (nextTag s.buf s.currentPos.p).any
          (fun tag => strnIsEqual s tag.tag expectedTag && !tag.isOpeningTag) = true ∨
        s.isEof = true)) :=
  ⟨returns_nextTagIs_stays hs hfuel expectedTag true,
    returns_nextTagIs_stays hs hfuel expectedTag false,
    returns_consumeOpeningTag_stays hs hfuel expectedTag,
    returns_consumeClosingTag_stays hs hfuel expectedTag⟩

/-- Asked for an opening tag at a closing one. -/
theorem lookAhead_stays_iff_sample :
    ((new.init (lit "</dict>")).Located ∧ (new.init (lit "</dict>")).size < 8) ∧
    (Returns (nextTagIsOpeningTag 8 (new.init (lit "</dict>")) (lit "dict")) fun r =>
      (r.2.currentPos = (new.init (lit "</dict>")).currentPos ↔
        (nextTag (new.init (lit "</dict>")).buf 0).isSome ∨
          (new.init (lit "</dict>")).isEof = true)) :=
  have hlocated : (new.init (lit "</dict>")).Located := ⟨by decide, by decide⟩
  ⟨⟨hlocated, by decide⟩, (lookAhead_stays_iff hlocated (by decide) (lit "dict") true).1⟩

/-- In text the look-ahead steps over a character although it says no, and `consumeClosingTag`
steps over an opening tag. -/
theorem lookAhead_moves :
    (nextTagIsOpeningTag 5 (new.init (lit "abc")) (lit "dict")).map
      (fun r => (r.1, r.2.currentPos.p)) = .ok (false, 1) ∧
    (nextTagIsClosingTag 5 (new.init (lit "abc")) (lit "dict")).map
      (fun r => (r.1, r.2.currentPos.p)) = .ok (false, 1) ∧
    (consumeOpeningTag 5 (new.init (lit "abc")) (lit "dict") true).map
      (fun r => (r.1, r.2.currentPos.p)) = .ok (false, 1) ∧
    (consumeClosingTag 7 (new.init (lit "<dict>")) (lit "dict") true).map
      (fun r => (r.1, r.2.currentPos.p)) = .ok (false, 6) ∧
    (new.init (lit "abc")).currentPos.p = 0 ∧ (new.init (lit "<dict>")).currentPos.p = 0 := by
  decide +kernel

end XmlLiteParser

end Clover.Xml
