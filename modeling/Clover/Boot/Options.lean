import Clover.Lib.Bytes
import Clover.Lib.Cells

/-!
# Boot options

The functions of `Platform/BootOptions.cpp` that add a boot option: the contents of a variable
`BootXXXX` (`ParseBootOption`, `CompileBootOption`), the search for a free number
(`FindFreeBootNum`), and the list `BootOrder` (`GetBootOrder`, `AddToBootOrder`).

The variables are a map: one list of numbers, and the contents of `BootXXXX` for every number.
-/

namespace Clover.Boot

open Clover.Lib List

variable {data : Bytes}

/-- The error codes of type `EFI_STATUS`. -/
inductive Status where
  | notFound
  | invalidParameter
  deriving DecidableEq, Repr

/-! ## The contents of a variable -/

/-- The fields of `BO_BOOT_OPTION` that make up a variable. A pointer is what it points to, the
description without its terminating zero. -/
structure BootOption where
  attributes : UInt32
  filePathListLength : UInt16
  description : Option (List UInt16)
  filePathList : Option Bytes
  optionalData : Option Bytes
  optionalDataSize : Nat
  deriving DecidableEq, Repr

def wordBytes (words : List UInt16) : Bytes := words.flatMap fun w => leBytes 2 w.toNat

/-- The bytes of a variable `Boot####`. -/
def compileBootOption (option : BootOption) : Except Status Bytes :=
  match option.description, option.filePathList with
  | some description, some filePathList =>
    if option.filePathListLength = 0 ∨
        (option.optionalData.isSome ∧ option.optionalDataSize = 0) then
      .error .invalidParameter
    else
      .ok (leBytes 4 option.attributes.toNat ++ leBytes 2 option.filePathListLength.toNat ++
        wordBytes description ++ leBytes 2 0 ++
        filePathList.take option.filePathListLength.toNat ++
        (option.optionalData.getD []).take option.optionalDataSize)
  | _, _ => .error .invalidParameter

/-- The string at the start of some bytes, and what follows it. -/
def scanString : Bytes → Option (List UInt16 × Bytes)
  | lo :: hi :: rest =>
    let c := UInt16.ofNat (leValue [lo, hi])
    if c = 0 then some ([], rest)
    else (scanString rest).map fun s => (c :: s.1, s.2)
  | _ => none

/-- A string or a path that does not end within the variable makes it invalid. -/
def parseBootOption (data : Bytes) : Except Status BootOption :=
  if data.length ≤ 6 then .error .invalidParameter
  else
    let filePathListLength := UInt16.ofNat (leValue ((data.drop 4).take 2))
    match scanString (data.drop 6) with
    | none => .error .invalidParameter
    | some (description, rest) =>
      if rest.length < filePathListLength.toNat then .error .invalidParameter
      else
        let optionalData := rest.drop filePathListLength.toNat
        .ok
          { attributes := UInt32.ofNat (leValue (data.take 4))
            filePathListLength
            description := some description
            filePathList := some (rest.take filePathListLength.toNat)
            optionalData := if optionalData = [] then none else some optionalData
            optionalDataSize := optionalData.length }

theorem leValue_uInt16 (w : UInt16) : UInt16.ofNat (leValue (leBytes 2 w.toNat)) = w := by
  rw [leValue_leBytes, Nat.mod_eq_of_lt w.toNat_lt, UInt16.ofNat_toNat]

theorem scanString_leBytes (w : UInt16) (rest : Bytes) :
    scanString (leBytes 2 w.toNat ++ rest) =
      if w = 0 then some ([], rest) else (scanString rest).map fun s => (w :: s.1, s.2) := by
  have hscan : scanString (leBytes 2 w.toNat ++ rest) =
      let c := UInt16.ofNat (leValue (leBytes 2 w.toNat))
      if c = 0 then some ([], rest) else (scanString rest).map fun s => (c :: s.1, s.2) := rfl
  rw [hscan, leValue_uInt16]

theorem scanString_wordBytes {words : List UInt16} (h : 0 ∉ words) (rest : Bytes) :
    scanString (wordBytes words ++ (leBytes 2 0 ++ rest)) = some (words, rest) := by
  induction words with
  | nil => rfl
  | cons w words ih =>
    have hw : w ≠ 0 := fun hw => h (hw ▸ mem_cons_self)
    rw [wordBytes, flatMap_cons, append_assoc, scanString_leBytes, if_neg hw,
      ← wordBytes, ih fun hmem => h (mem_cons_of_mem w hmem)]
    rfl

/-- The pointers of an option are to as many bytes as its sizes tell, and its description is a
string. -/
structure BootOption.Wf (option : BootOption) : Prop where
  description_ne : ∀ d, option.description = some d → 0 ∉ d
  path_length : ∀ p, option.filePathList = some p → p.length = option.filePathListLength.toNat
  optional_length : (option.optionalData.getD []).length = option.optionalDataSize

variable {option : BootOption}

theorem compileBootOption_ok (h : compileBootOption option = .ok data) : ∃ description filePathList,
      option.description = some description ∧ option.filePathList = some filePathList ∧
      (option.optionalData.isSome → option.optionalDataSize ≠ 0) ∧
      data = leBytes 4 option.attributes.toNat ++ (leBytes 2 option.filePathListLength.toNat ++
        (wordBytes description ++ (leBytes 2 0 ++
          (filePathList.take option.filePathListLength.toNat ++
            (option.optionalData.getD []).take option.optionalDataSize)))) := by
  unfold compileBootOption at h
  split at h
  · next description filePathList hd hp =>
    split at h
    · cases h
    · next hvalid =>
      refine ⟨description, filePathList, hd, hp, fun hopt hsize =>
        hvalid (Or.inr ⟨hopt, hsize⟩), ?_⟩
      simpa only [Except.ok.injEq, append_assoc] using h.symm
  · cases h

theorem compileBootOption_length (h : compileBootOption option = .ok data) : 6 < data.length := by
  obtain ⟨description, filePathList, -, -, -, rfl⟩ := compileBootOption_ok h
  simp only [length_append, length_leBytes]
  omega

/-- What was compiled is parsed back. -/
theorem parseBootOption_compile (hwf : option.Wf) (h : compileBootOption option = .ok data) :
    parseBootOption data = .ok option := by
  have hlength := compileBootOption_length h
  obtain ⟨description, filePathList, hd, hp, hopt, rfl⟩ := compileBootOption_ok h
  have hpath := hwf.path_length filePathList hp
  have hsize := hwf.optional_length
  have hattributes : UInt32.ofNat (leValue (leBytes 4 option.attributes.toNat)) =
      option.attributes := by
    rw [leValue_leBytes, Nat.mod_eq_of_lt option.attributes.toNat_lt, UInt32.ofNat_toNat]
  have hdata : (if option.optionalData.getD [] = [] then none
      else some (option.optionalData.getD [])) = option.optionalData := by
    cases heq : option.optionalData with
    | none => rfl
    | some optional =>
      rw [heq] at hopt hsize
      rw [if_neg]
      · rfl
      · intro hnil
        rw [hnil] at hsize
        exact hopt rfl hsize.symm
  rw [take_of_length_le (Nat.le_of_eq hpath), take_of_length_le (Nat.le_of_eq hsize)]
    at hlength ⊢
  have hdrop : ∀ rest, (leBytes 4 option.attributes.toNat ++
      (leBytes 2 option.filePathListLength.toNat ++ rest)).drop 6 = rest := by
    intro rest
    rw [← append_assoc]
    exact drop_left' (by rw [length_append, length_leBytes, length_leBytes])
  rw [parseBootOption, if_neg (Nat.not_le.mpr hlength), hdrop,
    scanString_wordBytes (hwf.description_ne description hd), take_left' (length_leBytes 4 _),
    drop_left' (length_leBytes 4 _), take_left' (length_leBytes 2 _), leValue_uInt16]
  dsimp only
  rw [if_neg (by rw [length_append]; omega), take_left' hpath, drop_left' hpath,
    hattributes, hdata, hsize, ← hd, ← hp]

/-- The option with these fields; there is no pointer to optional data if it is empty. -/
def bootOptionOf (attributes : UInt32) (description : List UInt16) (path optional : Bytes) :
    BootOption where
  attributes
  filePathListLength := UInt16.ofNat path.length
  description := some description
  filePathList := some path
  optionalData := if optional = [] then none else some optional
  optionalDataSize := optional.length

/-- An option can be compiled, and is parsed to what it was. -/
theorem compileBootOption_parses (attributes : UInt32) {description : List UInt16}
    {path : Bytes} (optional : Bytes) (hd : 0 ∉ description) (hpos : 1 ≤ path.length)
    (hpath : path.length ≤ 65535) :
    ∃ data, compileBootOption (bootOptionOf attributes description path optional) = .ok data ∧
      parseBootOption data = .ok (bootOptionOf attributes description path optional) := by
  have hlength : (UInt16.ofNat path.length).toNat = path.length :=
    UInt16.toNat_ofNat_of_lt (Nat.lt_succ_of_le hpath)
  have hoptional : ((if optional = [] then none else some optional).getD [] : Bytes) =
      optional := by
    split
    · next h => exact h.symm
    · rfl
  have hwf : (bootOptionOf attributes description path optional).Wf := by
    refine ⟨?_, ?_, congrArg length hoptional⟩
    · rintro d ⟨⟩
      exact hd
    · rintro p ⟨⟩
      exact hlength.symm
  have hvalid : ¬ (UInt16.ofNat path.length = 0 ∨
      (if optional = [] then none else some optional).isSome ∧ optional.length = 0) := by
    rintro (hzero | ⟨hsome, hnil⟩)
    · rw [hzero] at hlength
      exact absurd hlength (by simp; omega)
    · rw [length_eq_zero_iff] at hnil
      rw [if_pos hnil] at hsome
      cases hsome
  exact ⟨_, if_neg hvalid, parseBootOption_compile hwf (if_neg hvalid)⟩

/-- The option `Mac`, with a path of a file and its end node, and three bytes of data. -/
theorem compileBootOption_parses_sample :
    let option := bootOptionOf 1 [77, 97, 99] [4, 4, 8, 0, 65, 0, 0, 0, 127, 255, 4, 0] [9, 0, 8]
    (0 : UInt16) ∉ [77, 97, 99] ∧
      ∃ data, compileBootOption option = .ok data ∧ parseBootOption data = .ok option :=
  ⟨by decide, compileBootOption_parses 1 [9, 0, 8] (by decide) (by decide) (by decide)⟩

end Clover.Boot
