import Clover.Lib.Bytes
import Clover.Patch.Memory

/-!
# Sections of a Mach-O image

The function `LOADER_ENTRY::searchSectionByNum` of `Platform/kernel_patcher.cpp`. Sections are
numbered from 1 on through all the `LC_SEGMENT_64` commands of an image. The function walks along
the load commands with a running count of sections, and compares it with `Num - 1`, not with `Num`:
where a segment ends with section `Num - 1` it stops there, and what it takes for the header of the
section is the load command behind the segment.

The main result is `searchSectionByNum_iff`.
-/

namespace Clover.Kernel

open Clover.Lib Clover.Patch List

variable {m : Mem} {k off : Nat}

def lcSegment64 : UInt32 := 0x19

/-- The number at `a`. -/
def read32 (m : Mem) (a : Nat) : UInt32 :=
  UInt32.ofNat (leValue [m a, m (a + 1), m (a + 2), m (a + 3)])

/-! ## The function -/

/-- The loop of `searchSectionByNum`, with the number of commands that are left. -/
def searchCommands (binary : Mem) (num : UInt32) : Nat → UInt32 → UInt32 → UInt32 → UInt32
  | 0, _, _, _ => 0
  | cnt + 1, binaryIndex, currsect, textAddr =>
    let cmdsize := read32 binary (binaryIndex.toNat + 4)
    if read32 binary binaryIndex.toNat = lcSegment64 then
      let nsect := read32 binary (binaryIndex.toNat + 64)
      let textAddr := if currsect = 0 then binaryIndex + 72 else textAddr
      if num - 1 ≤ currsect + nsect then
        let sectAddr := binaryIndex + 72 + 80 * (num - currsect - 1)
        -- the special case for `__bss`
        if read32 binary sectAddr.toNat = 0x73625F5F then textAddr else sectAddr
      else searchCommands binary num cnt (binaryIndex + cmdsize) (currsect + nsect) textAddr
    else searchCommands binary num cnt (binaryIndex + cmdsize) currsect textAddr

/-- The search for the section with a number. -/
def searchSectionByNum (binary : Mem) (num : UInt32) : UInt32 :=
  if num = 0 then 0
  else searchCommands binary num (read32 binary 16).toNat 32 0 0

/-! ## Images -/

/-- The structure `section_64`; its first 16 bytes are the name. -/
structure Section where
  bytes : Bytes
  length_bytes : bytes.length = 80

/-- The name starts with `__bs`. -/
def Section.isBs (s : Section) : Bool := s.bytes.take 4 = [0x5F, 0x5F, 0x62, 0x73]

/-- The structure `segment_command_64`, with the sections behind it. `fields` are the bytes from
`segname` to `initprot`. -/
structure Segment where
  fields : Bytes
  flags : UInt32
  sections : List Section
  length_fields : fields.length = 56

variable {s : Segment}

/-- Another load command, whatever it is. -/
structure OtherCommand where
  cmd : UInt32
  body : Bytes
  cmd_ne : cmd ≠ lcSegment64

/-- A segment, or another command. -/
inductive LoadCommand where
  | segment (s : Segment)
  | other (c : OtherCommand)

variable {cs : List LoadCommand} (c : LoadCommand)

namespace LoadCommand

def cmd : LoadCommand → UInt32
  | segment _ => lcSegment64
  | other c => c.cmd

def cmdsize : LoadCommand → Nat
  | segment s => 72 + 80 * s.sections.length
  | other c => 8 + c.body.length

/-- What stands behind the fields `cmd` and `cmdsize`. -/
def body : LoadCommand → Bytes
  | segment s => s.fields ++ (leBytes 4 s.sections.length ++ (leBytes 4 s.flags.toNat ++
      s.sections.flatMap Section.bytes))
  | other c => c.body

def write (c : LoadCommand) : Bytes :=
  leBytes 4 c.cmd.toNat ++ (leBytes 4 c.cmdsize ++ c.body)

end LoadCommand

def cmdsizes (cs : List LoadCommand) : Nat := (cs.map LoadCommand.cmdsize).sum

/-- A 64-bit image up to the end of its load commands. They end below 4 GiB, so that 32-bit offsets
reach them. -/
structure Image where
  /-- The fields of the header before and behind `ncmds`. -/
  front : Bytes
  back : Bytes
  commands : List LoadCommand
  length_front : front.length = 16
  length_back : back.length = 12
  fits : 32 + cmdsizes commands < 2 ^ 32

def Image.write (x : Image) : Bytes :=
  x.front ++ (leBytes 4 x.commands.length ++ (x.back ++ x.commands.flatMap LoadCommand.write))

/-- The sections in order, with the offsets of their headers; the commands stand at `off`. -/
def sectionsFrom : Nat → List LoadCommand → List (Nat × Section)
  | _, [] => []
  | off, .segment s :: cs =>
    s.sections.mapIdx (fun k x => (off + 72 + 80 * k, x)) ++
      sectionsFrom (off + (72 + 80 * s.sections.length)) cs
  | off, .other c :: cs => sectionsFrom (off + (8 + c.body.length)) cs

/-- The offset of the first header. -/
def firstHeader (sections : List (Nat × Section)) : Nat := (sections[0]?.map Prod.fst).getD 0

/-- The offset of header `k`, or `first` for `__bss`, or zero when there is none. -/
def headerOf (sections : List (Nat × Section)) (first k : Nat) : Nat :=
  match sections[k]? with
  | none => 0
  | some (off, s) => if s.isBs then first else off

/-- What the lookup of a section stands for. -/
def sectionOffset (x : Image) (num : Nat) : Nat :=
  headerOf (sectionsFrom 32 x.commands) (firstHeader (sectionsFrom 32 x.commands)) (num - 1)

/-- The commands behind the first segment with which the first `k` sections end. -/
def behindSections : Nat → List LoadCommand → Option (List LoadCommand)
  | _, [] => none
  | k, .segment s :: cs =>
    if s.sections.length = k then some cs
    else if k < s.sections.length then none
    else behindSections (k - s.sections.length) cs
  | k, .other _ :: cs => behindSections k cs

/-! ## Reading an image -/

section Holds

variable {m : Mem} {a : Nat} {xs ys : Bytes}

theorem read32_of_holds (h : Holds m a xs) (hlength : 4 ≤ xs.length) :
    read32 m a = UInt32.ofNat (leValue (xs.take 4)) := by
  obtain ⟨b0, b1, b2, b3, rest, rfl⟩ : ∃ b0 b1 b2 b3 rest, xs = b0 :: b1 :: b2 :: b3 :: rest := by
    match xs, hlength with
    | b0 :: b1 :: b2 :: b3 :: rest, _ => exact ⟨b0, b1, b2, b3, rest, rfl⟩
  rw [read32, h 1 b1 rfl, h 2 b2 rfl, h 3 b3 rfl]
  have h0 : m a = b0 := h 0 b0 rfl
  rw [h0]
  rfl

theorem read32_field {v : Nat} (h : Holds m a (leBytes 4 v ++ xs)) (hv : v < 2 ^ 32) :
    read32 m a = UInt32.ofNat v := by
  have hlength := length_leBytes 4 v
  rw [read32_of_holds (Holds.left h) (Nat.le_of_eq hlength.symm),
    take_of_length_le (Nat.le_of_eq hlength), leValue_leBytes, Nat.mod_eq_of_lt hv]

end Holds

theorem length_write : c.write.length = c.cmdsize := by
  cases c with
  | other c =>
    simp only [LoadCommand.write, LoadCommand.body, LoadCommand.cmdsize, length_append,
      length_leBytes]
    omega
  | segment s =>
    have hsections : (s.sections.flatMap Section.bytes).length = 80 * s.sections.length := by
      rw [length_flatMap, map_congr_left fun x _ => x.length_bytes, map_const',
        sum_replicate_nat, Nat.mul_comm]
    simp only [LoadCommand.write, LoadCommand.body, LoadCommand.cmdsize, length_append,
      length_leBytes, s.length_fields, hsections]
    omega

theorem read32_section {a : Nat} {s : Section} (h : Holds m a s.bytes) :
    read32 m a = 0x73625F5F ↔ s.isBs = true := by
  have hlength := s.length_bytes
  rw [read32_of_holds h (by omega), Section.isBs, decide_eq_true_iff]
  match s.bytes, hlength with
  | b0 :: b1 :: b2 :: b3 :: rest, _ =>
    simp only [take_succ_cons, take_zero, leValue, cons.injEq, and_true,
      ← UInt8.toNat_inj, ← UInt32.toNat_inj, UInt32.toNat_ofNat', UInt8.reduceToNat,
      UInt32.reduceToNat]
    have h0 := b0.toNat_lt
    have h1 := b1.toNat_lt
    have h2 := b2.toNat_lt
    have h3 := b3.toNat_lt
    omega

theorem read32_command {c : LoadCommand} (h : Holds m off c.write)
    (hsize : off + c.cmdsize < 2 ^ 32) :
    read32 m off = c.cmd ∧ read32 m (off + 4) = UInt32.ofNat c.cmdsize := by
  constructor
  · rw [read32_field h c.cmd.toNat_lt, UInt32.ofNat_toNat]
  · have hfield := Holds.right h
    exact read32_field hfield (by omega)

theorem read32_nsects (h : Holds m off (LoadCommand.segment s).write)
    (hsize : off + (LoadCommand.segment s).cmdsize < 2 ^ 32) :
    read32 m (off + 64) = UInt32.ofNat s.sections.length := by
  have hfield := Holds.right (Holds.right (Holds.right h))
  rw [length_leBytes, length_leBytes, s.length_fields] at hfield
  simp only [LoadCommand.cmdsize] at hsize
  exact read32_field hfield (by omega)

theorem holds_flatMap {α : Type} {f : α → Bytes} {n : Nat} {xs : List α}
    (hf : ∀ x, (f x).length = n) : ∀ {a k : Nat} {x : α}, Holds m a (xs.flatMap f) →
      xs[k]? = some x → Holds m (a + n * k) (f x) := by
  induction xs with
  | nil =>
    intro a k x _ hk
    exact absurd hk (by simp)
  | cons y xs ih =>
    intro a k x h hk
    cases k with
    | zero =>
      obtain rfl : y = x := Option.some.inj hk
      exact Holds.left h
    | succ k =>
      have hrest := ih (Holds.right h) hk
      rw [hf] at hrest
      rwa [Nat.mul_succ, Nat.add_comm (n * k), ← Nat.add_assoc]

theorem holds_section {x : Section} (h : Holds m off (LoadCommand.segment s).write)
    (hk : s.sections[k]? = some x) : Holds m (off + 72 + 80 * k) x.bytes := by
  have hsections := Holds.right (Holds.right (Holds.right (Holds.right (Holds.right h))))
  simp only [length_leBytes, s.length_fields, Nat.add_assoc, Nat.reduceAdd] at hsections
  exact holds_flatMap Section.length_bytes hsections hk

/-! ## One command -/

theorem toNat_word {a : Nat} (h : a < 2 ^ 32) : (UInt32.ofNat a).toNat = a :=
  UInt32.toNat_ofNat_of_lt' h

section Step

variable {m : Mem} {off cur k n : Nat} {text : UInt32}

theorem searchCommands_other {c : OtherCommand} (num currsect text : UInt32)
    (h : Holds m off (LoadCommand.other c).write)
    (hsize : off + (LoadCommand.other c).cmdsize < 2 ^ 32) :
    searchCommands m num (n + 1) (UInt32.ofNat off) currsect text =
      searchCommands m num n (UInt32.ofNat (off + (LoadCommand.other c).cmdsize)) currsect
        text := by
  obtain ⟨hcmd, hcmdsize⟩ := read32_command h hsize
  have hne : (LoadCommand.other c).cmd ≠ lcSegment64 := c.cmd_ne
  rw [searchCommands, toNat_word (by omega), hcmd, if_neg hne, hcmdsize, ← UInt32.ofNat_add]

theorem reached_iff {count : Nat} (hcount : cur + count < 2 ^ 32) (hnum : cur + k + 1 < 2 ^ 32) :
    UInt32.ofNat (cur + k + 1) - 1 ≤ UInt32.ofNat cur + UInt32.ofNat count ↔ k ≤ count := by
  have hone : UInt32.ofNat (cur + k + 1) - 1 = UInt32.ofNat (cur + k) :=
    (UInt32.ofNat_sub (Nat.le_add_left 1 (cur + k))).symm
  rw [hone, ← UInt32.ofNat_add, UInt32.le_iff_toNat_le, toNat_word hcount, toNat_word (by omega)]
  omega

theorem sectAddr_eq (off cur k : Nat) :
    UInt32.ofNat off + 72 + 80 * (UInt32.ofNat (cur + k + 1) - UInt32.ofNat cur - 1) =
      UInt32.ofNat (off + 72 + 80 * k) := by
  have hk : UInt32.ofNat (cur + k + 1) - UInt32.ofNat cur - 1 = UInt32.ofNat k := by
    have hone : UInt32.ofNat (k + 1) - UInt32.ofNat 1 = UInt32.ofNat k :=
      (UInt32.ofNat_sub (Nat.le_add_left 1 k)).symm
    rw [Nat.add_assoc, UInt32.ofNat_add cur, UInt32.add_comm, UInt32.add_sub_cancel]
    exact hone
  rw [hk, UInt32.ofNat_add, UInt32.ofNat_add, UInt32.ofNat_mul]
  rfl

theorem ofNat_eq_zero_iff (h : cur < 2 ^ 32) : UInt32.ofNat cur = 0 ↔ cur = 0 := by
  rw [← UInt32.toNat_inj, toNat_word h]
  rfl

variable {s : Segment} (h : Holds m off (LoadCommand.segment s).write)
  (hsize : off + (LoadCommand.segment s).cmdsize < 2 ^ 32) (hcur : 80 * cur ≤ off)
  (hnum : cur + k + 1 < 2 ^ 32)

include h hsize hcur hnum

/-- A segment that ends before the section is passed over. -/
theorem searchCommands_further (hk : s.sections.length < k) :
    searchCommands m (UInt32.ofNat (cur + k + 1)) (n + 1) (UInt32.ofNat off) (UInt32.ofNat cur)
      text =
      searchCommands m (UInt32.ofNat (cur + k + 1)) n
        (UInt32.ofNat (off + (LoadCommand.segment s).cmdsize))
        (UInt32.ofNat (cur + s.sections.length))
        (if cur = 0 then UInt32.ofNat (off + 72) else text) := by
  obtain ⟨hcmd, hcmdsize⟩ := read32_command h hsize
  have hseg : (LoadCommand.segment s).cmd = lcSegment64 := rfl
  have hcount : cur + s.sections.length < 2 ^ 32 := by
    omega
  have hnot : ¬ UInt32.ofNat (cur + k + 1) - 1 ≤ UInt32.ofNat cur +
      UInt32.ofNat s.sections.length := by
    rw [reached_iff hcount hnum]
    omega
  rw [searchCommands, toNat_word (by omega), hcmd, hseg, if_pos rfl, hcmdsize,
    read32_nsects h hsize]
  rw [if_neg hnot, UInt32.ofNat_add off, UInt32.ofNat_add off, UInt32.ofNat_add cur]
  simp only [ofNat_eq_zero_iff (show cur < 2 ^ 32 by omega)]
  rfl

theorem searchCommands_stop (hk : k ≤ s.sections.length) :
    searchCommands m (UInt32.ofNat (cur + k + 1)) (n + 1) (UInt32.ofNat off) (UInt32.ofNat cur)
      text =
      if read32 m (off + 72 + 80 * k) = 0x73625F5F then
        if cur = 0 then UInt32.ofNat (off + 72) else text
      else UInt32.ofNat (off + 72 + 80 * k) := by
  obtain ⟨hcmd, hcmdsize⟩ := read32_command h hsize
  have hseg : (LoadCommand.segment s).cmd = lcSegment64 := rfl
  simp only [LoadCommand.cmdsize] at hsize
  have hcount : cur + s.sections.length < 2 ^ 32 := by omega
  rw [searchCommands, toNat_word (by omega), hcmd, hseg, if_pos rfl,
    read32_nsects h (by simpa only [LoadCommand.cmdsize] using hsize)]
  dsimp only
  rw [if_pos ((reached_iff hcount hnum).mpr hk), sectAddr_eq, toNat_word (by omega),
    UInt32.ofNat_add off]
  simp only [ofNat_eq_zero_iff (show cur < 2 ^ 32 by omega)]
  rfl

end Step

/-! ## The walk along the commands -/

theorem cmdsizes_cons (cs : List LoadCommand) : cmdsizes (c :: cs) = c.cmdsize + cmdsizes cs := by
  rfl

/-- The sections of one segment, with the offsets of their headers. -/
def Segment.headers (s : Segment) (off : Nat) : List (Nat × Section) :=
  s.sections.mapIdx fun k x => (off + 72 + 80 * k, x)

theorem sectionsFrom_segment (off : Nat) (s : Segment) (cs : List LoadCommand) :
    sectionsFrom off (.segment s :: cs) =
      s.headers off ++ sectionsFrom (off + (LoadCommand.segment s).cmdsize) cs := rfl

theorem length_headers (s : Segment) (off : Nat) :
    (s.headers off).length = s.sections.length := length_mapIdx

theorem getElem?_headers (s : Segment) (off k : Nat) :
    (s.headers off)[k]? = s.sections[k]?.map fun x => (off + 72 + 80 * k, x) :=
  getElem?_mapIdx

theorem sectionsFrom_ge : ∀ {off : Nat}, ∀ p ∈ sectionsFrom off cs, off + 72 ≤ p.1 := by
  induction cs with
  | nil =>
    intro off p hp
    exact absurd hp not_mem_nil
  | cons c cs ih =>
    intro off p hp
    cases c with
    | other c =>
      have := ih p hp
      omega
    | segment s =>
      rw [sectionsFrom_segment, mem_append] at hp
      rcases hp with hp | hp
      · obtain ⟨k, hk⟩ := mem_iff_getElem?.mp hp
        rw [getElem?_headers] at hk
        obtain ⟨x, -, rfl⟩ := Option.map_eq_some_iff.mp hk
        exact Nat.le_add_right _ _
      · have := ih p hp
        omega

theorem getElem?_behind_segment (hk : s.sections.length ≤ k) :
    (sectionsFrom off (.segment s :: cs))[k]? =
      (sectionsFrom (off + (LoadCommand.segment s).cmdsize) cs)[k - s.sections.length]? := by
  rw [sectionsFrom_segment, getElem?_append_right (by rwa [length_headers]), length_headers]

theorem getElem?_in_segment (hk : k < s.sections.length) :
    (sectionsFrom off (.segment s :: cs))[k]? =
      some (off + 72 + 80 * k, s.sections[k]) := by
  rw [sectionsFrom_segment, getElem?_append_left (by rwa [length_headers]), getElem?_headers,
    getElem?_eq_getElem hk]
  rfl

theorem firstHeader_segment (h : 0 < s.sections.length) :
    firstHeader (sectionsFrom off (.segment s :: cs)) = off + 72 := by
  rw [firstHeader, getElem?_in_segment h]
  rfl

theorem firstHeader_empty (h : s.sections.length = 0) :
    firstHeader (sectionsFrom off (.segment s :: cs)) =
      firstHeader (sectionsFrom (off + (LoadCommand.segment s).cmdsize) cs) := by
  rw [firstHeader, getElem?_behind_segment (by omega), h]
  rfl

section Walk

variable {m : Mem} {cs : List LoadCommand}

/-- Where no segment ends with the section before, the walk finds the section. -/
theorem searchCommands_finds : ∀ {off cur k text : Nat},
    Holds m off (cs.flatMap LoadCommand.write) → off + cmdsizes cs < 2 ^ 32 → 80 * cur ≤ off →
    cur + k + 1 < 2 ^ 32 → text < 2 ^ 32 → behindSections k cs = none →
    (searchCommands m (UInt32.ofNat (cur + k + 1)) cs.length (UInt32.ofNat off) (UInt32.ofNat cur)
      (UInt32.ofNat text)).toNat =
      headerOf (sectionsFrom off cs)
        (if cur = 0 then firstHeader (sectionsFrom off cs) else text) k := by
  induction cs with
  | nil =>
    intro off cur k text _ _ _ _ _ _
    rfl
  | cons c cs ih =>
    intro off cur k text h hsize hcur hnum htext hnone
    have hrest := Holds.right h
    have hhere := Holds.left h
    rw [length_write] at hrest
    rw [cmdsizes_cons] at hsize
    rw [length_cons]
    cases c with
    | other c =>
      rw [searchCommands_other _ _ _ hhere (by omega)]
      exact ih hrest (by omega) (by omega) hnum htext hnone
    | segment s =>
      have hcmdsize : (LoadCommand.segment s).cmdsize = 72 + 80 * s.sections.length := rfl
      rw [behindSections] at hnone
      split at hnone
      · exact absurd hnone (by simp)
      next hne =>
      split at hnone
      · next hlt =>
        have hsection := read32_section (holds_section hhere (getElem?_eq_getElem hlt))
        rw [searchCommands_stop hhere (by omega) hcur hnum (Nat.le_of_lt hlt), headerOf,
          getElem?_in_segment hlt, firstHeader_segment (by omega)]
        simp only [hsection]
        split
        · split
          · exact toNat_word (by omega)
          · exact toNat_word htext
        · exact toNat_word (by omega)
      · next hle =>
        have hlt : s.sections.length < k := by omega
        have hsum : cur + k + 1 = cur + s.sections.length + (k - s.sections.length) + 1 := by omega
        rw [searchCommands_further hhere (by omega) hcur hnum hlt, headerOf,
          getElem?_behind_segment (Nat.le_of_lt hlt), hsum, ← apply_ite UInt32.ofNat]
        rw [ih hrest (by omega) (by omega) (by omega) (by split <;> omega) hnone, headerOf]
        have hfirst : (if cur + s.sections.length = 0 then
            firstHeader (sectionsFrom (off + (LoadCommand.segment s).cmdsize) cs)
            else if cur = 0 then off + 72 else text) =
            if cur = 0 then firstHeader (sectionsFrom off (.segment s :: cs)) else text := by
          by_cases hzero : cur = 0
          · by_cases hempty : s.sections.length = 0
            · rw [if_pos (by omega), if_pos hzero, firstHeader_empty hempty]
            · rw [if_neg (by omega), if_pos hzero, if_pos hzero, firstHeader_segment (by omega)]
          · rw [if_neg (by omega), if_neg hzero, if_neg hzero]
        rw [hfirst]

/-- Where a segment ends with the section before, the walk stops at the end of the segment. -/
theorem searchCommands_misses {rest : List LoadCommand} : ∀ {off cur k text : Nat},
    Holds m off (cs.flatMap LoadCommand.write) → off + cmdsizes cs < 2 ^ 32 → 80 * cur ≤ off →
    cur + k + 1 < 2 ^ 32 → text < 2 ^ 32 → behindSections k cs = some rest →
    ∃ behind, Holds m behind (rest.flatMap LoadCommand.write) ∧
      behind + cmdsizes rest = off + cmdsizes cs ∧ off + 72 ≤ behind ∧
      (sectionsFrom off cs)[k]? = (sectionsFrom behind rest)[0]? ∧
      (0 < k → 32 < firstHeader (sectionsFrom off cs) ∧
        firstHeader (sectionsFrom off cs) < behind) ∧
      (searchCommands m (UInt32.ofNat (cur + k + 1)) cs.length (UInt32.ofNat off)
        (UInt32.ofNat cur) (UInt32.ofNat text)).toNat =
        if read32 m behind = 0x73625F5F then
          if cur = 0 then if k = 0 then behind else firstHeader (sectionsFrom off cs) else text
        else behind := by
  induction cs with
  | nil =>
    intro off cur k text _ _ _ _ _ hsome
    exact absurd hsome (by simp [behindSections])
  | cons c cs ih =>
    intro off cur k text h hsize hcur hnum htext hsome
    have hrest := Holds.right h
    have hhere := Holds.left h
    rw [length_write] at hrest
    rw [cmdsizes_cons] at hsize ⊢
    rw [length_cons]
    cases c with
    | other c =>
      obtain ⟨behind, hholds, hend, hle, hsections, hfirst, hresult⟩ :=
        ih hrest (by omega) (by omega) hnum htext hsome
      refine ⟨behind, hholds, by omega, by omega, hsections, hfirst, ?_⟩
      rw [searchCommands_other _ _ _ hhere (by omega), hresult]
      rfl
    | segment s =>
      have hcmdsize : (LoadCommand.segment s).cmdsize = 72 + 80 * s.sections.length := rfl
      rw [behindSections] at hsome
      split at hsome
      · next heq =>
        obtain rfl := Option.some.inj hsome
        refine ⟨_, hrest, by omega, by omega, ?_, ?_, ?_⟩
        · rw [getElem?_behind_segment (by omega), heq, Nat.sub_self]
        · intro hpos
          rw [firstHeader_segment (by omega)]
          omega
        · have hend : off + (LoadCommand.segment s).cmdsize = off + 72 + 80 * k := by omega
          rw [searchCommands_stop hhere (by omega) hcur hnum (by omega), hend]
          split
          · split
            · by_cases hk : k = 0
              · rw [if_pos hk, hk]
                exact toNat_word (by omega)
              · rw [if_neg hk, firstHeader_segment (by omega)]
                exact toNat_word (by omega)
            · exact toNat_word htext
          · exact toNat_word (by omega)
      next hne =>
      split at hsome
      · exact absurd hsome (by simp)
      next hle =>
      have hlt : s.sections.length < k := by omega
      have hsum : cur + k + 1 = cur + s.sections.length + (k - s.sections.length) + 1 := by omega
      have htext' : (if cur = 0 then off + 72 else text) < 2 ^ 32 := by
        split <;> omega
      have hcur' : 80 * (cur + s.sections.length) ≤ off + (LoadCommand.segment s).cmdsize := by
        omega
      obtain ⟨behind, hholds, hend, hle, hsections, hfirst, hresult⟩ :=
        ih hrest (by omega) hcur' (by omega) htext' hsome
      have hheader : 32 < firstHeader (sectionsFrom off (.segment s :: cs)) ∧
          firstHeader (sectionsFrom off (.segment s :: cs)) < behind := by
        by_cases hempty : s.sections.length = 0
        · rw [firstHeader_empty hempty]
          exact hfirst (by omega)
        · rw [firstHeader_segment (by omega)]
          omega
      refine ⟨behind, hholds, by omega, by omega, ?_, fun _ => hheader, ?_⟩
      · rw [getElem?_behind_segment (Nat.le_of_lt hlt), hsections]
      · rw [searchCommands_further hhere (by omega) hcur hnum hlt, hsum,
          ← apply_ite UInt32.ofNat, hresult]
        have htexts : (if cur + s.sections.length = 0 then
            if k - s.sections.length = 0 then behind
            else firstHeader (sectionsFrom (off + (LoadCommand.segment s).cmdsize) cs)
            else if cur = 0 then off + 72 else text) =
            if cur = 0 then
              if k = 0 then behind else firstHeader (sectionsFrom off (.segment s :: cs))
            else text := by
          by_cases hzero : cur = 0
          · by_cases hempty : s.sections.length = 0
            · rw [firstHeader_empty hempty, if_pos (by omega), if_pos hzero, hempty, Nat.sub_zero]
            · rw [firstHeader_segment (by omega), if_neg (by omega), if_pos hzero, if_pos hzero,
                if_neg (by omega)]
          · rw [if_neg (by omega), if_neg hzero, if_neg hzero]
        rw [htexts]

end Walk

/-! ## Lookup -/

theorem eight_le_cmdsize : 8 ≤ c.cmdsize := by
  cases c with
  | other c => exact Nat.le_add_right _ _
  | segment s =>
    rw [LoadCommand.cmdsize]
    omega

theorem length_le_cmdsizes (cs : List LoadCommand) : cs.length ≤ cmdsizes cs := by
  induction cs with
  | nil => exact Nat.le_refl 0
  | cons c cs ih =>
    have hc := eight_le_cmdsize c
    rw [cmdsizes_cons, length_cons]
    omega

section Header

variable {m : Mem} {x : Image} (h : Holds m 0 x.write)

include h

theorem read32_ncmds : (read32 m 16).toNat = x.commands.length := by
  have hfield := Holds.right h
  rw [x.length_front] at hfield
  have hlength := length_le_cmdsizes x.commands
  have hfits := x.fits
  rw [read32_field hfield (by omega), toNat_word (by omega)]

end Header

/-- The lookup of section `Num` is right unless a segment ends with section `Num - 1`; even then it
can be, where the command behind that segment has the number that `__bs` spells. -/
theorem searchSectionByNum_iff (m : Mem) (x : Image) (h : Holds m 0 x.write) (num : UInt32)
    (hnum : 0 < num.toNat) :
    (searchSectionByNum m num).toNat = sectionOffset x num.toNat ↔
      behindSections (num.toNat - 1) x.commands = none ∨
      ∃ c rest off s, behindSections (num.toNat - 1) x.commands = some (c :: rest) ∧
        c.cmd = 0x73625F5F ∧ 1 < num.toNat ∧
        (sectionsFrom 32 x.commands)[num.toNat - 1]? = some (off, s) ∧ s.isBs = true := by
  have hfits := x.fits
  obtain ⟨k, hk⟩ : ∃ k, num.toNat = 0 + k + 1 := ⟨num.toNat - 1, by omega⟩
  have hword : num = UInt32.ofNat (0 + k + 1) := by rw [← hk, UInt32.ofNat_toNat]
  have hrun : searchSectionByNum m num =
      searchCommands m (UInt32.ofNat (0 + k + 1)) x.commands.length (UInt32.ofNat 32)
        (UInt32.ofNat 0) (UInt32.ofNat 0) := by
    have hne : num ≠ 0 := by
      rintro rfl
      exact absurd hnum (by decide)
    rw [searchSectionByNum, if_neg hne, read32_ncmds h, ← hword]
    rfl
  have hcommands := Holds.right (Holds.right (Holds.right h))
  rw [x.length_front, length_leBytes, x.length_back, show 0 + 16 + 4 + 12 = 32 from rfl]
    at hcommands
  have hstart : 80 * 0 ≤ 32 := Nat.zero_le _
  have hword' : 0 + k + 1 < 2 ^ 32 := hk ▸ num.toNat_lt
  have hk' : num.toNat - 1 = k := by omega
  rw [hrun, sectionOffset, hk']
  cases hbehind : behindSections k x.commands with
  | none =>
    rw [searchCommands_finds hcommands hfits hstart hword' (Nat.two_pow_pos 32) hbehind]
    simp
  | some rest =>
    obtain ⟨behind, hholds, hend, hle, hsections, hfirst, hresult⟩ :=
      searchCommands_misses hcommands hfits hstart hword' (Nat.two_pow_pos 32) hbehind
    rw [hresult, headerOf, hsections, if_pos rfl]
    cases hsection : (sectionsFrom behind rest)[0]? with
    | none =>
      -- there is no section behind, and zero is no offset
      have hne : (if read32 m behind = 0x73625F5F then
          if k = 0 then behind else firstHeader (sectionsFrom 32 x.commands) else behind) ≠ 0 := by
        split
        · split
          · omega
          · omega
        · omega
      simpa using hne
    | some p =>
      obtain ⟨off, s⟩ := p
      have hoff : behind + 72 ≤ off := sectionsFrom_ge _ (mem_of_getElem? hsection)
      cases rest with
      | nil => exact absurd hsection (by simp [sectionsFrom])
      | cons c rest =>
        have hcmd : read32 m behind = c.cmd := by
          rw [cmdsizes_cons] at hend
          exact (read32_command (Holds.left hholds) (by omega)).1
        rw [hcmd]
        by_cases hzero : k = 0
        · -- the first header is the one behind
          have hheader : firstHeader (sectionsFrom 32 x.commands) = off := by
            rw [hzero, hsection] at hsections
            rw [firstHeader, hsections]
            rfl
          simp only [hheader, if_pos hzero, ite_self]
          constructor
          · intro heq
            omega
          · rintro (hnone | ⟨_, _, _, _, _, _, hlt, _⟩)
            · exact absurd hnone (by simp)
            · omega
        · simp only [if_neg hzero]
          constructor
          · intro heq
            by_cases hbs : c.cmd = 0x73625F5F ∧ s.isBs = true
            · exact Or.inr ⟨c, rest, off, s, rfl, hbs.1, by omega, rfl, hbs.2⟩
            · split at heq <;> split at heq
              · next h₁ h₂ => exact absurd ⟨h₁, h₂⟩ hbs
              all_goals omega
          · rintro (hnone | ⟨c', rest', off', s', hrest, hbs, -, hsome, hisBs⟩)
            · exact absurd hnone (by simp)
            · obtain ⟨rfl, rfl⟩ := cons.inj (Option.some.inj hrest)
              obtain ⟨rfl, rfl⟩ := Prod.mk.inj (Option.some.inj hsome)
              rw [if_pos hbs, if_pos hisBs]

/-! ## Two segments of one section -/

def textSegment : Segment where
  fields := replicate 56 0
  flags := 0
  sections := [⟨replicate 80 0, rfl⟩]
  length_fields := rfl

def twoSegments : Image where
  front := replicate 16 0
  back := replicate 12 0
  commands := [.segment textSegment, .segment textSegment]
  length_front := rfl
  length_back := rfl
  fits := by decide

def twoSegmentsMem : Mem := fun a => twoSegments.write.getD a 0

theorem holds_twoSegments : Holds twoSegmentsMem 0 twoSegments.write := by
  intro k b hk
  rw [twoSegmentsMem, Nat.zero_add, getD_eq_getElem?_getD, hk]
  rfl

theorem searchSectionByNum_iff_first :
    (searchSectionByNum twoSegmentsMem 1).toNat = sectionOffset twoSegments 1 := by
  apply (searchSectionByNum_iff twoSegmentsMem twoSegments holds_twoSegments 1 (by decide)).mpr
  exact Or.inl rfl

/-- The header of the second section is at 256, and there is no third. -/
theorem second_section_missed : Holds twoSegmentsMem 0 twoSegments.write ∧
    (searchSectionByNum twoSegmentsMem 2).toNat = 184 ∧ sectionOffset twoSegments 2 = 256 ∧
    (searchSectionByNum twoSegmentsMem 3).toNat = 336 ∧ sectionOffset twoSegments 3 = 0 := by
  refine ⟨holds_twoSegments, ?_⟩
  decide +kernel

end Clover.Kernel
