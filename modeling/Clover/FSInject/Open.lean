import Clover.FSInject.Names

/-!
# Opening files through the injection driver

`FSI_SFS_OpenVolume` and `FSI_FP_Open` of `FSInject/FSInject.c`. A handle is backed by a file of the
target volume, by a file of the injection volume, or by both. A name opened through it is looked for
on the target volume and in the injection directory, but in an order that depends on the handle.

A volume is the set of its paths: it opens a path exactly if the path is in the set.
-/

namespace Clover.FSInject

open Option

/-- The error codes of type `EFI_STATUS`. -/
inductive EfiError where
  | notFound
  | deviceError
  | writeProtected
  | other (code : UInt64)
  deriving DecidableEq, Repr

/-- A volume, with the error it reports for a path it does not have. -/
structure Volume where
  hasPath : Text → Bool
  failure : Text → UInt64 → UInt64 → EfiError
  notProtected : ∀ path openMode attributes, failure path openMode attributes ≠ .writeProtected

/-- The fields of `FSI_SIMPLE_FILE_SYSTEM_PROTOCOL`. -/
structure FileSystem where
  tgtFS : Volume
  tgtDir : Text
  srcFS : Option Volume
  srcDir : Option Text
  blacklist : List Text

/-- The file of the injection directory that stands for a path in the target directory, whose name
is the `same` as the front of the path. -/
def InjectedBy (same : List UInt16 → List UInt16 → Prop) (fs : FileSystem) (path file : Text) :
    Prop :=
  ∃ srcFS srcDir rest, fs.srcFS = some srcFS ∧ fs.srcDir = some srcDir ∧
    Inside same fs.tgtDir path rest ∧ file = srcDir.append rest ∧ srcFS.hasPath file

def Injected : FileSystem → Text → Text → Prop := InjectedBy SameName

/-- The file that the code takes for the injected one. -/
def Taken : FileSystem → Text → Text → Prop := InjectedBy Alike

theorem Injected.taken {fs : FileSystem} {path file : Text} (h : Injected fs path file) :
    Taken fs path file := by
  obtain ⟨srcFS, srcDir, rest, hFS, hDir, ⟨front, hfront, hsame, hcurrent⟩, hfile⟩ := h
  exact ⟨srcFS, srcDir, rest, hFS, hDir, ⟨front, hfront, hsame.alike, hcurrent⟩, hfile⟩

section Parts

variable {fs : FileSystem} {this : FileProtocol} {path : Text} {openMode attributes : UInt64}
  {srcFS : Volume}

end Parts

/-! ## The handles that are reached -/

section Handles

variable {fs : FileSystem} {this new : FileProtocol} {path : Text} {openMode attributes : UInt64}

end Handles

/-! ## Which calls resolve their name -/

section Resolution

variable {fs : FileSystem} {this : FileProtocol} {path : Text} {openMode attributes : UInt64}

end Resolution

end Clover.FSInject
