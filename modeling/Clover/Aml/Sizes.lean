import Clover.Aml.Generator

/-!
# Sizes of generated AML

`aml_calculate_size` predicts the size of every node before `aml_write_node` writes the tree,
and the length in front of a package is chosen independently by the two. `encodedLength` is
what the sizes are meant to be, and `Emits` says of a calculated node that it is written with
`Size` bytes and the right length.

The prediction counts the opcode when it chooses the width of the length. For the opcodes of
one byte this leaves room and never goes wrong; a device has an opcode of two bytes, and at
61 and at 4092 bytes of contents the length is written one byte shorter than predicted
(`fieldWidth_eq_iff`). `built_emits_iff` is the result for all trees: every node is emitted
right just when no device is at one of these two sizes.
-/

namespace Clover.Aml

open List

variable {type : ChunkType} {length size : UInt16} {buffer name : Bytes}
  {children cs : List AmlChunk} {node t : AmlChunk} {content w : Nat} {P : AmlChunk → Prop}

/-! ## Trees -/

namespace AmlChunk

@[elab_as_elim]
theorem inductionOn (node : ∀ t, (∀ c ∈ t.children, P c) → P t) : ∀ t, P t
  | mk _ _ _ _ children => node _ fun c (_ : c ∈ children) => inductionOn node c

mutual

/-- A node and all its descendants. -/
def nodes : AmlChunk → List AmlChunk
  | mk type length buffer size children =>
    mk type length buffer size children :: nodesOf children

def nodesOf : List AmlChunk → List AmlChunk
  | [] => []
  | c :: cs => nodes c ++ nodesOf cs

end

theorem nodesOf_eq (cs : List AmlChunk) : nodesOf cs = cs.flatMap nodes := by
  induction cs with
  | nil => rfl
  | cons c cs ih => rw [nodesOf, ih, flatMap_cons]

theorem nodes_eq (t : AmlChunk) : t.nodes = t :: t.children.flatMap nodes := by
  cases t
  rw [nodes, nodesOf_eq]
  rfl

theorem forall_nodes : (∀ n ∈ t.nodes, P n) ↔ P t ∧ ∀ c ∈ t.children, ∀ n ∈ c.nodes, P n := by
  rw [nodes_eq, forall_mem_cons, forall_mem_flatMap]

end AmlChunk

/-! ## One node at a time -/

/-- The width of the opcode that stands before the length of a package. -/
def ChunkType.pkgOpcode : ChunkType → Option Nat
  | .device => some 2
  | .scope | .method | .package | .buffer => some 1
  | _ => Option.none

/-- The width of the opcode of a node that is no package. The `Length` of `LOCAL0` and of a
store counts the opcode, and the constants zero and one are their own opcodes. -/
def plainOpcode (type : ChunkType) (buffer : Bytes) : Nat :=
  match type with
  | .none | .local0 | .store => 0
  | .byte => if buffer.getD 0 0 = 0x0 ∨ buffer.getD 0 0 = 0x1 then 0 else 1
  | _ => 1

/-- The `Size` of a node whose children sum up to `size`. -/
def nodeSize (type : ChunkType) (length : UInt16) (buffer : Bytes) (size : UInt16) : UInt16 :=
  match type.pkgOpcode with
  | some w =>
    let size := size + (w.toUInt16 + length)
    size + (amlGetSizeLength size.toUInt32).toUInt16
  | none => size + ((plainOpcode type buffer).toUInt16 + length)

/-- What is written of a node before its children. -/
def headBytes (type : ChunkType) (length : UInt16) (buffer : Bytes) (size : UInt16) : Bytes :=
  match type.pkgOpcode with
  | some w =>
    (if w = 2 then [0x5B, type.code] else [type.code]) ++ sizeBytes (size.toUInt32 - w.toUInt32) ++
      buffer.take length.toNat
  | none =>
    match type with
    | .local0 | .store => [type.code]
    | _ => (if plainOpcode type buffer = 1 then [type.code] else []) ++ buffer.take length.toNat

theorem amlCalculateChildren_fst (cs : List AmlChunk) (count : UInt8) (size : UInt16) :
    (amlCalculateChildren cs count size).1 = cs.map amlCalculateSize := by
  induction cs generalizing count size with
  | nil => rfl
  | cons c cs ih => simp [amlCalculateChildren, ih]

theorem amlCalculateChildren_size (cs : List AmlChunk) (count : UInt8) (size : UInt16) :
    (amlCalculateChildren cs count size).2.2.toNat =
      (size.toNat + (cs.map fun c => (amlCalculateSize c).size.toNat).sum) % 0x10000 := by
  induction cs generalizing count size with
  | nil =>
    have := size.toNat_lt
    simp only [amlCalculateChildren, map_nil, sum_nil]
    omega
  | cons c cs ih =>
    simp only [amlCalculateChildren, ih, map_cons, sum_cons, UInt16.toNat_add]
    omega

/-- Only the size is filled in, and the count of a package. -/
theorem amlCalculateSize_eq (t : AmlChunk) :
    ∃ count : UInt8, amlCalculateSize t =
      .mk t.type t.length (if t.type = .package then t.buffer.set 0 count else t.buffer)
        (nodeSize t.type t.length t.buffer (amlCalculateChildren t.children 0 0).2.2)
        (t.children.map amlCalculateSize) := by
  obtain ⟨type, length, buffer, size, children⟩ := t
  refine ⟨(amlCalculateChildren children 0 0).2.1, ?_⟩
  rw [amlCalculateSize, ← amlCalculateChildren_fst _ 0 0]
  dsimp only [AmlChunk.type, AmlChunk.length, AmlChunk.buffer, AmlChunk.children]
  cases type with
  | byte =>
    by_cases h : buffer.getD 0 0 = 0x0 ∨ buffer.getD 0 0 = 0x1
    · simp only [if_pos h, nodeSize, ChunkType.pkgOpcode, plainOpcode, reduceCtorEq, if_false]
      simp
    · simp only [if_neg h, nodeSize, ChunkType.pkgOpcode, plainOpcode, reduceCtorEq, if_false]
      simp
  | _ => simp [nodeSize, ChunkType.pkgOpcode, plainOpcode]

/-- A node is written as its head, with its children behind it. -/
theorem amlWriteNode_mk (type : ChunkType) (length : UInt16) (buffer : Bytes)
    (size : UInt16) (children : List AmlChunk) (out : Bytes) :
    amlWriteNode (.mk type length buffer size children) out =
      amlWriteChildren children (out ++ headBytes type length buffer size) := by
  cases type with
  | byte =>
    by_cases h : buffer.getD 0 0 = 0x0 ∨ buffer.getD 0 0 = 0x1
    · simp only [amlWriteNode, if_pos h, headBytes, ChunkType.pkgOpcode, plainOpcode,
        amlWriteBuffer]
      simp
    · simp only [amlWriteNode, if_neg h, headBytes, ChunkType.pkgOpcode, plainOpcode,
        amlWriteBuffer, amlWriteByte]
      simp
  | _ =>
    simp [amlWriteNode, headBytes, ChunkType.pkgOpcode, plainOpcode, amlWriteBuffer, amlWriteByte,
      amlWriteSize]

theorem amlWriteChildren_append
    (h : ∀ c ∈ cs, ∀ out, amlWriteNode c out = out ++ amlWriteNode c []) (out : Bytes) :
    amlWriteChildren cs out = out ++ cs.flatMap fun c => amlWriteNode c [] := by
  induction cs generalizing out with
  | nil => simp [amlWriteChildren]
  | cons c cs ih =>
    rw [amlWriteChildren, ih fun d hd => h d (mem_cons_of_mem _ hd),
      h c mem_cons_self, flatMap_cons, append_assoc]

theorem amlWriteNode_append (t : AmlChunk) :
    ∀ out, amlWriteNode t out = out ++ amlWriteNode t [] := by
  induction t using AmlChunk.inductionOn with
  | node t ih =>
    intro out
    obtain ⟨_, _, _, _, children⟩ := t
    change ∀ c ∈ children, _ at ih
    rw [amlWriteNode_mk, amlWriteNode_mk, amlWriteChildren_append ih, amlWriteChildren_append ih,
      nil_append, append_assoc]

theorem amlWriteNode_eq (type : ChunkType) (length : UInt16) (buffer : Bytes)
    (size : UInt16) (children : List AmlChunk) (out : Bytes) :
    amlWriteNode (.mk type length buffer size children) out =
      out ++ (headBytes type length buffer size ++ children.flatMap fun c =>
        amlWriteNode c []) := by
  rw [amlWriteNode_mk, amlWriteChildren_append fun c _ => amlWriteNode_append c,
    append_assoc]

/-! ## What the sizes should be -/

/-- The number of bytes for a length that counts `n` bytes and itself. -/
def pkgWidth (n : Nat) : Nat :=
  if n + 1 ≤ 0x3f then 1
  else if n + 2 ≤ 0xfff then 2
  else if n + 3 ≤ 0xfffff then 3
  else 4

theorem amlGetSizeLength_toNat (size : UInt32) (h : size.toNat < 0x10000) :
    (amlGetSizeLength size).toNat = pkgWidth size.toNat := by
  unfold amlGetSizeLength pkgWidth
  have h1 : (size + 1).toNat = size.toNat + 1 := by
    simp only [UInt32.toNat_add, UInt32.reduceToNat]
    omega
  have h2 : (size + 2).toNat = size.toNat + 2 := by
    simp only [UInt32.toNat_add, UInt32.reduceToNat]
    omega
  have h3 : (size + 3).toNat = size.toNat + 3 := by
    simp only [UInt32.toNat_add, UInt32.reduceToNat]
    omega
  simp only [UInt32.le_iff_toNat_le, h1, h2, h3, UInt32.reduceToNat]
  split
  · rfl
  · split
    · rfl
    · split <;> rfl

namespace AmlChunk

mutual

/-- The number of bytes of the AML code of a tree. The generator makes the length of a
package as wide as if it counted the opcode too. -/
def encodedLength : AmlChunk → Nat
  | mk type length buffer _ children =>
    let content := length.toNat + encodedLengthOf children
    match type.pkgOpcode with
    | some w => w + content + pkgWidth (w + content)
    | none => plainOpcode type buffer + content

def encodedLengthOf : List AmlChunk → Nat
  | [] => 0
  | c :: cs => encodedLength c + encodedLengthOf cs

end

/-- The number of bytes in a node after its opcode and its length. -/
def contentLength (t : AmlChunk) : Nat := t.length.toNat + encodedLengthOf t.children

theorem encodedLengthOf_eq (cs : List AmlChunk) :
    encodedLengthOf cs = (cs.map encodedLength).sum := by
  induction cs with
  | nil => rfl
  | cons c cs ih => rw [encodedLengthOf, ih, map_cons, sum_cons]

theorem encodedLength_le_of_mem {c : AmlChunk} (h : c ∈ cs) :
    c.encodedLength ≤ encodedLengthOf cs := by
  induction cs with
  | nil => exact absurd h not_mem_nil
  | cons d ds ih =>
    rw [encodedLengthOf]
    rcases mem_cons.mp h with rfl | h
    · omega
    · have := ih h
      omega

theorem encodedLength_pkg (h : t.type.pkgOpcode = some w) :
    t.encodedLength = w + t.contentLength + pkgWidth (w + t.contentLength) := by
  obtain ⟨type, _, _, _, _⟩ := t
  change type.pkgOpcode = _ at h
  simp only [encodedLength, h]
  rfl

theorem encodedLength_plain (h : t.type.pkgOpcode = none) :
    t.encodedLength = plainOpcode t.type t.buffer + t.contentLength := by
  obtain ⟨type, _, _, _, _⟩ := t
  change type.pkgOpcode = _ at h
  simp only [encodedLength, h]
  rfl

theorem contentLength_le (t : AmlChunk) : t.contentLength ≤ t.encodedLength := by
  cases h : t.type.pkgOpcode with
  | none => exact encodedLength_plain h ▸ Nat.le_add_left _ _
  | some w =>
    rw [encodedLength_pkg h]
    omega

end AmlChunk

/-! ## Sound nodes -/

/-- A node has the bytes its `Length` promises; the opcodes `LOCAL0` and store count one byte
and have no buffer. -/
def Sound (type : ChunkType) (length : UInt16) (buffer : Bytes) : Prop :=
  match type with
  | .local0 | .store => length = 1
  | _ => length.toNat ≤ buffer.length

/-- All nodes of a tree are sound. -/
def AmlChunk.AllSound (t : AmlChunk) : Prop :=
  ∀ n ∈ t.nodes, Sound n.type n.length n.buffer

theorem allSound_iff : t.AllSound ↔ Sound t.type t.length t.buffer ∧ ∀ c ∈ t.children, c.AllSound :=
  AmlChunk.forall_nodes

theorem allSound_leaf : (AmlChunk.leaf type length buffer).AllSound ↔ Sound type length buffer := by
  rw [allSound_iff]
  exact ⟨fun h => h.1, fun h => ⟨h, fun c hc => absurd hc not_mem_nil⟩⟩

theorem toUInt16_toNat_le (n : Nat) : n.toUInt16.toNat ≤ n := by
  exact Nat.mod_le _ _

theorem toUInt8_toNat_le (n : Nat) : n.toUInt8.toUInt16.toNat ≤ n := by
  exact Nat.mod_le _ _

theorem sound_of_le (htype : type ≠ .local0 ∧ type ≠ .store) (h : length.toNat ≤ buffer.length) :
    Sound type length buffer := by
  cases type with
  | local0 => exact absurd rfl htype.1
  | store => exact absurd rfl htype.2
  | _ => exact h

theorem namedNode_allSound (htype : type ≠ .local0 ∧ type ≠ .store)
    (h : namedNode type name = some node) :
    node.AllSound := by
  obtain ⟨bytes, -, rfl⟩ := Option.map_eq_some_iff.mp h
  exact allSound_leaf.mpr (sound_of_le htype (toUInt16_toNat_le _))

theorem amlAddMethod_allSound {args : UInt8}
    (h : amlAddMethod name args = some node) : node.AllSound := by
  unfold amlAddMethod at h
  split at h
  · cases h
  · cases h
  · next bytes _ _ =>
    cases h
    refine allSound_leaf.mpr (sound_of_le ⟨by decide, by decide⟩ ?_)
    have h1 : (bytes.length.toUInt16 + 1).toNat ≤ bytes.length.toUInt16.toNat + 1 := by
      exact Nat.mod_le _ _
    have h2 := toUInt16_toNat_le bytes.length
    rw [length_append, length_singleton]
    omega

theorem amlFillSimpleName_length (name : Bytes) : (amlFillSimpleName name).length = 4 := by
  unfold amlFillSimpleName
  split
  · rfl
  · rw [length_take]
    omega

/-- A call makes a node with as many bytes as its length says. -/
theorem Call.node_allSound {call : Call} (h : call.node = some node) : node.AllSound := by
  -- a buffer that is cut to the length that was stored
  have htake : ∀ {type : ChunkType} {length : UInt16} {bytes : Bytes},
      type ≠ .local0 ∧ type ≠ .store → length.toNat ≤ bytes.length →
      (AmlChunk.leaf type length (bytes.take length.toNat)).AllSound := by
    intro type length bytes htype hle
    refine allSound_leaf.mpr (sound_of_le htype ?_)
    rw [length_take]
    omega
  cases call with
  | scope n => exact namedNode_allSound ⟨by decide, by decide⟩ h
  | name n => exact namedNode_allSound ⟨by decide, by decide⟩ h
  | device n => exact namedNode_allSound ⟨by decide, by decide⟩ h
  | returnName n => exact namedNode_allSound ⟨by decide, by decide⟩ h
  | method n args => exact amlAddMethod_allSound h
  | buffer b =>
    cases h
    exact htake ⟨by decide, by decide⟩ (toUInt16_toNat_le _)
  | byteBuffer d =>
    cases h
    refine htake ⟨by decide, by decide⟩ ?_
    exact Nat.le_trans (toUInt8_toNat_le _) (by simp)
  | stringBuffer s =>
    cases h
    refine htake ⟨by decide, by decide⟩ ?_
    exact Nat.le_trans (toUInt8_toNat_le _) (by simp)
  | string s =>
    cases h
    refine htake ⟨by decide, by decide⟩ ?_
    exact Nat.le_trans (toUInt8_toNat_le _) (by simp)
  | aliasNames n1 n2 =>
    cases h
    refine allSound_leaf.mpr (sound_of_le ⟨by decide, by decide⟩ ?_)
    simp [amlFillSimpleName_length]
  | returnByte v =>
    cases h
    refine allSound_iff.mpr ⟨Nat.zero_le _, ?_⟩
    intro c hc
    rw [mem_singleton.mp hc]
    exact allSound_leaf.mpr (Nat.le_refl 1)
  | _ =>
    cases h
    exact allSound_leaf.mpr (by simp [Sound])

theorem amlAddToParent_allSound {parent : AmlChunk} (hparent : parent.AllSound)
    (hnode : node.AllSound) (h : amlAddToParent parent node = some t) : t.AllSound := by
  rw [allSound_iff] at hparent
  have hcases : t = .mk parent.type parent.length parent.buffer parent.size
      (parent.children ++ [node]) := by
    cases htype : parent.type <;> simp_all [amlAddToParent]
  rw [hcases]
  refine allSound_iff.mpr ⟨hparent.1, fun c hc => ?_⟩
  rcases mem_append.mp hc with hc | hc
  · exact hparent.2 c hc
  · rw [mem_singleton.mp hc]
    exact hnode

theorem addAt_allSound (hnode : node.AllSound) (path : List Nat) :
    ∀ t : AmlChunk, t.AllSound → (t.addAt path node).AllSound := by
  induction path with
  | nil =>
    intro t ht
    rw [AmlChunk.addAt]
    cases hadd : amlAddToParent t node with
    | none => exact ht
    | some t' => exact amlAddToParent_allSound ht hnode hadd
  | cons i path ih =>
    rintro ⟨type, length, buffer, size, children⟩ ht
    rw [AmlChunk.addAt]
    rw [allSound_iff] at ht ⊢
    refine ⟨ht.1, fun c hc => ?_⟩
    obtain ⟨j, hj⟩ := mem_iff_getElem?.mp (show c ∈ children.modify i _ from hc)
    rw [getElem?_modify] at hj
    obtain ⟨d, hd, rfl⟩ := Option.map_eq_some_iff.mp hj
    have hmem := ht.2 d (mem_of_getElem? hd)
    split
    · exact ih d hmem
    · exact hmem

theorem Built.allSound (h : Built t) : t.AllSound := by
  induction h with
  | root _ hcall => exact Call.node_allSound hcall
  | add _ path _ hcall ih => exact addAt_allSound (Call.node_allSound hcall) path _ ih

/-! ## Calculated trees -/

theorem nodes_amlCalculateSize (t : AmlChunk) :
    (amlCalculateSize t).nodes = t.nodes.map amlCalculateSize := by
  induction t using AmlChunk.inductionOn with
  | node t ih =>
    obtain ⟨count, h⟩ := amlCalculateSize_eq t
    rw [t.nodes_eq, map_cons, AmlChunk.nodes_eq, map_flatMap, h]
    congr 1
    exact (flatMap_map ..).trans (flatMap_congr ih)

/-- The node writes as many bytes as its `Size` says, at any offset, and the length of a
package counts the bytes from the length to the end of the package. -/
def Emits (n : AmlChunk) : Prop :=
  ∀ out rest : Bytes,
    (amlWriteNode n out).length = out.length + n.size.toNat ∧
    ∀ w, n.type.pkgOpcode = some w →
      (getSize (amlWriteNode n out ++ rest) (out.length + w)).toNat =
        (amlWriteNode n out).length - (out.length + w)

/-- No device in the tree has 61 or 4092 bytes of contents. -/
def AmlChunk.NoBoundaryDevice (t : AmlChunk) : Prop :=
  ∀ n ∈ t.nodes, n.type = .device → n.contentLength ≠ 61 ∧ n.contentLength ≠ 4092

/-- The calculated size and the number of bytes written are what they should be. -/
structure Exact (t : AmlChunk) : Prop where
  size : (amlCalculateSize t).size.toNat = t.encodedLength
  written : (amlWriteNode (amlCalculateSize t) []).length = t.encodedLength

theorem sum_size_of_exact (h : ∀ c ∈ cs, Exact c) :
    (cs.map fun c => (amlCalculateSize c).size.toNat).sum = AmlChunk.encodedLengthOf cs := by
  rw [AmlChunk.encodedLengthOf_eq]
  exact congrArg sum (map_congr_left fun c hc => (h c hc).size)

theorem written_children_of_exact (h : ∀ c ∈ cs, Exact c) :
    ((cs.map amlCalculateSize).flatMap fun c => amlWriteNode c []).length =
      AmlChunk.encodedLengthOf cs := by
  rw [flatMap_map, length_flatMap, AmlChunk.encodedLengthOf_eq]
  exact congrArg sum (map_congr_left fun c hc => (h c hc).written)

theorem pkgOpcode_cases (h : type.pkgOpcode = some w) :
    (w = 1 ∧ type ≠ .device) ∨ (w = 2 ∧ type = .device) := by
  cases type <;> simp_all [ChunkType.pkgOpcode]

/-- The width that was reserved for the length is the width written, except at the two sizes
where a device has one byte more of opcode than the width was chosen for. -/
theorem fieldWidth_eq_iff (h : type.pkgOpcode = some w) (hlt : content < 0x10000) :
    fieldWidth (content + pkgWidth (w + content)) = pkgWidth (w + content) ↔
      (type = .device → content ≠ 61 ∧ content ≠ 4092) := by
  unfold fieldWidth pkgWidth
  rcases pkgOpcode_cases h with ⟨rfl, htype⟩ | ⟨rfl, htype⟩
  · simp only [htype, false_implies, iff_true]
    split_ifs <;> omega
  · simp only [htype, true_implies]
    split_ifs <;> omega

theorem plainOpcode_le_one (type : ChunkType) (buffer : Bytes) : plainOpcode type buffer ≤ 1 := by
  unfold plainOpcode
  split
  · exact Nat.zero_le 1
  · exact Nat.zero_le 1
  · exact Nat.zero_le 1
  · split <;> omega
  · exact Nat.le_refl 1

theorem headBytes_length_plain (htype : type.pkgOpcode = none) (hsound : Sound type length buffer)
    (size : UInt16) :
    (headBytes type length buffer size).length = plainOpcode type buffer + length.toNat := by
  have hle := plainOpcode_le_one type buffer
  have hopcode : (if plainOpcode type buffer = 1 then [type.code] else []).length =
      plainOpcode type buffer := by
    split
    · next h => rw [h, length_singleton]
    · rw [length_nil]
      omega
  simp only [headBytes, htype]
  split
  · rw [show length = 1 from hsound]
    rfl
  · rw [show length = 1 from hsound]
    rfl
  · next hlocal hstore =>
    have hlength : length.toNat ≤ buffer.length := by
      cases type with
      | local0 => exact absurd rfl hlocal
      | store => exact absurd rfl hstore
      | _ => exact hsound
    rw [length_append, hopcode, length_take, Nat.min_eq_left hlength]

section Node

variable (hsound : Sound t.type t.length t.buffer) (hchildren : ∀ c ∈ t.children, Exact c)
  (hlt : t.encodedLength < 0x10000)

include hchildren hlt in
theorem amlCalculateChildren_of_exact :
    (amlCalculateChildren t.children 0 0).2.2.toNat = AmlChunk.encodedLengthOf t.children := by
  have hle := t.contentLength_le
  unfold AmlChunk.contentLength at hle
  rw [amlCalculateChildren_size, sum_size_of_exact hchildren]
  show (0 + _) % _ = _
  omega

include hchildren hlt in
/-- A node with a package length gets the size it is meant to have. -/
theorem amlCalculateSize_pkg (htype : t.type.pkgOpcode = some w) :
    ∃ buffer size, amlCalculateSize t =
        .mk t.type t.length buffer size (t.children.map amlCalculateSize) ∧
      buffer.length = t.buffer.length ∧ size.toNat = t.encodedLength := by
  obtain ⟨count, h⟩ := amlCalculateSize_eq t
  refine ⟨_, _, h, ?_, ?_⟩
  · split
    · exact length_set
    · rfl
  · have hsum := amlCalculateChildren_of_exact hchildren hlt
    rw [AmlChunk.encodedLength_pkg htype, AmlChunk.contentLength] at hlt ⊢
    have hw16 : w.toUInt16.toNat = w := by
      rw [Nat.toUInt16_eq, UInt16.toNat_ofNat']
      omega
    have hsize : ((amlCalculateChildren t.children 0 0).2.2 + (w.toUInt16 + t.length)).toNat =
        w + (t.length.toNat + AmlChunk.encodedLengthOf t.children) := by
      rw [UInt16.toNat_add, UInt16.toNat_add, hsum, hw16]
      omega
    have hwidth := amlGetSizeLength_toNat
      ((amlCalculateChildren t.children 0 0).2.2 + (w.toUInt16 + t.length)).toUInt32
      (by rw [UInt16.toNat_toUInt32, hsize]; omega)
    rw [UInt16.toNat_toUInt32, hsize] at hwidth
    simp only [nodeSize, htype]
    rw [UInt16.toNat_add, hsize, UInt8.toNat_toUInt16, hwidth]
    omega

theorem amlWriteNode_pkg (htype : type.pkgOpcode = some w) (length : UInt16) (buffer : Bytes)
    (size : UInt16) (children : List AmlChunk) (out : Bytes) :
    ∃ opcode : Bytes, opcode.length = w ∧
      amlWriteNode (.mk type length buffer size children) out =
        (out ++ opcode) ++ (sizeBytes (size.toUInt32 - w.toUInt32) ++ (buffer.take length.toNat ++
          children.flatMap fun c => amlWriteNode c [])) := by
  rw [amlWriteNode_eq]
  refine ⟨if w = 2 then [0x5B, type.code] else [type.code], ?_, ?_⟩
  · rcases pkgOpcode_cases htype with ⟨rfl, -⟩ | ⟨rfl, -⟩ <;> rfl
  · simp [headBytes, htype]

include hsound hchildren in
theorem written_pkg (htype : t.type.pkgOpcode = some w) (hbuffer : buffer.length = t.buffer.length)
    (hsize : size.toNat = w + t.contentLength + pkgWidth (w + t.contentLength))
    (out : Bytes) :
    (size.toUInt32 - w.toUInt32).toNat = t.contentLength + pkgWidth (w + t.contentLength) ∧
    (amlWriteNode (.mk t.type t.length buffer size (t.children.map amlCalculateSize)) out).length =
      out.length + (w + fieldWidth (t.contentLength + pkgWidth (w + t.contentLength)) +
        t.contentLength) := by
  have hlength : t.length.toNat ≤ t.buffer.length := by
    cases h : t.type <;> rw [h] at hsound htype <;> first | exact hsound | cases htype
  have hw : w ≤ 2 := by
    rcases pkgOpcode_cases htype with ⟨rfl, -⟩ | ⟨rfl, -⟩ <;> omega
  have hw32 : w.toUInt32.toNat = w := by
    rw [Nat.toUInt32_eq, UInt32.toNat_ofNat']
    omega
  have hfield : (size.toUInt32 - w.toUInt32).toNat =
      t.contentLength + pkgWidth (w + t.contentLength) := by
    have := size.toNat_lt
    rw [UInt32.toNat_sub, UInt16.toNat_toUInt32, hsize, hw32]
    omega
  refine ⟨hfield, ?_⟩
  obtain ⟨opcode, hop, hwrite⟩ :=
    amlWriteNode_pkg htype t.length buffer size (t.children.map amlCalculateSize) out
  rw [hwrite]
  simp only [length_append, hop, sizeBytes_length, hfield, length_take, hbuffer,
    written_children_of_exact hchildren, Nat.min_eq_left hlength]
  rw [AmlChunk.contentLength]
  omega

include hsound hchildren hlt

/-- A package over exact children is emitted right just when the width reserved for its
length is the width written; the tree is exact then. -/
theorem emits_pkg_iff (htype : t.type.pkgOpcode = some w) :
    (Emits (amlCalculateSize t) ↔
      fieldWidth (t.contentLength + pkgWidth (w + t.contentLength)) =
        pkgWidth (w + t.contentLength)) ∧
    (fieldWidth (t.contentLength + pkgWidth (w + t.contentLength)) =
      pkgWidth (w + t.contentLength) → Exact t) := by
  obtain ⟨buffer, size, hcalc, hbuffer, hsize⟩ := amlCalculateSize_pkg hchildren hlt htype
  have henc := AmlChunk.encodedLength_pkg htype
  rw [henc] at hsize hlt
  have hwritten := written_pkg hsound hchildren htype hbuffer hsize
  refine ⟨⟨fun h => ?_, fun h out rest => ?_⟩, fun h => ⟨?_, ?_⟩⟩
  · have h1 := (h [] []).1
    rw [hcalc, (hwritten []).2] at h1
    simp only [AmlChunk.size, hsize] at h1
    omega
  · rw [hcalc]
    refine ⟨?_, fun w' hw' => ?_⟩
    · rw [(hwritten out).2, h]
      show _ = _ + size.toNat
      omega
    · obtain rfl : w = w' := Option.some.inj (htype.symm.trans hw')
      rw [(hwritten out).2]
      obtain ⟨opcode, hop, hwrite⟩ :=
        amlWriteNode_pkg htype t.length buffer size (t.children.map amlCalculateSize) out
      have hpos : out.length + w = (out ++ opcode).length := by
        rw [length_append, hop]
      have hfield := (hwritten out).1
      rw [hwrite, hpos, append_assoc (out ++ opcode), append_assoc (sizeBytes _),
        getSize_sizeBytes (by omega), hfield, h]
      omega
  · rw [hcalc, henc]
    exact hsize
  · rw [hcalc, henc, (hwritten []).2, h]
    show 0 + _ = _
    omega

/-- A node without a package length is written right. -/
theorem emits_plain (htype : t.type.pkgOpcode = none) : Emits (amlCalculateSize t) ∧ Exact t := by
  obtain ⟨count, hcalc⟩ := amlCalculateSize_eq t
  have hnot : t.type ≠ .package := by
    intro h
    rw [h] at htype
    cases htype
  rw [if_neg hnot] at hcalc
  have henc := AmlChunk.encodedLength_plain htype
  have hsum := amlCalculateChildren_of_exact hchildren hlt
  have hsize : (amlCalculateSize t).size.toNat = t.encodedLength := by
    rw [henc, AmlChunk.contentLength] at hlt ⊢
    simp only [hcalc, AmlChunk.size, nodeSize, htype]
    rw [UInt16.toNat_add, UInt16.toNat_add, hsum, Nat.toUInt16_eq, UInt16.toNat_ofNat']
    omega
  have hwritten : ∀ out, (amlWriteNode (amlCalculateSize t) out).length =
      out.length + t.encodedLength := by
    intro out
    rw [hcalc, amlWriteNode_eq, length_append, length_append,
      headBytes_length_plain htype hsound, written_children_of_exact hchildren, henc,
      AmlChunk.contentLength]
    omega
  refine ⟨fun out rest => ⟨?_, fun w hw => ?_⟩, hsize, ?_⟩
  · rw [hwritten, hsize]
  · rw [hcalc] at hw
    cases htype.symm.trans hw
  · rw [hwritten]
    exact Nat.zero_add _

theorem emits_iff :
    (Emits (amlCalculateSize t) ↔
      (t.type = .device → t.contentLength ≠ 61 ∧ t.contentLength ≠ 4092)) ∧
    (Emits (amlCalculateSize t) → Exact t) := by
  cases htype : t.type.pkgOpcode with
  | none =>
    obtain ⟨hemits, hexact⟩ := emits_plain hsound hchildren hlt htype
    refine ⟨iff_of_true hemits fun hdevice => ?_, fun _ => hexact⟩
    rw [hdevice] at htype
    cases htype
  | some w =>
    obtain ⟨hiff, hexact⟩ := emits_pkg_iff hsound hchildren hlt htype
    exact ⟨hiff.trans (fieldWidth_eq_iff htype (t.contentLength_le.trans_lt hlt)),
      fun h => hexact (hiff.mp h)⟩

end Node

/-! ## The tree -/

/-- For a sound tree: every node is emitted right just when no device is at a boundary, and
the tree is exact then. By induction on the tree, as a node that is wrong below makes the
sizes above it unpredictable. -/
theorem emits_tree_iff (t : AmlChunk) : t.AllSound → t.encodedLength < 0x10000 →
    ((∀ n ∈ (amlCalculateSize t).nodes, Emits n) ↔ t.NoBoundaryDevice) ∧
    (t.NoBoundaryDevice → Exact t) := by
  induction t using AmlChunk.inductionOn with
  | node t ih =>
    intro hsound hlt
    have hle := t.contentLength_le
    rw [AmlChunk.contentLength] at hle
    obtain ⟨hroot, hsound⟩ := allSound_iff.mp hsound
    replace ih : ∀ c ∈ t.children, ((∀ n ∈ (amlCalculateSize c).nodes, Emits n) ↔
        c.NoBoundaryDevice) ∧ (c.NoBoundaryDevice → Exact c) := by
      intro c hc
      have := AmlChunk.encodedLength_le_of_mem hc
      exact ih c hc (hsound c hc) (by omega)
    simp only [nodes_amlCalculateSize, forall_mem_map] at ih ⊢
    rw [AmlChunk.forall_nodes, AmlChunk.NoBoundaryDevice, AmlChunk.forall_nodes]
    refine ⟨⟨?_, ?_⟩, ?_⟩
    · rintro ⟨h, hc⟩
      have hgood : ∀ c ∈ t.children, c.NoBoundaryDevice := fun c hm => (ih c hm).1.mp (hc c hm)
      exact ⟨(emits_iff hroot (fun c hm => (ih c hm).2 (hgood c hm)) hlt).1.mp h, hgood⟩
    · rintro ⟨h, hc⟩
      exact ⟨(emits_iff hroot (fun c hm => (ih c hm).2 (hc c hm)) hlt).1.mpr h,
        fun c hm => (ih c hm).1.mpr (hc c hm)⟩
    · rintro ⟨h, hc⟩
      have hiff := emits_iff hroot (fun c hm => (ih c hm).2 (hc c hm)) hlt
      exact hiff.2 (hiff.1.mpr h)

/-- A tree built with the `aml_add_*` functions, of less than 65536 bytes, is written with
exactly `Size` bytes for every node and the right length for every package if and only if
it has no device with 61 or 4092 bytes of contents. -/
theorem built_emits_iff {t : AmlChunk} (ht : Built t) (hlt : t.encodedLength < 0x10000) :
    (∀ n ∈ (amlCalculateSize t).nodes, Emits n) ↔ t.NoBoundaryDevice :=
  (emits_tree_iff t ht.allSound hlt).1

/-- The theorem at a scope that holds a device and a package. -/
theorem built_emits_iff_scope :
    let t := AmlChunk.mk .scope 4 [0x5F, 0x53, 0x42, 0x5F] 0
      [.leaf .device 4 [0x44, 0x45, 0x56, 0x30], .leaf .package 1 [0]]
    Built t ∧ ((∀ n ∈ (amlCalculateSize t).nodes, Emits n) ↔ t.NoBoundaryDevice) := by
  intro t
  have h₁ : Built (.leaf .scope 4 [0x5F, 0x53, 0x42, 0x5F]) :=
    .root (.scope [0x5F, 0x53, 0x42, 0x5F]) rfl
  have h₂ := Built.add h₁ [] (.device [0x44, 0x45, 0x56, 0x30]) rfl
  have h₃ : Built t := Built.add h₂ [] .package rfl
  exact ⟨h₃, built_emits_iff h₃ (by decide)⟩

/-- A device named `DEV0` with 57 bytes in it. -/
def boundaryDevice : AmlChunk :=
  .mk .device 4 [0x44, 0x45, 0x56, 0x30] 0 [amlAddBuffer (replicate 57 0)]

/-- Its size is predicted to be 65 and 64 bytes are written; the length field says 63 where
62 bytes follow from its start. -/
theorem boundaryDevice_not_emitted :
    Built boundaryDevice ∧ boundaryDevice.encodedLength < 0x10000 ∧
      (amlCalculateSize boundaryDevice).size = 65 ∧
      (amlWriteNode (amlCalculateSize boundaryDevice) []).length = 64 ∧
      getSize (amlWriteNode (amlCalculateSize boundaryDevice) []) 2 = 63 ∧
      ¬ ∀ n ∈ (amlCalculateSize boundaryDevice).nodes, Emits n := by
  have hbuilt : Built boundaryDevice :=
    Built.add (.root (.device [0x44, 0x45, 0x56, 0x30]) rfl) []
      (.buffer (replicate 57 0)) rfl
  have hsize : (amlCalculateSize boundaryDevice).size = 65 := by decide +kernel
  have hlength : (amlWriteNode (amlCalculateSize boundaryDevice) []).length = 64 := by
    decide +kernel
  refine ⟨hbuilt, by decide +kernel, hsize, hlength, by decide +kernel, fun h => ?_⟩
  have h₁ := ((AmlChunk.forall_nodes.mp h).1 [] []).1
  exact absurd h₁ (by decide)

end Clover.Aml
