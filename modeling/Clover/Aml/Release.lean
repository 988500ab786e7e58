import Clover.Aml.Generator

/-!
# Releasing a tree

`aml_destroy_node` of `Platform/AmlGenerator.cpp` frees a node and its child nodes, each with its
buffer. It does not go further down, so it releases exactly the trees without grandchildren
(`amlDestroyNode_releases_iff`), whichever nodes have a buffer. After the `aml_add_*` functions
these are the nodes of `AmlChunk.hasBuffer`.
-/

namespace Clover.Aml

open List

/-- The node that is reached by the child numbers `path`. -/
def AmlChunk.at? : AmlChunk → List Nat → Option AmlChunk
  | t, [] => some t
  | t, i :: path => t.children[i]?.bind fun child => child.at? path

/-- What is allocated for the node at a path. -/
inductive Block where
  | node (path : List Nat)
  | buffer (path : List Nat)
  deriving DecidableEq, Repr

def Block.path : Block → List Nat
  | .node path | .buffer path => path

/-- Names that are refused, `Local0` and `Store` leave the node without a buffer. -/
def AmlChunk.hasBuffer (n : AmlChunk) : Bool :=
  match n.type with
  | .local0 | .store => false
  | .scope | .name | .device | .return => n.length ≠ 0
  | _ => true

variable (hasBuffer : AmlChunk → Bool)

/-- The blocks of one node, in the order in which they are freed. -/
def nodeBlocks (path : List Nat) (n : AmlChunk) : List Block :=
  if hasBuffer n then [.buffer path, .node path] else [.node path]

/-- The block belongs to a node of the tree. -/
def IsBlock (t : AmlChunk) (b : Block) : Prop :=
  ∃ n, t.at? b.path = some n ∧ b ∈ nodeBlocks hasBuffer b.path n

/-- The blocks that are freed: those of the child nodes and those of the node. -/
def amlDestroyNode (t : AmlChunk) : List Block :=
  t.children.zipIdx.flatMap (fun (child, i) => nodeBlocks hasBuffer [i] child) ++
    nodeBlocks hasBuffer [] t

variable {hasBuffer} {b : Block} {t : AmlChunk}

theorem path_of_mem_nodeBlocks {path : List Nat} {n : AmlChunk}
    (h : b ∈ nodeBlocks hasBuffer path n) : b.path = path := by
  unfold nodeBlocks at h
  split at h
  · rcases mem_cons.mp h with rfl | h
    · rfl
    · rw [mem_singleton.mp h]
      rfl
  · rw [mem_singleton.mp h]
    rfl

theorem nodeBlocks_nodup (path : List Nat) (n : AmlChunk) :
    (nodeBlocks hasBuffer path n).Nodup := by
  unfold nodeBlocks
  split <;> simp

theorem amlDestroyNode_nodup (t : AmlChunk) : (amlDestroyNode hasBuffer t).Nodup := by
  have hnumbers : (t.children.zipIdx.map Prod.snd).Nodup := by
    rw [zipIdx_map_snd]
    exact nodup_range'
  refine List.Nodup.append (nodup_flatMap.mpr ⟨fun c _ => nodeBlocks_nodup _ _, ?_⟩)
    (nodeBlocks_nodup _ _) ?_
  · refine (pairwise_map.mp hnumbers).imp fun hne b hb hb' => hne ?_
    exact singleton_inj.mp
      ((path_of_mem_nodeBlocks hb).symm.trans (path_of_mem_nodeBlocks hb'))
  · intro b hchild hroot
    obtain ⟨c, -, hb⟩ := mem_flatMap.mp hchild
    cases (path_of_mem_nodeBlocks hb).symm.trans (path_of_mem_nodeBlocks hroot)

theorem mem_amlDestroyNode :
    b ∈ amlDestroyNode hasBuffer t ↔ IsBlock hasBuffer t b ∧ b.path.length ≤ 1 := by
  rw [amlDestroyNode, mem_append, mem_flatMap]
  constructor
  · rintro (⟨⟨c, i⟩, hc, hb⟩ | hb)
    · have hat := mem_zipIdx_iff_getElem?.mp hc
      rw [IsBlock, path_of_mem_nodeBlocks hb]
      exact ⟨⟨c, by simp [AmlChunk.at?, hat], hb⟩, Nat.le_refl 1⟩
    · rw [IsBlock, path_of_mem_nodeBlocks hb]
      exact ⟨⟨t, rfl, hb⟩, Nat.zero_le 1⟩
  · rintro ⟨⟨n, hat, hb⟩, hlength⟩
    match hpath : b.path with
    | [] =>
      rw [hpath] at hat hb
      cases hat
      exact Or.inr hb
    | [i] =>
      rw [hpath] at hat hb
      have hi : t.children[i]? = some n := by simpa [AmlChunk.at?] using hat
      exact Or.inl ⟨(n, i), mem_zipIdx_iff_getElem?.mpr hi, hb⟩
    | _ :: _ :: _ => simp [hpath] at hlength

/-- Every block of the tree is freed once and nothing else is, if and only if no child node has
child nodes. -/
theorem amlDestroyNode_releases_iff (hasBuffer : AmlChunk → Bool) (t : AmlChunk) :
    ((amlDestroyNode hasBuffer t).Nodup ∧
      ∀ b, b ∈ amlDestroyNode hasBuffer t ↔ IsBlock hasBuffer t b) ↔
    ∀ c ∈ t.children, c.children = [] := by
  simp only [amlDestroyNode_nodup, mem_amlDestroyNode, and_iff_left_iff_imp, true_and]
  constructor
  · intro hall c hc
    obtain ⟨i, hi⟩ := mem_iff_getElem?.mp hc
    by_contra hne
    obtain ⟨g, gs, hg⟩ := exists_cons_of_ne_nil hne
    have hat : t.at? [i, 0] = some g := by simp [AmlChunk.at?, hi, hg]
    have hmem : .node [i, 0] ∈ nodeBlocks hasBuffer [i, 0] g := by
      unfold nodeBlocks
      split <;> simp
    exact absurd (hall (.node [i, 0]) ⟨g, hat, hmem⟩) (by simp [Block.path])
  · rintro hleaves b ⟨n, hat, -⟩
    match hpath : b.path with
    | [] | [_] => simp
    | i :: j :: path =>
      rw [hpath] at hat
      cases hc : t.children[i]? with
      | none => simp [AmlChunk.at?, hc] at hat
      | some c => simp [AmlChunk.at?, hc, hleaves c (mem_of_getElem? hc)] at hat

/-- A name with a byte in it, in a scope: the byte stays allocated. -/
theorem grandchild_not_freed : ∃ t, Built t ∧
    IsBlock AmlChunk.hasBuffer t (.node [0, 0]) ∧
      .node [0, 0] ∉ amlDestroyNode AmlChunk.hasBuffer t := by
  have hscope := Built.root (.scope [95, 83, 66, 95]) rfl
  have ht := (hscope.add [] (.name [78, 65, 77, 69]) rfl).add [0] (.byte 5) rfl
  exact ⟨_, ht, ⟨amlAddByte 5, rfl, by decide⟩, by decide⟩

end Clover.Aml
