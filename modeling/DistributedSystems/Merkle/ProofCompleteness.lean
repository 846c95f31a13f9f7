import DistributedSystems.Merkle.ProofSoundness
import Mathlib.Data.Nat.Log

/-! # Every block has an inclusion proof

The proof goes down by positions in subtrees, with the widths that the nodes keep, and is
verified upwards. Promoted nodes give subtrees of different heights, none of them higher
than the number of levels.
-/
namespace DistributedSystems.Merkle
open MerkleNode MerkleTree

namespace MerkleNode

/-- The field `data`: inner nodes are made without any. -/
def data : MerkleNode → Option String
  | leaf data _ => some data
  | node _ _ _ _ => none

/-- `_get_proof_recursive`, which inserts at the front of the list that it is given. -/
def getProofRecursive : MerkleNode → ℕ → List (String × String) → List (String × String)
  | leaf _ _, _, proof => proof
  | node left right _ _, targetIdx, proof =>
    if targetIdx < left.width then left.getProofRecursive targetIdx (("right",right.hash) :: proof)
    else right.getProofRecursive (targetIdx - left.width) (("left",left.hash) :: proof)

def height : MerkleNode → ℕ
  | leaf _ _ => 0
  | node left right _ _ => max left.height right.height + 1

/-- The width that a node keeps is the number of its leaves. -/
theorem WellHashed.width_eq {sha256 : String → String} {n : MerkleNode} (h : WellHashed sha256 n) :
    n.width = n.blocks.length := by
  induction h with
  | leaf data => rfl
  | @node left right _ _ ihl ihr =>
    change left.width + right.width = (left.blocks ++ right.blocks).length
    rw [ihl,ihr,List.length_append]

end MerkleNode

/-- The proof of the first leaf with this element. -/
def MerkleTree.generateProof (t : MerkleTree) (element : String) : Except ValueError (List (String × String)) :=
  match t.leaves.findIdx? fun leaf => leaf.data = some element with
  | none => .error ⟨s!"Element {element} not found in tree"⟩
  | some index => .ok (t.root.getProofRecursive index [])

section Tree
variable {sha256 : String → String}

/-- What the proof of a leaf adds to a list leads from the digest of its block to the hash of the
node. -/
theorem foldl_getProofRecursive {n : MerkleNode} (h : WellHashed sha256 n) {index : ℕ} {block : String}
    (hblock : n.blocks[index]? = some block) (proof : List (String × String)) :
    (n.getProofRecursive index proof).foldl (combine sha256) (sha256 block) =
      proof.foldl (combine sha256) n.hash := by
  induction h generalizing index proof with
  | leaf data =>
    obtain ⟨hlt,hdata⟩ := List.getElem?_eq_some_iff.mp hblock
    obtain rfl : index = 0 := Nat.lt_one_iff.mp hlt
    obtain rfl : data = block := hdata
    rfl
  | @node left right hl hr ihl ihr =>
    simp only [ofChildren,blocks] at hblock
    simp only [ofChildren,getProofRecursive,MerkleNode.hash]
    rw [hl.width_eq]
    split
    · rename_i hlt
      rw [List.getElem?_append_left hlt] at hblock
      rw [ihl hblock]
      rfl
    · rename_i hge
      rw [List.getElem?_append_right (not_lt.mp hge)] at hblock
      rw [ihr hblock]
      rfl

theorem length_getProofRecursive_le (n : MerkleNode) (index : ℕ) (proof : List (String × String)) :
    (n.getProofRecursive index proof).length ≤ proof.length + n.height := by
  induction n generalizing index proof with
  | leaf data hash => exact Nat.le_add_right _ _
  | node left right width hash ihl ihr =>
    unfold getProofRecursive MerkleNode.height
    split
    · refine (ihl _ _).trans ?_
      rw [List.length_cons]
      omega
    · refine (ihr _ _).trans ?_
      rw [List.length_cons]
      omega

theorem height_parents_le {h : ℕ} : ∀ {nodes : List MerkleNode}, (∀ n ∈ nodes, n.height ≤ h) →
    ∀ n ∈ parents sha256 nodes, n.height ≤ h + 1
  | [],_ => by simp [parents]
  | [_],hn => by
    rw [parents]
    · exact fun n hmem => (hn n hmem).trans (Nat.le_succ h)
    · simp
  | left :: right :: rest,hn => by
    rw [parents,List.forall_mem_cons]
    rw [List.forall_mem_cons,List.forall_mem_cons] at hn
    refine ⟨?_,height_parents_le hn.2.2⟩
    simp only [ofChildren,MerkleNode.height]
    have := hn.1
    have := hn.2.1
    omega

/-- Every level halves the number of nodes and adds at most one to their height. -/
theorem height_buildTree_le {first : MerkleNode} {nodes : List MerkleNode} {h : ℕ} (hfirst : first.height ≤ h)
    (hnodes : ∀ n ∈ nodes, n.height ≤ h) :
    (buildTree sha256 first nodes).height ≤ h + Nat.clog 2 (nodes.length + 1) := by
  fun_induction buildTree sha256 first nodes generalizing h with
  | case1 left => simpa using hfirst
  | case2 left right rest ih =>
    rw [List.forall_mem_cons] at hnodes
    have hparent : (ofChildren sha256 left right).height ≤ h + 1 := by
      have hright := hnodes.1
      simp only [ofChildren,MerkleNode.height]
      omega
    refine (ih hparent (height_parents_le hnodes.2)).trans ?_
    have hhalf : (rest.length + 1) / 2 + 1 = (rest.length + 1 + 1 + 2 - 1) / 2 := by omega
    rw [length_parents,List.length_cons,Nat.clog_of_two_le (le_refl 2) (by omega : 2 ≤ rest.length + 1 + 1),hhalf]
    omega

theorem height_init_le {dataBlocks : List String} {t : MerkleTree} (ht : init sha256 dataBlocks = .ok t) :
    t.root.height ≤ Nat.clog 2 dataBlocks.length := by
  cases dataBlocks with
  | nil => cases ht
  | cons block rest =>
    cases ht
    have hle : (buildTree sha256 (ofBlock sha256 block) (rest.map (ofBlock sha256))).height ≤
        0 + Nat.clog 2 ((rest.map (ofBlock sha256)).length + 1) := height_buildTree_le (le_refl 0) fun n hn => by
      obtain ⟨data,-,rfl⟩ := List.mem_map.mp hn
      exact le_refl 0
    simpa using hle

/-- The leaf that a proof is made for holds the element. -/
theorem generateProof_eq {dataBlocks : List String} {t : MerkleTree} (ht : init sha256 dataBlocks = .ok t)
    (element : String) :
    (element ∉ dataBlocks ∧ t.generateProof element = .error ⟨s!"Element {element} not found in tree"⟩) ∨
      ∃ index, dataBlocks[index]? = some element ∧
        t.generateProof element = .ok (t.root.getProofRecursive index []) := by
  have hleaves : t.leaves = dataBlocks.map (ofBlock sha256) := by
    cases dataBlocks with
    | nil => cases ht
    | cons block rest =>
      cases ht
      rfl
  unfold MerkleTree.generateProof
  rw [hleaves,List.findIdx?_map]
  cases hfind : dataBlocks.findIdx? ((fun leaf => decide (leaf.data = some element)) ∘ ofBlock sha256) with
  | none =>
    refine Or.inl ⟨fun hmem => ?_,rfl⟩
    have hnone := List.findIdx?_eq_none_iff.mp hfind element hmem
    simp [ofBlock,MerkleNode.data] at hnone
  | some index =>
    obtain ⟨hlt,hfound,-⟩ := List.findIdx?_eq_some_iff_getElem.mp hfind
    refine Or.inr ⟨index,?_,rfl⟩
    rw [List.getElem?_eq_getElem hlt]
    simpa [ofBlock,MerkleNode.data] using hfound

end Tree

/-- A tree can be made of any blocks. Each of them has a proof, which is verified and has at most
as many steps as the logarithm of their number, and nothing else has a proof. -/
theorem proof_complete (sha256 : String → String) {dataBlocks : List String} (hne : dataBlocks ≠ []) :
    ∃ t, init sha256 dataBlocks = .ok t ∧ ∀ element,
      (element ∈ dataBlocks → ∃ proof, t.generateProof element = .ok proof ∧
        verifyProof sha256 t.rootHash element proof = true ∧ proof.length ≤ Nat.clog 2 dataBlocks.length) ∧
      ((∃ e, t.generateProof element = .error e) ↔ element ∉ dataBlocks) := by
  obtain ⟨t,ht⟩ : ∃ t, init sha256 dataBlocks = .ok t := by
    cases dataBlocks with
    | nil => exact absurd rfl hne
    | cons block rest => exact ⟨_,rfl⟩
  obtain ⟨hroot,hblocks⟩ := init_eq_ok ht
  refine ⟨t,ht,fun element => ?_⟩
  rcases generateProof_eq ht element with ⟨hnot,herror⟩ | ⟨index,hindex,hok⟩
  · exact ⟨fun hmem => absurd hmem hnot,iff_of_true ⟨_,herror⟩ hnot⟩
  · have hmem : element ∈ dataBlocks := List.mem_of_getElem? hindex
    refine ⟨fun _ => ⟨_,hok,?_,?_⟩,iff_of_false ?_ (not_not.mpr hmem)⟩
    · rw [verifyProof,decide_eq_true_eq]
      exact foldl_getProofRecursive hroot (hblocks ▸ hindex) []
    · have hlength := length_getProofRecursive_le t.root index []
      rw [List.length_nil,Nat.zero_add] at hlength
      exact hlength.trans (height_init_le ht)
    · rintro ⟨e,he⟩
      rw [hok] at he
      cases he

/-- Three blocks, of which the last one is promoted. -/
theorem proof_complete_three : ∃ t, init sampleDigest ["a","b","a"] = .ok t ∧ ∃ proof,
    t.generateProof "b" = .ok proof ∧ verifyProof sampleDigest t.rootHash "b" proof = true ∧ proof.length ≤ 2 := by
  obtain ⟨t,ht,hproof⟩ := proof_complete sampleDigest (by decide : ["a","b","a"] ≠ [])
  obtain ⟨proof,hok,hverify,hlength⟩ := (hproof "b").1 (by decide)
  exact ⟨t,ht,proof,hok,hverify,hlength⟩

end DistributedSystems.Merkle
