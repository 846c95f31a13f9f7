import Mathlib.Data.List.Basic
import Mathlib.Data.String.Basic

/-! # Merkle trees

Leaves are hashed from their blocks and inner nodes from the concatenated hashes of their
children; an odd node moves up unchanged. The digest is a parameter from strings to strings.
-/
namespace DistributedSystems.Merkle

structure ValueError where
  message : String

/-- Each node keeps its hash as it was computed when the node was made. -/
inductive MerkleNode
  | leaf (data hash : String)
  | node (left right : MerkleNode) (width : ℕ) (hash : String)

namespace MerkleNode

def hash : MerkleNode → String
  | leaf _ hash => hash
  | node _ _ _ hash => hash

def width : MerkleNode → ℕ
  | leaf _ _ => 1
  | node _ _ width _ => width

/-- The string that the hash of a node is taken of. -/
def content : MerkleNode → String
  | leaf data _ => data
  | node left right _ _ => left.hash ++ right.hash

def computeHash (sha256 : String → String) (n : MerkleNode) : String := sha256 n.content

def ofBlock (sha256 : String → String) (data : String) : MerkleNode := leaf data (sha256 data)

def ofChildren (sha256 : String → String) (left right : MerkleNode) : MerkleNode :=
  node left right (left.width + right.width) (sha256 (left.hash ++ right.hash))

/-- The blocks of the leaves, from left to right. -/
def blocks : MerkleNode → List String
  | leaf data _ => [data]
  | node left right _ _ => left.blocks ++ right.blocks

/-- The concatenated hashes of the children, for every inner node. -/
def innerContents : MerkleNode → List String
  | leaf _ _ => []
  | node left right _ _ => (left.hash ++ right.hash) :: (left.innerContents ++ right.innerContents)

/-- Every hash is the digest of the content. -/
inductive WellHashed (sha256 : String → String) : MerkleNode → Prop
  | leaf (data : String) : WellHashed sha256 (ofBlock sha256 data)
  | node {left right : MerkleNode} (hl : WellHashed sha256 left) (hr : WellHashed sha256 right) :
      WellHashed sha256 (ofChildren sha256 left right)

theorem WellHashed.hash_eq {sha256 : String → String} {n : MerkleNode} (h : WellHashed sha256 n) :
    n.hash = sha256 n.content := by
  cases h with
  | leaf data => rfl
  | node hl hr => rfl

end MerkleNode

open MerkleNode

/-- One level up: neighbours get a parent, an odd last node is promoted. -/
def parents (sha256 : String → String) : List MerkleNode → List MerkleNode
  | left :: right :: rest => ofChildren sha256 left right :: parents sha256 rest
  | nodes => nodes

theorem length_parents (sha256 : String → String) : ∀ nodes : List MerkleNode,
    (parents sha256 nodes).length = (nodes.length + 1) / 2
  | [] => by simp [parents]
  | [_] => by simp [parents]
  | left :: right :: rest => by
    rw [parents,List.length_cons,length_parents sha256 rest,List.length_cons,List.length_cons]
    omega

/-- The nodes of a level are the first one and the others. -/
def buildTree (sha256 : String → String) : MerkleNode → List MerkleNode → MerkleNode
  | left, [] => left
  | left, right :: rest => buildTree sha256 (ofChildren sha256 left right) (parents sha256 rest)
termination_by _ nodes => nodes.length
decreasing_by
  rw [length_parents,List.length_cons]
  omega

structure MerkleTree where
  leaves : List MerkleNode
  root : MerkleNode

namespace MerkleTree

def init (sha256 : String → String) : List String → Except ValueError MerkleTree
  | [] => .error ⟨"Cannot create empty Merkle tree"⟩
  | block :: rest =>
    .ok ⟨(block :: rest).map (ofBlock sha256),buildTree sha256 (ofBlock sha256 block) (rest.map (ofBlock sha256))⟩

def rootHash (t : MerkleTree) : String := t.root.hash

/-- One step of a proof; every side other than `left` puts the sibling to the right. -/
def combine (sha256 : String → String) (currentHash : String) (step : String × String) : String :=
  sha256 (if step.1 = "left" then step.2 ++ currentHash else currentHash ++ step.2)

def verifyProof (sha256 : String → String) (rootHash element : String) (proof : List (String × String)) : Bool :=
  proof.foldl (combine sha256) (sha256 element) = rootHash

end MerkleTree

section Build
variable {sha256 : String → String}

theorem wellHashed_parents : ∀ {nodes : List MerkleNode}, (∀ n ∈ nodes, WellHashed sha256 n) →
    ∀ n ∈ parents sha256 nodes, WellHashed sha256 n
  | [],_ => by simp [parents]
  | [_],h => by simpa [parents] using h
  | left :: right :: rest,h => by
    rw [parents,List.forall_mem_cons]
    rw [List.forall_mem_cons,List.forall_mem_cons] at h
    exact ⟨.node h.1 h.2.1,wellHashed_parents h.2.2⟩

theorem flatMap_blocks_parents : ∀ nodes : List MerkleNode,
    (parents sha256 nodes).flatMap blocks = nodes.flatMap blocks
  | [] => by simp [parents]
  | [_] => by simp [parents]
  | left :: right :: rest => by
    rw [parents,List.flatMap_cons,flatMap_blocks_parents rest,List.flatMap_cons,List.flatMap_cons,← List.append_assoc]
    rfl

theorem wellHashed_buildTree {first : MerkleNode} {nodes : List MerkleNode} (hfirst : WellHashed sha256 first)
    (h : ∀ n ∈ nodes, WellHashed sha256 n) : WellHashed sha256 (buildTree sha256 first nodes) := by
  fun_induction buildTree sha256 first nodes with
  | case1 left => exact hfirst
  | case2 left right rest ih =>
    rw [List.forall_mem_cons] at h
    exact ih (.node hfirst h.1) (wellHashed_parents h.2)

/-- The leaves keep their order. -/
theorem blocks_buildTree (first : MerkleNode) (nodes : List MerkleNode) :
    (buildTree sha256 first nodes).blocks = first.blocks ++ nodes.flatMap blocks := by
  fun_induction buildTree sha256 first nodes with
  | case1 left => simp
  | case2 left right rest ih =>
    rw [ih,flatMap_blocks_parents,List.flatMap_cons,← List.append_assoc]
    rfl

theorem MerkleTree.init_eq_ok {dataBlocks : List String} {t : MerkleTree} (h : MerkleTree.init sha256 dataBlocks = .ok t) :
    WellHashed sha256 t.root ∧ t.root.blocks = dataBlocks := by
  cases dataBlocks with
  | nil => cases h
  | cons block rest =>
    cases h
    constructor
    · refine wellHashed_buildTree (.leaf block) fun n hn => ?_
      obtain ⟨data,-,rfl⟩ := List.mem_map.mp hn
      exact .leaf data
    · rw [blocks_buildTree,List.flatMap_map]
      exact congrArg (block :: ·) (List.flatMap_singleton' rest)

end Build
end DistributedSystems.Merkle
