import DistributedSystems.Merkle.MerkleTree
import DistributedSystems.Protocol.LevelTree
import Mathlib.Data.List.Nodup
import Mathlib.Data.Set.Function

/-! # Merkle trees of any data

A block is hashed as it prints. The nodes are objects that may be changed, so every node keeps
its data and its hash on its own; the hashes say how blocks print as long as the digest tells the
strings apart that are hashed.
-/
namespace DistributedSystems.Merkle

/-- Inner nodes are made without data. -/
inductive DataNode (α : Type)
  | leaf (data : α) (hash : String)
  | node (data : Option α) (left right : DataNode α) (width : ℕ) (hash : String)

namespace DataNode
variable {α : Type} (sha256 : String → String) (str : α → String)

def hash : DataNode α → String
  | leaf _ hash => hash
  | node _ _ _ _ hash => hash

def width : DataNode α → ℕ
  | leaf _ _ => 1
  | node _ _ _ width _ => width

/-- The string that the hash of a node is taken of. -/
def content : DataNode α → String
  | leaf data _ => str data
  | node _ left right _ _ => left.hash ++ right.hash

def computeHash (n : DataNode α) : String := sha256 (n.content str)

def ofBlock (data : α) : DataNode α := leaf data (sha256 (str data))

def ofChildren (left right : DataNode α) : DataNode α :=
  node none left right (left.width + right.width) (sha256 (left.hash ++ right.hash))

/-- The nodes of the list `leaves`, which the tree shares with it. -/
def leaves : DataNode α → List (DataNode α)
  | leaf data hash => [leaf data hash]
  | node _ left right _ _ => left.leaves ++ right.leaves

/-- The data of the leaves. -/
def blocks : DataNode α → List α
  | leaf data _ => [data]
  | node _ left right _ _ => left.blocks ++ right.blocks

/-- All strings that the hashes of a tree are taken of. -/
def contents : DataNode α → List String
  | leaf data _ => [str data]
  | node _ left right _ _ => (left.hash ++ right.hash) :: (left.contents ++ right.contents)

def verifyNode : DataNode α → Bool
  | leaf _ _ => true
  | node data left right width hash =>
    hash = computeHash sha256 str (node data left right width hash) && left.verifyNode && right.verifyNode

/-- `_diff_recursive`, with the triples that it appends. -/
def diffRecursive : DataNode α → DataNode α → ℕ → List (ℕ × α × α)
  | leaf data1 hash1, leaf data2 hash2, offset => if hash1 = hash2 then [] else [(offset,data1,data2)]
  | node _ left1 right1 _ hash1, node _ left2 right2 _ hash2, offset =>
    if hash1 = hash2 then []
    else left1.diffRecursive left2 offset ++ right1.diffRecursive right2 (offset + left1.width)
  | leaf _ _, node _ _ _ _ _, _ => []
  | node _ _ _ _ _, leaf _ _, _ => []

/-- The same node with its block printed and without data inside. -/
def toMerkleNode : DataNode α → MerkleNode
  | leaf data hash => .leaf (str data) hash
  | node _ left right width hash => .node left.toMerkleNode right.toMerkleNode width hash

end DataNode

open DataNode

/-- The tree; its list of leaves is `root.leaves`. -/
structure DataTree (α : Type) where
  root : DataNode α

namespace DataTree
variable {α : Type} (sha256 : String → String) (str : α → String)

def init : List α → Except ValueError (DataTree α)
  | [] => .error ⟨"Cannot create empty Merkle tree"⟩
  | block :: rest =>
    .ok ⟨LevelTree.build (ofChildren sha256) (ofBlock sha256 str block) (rest.map (ofBlock sha256 str))⟩

def rootHash (t : DataTree α) : String := t.root.hash

def verify (t : DataTree α) : Bool := t.root.verifyNode sha256 str

def diff (t other : DataTree α) : Except ValueError (List (ℕ × α × α)) :=
  if t.root.leaves.length ≠ other.root.leaves.length then .error ⟨"Trees must have same number of leaves"⟩
  else .ok (t.root.diffRecursive other.root 0)

end DataTree

/-- The digest tells these strings apart, and has 64 characters. -/
structure Separates (sha256 : String → String) (S : Set String) : Prop where
  injOn : Set.InjOn sha256 S
  length : ∀ s ∈ S, (sha256 s).length = 64

theorem Separates.mono {sha256 : String → String} {S S' : Set String} (h : Separates sha256 S) (hsub : S' ⊆ S) :
    Separates sha256 S' :=
  ⟨h.injOn.mono hsub,fun s hs => h.length s (hsub hs)⟩

section Paired
variable {α : Type} {sha256 : String → String} {str : α → String}

/-- Two trees as they are built, with their leaves in the same places. -/
inductive Paired (sha256 : String → String) (str : α → String) : DataNode α → DataNode α → Prop
  | leaf (data data' : α) : Paired sha256 str (ofBlock sha256 str data) (ofBlock sha256 str data')
  | node {left left' right right' : DataNode α} (hl : Paired sha256 str left left')
      (hr : Paired sha256 str right right') :
      Paired sha256 str (ofChildren sha256 left right) (ofChildren sha256 left' right')

variable {n n' : DataNode α}

theorem Paired.hash_eq (h : Paired sha256 str n n') :
    n.hash = sha256 (n.content str) ∧ n'.hash = sha256 (n'.content str) := by
  cases h with
  | leaf data data' => exact ⟨rfl,rfl⟩
  | node hl hr => exact ⟨rfl,rfl⟩

theorem content_mem_contents (n : DataNode α) : n.content str ∈ n.contents str := by
  cases n with
  | leaf data hash => simp [content,contents]
  | node data left right width hash => simp [content,contents]

theorem Paired.width_eq (h : Paired sha256 str n n') : n.width = n.blocks.length ∧ n.width = n'.blocks.length := by
  induction h with
  | leaf data data' => exact ⟨rfl,rfl⟩
  | @node left left' right right' _ _ ihl ihr =>
    change left.width + right.width = (left.blocks ++ right.blocks).length ∧
      left.width + right.width = (left'.blocks ++ right'.blocks).length
    rw [List.length_append,List.length_append,← ihl.1,← ihr.1,← ihl.2,← ihr.2]
    exact ⟨rfl,rfl⟩

/-- The strings that are hashed in two trees. -/
def hashed (str : α → String) (n n' : DataNode α) : Set String := {s | s ∈ n.contents str ∨ s ∈ n'.contents str}

theorem hashed_left_subset {left left' right right' : DataNode α} :
    hashed str left left' ⊆ hashed str (ofChildren sha256 left right) (ofChildren sha256 left' right') := by
  rintro s (hs | hs)
  · exact Or.inl (List.mem_cons_of_mem _ (List.mem_append_left _ hs))
  · exact Or.inr (List.mem_cons_of_mem _ (List.mem_append_left _ hs))

theorem hashed_right_subset {left left' right right' : DataNode α} :
    hashed str right right' ⊆ hashed str (ofChildren sha256 left right) (ofChildren sha256 left' right') := by
  rintro s (hs | hs)
  · exact Or.inl (List.mem_cons_of_mem _ (List.mem_append_right _ hs))
  · exact Or.inr (List.mem_cons_of_mem _ (List.mem_append_right _ hs))

/-- Hashes of the same length are concatenated, so both children are told apart. -/
theorem Paired.ofChildren_hash_eq_iff {left left' right right' : DataNode α} (hl : Paired sha256 str left left')
    (h : Separates sha256 (hashed str (ofChildren sha256 left right) (ofChildren sha256 left' right'))) :
    (ofChildren sha256 left right).hash = (ofChildren sha256 left' right').hash ↔
      left.hash = left'.hash ∧ right.hash = right'.hash := by
  constructor
  · intro heq
    have hcontent : left.hash ++ right.hash = left'.hash ++ right'.hash :=
      h.injOn (Or.inl List.mem_cons_self) (Or.inr List.mem_cons_self) heq
    have hleft := h.mono hashed_left_subset
    have hlen : left.hash.length = left'.hash.length := by
      rw [hl.hash_eq.1,hl.hash_eq.2,hleft.length _ (Or.inl (content_mem_contents left)),
        hleft.length _ (Or.inr (content_mem_contents left'))]
    rw [← String.toList_inj,String.toList_append,String.toList_append] at hcontent
    obtain ⟨heql,heqr⟩ := List.append_inj hcontent (by rw [String.length_toList,String.length_toList,hlen])
    exact ⟨String.toList_inj.mp heql,String.toList_inj.mp heqr⟩
  · rintro ⟨heql,heqr⟩
    exact congrArg₂ (fun l r => sha256 (l ++ r)) heql heqr

/-- Two trees have the same hash exactly when their blocks print the same. -/
theorem Paired.hash_eq_iff (h : Paired sha256 str n n') (hsep : Separates sha256 (hashed str n n')) :
    n.hash = n'.hash ↔ n.blocks.map str = n'.blocks.map str := by
  induction h with
  | leaf data data' =>
    have hprint : sha256 (str data) = sha256 (str data') ↔ str data = str data' :=
      hsep.injOn.eq_iff (Or.inl List.mem_cons_self) (Or.inr List.mem_cons_self)
    simpa [ofBlock,DataNode.hash,blocks] using hprint
  | @node left left' right right' hl hr ihl ihr =>
    have hlen : (left.blocks.map str).length = (left'.blocks.map str).length := by
      rw [List.length_map,List.length_map,← hl.width_eq.1,← hl.width_eq.2]
    rw [hl.ofChildren_hash_eq_iff hsep,ihl (hsep.mono hashed_left_subset),ihr (hsep.mono hashed_right_subset)]
    simp only [ofChildren,blocks,List.map_append]
    exact ⟨fun heq => congrArg₂ _ heq.1 heq.2,fun heq => List.append_inj heq hlen⟩

end Paired

section Init
variable {α : Type} {sha256 : String → String} {str : α → String} {dataBlocks dataBlocks' : List α} {t t' : DataTree α}

/-- Lists of the same length give trees of the same shape. -/
theorem paired_init (hlen : dataBlocks.length = dataBlocks'.length) (ht : DataTree.init sha256 str dataBlocks = .ok t)
    (ht' : DataTree.init sha256 str dataBlocks' = .ok t') : Paired sha256 str t.root t'.root := by
  cases dataBlocks with
  | nil => cases ht
  | cons block rest =>
    cases dataBlocks' with
    | nil => cases ht'
    | cons block' rest' =>
      cases ht
      cases ht'
      refine LevelTree.build_rel (fun _ _ _ _ => Paired.node) (.leaf block block') ?_
      rw [List.forall₂_map_left_iff,List.forall₂_map_right_iff]
      exact List.forall₂_iff_get.mpr ⟨Nat.succ.inj hlen,fun i hi hi' => .leaf _ _⟩

/-- The leaves of a tree are made of its blocks, in order. -/
theorem init_root (ht : DataTree.init sha256 str dataBlocks = .ok t) :
    t.root.blocks = dataBlocks ∧ t.root.leaves = dataBlocks.map (ofBlock sha256 str) := by
  cases dataBlocks with
  | nil => cases ht
  | cons block rest =>
    cases ht
    constructor
    · refine (LevelTree.build_append (fun _ _ => rfl) _ _).trans ?_
      rw [List.flatMap_map]
      exact congrArg (block :: ·) (List.flatMap_singleton' rest)
    · refine (LevelTree.build_append (fun _ _ => rfl) _ _).trans ?_
      rw [List.flatMap_map]
      exact congrArg (ofBlock sha256 str block :: ·) (List.map_eq_flatMap.symm)

theorem toMerkleNode_hash (n : DataNode α) : (n.toMerkleNode str).hash = n.hash := by
  cases n <;> rfl

theorem toMerkleNode_width (n : DataNode α) : (n.toMerkleNode str).width = n.width := by
  cases n <;> rfl

theorem toMerkleNode_ofChildren (left right : DataNode α) :
    (ofChildren sha256 left right).toMerkleNode str =
      MerkleNode.ofChildren sha256 (left.toMerkleNode str) (right.toMerkleNode str) := by
  simp only [MerkleNode.ofChildren,toMerkleNode_hash,toMerkleNode_width]
  rfl

theorem buildTree_eq (first : MerkleNode) (nodes : List MerkleNode) :
    buildTree sha256 first nodes = LevelTree.build (MerkleNode.ofChildren sha256) first nodes := by
  have hparents : ∀ nodes, parents sha256 nodes = LevelTree.pairUp (MerkleNode.ofChildren sha256) nodes := by
    intro nodes
    fun_induction parents sha256 nodes with
    | case1 left right rest ih => rw [LevelTree.pairUp,ih]
    | case2 nodes hne =>
      cases nodes with
      | nil => simp
      | cons node rest =>
        cases rest with
        | nil => simp
        | cons node' rest => exact absurd rfl (hne node node' rest)
  fun_induction buildTree sha256 first nodes with
  | case1 left => rw [LevelTree.build]
  | case2 left right rest ih => rw [LevelTree.build,ih,hparents]

/-- Printed, a tree is the tree of the printed blocks. -/
theorem toMerkleNode_init (ht : DataTree.init sha256 str dataBlocks = .ok t) :
    ∃ t', MerkleTree.init sha256 (dataBlocks.map str) = .ok t' ∧ t.root.toMerkleNode str = t'.root := by
  cases dataBlocks with
  | nil => cases ht
  | cons block rest =>
    cases ht
    refine ⟨_,rfl,?_⟩
    rw [buildTree_eq]
    refine LevelTree.build_rel (R := fun n m => DataNode.toMerkleNode str n = m) ?_ rfl ?_
    · rintro left right _ _ rfl rfl
      exact toMerkleNode_ofChildren left right
    · simp [List.forall₂_map_left_iff,List.forall₂_map_right_iff,ofBlock,MerkleNode.ofBlock,DataNode.toMerkleNode]

end Init

/-- The SHA-256 digests of the blocks `a` to `d`, and of what their parents hash in the trees of the
blocks `a`, `b`, `c`, of `a`, `d`, `c` and of `a`, `d`, `b`. -/
def digests : List (String × String) :=
  let a := "ca978112ca1bbdcafac231b39a23dc4da786eff8147c4e72b9807785afee48bb"
  let b := "3e23e8160039594a33894f6564e1b1348bbd7a0088d42c4acb73eeaed59c009d"
  let c := "2e7d2c03a9507ae265ecf5b5356885a53393a2029d241394997265a1a25aefc6"
  let d := "18ac3e7343f016890c510e93f935261169d9e3f565436429830faf0934f4f8e4"
  let ab := "62af5c3cb8da3e4f25061e829ebeea5c7513c54949115b1acc225930a90154da"
  let ad := "57e65b2997916fb520d5c670b181dadbc7c0824c7973f8d3550a7d74734fbef6"
  [("a",a),("b",b),("c",c),("d",d),(a ++ b,ab),(a ++ d,ad),
    (ab ++ c,"d71dc32fa2cd95be60b32dbb3e63009fa8064407ee19f457c92a09a5ff841a8a"),
    (ad ++ c,"018487137a791789e4d1b2b1fcfe695c53e229200fcb4b36f123c0f8fcb791de"),
    (ad ++ b,"9e3109d6d12ec2fad1220d03f1ec8a145f79a4bfd059570edcefc1fb75dfa810")]

/-- SHA-256 on these strings, and nothing elsewhere. -/
def tableDigest (s : String) : String := (digests.lookup s).getD ""

/-- These digests are all different, and have 64 characters. -/
theorem separates_digests : Separates tableDigest {s | s ∈ digests.map Prod.fst} := by
  have hvalue : ∀ s ∈ digests.map Prod.fst, (s,tableDigest s) ∈ digests := by
    intro s hs
    obtain ⟨p,hp,rfl⟩ := List.mem_map.mp hs
    obtain ⟨d,hd⟩ := Option.isSome_iff_exists.mp (List.lookup_isSome_iff.mpr ⟨p,hp,beq_self_eq_true p.1⟩)
    obtain ⟨before,after,heq,-⟩ := List.lookup_eq_some_iff.mp hd
    have htable : tableDigest p.1 = d := congrArg (Option.getD · "") hd
    rw [htable,heq]
    exact List.mem_append_right _ List.mem_cons_self
  have hdifferent : (digests.map Prod.snd).Nodup := by simp [digests]
  refine ⟨fun s hs t ht heq => ?_,fun s hs => ?_⟩
  · exact congrArg Prod.fst (List.inj_on_of_nodup_map hdifferent (hvalue s hs) (hvalue t ht) heq)
  · have hlen : ∀ p ∈ digests, p.2.length = 64 := by
      intro p hp
      simp only [digests,List.mem_cons,List.not_mem_nil,or_false] at hp
      rcases hp with rfl | rfl | rfl | rfl | rfl | rfl | rfl | rfl | rfl
      all_goals
        dsimp only
        exact String.length_ofList
    exact hlen _ (hvalue s hs)

theorem separates_hashed {n n' : DataNode String} (h : ∀ s ∈ n.contents id ++ n'.contents id, s ∈ digests.map Prod.fst) :
    Separates tableDigest (hashed id n n') :=
  separates_digests.mono fun s hs => h s (List.mem_append.mpr hs)

/-- The first two of three leaves get a parent, the third one is promoted. -/
theorem init_three (x y z : String) : DataTree.init tableDigest id [x,y,z] =
    .ok ⟨ofChildren tableDigest (ofChildren tableDigest (ofBlock tableDigest id x) (ofBlock tableDigest id y))
      (ofBlock tableDigest id z)⟩ := by
  simp [DataTree.init,LevelTree.build,LevelTree.pairUp]

end DistributedSystems.Merkle
