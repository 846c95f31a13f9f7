import DistributedSystems.Merkle.MerkleTree
import Mathlib.Logic.Relation

/-! # What inclusion proofs prove

A verified proof shows that the element is the content of some node, or is hidden there by
digests that are part of it. Leaves and inner nodes are hashed alike, so the content of an
inner node passes for a block.
-/
namespace DistributedSystems.Merkle
open MerkleNode MerkleTree

variable {sha256 : String → String}

/-- The second string begins or ends with the digest of the first one. -/
def Carries (sha256 : String → String) (s t : String) : Prop := ∃ rest, t = sha256 s ++ rest ∨ t = rest ++ sha256 s

/-- Digests, one inside the next, lead from a string to another. -/
def Hidden (sha256 : String → String) : String → String → Prop := Relation.TransGen (Carries sha256)

/-- The element itself, or hidden. -/
def Reaches (sha256 : String → String) : String → String → Prop := Relation.ReflTransGen (Carries sha256)

theorem reaches_iff {s t : String} : Reaches sha256 s t ↔ s = t ∨ Hidden sha256 s t := by
  rw [Reaches,Relation.reflTransGen_iff_eq_or_transGen,eq_comm]
  exact Iff.rfl

variable (sha256) in
/-- The steps of a proof go along digests. -/
theorem exists_reaches_of_foldl (proof : List (String × String)) (element : String) :
    ∃ s, Reaches sha256 element s ∧ proof.foldl (combine sha256) (sha256 element) = sha256 s := by
  induction proof generalizing element with
  | nil => exact ⟨element,Relation.ReflTransGen.refl,rfl⟩
  | cons step rest ih =>
    obtain ⟨s,hs,hfold⟩ := ih (if step.1 = "left" then step.2 ++ sha256 element else sha256 element ++ step.2)
    refine ⟨s,Relation.ReflTransGen.head ⟨step.2,?_⟩ hs,hfold⟩
    split
    · exact Or.inr rfl
    · exact Or.inl rfl

/-- Whatever leads along digests is a proof. -/
theorem exists_foldl_of_reaches {element s : String} (h : Reaches sha256 element s) :
    ∃ proof : List (String × String), proof.foldl (combine sha256) (sha256 element) = sha256 s := by
  induction h using Relation.ReflTransGen.head_induction_on with
  | refl => exact ⟨[],rfl⟩
  | head hstep _ ih =>
    obtain ⟨rest,h | h⟩ := hstep
    · obtain ⟨proof,hproof⟩ := ih
      refine ⟨("right",rest) :: proof,?_⟩
      rw [← hproof,h]
      rfl
    · obtain ⟨proof,hproof⟩ := ih
      refine ⟨("left",rest) :: proof,?_⟩
      rw [← hproof,h]
      rfl

/-- The content of every node leads to that of the root. -/
theorem reaches_content {n : MerkleNode} (h : WellHashed sha256 n) {s : String} (hs : s ∈ n.blocks ++ n.innerContents) :
    Reaches sha256 s n.content := by
  induction h generalizing s with
  | leaf data =>
    obtain rfl : s = data := by simpa [ofBlock,blocks,innerContents] using hs
    exact Relation.ReflTransGen.refl
  | @node left right hl hr ihl ihr =>
    have hleft : Carries sha256 left.content (left.hash ++ right.hash) := ⟨right.hash,Or.inl (by rw [hl.hash_eq])⟩
    have hright : Carries sha256 right.content (left.hash ++ right.hash) := ⟨left.hash,Or.inr (by rw [hr.hash_eq])⟩
    simp only [ofChildren,blocks,innerContents,List.mem_append,List.mem_cons] at hs
    rcases hs with (hs | hs) | rfl | hs | hs
    · exact (ihl (List.mem_append_left _ hs)).tail hleft
    · exact (ihr (List.mem_append_left _ hs)).tail hright
    · exact Relation.ReflTransGen.refl
    · exact (ihl (List.mem_append_right _ hs)).tail hleft
    · exact (ihr (List.mem_append_right _ hs)).tail hright

theorem content_mem (n : MerkleNode) : n.content ∈ n.blocks ++ n.innerContents := by
  cases n with
  | leaf data hash => simp [content,blocks]
  | node left right width hash => simp [content,innerContents]

/-- The elements with a verified proof. -/
theorem exists_verifyProof_iff (hinj : Function.Injective sha256) {n : MerkleNode} (h : WellHashed sha256 n)
    (element : String) : (∃ proof, verifyProof sha256 n.hash element proof = true) ↔
      ∃ s ∈ n.blocks ++ n.innerContents, Reaches sha256 element s := by
  constructor
  · rintro ⟨proof,hproof⟩
    obtain ⟨s,hs,hfold⟩ := exists_reaches_of_foldl sha256 proof element
    rw [verifyProof,decide_eq_true_eq,hfold,h.hash_eq] at hproof
    exact ⟨n.content,content_mem n,hinj hproof ▸ hs⟩
  · rintro ⟨s,hs,hreach⟩
    obtain ⟨proof,hproof⟩ := exists_foldl_of_reaches (hreach.trans (reaches_content h hs))
    refine ⟨proof,?_⟩
    rw [verifyProof,decide_eq_true_eq,hproof,h.hash_eq]

/-- Proofs of an element are sound unless it is the content of an inner node, or digests hide
it in a block or in such a content. -/
theorem sound_iff (hinj : Function.Injective sha256) {dataBlocks : List String} {t : MerkleTree}
    (ht : init sha256 dataBlocks = .ok t) (element : String) :
    (∀ proof, verifyProof sha256 t.rootHash element proof = true → element ∈ dataBlocks) ↔
      element ∈ dataBlocks ∨ (element ∉ t.root.innerContents ∧
        ∀ s ∈ dataBlocks ++ t.root.innerContents, ¬Hidden sha256 element s) := by
  obtain ⟨hroot,hblocks⟩ := init_eq_ok ht
  have hverify := exists_verifyProof_iff hinj hroot element
  rw [hblocks] at hverify
  by_cases hmem : element ∈ dataBlocks
  · exact iff_of_true (fun _ _ => hmem) (Or.inl hmem)
  simp only [hmem,imp_false,false_or]
  rw [← not_exists]
  refine (not_congr hverify).trans ?_
  simp only [reaches_iff,not_exists,not_and,not_or]
  constructor
  · intro h
    exact ⟨fun hin => (h element (List.mem_append_right _ hin)).1 rfl,fun s hs => (h s hs).2⟩
  · rintro ⟨hin,hhidden⟩ s hs
    refine ⟨?_,hhidden s hs⟩
    rintro rfl
    exact (List.mem_append.mp hs).elim hmem hin

/-- The SHA-256 digests of two blocks, and of the content of their parent. -/
def digestA : String := "ca978112ca1bbdcafac231b39a23dc4da786eff8147c4e72b9807785afee48bb"
def digestB : String := "3e23e8160039594a33894f6564e1b1348bbd7a0088d42c4acb73eeaed59c009d"
def digestAB : String := "62af5c3cb8da3e4f25061e829ebeea5c7513c54949115b1acc225930a90154da"

/-- SHA-256 on these three strings, and on every other string one that is no digest. -/
def sampleDigest (s : String) : String :=
  if s = "a" then digestA else if s = "b" then digestB else if s = digestA ++ digestB then digestAB else "~" ++ s

theorem sampleDigest_injective : Function.Injective sampleDigest := by
  have hne : ∀ d : String, d.toList.head? ≠ some '~' → ∀ s, d ≠ "~" ++ s := by
    rintro d hd s rfl
    exact hd (by simp)
  have hA := hne digestA (by decide)
  have hB := hne digestB (by decide)
  have hAB := hne digestAB (by decide)
  have hdistinct : digestA ≠ digestB ∧ digestA ≠ digestAB ∧ digestB ≠ digestAB := by decide
  have htilde : ∀ s t : String, "~" ++ s = "~" ++ t → s = t := by simp
  intro s t h
  unfold sampleDigest at h
  -- either both strings are the same special one, or the digests differ
  split_ifs at h
  all_goals grind

/-- Two blocks: the concatenation of their digests is no block, yet the empty proof shows it
to be one. -/
theorem inner_content_accepted : Function.Injective sampleDigest ∧ ∃ t, init sampleDigest ["a","b"] = .ok t ∧
    verifyProof sampleDigest t.rootHash (digestA ++ digestB) [] = true ∧ digestA ++ digestB ∉ ["a","b"] := by
  refine ⟨sampleDigest_injective,_,rfl,?_,by decide⟩
  simp [buildTree,parents,ofChildren,ofBlock,rootHash,verifyProof,MerkleNode.hash,sampleDigest]

/-- Two blocks that hold no digest of the element, and neither does the content of their parent. -/
theorem sound_iff_two_blocks : (∀ proof, verifyProof sampleDigest digestAB "c" proof = true → "c" ∈ ["a","b"]) ↔
    "c" ∈ ["a","b"] ∨
      ("c" ∉ (ofChildren sampleDigest (ofBlock sampleDigest "a") (ofBlock sampleDigest "b")).innerContents ∧
        ∀ s ∈ ["a","b"] ++ (ofChildren sampleDigest (ofBlock sampleDigest "a") (ofBlock sampleDigest "b")).innerContents,
          ¬Hidden sampleDigest "c" s) := by
  have hinit : init sampleDigest ["a","b"] = .ok ⟨[ofBlock sampleDigest "a",ofBlock sampleDigest "b"],
      ofChildren sampleDigest (ofBlock sampleDigest "a") (ofBlock sampleDigest "b")⟩ := by
    simp [init,buildTree,parents]
  exact sound_iff sampleDigest_injective hinit "c"

end DistributedSystems.Merkle
