import DistributedSystems.Merkle.DataTree
import DistributedSystems.Merkle.ProofSoundness

/-! # What a verification detects

Verification compares the hash of every inner node with those of its children and takes the
hashes of the leaves for granted. Data that is changed in a leaf is therefore not detected.
-/
namespace DistributedSystems.Merkle
open DataNode

variable {α : Type} {sha256 : String → String} {str : α → String}

/-- The same tree with other data and hashes in its nodes. -/
inductive Edited : DataNode α → DataNode α → Prop
  | leaf (data data' : α) (hash hash' : String) : Edited (leaf data hash) (leaf data' hash')
  | node (data data' : Option α) {left left' right right' : DataNode α} (width : ℕ) (hash hash' : String)
      (hl : Edited left left') (hr : Edited right right') :
      Edited (node data left right width hash) (node data' left' right' width hash')

theorem Edited.length_blocks {n n' : DataNode α} (h : Edited n n') : n.blocks.length = n'.blocks.length := by
  induction h with
  | leaf data data' hash hash' => rfl
  | node data data' width hash hash' hl hr ihl ihr =>
    rw [blocks,blocks,List.length_append,List.length_append,ihl,ihr]

/-- Blocks that print the same give the same tree hash. -/
theorem Paired.hash_eq_of_map_eq {n n' : DataNode α} (h : Paired sha256 str n n')
    (heq : n.blocks.map str = n'.blocks.map str) : n.hash = n'.hash := by
  induction h with
  | leaf data data' => exact congrArg sha256 (List.cons.inj heq).1
  | @node left left' right right' hl hr ihl ihr =>
    have hlen : (left.blocks.map str).length = (left'.blocks.map str).length := by
      rw [List.length_map,List.length_map,← hl.width_eq.1,← hl.width_eq.2]
    simp only [ofChildren,blocks,List.map_append] at heq
    obtain ⟨heql,heqr⟩ := List.append_inj heq hlen
    exact congrArg₂ (fun l r => sha256 (l ++ r)) (ihl heql) (ihr heqr)

/-- The hashes of the inner nodes stay, and so do the joined hashes of any two siblings. -/
inductive HashesKept : DataNode α → DataNode α → Prop
  | leaf (data data' : α) (hash hash' : String) : HashesKept (leaf data hash) (leaf data' hash')
  | node (data data' : Option α) {left left' right right' : DataNode α} (width : ℕ) (hash : String)
      (hjoined : left.hash ++ right.hash = left'.hash ++ right'.hash) (hl : HashesKept left left')
      (hr : HashesKept right right') :
      HashesKept (node data left right width hash) (node data' left' right' width hash)

theorem HashesKept.verifyNode {n n' : DataNode α} (h : HashesKept n n') (hok : n.verifyNode sha256 str = true) :
    n'.verifyNode sha256 str = true := by
  induction h with
  | leaf data data' hash hash' => rfl
  | @node data data' left left' right right' width hash hjoined hl hr ihl ihr =>
    rw [DataNode.verifyNode,Bool.and_eq_true,Bool.and_eq_true,decide_eq_true_eq] at hok ⊢
    obtain ⟨⟨hhash,hokl⟩,hokr⟩ := hok
    exact ⟨⟨hhash.trans (congrArg sha256 hjoined),ihl hokl⟩,ihr hokr⟩

/-- Verified inner nodes have digests for hashes, before and after an edit. -/
theorem Edited.length_hash {n n' : DataNode α} (h : Edited n n') (hok : n.verifyNode sha256 str = true)
    (hok' : n'.verifyNode sha256 str = true) (hsep : Separates sha256 (hashed str n n')) :
    HashesKept n n' ∨ n.hash.length = 64 ∧ n'.hash.length = 64 := by
  cases h with
  | leaf data data' hash hash' => exact Or.inl (.leaf data data' hash hash')
  | node data data' width hash hash' hl hr =>
    rw [DataNode.verifyNode,Bool.and_eq_true,Bool.and_eq_true,decide_eq_true_eq] at hok hok'
    refine Or.inr ⟨?_,?_⟩
    · exact (congrArg String.length hok.1.1).trans (hsep.length _ (Or.inl List.mem_cons_self))
    · exact (congrArg String.length hok'.1.1).trans (hsep.length _ (Or.inr List.mem_cons_self))

/-- An edit below the same hash that passes has kept the hashes. -/
theorem Edited.hashesKept {n n' : DataNode α} (h : Edited n n') (hok : n.verifyNode sha256 str = true)
    (hok' : n'.verifyNode sha256 str = true) (hsep : Separates sha256 (hashed str n n')) (hhash : n.hash = n'.hash) :
    HashesKept n n' := by
  induction h with
  | leaf data data' hash hash' => exact .leaf data data' hash hash'
  | @node data data' left left' right right' width hash hash' hl hr ihl ihr =>
    have hsepl : Separates sha256 (hashed str left left') := hsep.mono (@hashed_left_subset _ sha256 _ _ _ _ _)
    have hsepr : Separates sha256 (hashed str right right') := hsep.mono (@hashed_right_subset _ sha256 _ _ _ _ _)
    rw [DataNode.verifyNode,Bool.and_eq_true,Bool.and_eq_true,decide_eq_true_eq] at hok hok'
    obtain ⟨⟨hroot,hokl⟩,hokr⟩ := hok
    obtain ⟨⟨hroot',hokl'⟩,hokr'⟩ := hok'
    have hjoined : left.hash ++ right.hash = left'.hash ++ right'.hash :=
      hsep.injOn (Or.inl List.mem_cons_self) (Or.inr List.mem_cons_self) (hroot.symm.trans (hhash.trans hroot'))
    have hchars := hjoined
    rw [← String.toList_inj,String.toList_append,String.toList_append] at hchars
    change hash = hash' at hhash
    subst hhash
    refine .node data data' width hash hjoined ?_ ?_
    · rcases hl.length_hash hokl hokl' hsepl with hkept | ⟨hlen,hlen'⟩
      · exact hkept
      · have heq := List.append_inj_left hchars (by rw [String.length_toList,String.length_toList,hlen,hlen'])
        exact ihl hokl hokl' hsepl (String.toList_inj.mp heq)
    · rcases hr.length_hash hokr hokr' hsepr with hkept | ⟨hlen,hlen'⟩
      · exact hkept
      · have heq := List.append_inj_right' hchars (by rw [String.length_toList,String.length_toList,hlen,hlen'])
        exact ihr hokr hokr' hsepr (String.toList_inj.mp heq)

/-- Trees as they are built pass. -/
theorem Paired.verifyNode {n n' : DataNode α} (h : Paired sha256 str n n') : n.verifyNode sha256 str = true := by
  induction h with
  | leaf data data' => rfl
  | node hl hr ihl ihr =>
    rw [ofChildren,DataNode.verifyNode,Bool.and_eq_true,Bool.and_eq_true,decide_eq_true_eq]
    exact ⟨⟨rfl,ihl⟩,ihr⟩

/-- The verification of an edited tree answers for its leaves if they print as before. Unless
digests collide, it else does so exactly for edits that touch the hashes above the leaves. -/
theorem verify_detects_iff {dataBlocks : List α} {t t' : DataTree α}
    (ht : DataTree.init sha256 str dataBlocks = .ok t) (hedited : Edited t.root t'.root)
    (hroot : t'.rootHash = t.rootHash) :
    ∃ fresh, DataTree.init sha256 str t'.root.blocks = .ok fresh ∧
      (t'.root.blocks.map str = dataBlocks.map str → t'.verify sha256 str = true → t'.rootHash = fresh.rootHash) ∧
      (Separates sha256 (hashed str t.root t'.root) → Separates sha256 (hashed str t.root fresh.root) →
        ((t'.verify sha256 str = true → t'.rootHash = fresh.rootHash) ↔
          ¬HashesKept t.root t'.root ∨ t'.root.blocks.map str = dataBlocks.map str)) := by
  have hblocks := (init_root ht).1
  have hlen := hedited.length_blocks
  obtain ⟨fresh,hfresh⟩ : ∃ fresh, DataTree.init sha256 str t'.root.blocks = .ok fresh := by
    cases hnew : t'.root.blocks with
    | nil =>
      rw [hblocks,hnew,List.length_nil,List.length_eq_zero_iff] at hlen
      rw [hlen] at ht
      cases ht
    | cons block rest => exact ⟨_,rfl⟩
  have hpaired := paired_init (hblocks ▸ hlen) ht hfresh
  have hsame : t'.root.blocks.map str = dataBlocks.map str → t'.rootHash = fresh.rootHash := by
    intro hprint
    refine hroot.trans (hpaired.hash_eq_of_map_eq ?_)
    rw [hblocks,(init_root hfresh).1,hprint]
  refine ⟨fresh,hfresh,fun hprint _ => hsame hprint,fun hsep hsepFresh => ⟨fun hdetects => ?_,?_⟩⟩
  · by_cases hkept : HashesKept t.root t'.root
    · have hhash : t.root.hash = fresh.root.hash := hroot.symm.trans (hdetects (hkept.verifyNode hpaired.verifyNode))
      rw [hpaired.hash_eq_iff hsepFresh,hblocks,(init_root hfresh).1] at hhash
      exact Or.inr hhash.symm
    · exact Or.inl hkept
  · rintro (hnot | hprint) hok
    · exact absurd (hedited.hashesKept hpaired.verifyNode hok hsep hroot.symm) hnot
    · exact hsame hprint

/-- A tree of two blocks, of which one has been changed. -/
def changedLeaf : DataTree String :=
  ⟨node none (leaf "a" digestA) (leaf "a" digestB) 2 digestAB⟩

/-- The changed tree passes its verification, although its root is not the one of its leaves. -/
theorem changed_leaf_verified : ¬∀ (dataBlocks : List String) (t t' fresh : DataTree String),
    DataTree.init sampleDigest id dataBlocks = .ok t → Edited t.root t'.root → t'.rootHash = t.rootHash →
    DataTree.init sampleDigest id t'.root.blocks = .ok fresh → t'.verify sampleDigest id = true →
    t'.rootHash = fresh.rootHash := by
  intro h
  have hinit : ∀ x y : String, DataTree.init sampleDigest id [x,y] =
      .ok ⟨ofChildren sampleDigest (ofBlock sampleDigest id x) (ofBlock sampleDigest id y)⟩ := by
    intro x y
    simp [DataTree.init,LevelTree.build]
  have hhash := h ["a","b"] _ changedLeaf _ (hinit "a" "b") (.node _ _ _ _ _ (.leaf _ _ _ _) (.leaf _ _ _ _))
    (by decide) (hinit "a" "a") (by decide)
  revert hhash
  decide

/-- The second of three blocks is replaced, with its hash and that of the inner node above it. -/
def replacedBlock : DataTree String :=
  ⟨node none (ofChildren tableDigest (ofBlock tableDigest id "a") (ofBlock tableDigest id "d"))
    (ofBlock tableDigest id "c") 3 (tableDigest (tableDigest (digestA ++ digestB) ++ tableDigest "c"))⟩

/-- The verification of the replaced block fails at the root, whose hash stayed the one of the old blocks. -/
theorem verify_detects_replaced : ∃ fresh, DataTree.init tableDigest id ["a","d","c"] = .ok fresh ∧
    replacedBlock.verify tableDigest id = false ∧ replacedBlock.rootHash ≠ fresh.rootHash ∧
    ((replacedBlock.verify tableDigest id = true → replacedBlock.rootHash = fresh.rootHash) ↔
      ¬HashesKept (ofChildren tableDigest (ofChildren tableDigest (ofBlock tableDigest id "a") (ofBlock tableDigest id "b"))
        (ofBlock tableDigest id "c")) replacedBlock.root ∨ ["a","d","c"].map id = ["a","b","c"].map id) := by
  have hedited : Edited (ofChildren tableDigest (ofChildren tableDigest (ofBlock tableDigest id "a")
      (ofBlock tableDigest id "b")) (ofBlock tableDigest id "c")) replacedBlock.root :=
    .node _ _ _ _ _ (.node _ _ _ _ _ (.leaf _ _ _ _) (.leaf _ _ _ _)) (.leaf _ _ _ _)
  obtain ⟨fresh,hfresh,-,hiff⟩ := verify_detects_iff (init_three "a" "b" "c") hedited (by decide +kernel)
  obtain rfl := Except.ok.inj ((init_three "a" "d" "c").symm.trans hfresh)
  exact ⟨_,hfresh,by decide +kernel,by decide +kernel,
    hiff (separates_hashed (by decide +kernel)) (separates_hashed (by decide +kernel))⟩

end DistributedSystems.Merkle
