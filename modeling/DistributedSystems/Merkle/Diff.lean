import DistributedSystems.Merkle.DataTree
import DistributedSystems.Merkle.ProofSoundness

/-! # The differences of two trees

Subtrees with the same hash are skipped, and their blocks print the same. The others are searched
with the places of their leaves, which follow from the widths that the nodes keep.
-/
namespace DistributedSystems.Merkle
open DataNode

variable {α : Type} {sha256 : String → String} {str : α → String}

/-- Two lists have these members at a place, and they print differently. -/
def DiffersAt (str : α → String) (a b : List α) (i : ℕ) (x y : α) : Prop :=
  a[i]? = some x ∧ b[i]? = some y ∧ str x ≠ str y

theorem DiffersAt.lt {a b : List α} {i : ℕ} {x y : α} (h : DiffersAt str a b i x y) : i < a.length :=
  (List.getElem?_eq_some_iff.mp h.1).1

theorem not_differsAt_of_map_eq {a b : List α} (h : a.map str = b.map str) (i : ℕ) (x y : α) :
    ¬DiffersAt str a b i x y := by
  rintro ⟨hx,hy,hne⟩
  have heq := congrArg (·[i]?) h
  simp only [List.getElem?_map,hx,hy,Option.map_some,Option.some_inj] at heq
  exact hne heq

theorem differsAt_append {a a' b b' : List α} (hlen : a.length = a'.length) (i : ℕ) (x y : α) :
    DiffersAt str (a ++ b) (a' ++ b') i x y ↔
      DiffersAt str a a' i x y ∨ ∃ k, i = a.length + k ∧ DiffersAt str b b' k x y := by
  unfold DiffersAt
  rcases Nat.lt_or_ge i a.length with hlt | hge
  · rw [List.getElem?_append_left hlt,List.getElem?_append_left (hlen ▸ hlt)]
    refine (or_iff_left ?_).symm
    rintro ⟨k,rfl,-⟩
    omega
  · obtain ⟨k,rfl⟩ := Nat.exists_eq_add_of_le hge
    rw [List.getElem?_append_right hge,List.getElem?_append_right (hlen ▸ hge),← hlen,Nat.add_sub_cancel_left,
      List.getElem?_eq_none hge]
    simp

theorem not_exists_differsAt {a b : List α} (h : a.map str = b.map str) (offset i : ℕ) (x y : α) :
    ¬∃ k, i = offset + k ∧ DiffersAt str a b k x y := by
  rintro ⟨k,-,hdiffers⟩
  exact not_differsAt_of_map_eq h k x y hdiffers

/-- The triples of a subtree are the differences of its blocks, counted from its offset. -/
theorem Paired.mem_diffRecursive {n n' : DataNode α} (h : Paired sha256 str n n')
    (hsep : Separates sha256 (hashed str n n')) (offset i : ℕ) (x y : α) :
    (i,x,y) ∈ n.diffRecursive n' offset ↔ ∃ k, i = offset + k ∧ DiffersAt str n.blocks n'.blocks k x y := by
  induction h generalizing offset with
  | leaf data data' =>
    have hhash := (Paired.leaf data data').hash_eq_iff hsep
    simp only [ofBlock,DataNode.hash,blocks] at hhash
    simp only [ofBlock,diffRecursive,blocks]
    split
    · rename_i heq
      exact iff_of_false List.not_mem_nil (not_exists_differsAt (hhash.mp heq) offset i x y)
    · rename_i hne
      rw [List.mem_singleton]
      constructor
      · intro heq
        obtain ⟨rfl,rfl,rfl⟩ : i = offset ∧ x = data ∧ y = data' := by simpa using heq
        exact ⟨0,rfl,rfl,rfl,fun hstr => hne (hhash.mpr (by simp [hstr]))⟩
      · rintro ⟨k,rfl,hdiffers⟩
        obtain rfl : k = 0 := Nat.lt_one_iff.mp hdiffers.lt
        obtain ⟨hx,hy,-⟩ := hdiffers
        cases hx
        cases hy
        rfl
  | @node left left' right right' hl hr ihl ihr =>
    have hhash := (Paired.node hl hr).hash_eq_iff hsep
    have hlen : left.blocks.length = left'.blocks.length := hl.width_eq.1.symm.trans hl.width_eq.2
    simp only [ofChildren,DataNode.hash,blocks] at hhash
    simp only [ofChildren,diffRecursive,blocks]
    split
    · rename_i heq
      exact iff_of_false List.not_mem_nil (not_exists_differsAt (hhash.mp heq) offset i x y)
    · rw [List.mem_append,ihl (hsep.mono hashed_left_subset),ihr (hsep.mono hashed_right_subset),hl.width_eq.1]
      simp only [differsAt_append hlen]
      constructor
      · rintro (⟨k,rfl,hk⟩ | ⟨k,rfl,hk⟩)
        · exact ⟨k,rfl,Or.inl hk⟩
        · exact ⟨left.blocks.length + k,by omega,Or.inr ⟨k,rfl,hk⟩⟩
      · rintro ⟨_,rfl,hk | ⟨k,rfl,hk⟩⟩
        · exact Or.inl ⟨_,rfl,hk⟩
        · exact Or.inr ⟨k,by omega,hk⟩

/-- The triples of the left subtree come first. -/
theorem Paired.pairwise_diffRecursive {n n' : DataNode α} (h : Paired sha256 str n n')
    (hsep : Separates sha256 (hashed str n n')) (offset : ℕ) :
    ((n.diffRecursive n' offset).map Prod.fst).Pairwise (· < ·) := by
  induction h generalizing offset with
  | leaf data data' =>
    simp only [ofBlock,diffRecursive]
    split
    · exact List.Pairwise.nil
    · exact List.pairwise_singleton _ _
  | @node left left' right right' hl hr ihl ihr =>
    have hsepl := hsep.mono hashed_left_subset
    have hsepr := hsep.mono hashed_right_subset
    simp only [ofChildren,diffRecursive]
    split
    · exact List.Pairwise.nil
    · rw [List.map_append,List.pairwise_append]
      refine ⟨ihl hsepl offset,ihr hsepr _,?_⟩
      intro i hi j hj
      obtain ⟨⟨i,x,y⟩,hmem,rfl⟩ := List.mem_map.mp hi
      obtain ⟨⟨j,x',y'⟩,hmem',rfl⟩ := List.mem_map.mp hj
      obtain ⟨k,rfl,hk⟩ := (hl.mem_diffRecursive hsepl _ _ _ _).mp hmem
      obtain ⟨k',rfl,-⟩ := (hr.mem_diffRecursive hsepr _ _ _ _).mp hmem'
      have hlt := hk.lt
      have hwidth := hl.width_eq.1
      dsimp only
      omega

/-- A diff returns the places where two lists print differently, with both blocks, in increasing
order. -/
theorem diff_exact {a b : List α} (hlen : a.length = b.length) {t other : DataTree α}
    (ht : DataTree.init sha256 str a = .ok t) (hother : DataTree.init sha256 str b = .ok other)
    (hsep : Separates sha256 (hashed str t.root other.root)) :
    ∃ diffs, t.diff other = .ok diffs ∧ (∀ i x y, (i,x,y) ∈ diffs ↔ DiffersAt str a b i x y) ∧
      (diffs.map Prod.fst).Pairwise (· < ·) := by
  have hpaired := paired_init hlen ht hother
  have hleaves : t.root.leaves.length = other.root.leaves.length := by
    rw [(init_root ht).2,(init_root hother).2,List.length_map,List.length_map,hlen]
  refine ⟨_,if_neg (not_not_intro hleaves),fun i x y => ?_,hpaired.pairwise_diffRecursive hsep 0⟩
  rw [hpaired.mem_diffRecursive hsep,(init_root ht).1,(init_root hother).1]
  simp

/-- Of three blocks the second and the third one have changed: the search goes into the inner node, and
finds the promoted leaf behind its two leaves. -/
theorem diff_exact_changed : ∃ t other, DataTree.init tableDigest id ["a","b","c"] = .ok t ∧
    DataTree.init tableDigest id ["a","d","b"] = .ok other ∧ t.diff other = .ok [(1,"b","d"),(2,"c","b")] ∧
      (∀ i x y, (i,x,y) ∈ [(1,"b","d"),(2,"c","b")] ↔ DiffersAt id ["a","b","c"] ["a","d","b"] i x y) ∧
      ([(1,"b","d"),(2,"c","b")].map Prod.fst).Pairwise (· < ·) := by
  refine ⟨_,_,init_three "a" "b" "c",init_three "a" "d" "b",?_⟩
  obtain ⟨diffs,hdiff,hexact,hsorted⟩ := diff_exact (a := ["a","b","c"]) (b := ["a","d","b"]) rfl
    (init_three "a" "b" "c") (init_three "a" "d" "b") (separates_hashed (by decide +kernel))
  obtain rfl : [(1,"b","d"),(2,"c","b")] = diffs := by
    have hfound := (if_neg (by decide +kernel)).symm.trans hdiff
    rw [← Except.ok.inj hfound]
    decide +kernel
  exact ⟨hdiff,hexact,hsorted⟩

end DistributedSystems.Merkle
