import Mathlib.Data.List.Nodup
import Mathlib.Data.Nat.Init
import Mathlib.Logic.Function.Basic
import Mathlib.Logic.Function.Iterate

/-! # Binary trees in heap order

Node 1 is the root and the children of node `i` are `2 * i` and `2 * i + 1`. With `n` leaves the
inner nodes come before `n` and the leaves from `n` on, whether or not `n` is a power of two. A
descent that stops at nodes without a difference collects what the leaves have to say.
-/
namespace DistributedSystems.HeapTree
variable {α κ : Type*}

/-- Computes the inner nodes from `k` down to the root, each from its two children. -/
def buildUp (combine : Option α → Option α → α) : ℕ → (ℕ → Option α) → ℕ → Option α
  | 0, tree => tree
  | i + 1, tree =>
    buildUp combine i (Function.update tree (i + 1) (some (combine (tree (2 * (i + 1))) (tree (2 * (i + 1) + 1)))))

section BuildUp
variable (combine : Option α → Option α → α) {k i : ℕ} (tree : ℕ → Option α)

theorem buildUp_of_lt (h : k < i) : buildUp combine k tree i = tree i := by
  induction k generalizing tree with
  | zero => rfl
  | succ k ih => rw [buildUp,ih _ (Nat.lt_of_succ_lt h),Function.update_of_ne (Nat.ne_of_gt h)]

/-- In the end every inner node is computed from its children. -/
theorem buildUp_of_le (hpos : 0 < i) (hle : i ≤ k) : buildUp combine k tree i =
    some (combine (buildUp combine k tree (2 * i)) (buildUp combine k tree (2 * i + 1))) := by
  induction k generalizing tree with
  | zero => exact absurd hpos (Nat.not_lt.mpr hle)
  | succ k ih =>
    rw [buildUp]
    rcases Nat.le_succ_iff.mp hle with hle | rfl
    · exact ih _ hle
    · rw [buildUp_of_lt combine _ (Nat.lt_succ_self k),buildUp_of_lt combine _ (by omega),
        buildUp_of_lt combine _ (by omega),Function.update_self,Function.update_of_ne (by omega),
        Function.update_of_ne (by omega)]

end BuildUp

theorem left_pos {i : ℕ} (h : 0 < i) : 0 < 2 * i := Nat.mul_pos Nat.two_pos h
theorem right_pos (i : ℕ) : 0 < 2 * i + 1 := Nat.succ_pos _

/-- Node `j` is node `i` or below it. -/
def Under (i j : ℕ) : Prop := ∃ k, (· / 2)^[k] j = i

theorem under_refl (i : ℕ) : Under i i := ⟨0,rfl⟩

theorem under_of_half {i i' j : ℕ} (h : Under i j) (hi : i / 2 = i') : Under i' j := by
  obtain ⟨k,rfl⟩ := h
  exact ⟨k + 1,by rw [Function.iterate_succ_apply',hi]⟩

theorem iterate_half_le (m d : ℕ) : (· / 2)^[d] m ≤ m := by
  induction d with
  | zero => exact Nat.le_refl m
  | succ d ih =>
    rw [Function.iterate_succ_apply']
    exact Nat.le_trans (Nat.div_le_self _ _) ih

/-- Nothing is below both children of a node. -/
theorem Under.left_ne_right {i j j' : ℕ} (hpos : 0 < i) (h : Under (2 * i) j) (h' : Under (2 * i + 1) j') : j ≠ j' := by
  rintro rfl
  obtain ⟨k,hk⟩ := h
  obtain ⟨k',hk'⟩ := h'
  -- The longer way up goes through the end of the shorter one, and ends at most at its half.
  have hhalf : ∀ m k d, (· / 2)^[k + d + 1] m ≤ (· / 2)^[k] m / 2 := fun m k d => by
    rw [Nat.add_assoc,Nat.add_comm k,Function.iterate_add_apply,Function.iterate_succ_apply]
    exact iterate_half_le _ _
  rcases Nat.lt_trichotomy k k' with hlt | rfl | hlt
  · obtain ⟨d,rfl⟩ := Nat.exists_eq_add_of_lt hlt
    have hd := hhalf j k d
    rw [hk,hk'] at hd
    omega
  · omega
  · obtain ⟨d,rfl⟩ := Nat.exists_eq_add_of_lt hlt
    have hd := hhalf j k' d
    rw [hk,hk'] at hd
    omega

/-- Goes down from a node wherever there is a difference, and collects what the leaves contribute. -/
def descend (n : ℕ) (same : ℕ → Prop) [DecidablePred same] (leaf : ℕ → List κ) (i : ℕ) (hpos : 0 < i) : List κ :=
  if same i then []
  else if n ≤ i then leaf (i - n)
  else descend n same leaf (2 * i) (left_pos hpos) ++ descend n same leaf (2 * i + 1) (right_pos i)
termination_by n - i

section Descend
variable {n : ℕ} {same : ℕ → Prop} [DecidablePred same] {leaf : ℕ → List κ} {i : ℕ} {hpos : 0 < i}

/-- What is collected comes from a leaf below, with a difference. -/
theorem mem_descend {x : κ} (h : x ∈ descend n same leaf i hpos) :
    ∃ j, Under i j ∧ n ≤ j ∧ ¬same j ∧ x ∈ leaf (j - n) := by
  fun_induction descend n same leaf i hpos with
  | case1 => cases h
  | case2 i hpos hsame hleaf => exact ⟨i,under_refl i,hleaf,hsame,h⟩
  | case3 i hpos hsame hinner ihl ihr =>
    rcases List.mem_append.mp h with h | h
    · obtain ⟨j,hj,hrest⟩ := ihl h
      exact ⟨j,under_of_half hj (by omega),hrest⟩
    · obtain ⟨j,hj,hrest⟩ := ihr h
      exact ⟨j,under_of_half hj (by omega),hrest⟩

/-- Leaves without duplicates that share nothing make a descent without duplicates. -/
theorem nodup_descend (hnodup : ∀ b, (leaf b).Nodup) (hdisjoint : ∀ b b' x, x ∈ leaf b → x ∈ leaf b' → b = b') :
    (descend n same leaf i hpos).Nodup := by
  fun_induction descend n same leaf i hpos with
  | case1 => exact List.nodup_nil
  | case2 i hpos hsame hleaf => exact hnodup _
  | case3 i hpos hsame hinner ihl ihr =>
    refine ihl.append ihr fun x hl hr => ?_
    obtain ⟨j,hj,hle,-,hx⟩ := mem_descend hl
    obtain ⟨j',hj',hle',-,hx'⟩ := mem_descend hr
    have heq := hdisjoint _ _ x hx hx'
    exact hj.left_ne_right hpos hj' (by omega)

/-- If differences go up to the root, the descent misses no leaf that differs. -/
theorem mem_descend_of_differs (hup : ∀ j, 1 < j → j < 2 * n → ¬same j → ¬same (j / 2)) {b : ℕ} (hb : b < n)
    (hdiffers : ¬same (n + b)) {x : κ} (hx : x ∈ leaf b) : x ∈ descend n same leaf 1 Nat.one_pos := by
  have hclimb : ∀ j (hj : 0 < j), j < 2 * n → ¬same j → x ∈ descend n same leaf j hj →
      x ∈ descend n same leaf 1 Nat.one_pos := by
    intro j
    induction j using Nat.strong_induction_on with
    | h j ih =>
      intro hj hlt hsame hmem
      rcases Nat.lt_or_ge 1 j with hone | hone
      · have hparent := hup j hone hlt hsame
        refine ih (j / 2) (by omega) (by omega) (by omega) hparent ?_
        rw [descend,if_neg hparent,if_neg (by omega),List.mem_append]
        obtain ⟨i,rfl | rfl⟩ : ∃ i, j = 2 * i ∨ j = 2 * i + 1 := ⟨j / 2,by omega⟩
        · left
          simpa [Nat.mul_div_cancel_left] using hmem
        · right
          have hi : (2 * i + 1) / 2 = i := by omega
          simpa [hi] using hmem
      · obtain rfl : j = 1 := by omega
        exact hmem
  refine hclimb (n + b) (by omega) (by omega) hdiffers ?_
  rw [descend,if_neg hdiffers,if_pos (Nat.le_add_right n b),Nat.add_sub_cancel_left]
  exact hx

end Descend

end DistributedSystems.HeapTree
