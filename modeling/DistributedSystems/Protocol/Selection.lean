import Mathlib.Data.List.Perm.Basic
import Mathlib.Data.List.Nodup

/-! # Folding a choice between two values

A choice need not come from an order, so the result of a fold may depend on the order of the
list. It does not exactly when one member is chosen over every other.
-/
namespace DistributedSystems
variable {α : Type*}

/-- One of the two values is taken. -/
def Selects (pick : α → α → α) : Prop := ∀ x y, pick x y = x ∨ pick x y = y

/-- The member is chosen over every other one, from either side. -/
def Prevails (pick : α → α → α) (w : α) (xs : List α) : Prop := ∀ x ∈ xs, x ≠ w → pick w x = w ∧ pick x w = w

/-- The fold over a list that may be empty. -/
def selectAll (pick : α → α → α) : List α → Option α
  | [] => none
  | x :: xs => some (xs.foldl pick x)

variable {pick : α → α → α}

theorem Selects.foldl_mem (h : Selects pick) (x : α) (xs : List α) : xs.foldl pick x ∈ x :: xs := by
  induction xs generalizing x with
  | nil => exact List.mem_singleton_self x
  | cons y ys ih =>
    rcases List.mem_cons.mp (ih (pick x y)) with hmem | hmem
    · rw [List.foldl_cons,hmem]
      rcases h x y with hxy | hxy <;> simp [hxy]
    · exact List.mem_cons_of_mem x (List.mem_cons_of_mem y hmem)

theorem Selects.self (h : Selects pick) (x : α) : pick x x = x := (h x x).elim id id

/-- The prevailing member is the result, wherever it stands. -/
theorem Prevails.foldl_eq (h : Selects pick) {w x : α} {xs : List α} (hw : Prevails pick w (x :: xs))
    (hmem : w ∈ x :: xs) : xs.foldl pick x = w := by
  induction xs generalizing x with
  | nil => exact (List.mem_singleton.mp hmem).symm
  | cons y ys ih =>
    have hnext : pick x y ∈ x :: y :: ys := by
      rcases h x y with hxy | hxy <;> simp [hxy]
    refine ih (fun z hz => hw z ?_) ?_
    · rcases List.mem_cons.mp hz with rfl | hz
      · exact hnext
      · exact List.mem_cons_of_mem x (List.mem_cons_of_mem y hz)
    · by_cases hx : x = w
      · by_cases hy : y = w
        · rw [hx,hy,h.self]
          exact List.mem_cons_self
        · rw [hx,(hw y (by simp) hy).1]
          exact List.mem_cons_self
      · rcases List.mem_cons.mp ((List.mem_cons.mp hmem).resolve_left (Ne.symm hx)) with rfl | hys
        · rw [(hw x List.mem_cons_self hx).2]
          exact List.mem_cons_self
        · exact List.mem_cons_of_mem _ hys

open Classical in
/-- The fold gives one result for all orders of distinct members exactly when that result prevails. -/
theorem Selects.selectAll_perm_iff (h : Selects pick) {xs : List α} (hnodup : xs.Nodup) {w : α} :
    (∀ ys, ys.Perm xs → selectAll pick ys = some w) ↔ w ∈ xs ∧ Prevails pick w xs := by
  constructor
  · intro hall
    have hmem : w ∈ xs := by
      cases xs with
      | nil => cases hall [] (List.Perm.refl _)
      | cons x xs =>
        rw [← Option.some.inj (hall _ (List.Perm.refl _))]
        exact h.foldl_mem x xs
    refine ⟨hmem,fun x hx hne => ?_⟩
    -- Put the two members first: if the other one is taken, the result is lost.
    have hrest : w ∈ xs.erase x := (List.mem_erase_of_ne (Ne.symm hne)).mpr hmem
    have hperm : (x :: w :: (xs.erase x).erase w).Perm xs :=
      ((List.perm_cons_erase hrest).symm.cons x).trans (List.perm_cons_erase hx).symm
    have hdistinct := hperm.nodup_iff.mpr hnodup
    have hlost : ∀ y, y = x ∨ y = w → ((xs.erase x).erase w).foldl pick y = w → y = w := by
      rintro y (rfl | rfl) hfold
      · have hin := h.foldl_mem y ((xs.erase y).erase w)
        rw [hfold] at hin
        rcases List.mem_cons.mp hin with heq | hin
        · exact heq.symm
        · exact absurd hin (List.nodup_cons.mp (List.nodup_cons.mp hdistinct).2).1
      · rfl
    refine ⟨hlost _ ((h w x).symm) ?_,hlost _ (h x w) ?_⟩
    · exact Option.some.inj (hall _ ((List.Perm.swap x w _).trans hperm))
    · exact Option.some.inj (hall _ hperm)
  · rintro ⟨hmem,hw⟩ ys hperm
    cases ys with
    | nil =>
      rw [← hperm.mem_iff] at hmem
      cases hmem
    | cons y ys =>
      exact congrArg some (Prevails.foldl_eq h (fun x hx => hw x (hperm.mem_iff.mp hx)) (hperm.mem_iff.mpr hmem))

end DistributedSystems
