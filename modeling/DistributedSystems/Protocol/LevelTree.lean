import Mathlib.Data.List.Basic
import Mathlib.Data.List.Forall2

/-! # Trees built level by level

Neighbours on a level are joined, and an odd last one moves up as it is. Two levels of the same
length are joined in the same places, so what holds of their members pairwise and is kept by
joining holds of the two roots.
-/
namespace DistributedSystems.LevelTree
variable {α β γ : Type*}

def pairUp (join : α → α → α) : List α → List α
  | left :: right :: rest => join left right :: pairUp join rest
  | nodes => nodes

@[simp] theorem pairUp_nil (join : α → α → α) : pairUp join [] = [] := by simp [pairUp]

@[simp] theorem pairUp_singleton (join : α → α → α) (x : α) : pairUp join [x] = [x] := by simp [pairUp]

theorem length_pairUp (join : α → α → α) : ∀ nodes : List α, (pairUp join nodes).length = (nodes.length + 1) / 2
  | [] => by simp
  | [_] => by simp
  | left :: right :: rest => by
    rw [pairUp,List.length_cons,length_pairUp join rest,List.length_cons,List.length_cons]
    omega

/-- The root above a first member and the others. -/
def build (join : α → α → α) : α → List α → α
  | first, [] => first
  | first, second :: rest => build join (join first second) (pairUp join rest)
termination_by _ nodes => nodes.length
decreasing_by
  rw [length_pairUp,List.length_cons]
  omega

section Rel
variable {R : α → β → Prop} {join : α → α → α} {join' : β → β → β}

theorem forall₂_pairUp (hjoin : ∀ x x' y y', R x y → R x' y' → R (join x x') (join' y y')) :
    ∀ {xs : List α} {ys : List β}, List.Forall₂ R xs ys → List.Forall₂ R (pairUp join xs) (pairUp join' ys)
  | _, _, .nil => by simp
  | _, _, .cons h .nil => by simpa using h
  | _, _, .cons h (.cons h' hrest) => by
    rw [pairUp,pairUp]
    exact .cons (hjoin _ _ _ _ h h') (forall₂_pairUp hjoin hrest)

/-- What joining keeps holds of the roots. -/
theorem build_rel (hjoin : ∀ x x' y y', R x y → R x' y' → R (join x x') (join' y y')) {x : α} {y : β} {xs : List α}
    {ys : List β} (h : R x y) (hrest : List.Forall₂ R xs ys) : R (build join x xs) (build join' y ys) := by
  fun_induction build join x xs generalizing y ys with
  | case1 x =>
    cases hrest
    rwa [build]
  | case2 x x' xs ih =>
    cases hrest with
    | cons h' hrest =>
      rw [build]
      exact ih (hjoin _ _ _ _ h h') (forall₂_pairUp hjoin hrest)

end Rel

section Append
variable {join : α → α → α} {items : α → List γ}

theorem flatMap_pairUp (hjoin : ∀ x y, items (join x y) = items x ++ items y) : ∀ xs : List α,
    (pairUp join xs).flatMap items = xs.flatMap items
  | [] => by simp
  | [_] => by simp
  | x :: y :: rest => by
    rw [pairUp,List.flatMap_cons,flatMap_pairUp hjoin rest,hjoin,List.flatMap_cons,List.flatMap_cons,List.append_assoc]

/-- What a join concatenates keeps its order up to the root. -/
theorem build_append (hjoin : ∀ x y, items (join x y) = items x ++ items y) (x : α) (xs : List α) :
    items (build join x xs) = items x ++ xs.flatMap items := by
  fun_induction build join x xs with
  | case1 x => simp
  | case2 x y rest ih => rw [ih,flatMap_pairUp hjoin,hjoin,List.flatMap_cons,List.append_assoc]

end Append

end DistributedSystems.LevelTree
