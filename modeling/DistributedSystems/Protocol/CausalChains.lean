import Mathlib.Order.Bounds.Basic

/-! # Longest chains of a relation

A height that grows along a relation bounds the chains. It is the length of the longest one
wherever each element above the first height has one just below it.
-/
namespace DistributedSystems.CausalChains
variable {α : Type*}

/-- `n` elements, each related to the next one, the last of which is `x`. -/
inductive ChainTo (R : α → α → Prop) : ℕ → α → Prop
  | single (x : α) : ChainTo R 1 x
  | append {n : ℕ} {x y : α} (hx : ChainTo R n x) (hxy : R x y) : ChainTo R (n + 1) y

/-- Heights of some elements: positive, growing along the relation, and without gaps along a
part of it. -/
structure Height (R below : α → α → Prop) (H : α → ℕ → Prop) : Prop where
  pos : ∀ {x n}, H x n → 1 ≤ n
  lt : ∀ {x y m n}, R x y → H x m → H y n → m < n
  source : ∀ {x y}, R x y → ∃ m, H x m
  sub : ∀ x y, below x y → R x y
  step : ∀ {x n}, H x n → n = 1 ∨ ∃ y m, below y x ∧ H y m ∧ n = m + 1

variable {R below : α → α → Prop} {H : α → ℕ → Prop}

theorem Height.le (h : Height R below H) {n k : ℕ} {x : α} (hx : H x n) (hchain : ChainTo R k x) : k ≤ n := by
  induction hchain generalizing n with
  | single x => exact h.pos hx
  | append _ hxy ih =>
    obtain ⟨m,hm⟩ := h.source hxy
    exact Nat.succ_le_of_lt ((ih hm).trans_lt (h.lt hxy hm hx))

theorem Height.chainTo (h : Height R below H) {n : ℕ} {x : α} (hx : H x n) : ChainTo R n x := by
  induction n using Nat.strong_induction_on generalizing x with
  | h n ih =>
    rcases h.step hx with rfl | ⟨y,m,hyx,hy,rfl⟩
    · exact .single x
    · exact .append (ih m (Nat.lt_succ_self m) hy) (h.sub y x hyx)

/-- The height is the length of the longest chain. -/
theorem Height.isGreatest (h : Height R below H) {n : ℕ} {x : α} (hx : H x n) : IsGreatest {k | ChainTo R k x} n :=
  ⟨h.chainTo hx,fun _ hchain => h.le hx hchain⟩

end DistributedSystems.CausalChains
