import Mathlib.Order.Defs.LinearOrder
import Mathlib.Order.Lattice

/-! # The newer of two stamped values

Of two values the one with the larger stamp is kept, and the first when the stamps are
equal. This is associative and idempotent as it stands, and commutative on values that
their stamps determine.
-/
namespace DistributedSystems
variable {α β : Type*} [LinearOrder β] (stamp : α → β)

def newest (x y : α) : α := if stamp x < stamp y then y else x

theorem newest_of_lt {x y : α} (h : stamp x < stamp y) : newest stamp x y = y := if_pos h

theorem newest_of_le {x y : α} (h : stamp y ≤ stamp x) : newest stamp x y = x := if_neg (not_lt.mpr h)

theorem newest_eq_or (x y : α) : newest stamp x y = x ∨ newest stamp x y = y := by
  rcases lt_or_ge (stamp x) (stamp y) with h | h
  · exact Or.inr (newest_of_lt stamp h)
  · exact Or.inl (newest_of_le stamp h)

theorem le_newest (x y : α) : stamp x ≤ stamp (newest stamp x y) := by
  rcases lt_or_ge (stamp x) (stamp y) with h | h
  · rw [newest_of_lt stamp h]
    exact h.le
  · rw [newest_of_le stamp h]

theorem right_le_newest (x y : α) : stamp y ≤ stamp (newest stamp x y) := by
  rcases lt_or_ge (stamp x) (stamp y) with h | h
  · rw [newest_of_lt stamp h]
  · rw [newest_of_le stamp h]
    exact h

/-- The newest of a list is one of its members, and none is newer. -/
theorem foldl_newest_mem (x : α) (xs : List α) : xs.foldl (newest stamp) x ∈ x :: xs := by
  induction xs generalizing x with
  | nil => exact List.mem_singleton_self x
  | cons y ys ih =>
    rcases List.mem_cons.mp (ih (newest stamp x y)) with h | h
    · rw [List.foldl_cons,h]
      rcases newest_eq_or stamp x y with h | h <;> simp [h]
    · exact List.mem_cons_of_mem x (List.mem_cons_of_mem y h)

theorem le_foldl_newest (x : α) (xs : List α) : ∀ y ∈ x :: xs, stamp y ≤ stamp (xs.foldl (newest stamp) x) := by
  induction xs generalizing x with
  | nil => simp
  | cons z zs ih =>
    intro y hy
    have hfirst := ih (newest stamp x z) _ List.mem_cons_self
    rcases List.mem_cons.mp hy with rfl | hy
    · exact (le_newest stamp y z).trans hfirst
    · rcases List.mem_cons.mp hy with rfl | hy
      · exact (right_le_newest stamp x y).trans hfirst
      · exact ih _ y (List.mem_cons_of_mem _ hy)

instance : Std.IdempotentOp (newest stamp) := ⟨fun _ => newest_of_le stamp (le_refl _)⟩

instance : Std.Associative (newest stamp) where
  assoc x y z := by
    rcases lt_or_ge (stamp x) (stamp y) with hxy | hxy
    · rw [newest_of_lt stamp hxy]
      rcases lt_or_ge (stamp y) (stamp z) with hyz | hyz
      · rw [newest_of_lt stamp hyz,newest_of_lt stamp (hxy.trans hyz)]
      · rw [newest_of_le stamp hyz,newest_of_lt stamp hxy]
    · rw [newest_of_le stamp hxy]
      rcases lt_or_ge (stamp y) (stamp z) with hyz | hyz
      · rw [newest_of_lt stamp hyz]
      · rw [newest_of_le stamp hyz,newest_of_le stamp hxy,newest_of_le stamp (hyz.trans hxy)]

variable {stamp}

theorem newest_comm {x y : α} (h : stamp x = stamp y → x = y) : newest stamp x y = newest stamp y x := by
  rcases lt_trichotomy (stamp x) (stamp y) with hlt | heq | hlt
  · rw [newest_of_lt stamp hlt,newest_of_le stamp hlt.le]
  · rw [h heq]
  · rw [newest_of_le stamp hlt.le,newest_of_lt stamp hlt]

/-- Values that may be missing, and that their stamps determine where both are there. -/
theorem merge_newest_comm {x y : Option α} (h : ∀ a ∈ x, ∀ b ∈ y, stamp a = stamp b → a = b) :
    Option.merge (newest stamp) x y = Option.merge (newest stamp) y x := by
  cases x with
  | none => rw [Option.merge_none_left,Option.merge_none_right]
  | some a =>
    cases y with
    | none => rw [Option.merge_none_left,Option.merge_none_right]
    | some b =>
      rw [Option.merge_some_some,Option.merge_some_some]
      exact congrArg some (newest_comm (h a rfl b rfl))

/-- Taking over what the other side made of both leaves nothing to take back. -/
theorem merge_newest_absorb {x y : Option α} (h : ∀ a ∈ x, ∀ b ∈ y, stamp a = stamp b → a = b) :
    Option.merge (newest stamp) y (Option.merge (newest stamp) x y) = Option.merge (newest stamp) x y := by
  have hassoc := (Option.associative_merge (newest stamp)).assoc
  have hidem := (Option.idempotentOp_merge (newest stamp)).idempotent
  calc Option.merge (newest stamp) y (Option.merge (newest stamp) x y)
      = Option.merge (newest stamp) (Option.merge (newest stamp) y x) y := (hassoc y x y).symm
    _ = Option.merge (newest stamp) (Option.merge (newest stamp) x y) y := by rw [merge_newest_comm h]
    _ = Option.merge (newest stamp) x (Option.merge (newest stamp) y y) := hassoc x y y
    _ = Option.merge (newest stamp) x y := by rw [hidem y]

end DistributedSystems
