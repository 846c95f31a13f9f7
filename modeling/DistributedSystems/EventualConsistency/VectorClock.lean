import DistributedSystems.Protocol.Pointwise
import Mathlib.Data.Int.ConditionallyCompleteOrder
import Mathlib.Order.CompletePartialOrder
import Mathlib.Order.ConditionallyCompleteLattice.Basic

/-! # Vector clocks of versions

Any node may have a counter, and a counter that is missing counts as 0. A merge writes every
counter of the two clocks, also those that stay 0.
-/
namespace DistributedSystems.EventualConsistency

inductive Ordering
  | lt | eq | gt | concurrent
  deriving DecidableEq

def Ordering.toComparison : Ordering → Comparison
  | lt => .less
  | eq => .equal
  | gt => .greater
  | concurrent => .concurrent

structure VectorClock (ι : Type) where
  clock : Dict ι ℤ

namespace VectorClock
variable {ι : Type} [DecidableEq ι]

def increment (c : VectorClock ι) (nodeId : ι) : VectorClock ι :=
  ⟨c.clock.insert nodeId (c.clock.coord nodeId + 1)⟩

/-- The loop over `set(self.clock.keys()) | set(other.clock.keys())`. -/
def merge (c other : VectorClock ι) : VectorClock ι :=
  ⟨(c.clock.allKeys other.clock).foldl
    (fun clock node => clock.insert node (max (clock.coord node) (other.clock.coord node))) c.clock⟩

def compare (c other : VectorClock ι) : Ordering :=
  let (hasLt,hasGt) := c.clock.compareFlags other.clock (c.clock.allKeys other.clock)
  if hasLt ∧ hasGt then .concurrent
  else if hasLt then .lt
  else if hasGt then .gt
  else .eq

/-- A comparison of clocks reads the order of their counters. -/
theorem reads_compare (c other : VectorClock ι) :
    (c.compare other).toComparison.Reads c.clock.coord other.clock.coord := by
  convert Dict.reads_compareFlags c.clock other.clock using 1
  rw [compare]
  obtain ⟨hasLt,hasGt⟩ := c.clock.compareFlags other.clock (c.clock.allKeys other.clock)
  cases hasLt <;> cases hasGt <;> rfl

theorem get?_merge (c other : VectorClock ι) (k : ι) : (c.merge other).clock.get? k =
    if k ∈ c.clock.allKeys other.clock then some (max (c.clock.coord k) (other.clock.coord k)) else none := by
  have hloop : ∀ (nodes : List ι) (clock : Dict ι ℤ), (nodes.foldl
      (fun clock node => clock.insert node (max (clock.coord node) (other.clock.coord node))) clock).get? k =
        if k ∈ nodes then some (max (clock.coord k) (other.clock.coord k)) else clock.get? k := by
    intro nodes
    induction nodes with
    | nil => simp
    | cons node rest ih =>
      intro clock
      rw [List.foldl_cons,ih,Dict.coord_insert,Dict.get?_insert]
      by_cases hk : k = node
      · simp [hk]
      · simp [hk]
  rw [merge,hloop]
  by_cases hk : k ∈ c.clock.allKeys other.clock
  · rw [if_pos hk,if_pos hk]
  · rw [if_neg hk,if_neg hk,Dict.get?_of_notMem fun h => hk (Dict.mem_allKeys.mpr (Or.inl h))]

/-- A merge is the supremum. -/
theorem coord_merge (c other : VectorClock ι) : (c.merge other).clock.coord = c.clock.coord ⊔ other.clock.coord := by
  funext k
  rw [Pi.sup_apply,Dict.coord,get?_merge]
  split
  · rfl
  · rename_i hk
    rw [Dict.mem_allKeys,not_or] at hk
    rw [Dict.coord_of_notMem hk.1,Dict.coord_of_notMem hk.2,max_self]
    rfl

end VectorClock

end DistributedSystems.EventualConsistency
