import DistributedSystems.EventualConsistency.VectorClock

/-! # Causal contexts

The vector clock of a replica. A merge goes over the counters of the other side only, so
counters that the other side does not have stay as they are.
-/
namespace DistributedSystems.Crdt
open EventualConsistency (VectorClock Ordering)

structure CausalContext (ι : Type) where
  nodeId : ι
  clock : Dict ι ℤ

namespace CausalContext
variable {ι : Type} [DecidableEq ι]

def update (c : CausalContext ι) (otherClock : Dict ι ℤ) : CausalContext ι :=
  { c with
    clock := otherClock.entries.foldl (fun clock e => clock.insert e.1 (max ((clock.get? e.1).getD 0) e.2)) c.clock }

def merge (c other : CausalContext ι) : CausalContext ι := c.update other.clock

/-- The strings `'less'`, `'equal'`, `'greater'` and `'concurrent'`. -/
def compare (c other : CausalContext ι) : Comparison :=
  let (less,greater) := c.clock.compareFlags other.clock (c.clock.allKeys other.clock)
  if less ∧ greater then .concurrent
  else if less then .less
  else if greater then .greater
  else .equal

theorem compare_eq_ofFlags (c other : CausalContext ι) :
    c.compare other = .ofFlags (c.clock.compareFlags other.clock (c.clock.allKeys other.clock)) := by
  rw [compare]
  obtain ⟨less,greater⟩ := c.clock.compareFlags other.clock (c.clock.allKeys other.clock)
  cases less <;> cases greater <;> rfl

theorem reads_compare (c other : CausalContext ι) : (c.compare other).Reads c.clock.coord other.clock.coord := by
  rw [compare_eq_ofFlags]
  exact Dict.reads_compareFlags c.clock other.clock

theorem get?_merge (c other : CausalContext ι) (k : ι) : (c.merge other).clock.get? k =
    (other.clock.get? k).elim (c.clock.get? k) fun v => some (max (c.clock.coord k) v) :=
  Dict.get?_combine (fun u v => max (u.getD 0) v) c.clock other.clock k

/-- A merge is the supremum: what the other side does not have is not below 0. -/
theorem coord_merge {c : CausalContext ι} (hc : ∀ e ∈ c.clock.entries, 0 ≤ e.2) (other : CausalContext ι) :
    (c.merge other).clock.coord = c.clock.coord ⊔ other.clock.coord := by
  funext k
  rw [Pi.sup_apply,Dict.coord,get?_merge]
  cases h : other.clock.get? k with
  | some v => simp [Dict.coord,h]
  | none =>
    have hz : other.clock.coord k = 0 := by simp [Dict.coord,h]
    rw [hz,max_eq_left (Dict.coord_nonneg hc k)]
    rfl

theorem compare_eq_of_get? {x y : CausalContext ι} {a b : VectorClock ι} (hx : ∀ k, x.clock.get? k = a.clock.get? k)
    (hy : ∀ k, y.clock.get? k = b.clock.get? k) : x.compare y = (a.compare b).toComparison := by
  have hread := x.reads_compare y
  rw [Dict.coord_congr hx,Dict.coord_congr hy] at hread
  exact hread.unique (a.reads_compare b)

theorem get?_merge_of_get? {x y : CausalContext ι} {a b : VectorClock ι} (hx : ∀ k, x.clock.get? k = a.clock.get? k)
    (hy : ∀ k, y.clock.get? k = b.clock.get? k) (hpos : ∀ e ∈ x.clock.entries, 0 ≤ e.2) (k : ι) :
    (x.merge y).clock.get? k = (a.merge b).clock.get? k := by
  rw [get?_merge,VectorClock.get?_merge,hx,hy,← Dict.coord_congr hx]
  by_cases hb : k ∈ b.clock.keys
  · obtain ⟨v,hv⟩ := Dict.mem_keys_iff.mp hb
    rw [if_pos (Dict.mem_allKeys.mpr (Or.inr hb)),hv]
    simp [Dict.coord,hv]
  rw [Dict.get?_of_notMem hb,Dict.coord_of_notMem hb,max_eq_left (Dict.coord_nonneg hpos k),Dict.coord,hx]
  by_cases ha : k ∈ a.clock.keys
  · obtain ⟨v,hv⟩ := Dict.mem_keys_iff.mp ha
    rw [if_pos (Dict.mem_allKeys.mpr (Or.inl ha)),hv]
    rfl
  · rw [if_neg fun h => (Dict.mem_allKeys.mp h).elim ha hb,Dict.get?_of_notMem ha]
    rfl

/-- Both clocks are compared by the order of their counters and merge to least upper bounds,
and on the same counters they do the same. -/
theorem merge_leastUpperBound (a b c : VectorClock ι) (x y z : CausalContext ι)
    (hx : ∀ e ∈ x.clock.entries, 0 ≤ e.2) :
    Comparison.MergeLaws (fun a => a.clock.coord) (fun a b => (a.compare b).toComparison) VectorClock.merge a b c ∧
    Comparison.MergeLaws (fun x => x.clock.coord) compare merge x y z ∧
    ((∀ k, x.clock.get? k = a.clock.get? k) → (∀ k, y.clock.get? k = b.clock.get? k) →
      x.compare y = (a.compare b).toComparison ∧ ∀ k, (x.merge y).clock.get? k = (a.merge b).clock.get? k) :=
  ⟨Comparison.mergeLaws (fun a b => a.reads_compare b) (a.coord_merge b) c,
    Comparison.mergeLaws reads_compare (coord_merge hx y) z,
    fun hxa hyb => ⟨compare_eq_of_get? hxa hyb,get?_merge_of_get? hxa hyb hx⟩⟩

/-- One side has a counter that is 0, the other side does not have it. -/
theorem merge_leastUpperBound_sparse :
    let x : CausalContext ℕ := ⟨0,.ofEntries [(0,2),(1,0)]⟩
    let y : CausalContext ℕ := ⟨2,.ofEntries [(0,1)]⟩
    x.compare y = ((⟨x.clock⟩ : VectorClock ℕ).compare ⟨y.clock⟩).toComparison ∧ x.compare y = .greater ∧
      ((x.merge y).compare x = .greater ∨ (x.merge y).compare x = .equal) := by
  intro x y
  have h := merge_leastUpperBound ⟨x.clock⟩ ⟨y.clock⟩ ⟨x.clock⟩ x y x (by decide)
  exact ⟨(h.2.2 (fun _ => rfl) fun _ => rfl).1,by decide,h.2.1.left⟩

end CausalContext

end DistributedSystems.Crdt
