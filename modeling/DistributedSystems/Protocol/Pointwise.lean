import DistributedSystems.Protocol.Dict
import Mathlib.Order.Lattice

/-! # Sparse vectors and their comparison

A dictionary of counters is a vector that is 0 where no entry is. Two vectors compare
coordinate by coordinate. A scan over the keys of both with a flag for each direction finds
out how.
-/
namespace DistributedSystems

/-- The outcomes of a comparison in a partial order. -/
inductive Comparison
  | less | equal | greater | concurrent
  deriving DecidableEq

namespace Comparison

def swap : Comparison → Comparison
  | less => greater
  | equal => equal
  | greater => less
  | concurrent => concurrent

/-- The outcome reads the order of two elements. -/
def Reads {α : Type*} [Preorder α] (a b : α) : Comparison → Prop
  | less => a < b
  | equal => a = b
  | greater => b < a
  | concurrent => ¬a ≤ b ∧ ¬b ≤ a

section Order
variable {α : Type*} [PartialOrder α] {a b : α} {o o' : Comparison}

theorem Reads.swap (h : Reads a b o) : Reads b a o.swap := by
  cases o with
  | less => exact h
  | equal => exact Eq.symm h
  | greater => exact h
  | concurrent => exact And.symm h

/-- Two elements are in one of the four relations only. -/
theorem Reads.unique (h : Reads a b o) (h' : Reads a b o') : o = o' := by
  cases o <;> cases o' <;> grind [Reads]

theorem Reads.iff (h : Reads a b o) (o' : Comparison) : o = o' ↔ Reads a b o' :=
  ⟨fun heq => heq ▸ h,h.unique⟩

theorem Reads.le_iff (h : Reads a b o) : a ≤ b ↔ o = less ∨ o = equal := by
  rw [h.iff,h.iff,le_iff_lt_or_eq]
  exact Iff.rfl

theorem Reads.ge_iff (h : Reads a b o) : b ≤ a ↔ o = greater ∨ o = equal := by
  rw [h.iff,h.iff,le_iff_lt_or_eq]
  exact or_congr_right eq_comm

end Order

/-- The laws of a comparison and a merge of things that stand for elements of an order: the
comparison reads the order, and the merge is the least upper bound as compared. -/
structure MergeLaws {C α : Type*} [Preorder α] (value : C → α) (compare : C → C → Comparison) (merge : C → C → C)
    (a b c : C) : Prop where
  reads : ∀ o, compare a b = o ↔ o.Reads (value a) (value b)
  mirror : compare b a = (compare a b).swap
  trans : (compare a b = less ∨ compare a b = equal) → (compare b c = less ∨ compare b c = equal) →
    compare a c = less ∨ compare a c = equal
  left : compare (merge a b) a = greater ∨ compare (merge a b) a = equal
  right : compare (merge a b) b = greater ∨ compare (merge a b) b = equal
  least : (compare a c = less ∨ compare a c = equal) → (compare b c = less ∨ compare b c = equal) →
    compare (merge a b) c = less ∨ compare (merge a b) c = equal

/-- A comparison that reads the order, and a merge that takes the supremum. -/
theorem mergeLaws {C α : Type*} [SemilatticeSup α] {value : C → α} {compare : C → C → Comparison} {merge : C → C → C}
    (hcompare : ∀ a b, (compare a b).Reads (value a) (value b)) {a b : C}
    (hmerge : value (merge a b) = value a ⊔ value b) (c : C) : MergeLaws value compare merge a b c where
  reads := (hcompare a b).iff
  mirror := (hcompare b a).unique (hcompare a b).swap
  trans hab hbc := by
    rw [← (hcompare _ _).le_iff] at hab hbc ⊢
    exact hab.trans hbc
  left := by
    rw [← (hcompare _ _).ge_iff,hmerge]
    exact le_sup_left
  right := by
    rw [← (hcompare _ _).ge_iff,hmerge]
    exact le_sup_right
  least ha hb := by
    rw [← (hcompare _ _).le_iff] at ha hb ⊢
    rw [hmerge]
    exact sup_le ha hb

/-- What two flags say: something is smaller on the left, something is larger. -/
def ofFlags : Bool × Bool → Comparison
  | (true,true) => concurrent
  | (true,false) => less
  | (false,true) => greater
  | (false,false) => equal

end Comparison

namespace Dict
variable {K M : Type*} [DecidableEq K] [LinearOrder M] [Zero M]

/-- The value of a key, 0 if there is none. -/
def coord (d : Dict K M) (k : K) : M := (d.get? k).getD 0

omit [LinearOrder M] in
theorem coord_insert (d : Dict K M) (k j : K) (v : M) :
    (d.insert k v).coord j = if j = k then v else d.coord j := by
  simp only [coord,get?_insert]
  split <;> rfl

omit [LinearOrder M] in
theorem coord_of_notMem {d : Dict K M} {k : K} (h : k ∉ d.keys) : d.coord k = 0 := by
  simp [coord,get?_of_notMem h]

/-- Without a negative value no coordinate is negative. -/
theorem coord_nonneg {d : Dict K M} (h : ∀ e ∈ d.entries, 0 ≤ e.2) (k : K) : 0 ≤ d.coord k := by
  cases hk : d.get? k with
  | none => simp [coord,hk]
  | some v => simpa [coord,hk] using h (k,v) (mem_entries_iff.mpr hk)

omit [LinearOrder M] in
theorem coord_congr {d d' : Dict K M} (h : ∀ k, d.get? k = d'.get? k) : d.coord = d'.coord := by
  funext k
  simp [coord,h]

/-- The keys of two dictionaries, each once. -/
def allKeys (d d' : Dict K M) : List K := d.keys ∪ d'.keys

/-- The body of the scan: the flags after one more key. -/
def compareAt (d d' : Dict K M) (flags : Bool × Bool) (k : K) : Bool × Bool :=
  if d.coord k < d'.coord k then (true,flags.2)
  else if d.coord k > d'.coord k then (flags.1,true)
  else flags

/-- The scan over the given keys. -/
def compareFlags (d d' : Dict K M) (keys : List K) : Bool × Bool := keys.foldl (compareAt d d') (false,false)

theorem foldl_compareAt (d d' : Dict K M) (keys : List K) (flags : Bool × Bool) :
    keys.foldl (compareAt d d') flags =
      (flags.1 || keys.any fun k => decide (d.coord k < d'.coord k),
       flags.2 || keys.any fun k => decide (d'.coord k < d.coord k)) := by
  induction keys generalizing flags with
  | nil => simp
  | cons k rest ih =>
    rw [List.foldl_cons,ih,List.any_cons,List.any_cons]
    rcases lt_trichotomy (d.coord k) (d'.coord k) with h | h | h
    · simp [compareAt,h,h.not_gt]
    · simp [compareAt,h]
    · simp [compareAt,h,h.not_gt]

omit [LinearOrder M] [Zero M] in
theorem mem_allKeys {d d' : Dict K M} {k : K} : k ∈ allKeys d d' ↔ k ∈ d.keys ∨ k ∈ d'.keys := List.mem_union_iff

omit [LinearOrder M] in
/-- Where one vector is smaller than another there is an entry of one of them. -/
theorem any_allKeys (d d' : Dict K M) (p : K → Prop) [DecidablePred p] (hp : ∀ k, p k → d.coord k ≠ d'.coord k) :
    ((allKeys d d').any fun k => decide (p k)) = true ↔ ∃ k, p k := by
  rw [List.any_eq_true]
  constructor
  · rintro ⟨k,-,hk⟩
    exact ⟨k,of_decide_eq_true hk⟩
  · rintro ⟨k,hk⟩
    refine ⟨k,?_,decide_eq_true hk⟩
    by_contra hnot
    rw [mem_allKeys,not_or] at hnot
    exact hp k hk ((coord_of_notMem hnot.1).trans (coord_of_notMem hnot.2).symm)

/-- The scan over all keys finds out how the vectors are ordered. -/
theorem reads_compareFlags (d d' : Dict K M) :
    Comparison.Reads d.coord d'.coord (Comparison.ofFlags (compareFlags d d' (allKeys d d'))) := by
  have hle : ∀ f g : K → M, f ≤ g ↔ ¬∃ k, g k < f k := by
    intro f g
    rw [Pi.le_def,not_exists]
    exact forall_congr' fun k => not_lt.symm
  have hlt := any_allKeys d d' (fun k => d.coord k < d'.coord k) fun k h => h.ne
  have hgt := any_allKeys d d' (fun k => d'.coord k < d.coord k) fun k h => h.ne'
  rw [compareFlags,foldl_compareAt,Bool.false_or,Bool.false_or]
  rw [← not_iff_not,← hle,Bool.not_eq_true] at hlt hgt
  cases h : (allKeys d d').any fun k => decide (d.coord k < d'.coord k) <;>
    cases h' : (allKeys d d').any fun k => decide (d'.coord k < d.coord k)
  · exact le_antisymm (hgt.mp h') (hlt.mp h)
  · exact lt_of_le_not_ge (hlt.mp h) fun hge => by simp [hgt.mpr hge] at h'
  · exact lt_of_le_not_ge (hgt.mp h') fun hge => by simp [hlt.mpr hge] at h
  · exact ⟨fun hge => by simp [hgt.mpr hge] at h',fun hge => by simp [hlt.mpr hge] at h⟩

end Dict

end DistributedSystems
