import DistributedSystems.Crdt.PNCounter
import DistributedSystems.Protocol.Causal
import Mathlib.Algebra.BigOperators.Group.Finset.Piecewise
import Mathlib.Algebra.Order.BigOperators.Group.Finset

/-! # Counters count every update once

The count of a node is the sum of those updates of the node that are in the history. Two
histories have the same updates of a node up to some point, so the larger count is that of
their union.
-/
namespace DistributedSystems.Crdt
open Runs Causal

inductive PNOp
  | increment (value : ℤ)
  | decrement (value : ℤ)

namespace PNOp

def increments : PNOp → ℤ
  | increment value => value
  | decrement _ => 0

def decrements : PNOp → ℤ
  | increment _ => 0
  | decrement value => value

end PNOp

variable {ι : Type} [DecidableEq ι]

/-- What the update at a position adds, by a weight of its operation. -/
def weightAt (weight : PNOp → ℤ) (updates : List (Update ι PNOp)) (k : ℕ) : ℤ := ((opAt updates k).map weight).getD 0

/-- The counts of a counter, node by node. -/
structure Tallies (updates : List (Update ι PNOp)) (weight : PNOp → ℤ) (history : Finset ℕ) (c : GCounter ι) : Prop where
  count : ∀ j, c.count j = ∑ k ∈ history with originAt updates k = some j, weightAt weight updates k
  keys : ∀ k ∈ history, ∀ j, originAt updates k = some j → j ∈ c.counts.keys

namespace Tallies
variable {updates : List (Update ι PNOp)} {weight : PNOp → ℤ} {history : Finset ℕ} {c : GCounter ι}

theorem value (h : Tallies updates weight history c) (hknown : ∀ k ∈ history, k < updates.length) :
    c.value = ∑ k ∈ history, weightAt weight updates k := by
  simp only [c.value_eq,h.count,Finset.sum_filter]
  rw [Finset.sum_comm]
  refine Finset.sum_congr rfl fun k hk => ?_
  obtain ⟨j,hj⟩ := originAt_of_lt (hknown k hk)
  have hmem : j ∈ c.counts.keys.toFinset := List.mem_toFinset.mpr (h.keys k hk j hj)
  simp only [hj,Option.some.injEq,Finset.sum_ite_eq,if_pos hmem]

theorem append (h : Tallies updates weight history c) (hknown : ∀ k ∈ history, k < updates.length)
    (u : Update ι PNOp) : Tallies (updates ++ [u]) weight history c where
  count j := by
    rw [h.count j]
    have hfilter : (history.filter fun k => originAt (updates ++ [u]) k = some j) =
        history.filter fun k => originAt updates k = some j :=
      Finset.filter_congr fun k hk => by rw [originAt_append (hknown k hk)]
    rw [hfilter]
    refine Finset.sum_congr rfl fun k hk => ?_
    simp only [weightAt,opAt_append (hknown k (Finset.mem_filter.mp hk).1)]
  keys k hk j hj := by
    rw [originAt_append (hknown k hk)] at hj
    exact h.keys k hk j hj

/-- One more update of a node, with what it adds to the count of the node. -/
theorem insert (h : Tallies updates weight history c) (hknown : ∀ k ∈ history, k < updates.length)
    {u : Update ι PNOp} {c' : GCounter ι} (hkeys : ∀ j, j = u.origin ∨ j ∈ c.counts.keys → j ∈ c'.counts.keys)
    (hcount : ∀ j, c'.count j = if j = u.origin then c.count j + weight u.op else c.count j) :
    Tallies (updates ++ [u]) weight (insert updates.length history) c' := by
  have happend := h.append hknown u
  have hnew : updates.length ∉ history := fun hmem => lt_irrefl _ (hknown _ hmem)
  constructor
  · intro j
    rw [hcount,happend.count,Finset.filter_insert,originAt_length]
    by_cases hj : j = u.origin
    · subst j
      rw [if_pos rfl,if_pos rfl,Finset.sum_insert fun hmem => hnew (Finset.mem_filter.mp hmem).1,add_comm]
      simp [weightAt]
    · rw [if_neg hj,if_neg fun he => hj (Option.some.inj he).symm]
  · intro k hk j hj
    rcases Finset.mem_insert.mp hk with rfl | hk
    · rw [originAt_length] at hj
      exact hkeys j (Or.inl (Option.some.inj hj).symm)
    · exact hkeys j (Or.inr (happend.keys k hk j hj))

/-- The node of the update increments its counter. -/
theorem increment (h : Tallies updates weight history c) (hknown : ∀ k ∈ history, k < updates.length)
    {u : Update ι PNOp} {c' : GCounter ι} (hnode : c.nodeId = u.origin) (hc : c.increment (weight u.op) = .ok c') :
    Tallies (updates ++ [u]) weight (Insert.insert updates.length history) c' := by
  obtain ⟨-,rfl⟩ := GCounter.increment_eq_ok hc
  refine h.insert hknown (fun j hj => Dict.mem_keys_insert.mpr (hnode ▸ hj)) fun j => ?_
  rw [GCounter.count_insert,hnode]
  split
  · rename_i hj
    rw [hj]
  · rfl

/-- An update of the other counter. -/
theorem skip (h : Tallies updates weight history c) (hknown : ∀ k ∈ history, k < updates.length)
    {u : Update ι PNOp} (hown : u.origin ∈ c.counts.keys) (hzero : weight u.op = 0) :
    Tallies (updates ++ [u]) weight (Insert.insert updates.length history) c := by
  refine h.insert hknown (fun j hj => ?_) fun j => ?_
  · rcases hj with rfl | hj
    · exact hown
    · exact hj
  · rw [hzero,add_zero,ite_self]

theorem count_nonneg (h : Tallies updates weight history c) (hnonneg : ∀ k, 0 ≤ weightAt weight updates k) (j : ι) :
    0 ≤ c.count j := by
  rw [h.count]
  exact Finset.sum_nonneg fun k _ => hnonneg k

/-- Of comparable histories the longer one has the larger count, that of the union. -/
theorem merge {history' : Finset ℕ} {c' : GCounter ι} (h : Tallies updates weight history c)
    (h' : Tallies updates weight history' c') (hnonneg : ∀ k, 0 ≤ weightAt weight updates k)
    (hcomp : ∀ j, (history.filter fun k => originAt updates k = some j) ⊆ history' ∨
      (history'.filter fun k => originAt updates k = some j) ⊆ history) :
    Tallies updates weight (history ∪ history') (c.merge c') := by
  constructor
  · intro j
    have hmono : ∀ {A B : Finset ℕ}, A ⊆ B → ∑ k ∈ A, weightAt weight updates k ≤ ∑ k ∈ B, weightAt weight updates k :=
      fun hAB => Finset.sum_le_sum_of_subset_of_nonneg hAB fun k _ _ => hnonneg k
    have hsub : ∀ {A B : Finset ℕ}, (A.filter fun k => originAt updates k = some j) ⊆ B →
        (A.filter fun k => originAt updates k = some j) ⊆ B.filter fun k => originAt updates k = some j :=
      fun hAB k hk => Finset.mem_filter.mpr ⟨hAB hk,(Finset.mem_filter.mp hk).2⟩
    rw [GCounter.count_merge (h.count_nonneg hnonneg),h.count,h'.count,Finset.filter_union]
    rcases hcomp j with hle | hle
    · rw [max_eq_right (hmono (hsub hle)),Finset.union_eq_right.mpr (hsub hle)]
    · rw [max_eq_left (hmono (hsub hle)),Finset.union_eq_left.mpr (hsub hle)]
  · intro k hk j hj
    rw [GCounter.mem_keys_merge]
    rcases Finset.mem_union.mp hk with hk | hk
    · exact Or.inr (h.keys k hk j hj)
    · exact Or.inl (h'.keys k hk j hj)

end Tallies

namespace PNCounter

def apply (c : PNCounter ι) : PNOp → Except ValueError (PNCounter ι)
  | .increment value => c.increment value
  | .decrement value => c.decrement value

/-- Replicas named after their nodes; an update that raises changes nothing. -/
def object (ι : Type) [DecidableEq ι] : Object ι PNOp (PNCounter ι) where
  init := init
  apply c op := (c.apply op).toOption
  merge := merge

/-- The replicas, with merges of copies that went through JSON. -/
def jsonObject (ι : Type) [DecidableEq ι] : Object ι PNOp (PNCounter ι) :=
  { object ι with merge := fun c other => c.merge (fromJson other.toJson) }

/-- `merge i j k` and `transfer i j k` merge into replica `i` the state that `j` had at
moment `k`, the second by way of its JSON text. -/
inductive CounterAction (ι : Type)
  | increment (i : ι) (value : ℤ)
  | decrement (i : ι) (value : ℤ)
  | merge (i j : ι) (k : ℕ)
  | transfer (i j : ι) (k : ℕ)

def step (s : System ι PNOp (PNCounter ι)) : CounterAction ι → System ι PNOp (PNCounter ι)
  | .increment i value => s.step (object ι) (.update i (.increment value))
  | .decrement i value => s.step (object ι) (.update i (.decrement value))
  | .merge i j k => s.step (object ι) (.merge i j k)
  | .transfer i j k => s.step (jsonObject ι) (.merge i j k)

theorem jsonObject_eq : jsonObject ι = object ι := by
  simp only [jsonObject,merge_fromJson]
  rfl

/-- The action as one of replicas that merge directly. -/
def CounterAction.toAction : CounterAction ι → Action ι PNOp
  | .increment i value => .update i (.increment value)
  | .decrement i value => .update i (.decrement value)
  | .merge i j k => .merge i j k
  | .transfer i j k => .merge i j k

theorem step_eq (s : System ι PNOp (PNCounter ι)) (a : CounterAction ι) : step s a = s.step (object ι) a.toAction := by
  cases a with
  | transfer i j k => simp only [step,jsonObject_eq,CounterAction.toAction]
  | _ => rfl

theorem run_eq (s : System ι PNOp (PNCounter ι)) (schedule : List (CounterAction ι)) :
    run step s schedule = run (System.step (object ι)) s (schedule.map CounterAction.toAction) := by
  simp only [run,List.foldl_map,← step_eq]

/-- Both counters of a replica are those of its node, and add up its history. -/
structure Counted (updates : List (Update ι PNOp)) (i : ι) (t : Snapshot (PNCounter ι)) : Prop where
  nonneg : ∀ k, 0 ≤ weightAt PNOp.increments updates k ∧ 0 ≤ weightAt PNOp.decrements updates k
  node : t.state.positive.nodeId = i ∧ t.state.negative.nodeId = i
  own : i ∈ t.state.positive.counts.keys ∧ i ∈ t.state.negative.counts.keys
  positive : Tallies updates PNOp.increments t.history t.state.positive
  negative : Tallies updates PNOp.decrements t.history t.state.negative

theorem apply_cases {c c' : PNCounter ι} {op : PNOp} (h : (object ι).apply c op = some c') :
    0 ≤ op.increments ∧ 0 ≤ op.decrements ∧
    ((op.decrements = 0 ∧ ∃ positive, c.positive.increment op.increments = .ok positive ∧
      c' = { c with positive := positive }) ∨
    (op.increments = 0 ∧ ∃ negative, c.negative.increment op.decrements = .ok negative ∧
      c' = { c with negative := negative })) := by
  have hok : c.apply op = .ok c' := by
    change (c.apply op).toOption = some c' at h
    cases hc : c.apply op with
    | error e => simp [hc,Except.toOption] at h
    | ok c'' => simpa [hc,Except.toOption] using h
  cases op with
  | increment value =>
    obtain ⟨positive,hp,hc⟩ := increment_eq_ok hok
    exact ⟨(GCounter.increment_eq_ok hp).1,le_refl _,Or.inl ⟨rfl,positive,hp,hc⟩⟩
  | decrement value =>
    obtain ⟨negative,hn,hc⟩ := decrement_eq_ok hok
    exact ⟨le_refl _,(GCounter.increment_eq_ok hn).1,Or.inr ⟨rfl,negative,hn,hc⟩⟩

omit [DecidableEq ι] in
theorem weightAt_append_nonneg {weight : PNOp → ℤ} {updates : List (Update ι PNOp)} {u : Update ι PNOp}
    (h : ∀ k, 0 ≤ weightAt weight updates k) (hu : 0 ≤ weight u.op) (k : ℕ) :
    0 ≤ weightAt weight (updates ++ [u]) k := by
  rcases lt_trichotomy k updates.length with hk | rfl | hk
  · simpa [weightAt,opAt_append hk] using h k
  · simpa [weightAt] using hu
  · have hnone : (updates ++ [u])[k]? = none := List.getElem?_eq_none (by simp; omega)
    simp [weightAt,opAt,hnone]

namespace Counted
variable {s : System ι PNOp (PNCounter ι)} {i : ι} {t : Snapshot (PNCounter ι)}

theorem append (hs : s.Recorded) (ht : s.Occurs i t) (h : Counted s.updates i t) {u : Update ι PNOp}
    (hu : 0 ≤ u.op.increments ∧ 0 ≤ u.op.decrements) : Counted (s.updates ++ [u]) i t where
  nonneg k := ⟨weightAt_append_nonneg (fun k => (h.nonneg k).1) hu.1 k,
    weightAt_append_nonneg (fun k => (h.nonneg k).2) hu.2 k⟩
  node := h.node
  own := h.own
  positive := h.positive.append (hs.known i t ht) u
  negative := h.negative.append (hs.known i t ht) u

theorem update (hs : s.Recorded) (h : Counted s.updates i (s.replicas i)) {op : PNOp} {c : PNCounter ι}
    (hc : (object ι).apply (s.replicas i).state op = some c) :
    Counted (s.updates ++ [⟨i,op,(s.replicas i).history⟩]) i
      ⟨c,insert s.updates.length (s.replicas i).history⟩ := by
  have hknown := hs.known i _ (hs.occurs i)
  obtain ⟨hinc,hdec,⟨hzero,positive,hp,rfl⟩ | ⟨hzero,negative,hn,rfl⟩⟩ := apply_cases hc
  · have happend := h.append hs (hs.occurs i) (u := ⟨i,op,(s.replicas i).history⟩) ⟨hinc,hdec⟩
    obtain ⟨-,hpos⟩ := GCounter.increment_eq_ok hp
    refine ⟨happend.nonneg,⟨?_,h.node.2⟩,⟨?_,h.own.2⟩,?_,?_⟩
    · rw [hpos]
      exact h.node.1
    · rw [hpos]
      exact Dict.mem_keys_insert.mpr (Or.inr h.own.1)
    · exact h.positive.increment hknown h.node.1 hp
    · exact h.negative.skip hknown h.own.2 hzero
  · have happend := h.append hs (hs.occurs i) (u := ⟨i,op,(s.replicas i).history⟩) ⟨hinc,hdec⟩
    obtain ⟨-,hneg⟩ := GCounter.increment_eq_ok hn
    refine ⟨happend.nonneg,⟨h.node.1,?_⟩,⟨h.own.1,?_⟩,?_,?_⟩
    · rw [hneg]
      exact h.node.2
    · rw [hneg]
      exact Dict.mem_keys_insert.mpr (Or.inr h.own.2)
    · exact h.positive.skip hknown h.own.1 hzero
    · exact h.negative.increment hknown h.node.2 hn

theorem merge (hs : s.Recorded) {j : ι} {t' : Snapshot (PNCounter ι)} (ht : s.Occurs i t) (ht' : s.Occurs j t')
    (h : Counted s.updates i t) (h' : Counted s.updates j t') :
    Counted s.updates i ⟨t.state.merge t'.state,t.history ∪ t'.history⟩ where
  nonneg := h.nonneg
  node := h.node
  own := ⟨GCounter.mem_keys_merge.mpr (Or.inr h.own.1),GCounter.mem_keys_merge.mpr (Or.inr h.own.2)⟩
  positive := h.positive.merge h'.positive (fun k => (h.nonneg k).1) (hs.comparable ht ht')
  negative := h.negative.merge h'.negative (fun k => (h.nonneg k).2) (hs.comparable ht ht')

end Counted

theorem counted_run (schedule : List (Action ι PNOp)) :
    ∀ i t, (run (System.step (object ι)) (System.init (object ι)) schedule).Occurs i t →
      Counted (run (System.step (object ι)) (System.init (object ι)) schedule).updates i t := by
  refine System.run_occurs (P := Counted) ?_ ?_ ?_ ?_ schedule
  · intro i
    have hkeys : i ∈ (GCounter.init i).counts.keys := Dict.mem_keys_insert.mpr (Or.inl rfl)
    have hempty : ∀ weight, Tallies [] weight ∅ (GCounter.init i) := fun weight =>
      ⟨fun j => (GCounter.count_init i j).trans (by simp),fun k hk => absurd hk (Finset.notMem_empty k)⟩
    exact ⟨fun k => by simp [weightAt,opAt],⟨rfl,rfl⟩,⟨hkeys,hkeys⟩,hempty _,hempty _⟩
  · intro s i t u hs ht hu h
    obtain ⟨c,hc⟩ := Option.isSome_iff_exists.mp hu
    exact h.append hs ht ⟨(apply_cases hc).1,(apply_cases hc).2.1⟩
  · exact fun s i op state hs h hc => h.update hs hc
  · exact fun s i j t t' hs ht ht' h h' => h.merge hs ht ht' h'

/-- The value of a replica is the sum of the increments of its history minus that of the
decrements, whatever was merged, directly or as JSON. -/
theorem value_eq_sum (schedule : List (CounterAction ι)) (i : ι) :
    ((run step (System.init (object ι)) schedule).replicas i).state.value =
      (∑ k ∈ ((run step (System.init (object ι)) schedule).replicas i).history,
        weightAt PNOp.increments (run step (System.init (object ι)) schedule).updates k) -
      ∑ k ∈ ((run step (System.init (object ι)) schedule).replicas i).history,
        weightAt PNOp.decrements (run step (System.init (object ι)) schedule).updates k := by
  rw [run_eq]
  have hs := System.recorded_run (object ι) (schedule.map CounterAction.toAction)
  have h := counted_run (schedule.map CounterAction.toAction) i _ (hs.occurs i)
  have hknown := hs.known i _ (hs.occurs i)
  unfold value
  rw [h.positive.value hknown,h.negative.value hknown]

end PNCounter

end DistributedSystems.Crdt
