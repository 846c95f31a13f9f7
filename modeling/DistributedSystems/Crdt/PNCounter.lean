import DistributedSystems.Protocol.Dict
import Mathlib.Algebra.Ring.Int.Defs

/-! # Counters

A grow-only counter keeps a count for each node, a PN-counter keeps one such counter for the
increments and one for the decrements. In JSON the counts travel as a list of members.
-/
namespace DistributedSystems.Crdt

structure ValueError where
  message : String

structure GCounter (ι : Type) where
  nodeId : ι
  counts : Dict ι ℤ

variable {ι : Type} [DecidableEq ι]

namespace GCounter

def init (nodeId : ι) : GCounter ι := ⟨nodeId,Dict.empty.insert nodeId 0⟩

/-- The count of a node, 0 if there is none. -/
def count (c : GCounter ι) (nodeId : ι) : ℤ := (c.counts.get? nodeId).getD 0

def increment (c : GCounter ι) (value : ℤ) : Except ValueError (GCounter ι) :=
  if value < 0 then .error ⟨"G-Counter only supports positive increments"⟩
  else .ok { c with counts := c.counts.insert c.nodeId (c.count c.nodeId + value) }

def value (c : GCounter ι) : ℤ := (c.counts.entries.map Prod.snd).sum

def merge (c other : GCounter ι) : GCounter ι :=
  { c with counts := other.counts.entries.foldl (fun d e => d.insert e.1 (max ((d.get? e.1).getD 0) e.2)) c.counts }

def getState (c : GCounter ι) : Dict ι ℤ := c.counts

def setState (c : GCounter ι) (state : Dict ι ℤ) : GCounter ι := { c with counts := state }

theorem value_eq (c : GCounter ι) : c.value = ∑ j ∈ c.counts.keys.toFinset, c.count j := c.counts.sum_values

theorem count_init (nodeId j : ι) : (init nodeId).count j = 0 := by
  simp only [count,init,Dict.get?_insert]
  split
  · rfl
  · rfl

theorem increment_eq_ok {c c' : GCounter ι} {v : ℤ} (h : c.increment v = .ok c') :
    0 ≤ v ∧ c' = { c with counts := c.counts.insert c.nodeId (c.count c.nodeId + v) } := by
  unfold increment at h
  split at h
  · cases h
  · rename_i hv
    cases h
    exact ⟨not_lt.mp hv,rfl⟩

theorem count_insert (c : GCounter ι) (k j : ι) (v : ℤ) :
    ({ c with counts := c.counts.insert k v } : GCounter ι).count j = if j = k then v else c.count j := by
  simp only [count,Dict.get?_insert]
  split
  · rfl
  · rfl

theorem mem_keys_merge {c other : GCounter ι} {j : ι} :
    j ∈ (c.merge other).counts.keys ↔ j ∈ other.counts.keys ∨ j ∈ c.counts.keys :=
  Dict.mem_keys_foldl_combine (fun old v => max (old.getD 0) v) other.counts.entries c.counts j

/-- A merge takes the larger count of every node. -/
theorem count_merge {c other : GCounter ι} (h : ∀ j, 0 ≤ c.count j) (j : ι) :
    (c.merge other).count j = max (c.count j) (other.count j) := by
  have hget : (c.merge other).counts.get? j = _ :=
    Dict.get?_combine (fun old v => max (old.getD 0) v) c.counts other.counts j
  unfold count
  rw [hget]
  cases other.counts.get? j with
  | none => exact (max_eq_left (h j)).symm
  | some v => rfl

end GCounter

structure PNCounter (ι : Type) where
  nodeId : ι
  positive : GCounter ι
  negative : GCounter ι

/-- What `json.loads` gives back of the text of a counter. -/
structure PNCounterJson (ι : Type) where
  nodeId : ι
  positive : List (ι × ℤ)
  negative : List (ι × ℤ)

namespace PNCounter

def init (nodeId : ι) : PNCounter ι := ⟨nodeId,.init nodeId,.init nodeId⟩

def increment (c : PNCounter ι) (value : ℤ) : Except ValueError (PNCounter ι) :=
  if value < 0 then .error ⟨"Increment value must be positive"⟩
  else (c.positive.increment value).map fun positive => { c with positive := positive }

def decrement (c : PNCounter ι) (value : ℤ) : Except ValueError (PNCounter ι) :=
  if value < 0 then .error ⟨"Decrement value must be positive"⟩
  else (c.negative.increment value).map fun negative => { c with negative := negative }

def value (c : PNCounter ι) : ℤ := c.positive.value - c.negative.value

def merge (c other : PNCounter ι) : PNCounter ι :=
  { c with positive := c.positive.merge other.positive, negative := c.negative.merge other.negative }

def toJson (c : PNCounter ι) : PNCounterJson ι :=
  ⟨c.nodeId,c.positive.getState.entries,c.negative.getState.entries⟩

/-- A new counter of the node, with both states set. -/
def fromJson (data : PNCounterJson ι) : PNCounter ι :=
  let counter := init data.nodeId
  { counter with
    positive := counter.positive.setState (.ofEntries data.positive)
    negative := counter.negative.setState (.ofEntries data.negative) }

theorem increment_eq_ok {c c' : PNCounter ι} {v : ℤ} (h : c.increment v = .ok c') :
    ∃ positive, c.positive.increment v = .ok positive ∧ c' = { c with positive := positive } := by
  unfold increment at h
  split at h
  · cases h
  · cases hp : c.positive.increment v with
    | error e => simp [hp,Except.map] at h
    | ok positive =>
      simp only [hp,Except.map,Except.ok.injEq] at h
      exact ⟨positive,rfl,h.symm⟩

theorem decrement_eq_ok {c c' : PNCounter ι} {v : ℤ} (h : c.decrement v = .ok c') :
    ∃ negative, c.negative.increment v = .ok negative ∧ c' = { c with negative := negative } := by
  unfold decrement at h
  split at h
  · cases h
  · cases hn : c.negative.increment v with
    | error e => simp [hn,Except.map] at h
    | ok negative =>
      simp only [hn,Except.map,Except.ok.injEq] at h
      exact ⟨negative,rfl,h.symm⟩

/-- A copy made through JSON is merged like the counter itself. -/
theorem merge_fromJson (c other : PNCounter ι) : c.merge (fromJson other.toJson) = c.merge other := by
  simp only [merge,GCounter.merge,fromJson,toJson,GCounter.getState,GCounter.setState,Dict.ofEntries_entries]

end PNCounter

end DistributedSystems.Crdt
