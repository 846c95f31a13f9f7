import DistributedSystems.Protocol.Dict

/-! # Sets, and dictionaries of sets

A set is iterated in some order. In a dictionary a set is made with its first member and deleted
with its last one.
-/
namespace DistributedSystems

/-- The members of a set in the order in which it is iterated. -/
structure Listing {α : Type*} (s : Finset α) where
  items : List α
  nodup : items.Nodup
  mem_items : ∀ x, x ∈ items ↔ x ∈ s

namespace Dict
variable {K V : Type*} [DecidableEq K] [DecidableEq V]

/-- Adds a member to the set of a key, which may be new. -/
def addTo (d : Dict K (Finset V)) (k : K) (v : V) : Dict K (Finset V) := d.insert k (Insert.insert v ((d.get? k).getD ∅))

/-- Removes a member if it is there, and the key with its last member. -/
def removeFrom (d : Dict K (Finset V)) (k : K) (v : V) : Dict K (Finset V) :=
  match d.get? k with
  | none => d
  | some s => if v ∈ s then if s.erase v = ∅ then d.erase k else d.insert k (s.erase v) else d

/-- No key has an empty set. -/
def NoneEmpty (d : Dict K (Finset V)) : Prop := ∀ k, d.get? k ≠ some ∅

/-- `v` is in the set of `k`. -/
def Has (d : Dict K (Finset V)) (k : K) (v : V) : Prop := ∃ s ∈ d.get? k, v ∈ s

instance (d : Dict K (Finset V)) (k : K) (v : V) : Decidable (d.Has k v) :=
  inferInstanceAs (Decidable (∃ s ∈ d.get? k, v ∈ s))

variable (d : Dict K (Finset V)) (k : K) (v : V)

omit [DecidableEq V] in
theorem has_iff_getD : d.Has k v ↔ v ∈ (d.get? k).getD ∅ := by
  unfold Has
  cases h : d.get? k <;> simp

omit [DecidableEq V] in
@[simp] theorem not_has_empty : ¬(empty : Dict K (Finset V)).Has k v := by
  rintro ⟨s,hs,-⟩
  cases hs

omit [DecidableEq V] in
theorem noneEmpty_empty : (empty : Dict K (Finset V)).NoneEmpty := fun _ h => nomatch h

theorem has_addTo (k' : K) (v' : V) : (d.addTo k v).Has k' v' ↔ k' = k ∧ v' = v ∨ d.Has k' v' := by
  rw [has_iff_getD,has_iff_getD,addTo,get?_insert]
  by_cases hk : k' = k
  · subst k'
    simp
  · simp [hk]

theorem NoneEmpty.addTo {d : Dict K (Finset V)} (h : d.NoneEmpty) : (d.addTo k v).NoneEmpty := by
  intro k' hempty
  rw [Dict.addTo,get?_insert] at hempty
  split at hempty
  · exact Finset.insert_ne_empty _ _ (Option.some.inj hempty)
  · exact h k' hempty

theorem has_removeFrom (k' : K) (v' : V) : (d.removeFrom k v).Has k' v' ↔ ¬(k' = k ∧ v' = v) ∧ d.Has k' v' := by
  unfold removeFrom
  cases hs : d.get? k with
  | none =>
    refine ⟨fun h => ⟨?_,h⟩,And.right⟩
    rintro ⟨rfl,-⟩
    obtain ⟨s,hs',-⟩ := h
    rw [hs] at hs'
    cases hs'
  | some s =>
    dsimp only
    by_cases hv : v ∈ s
    · rw [if_pos hv]
      have hset : (if s.erase v = ∅ then d.erase k else d.insert k (s.erase v)).Has k' v' ↔
          if k' = k then v' ∈ s.erase v else d.Has k' v' := by
        rw [has_iff_getD,has_iff_getD]
        split
        · rename_i hlast
          rw [get?_erase,hlast]
          split <;> simp
        · rw [get?_insert]
          split <;> simp
      rw [hset]
      by_cases hk : k' = k
      · subst k'
        simp [has_iff_getD,hs]
      · simp [hk]
    · rw [if_neg hv]
      refine ⟨fun h => ⟨?_,h⟩,And.right⟩
      rintro ⟨rfl,rfl⟩
      rw [has_iff_getD,hs] at h
      exact hv h

theorem NoneEmpty.removeFrom {d : Dict K (Finset V)} (h : d.NoneEmpty) : (d.removeFrom k v).NoneEmpty := by
  unfold Dict.removeFrom
  split
  · exact h
  · split
    · split
      · intro k' hempty
        rw [get?_erase] at hempty
        split at hempty
        · cases hempty
        · exact h k' hempty
      · rename_i hleft
        intro k' hempty
        rw [get?_insert] at hempty
        split at hempty
        · exact hleft (Option.some.inj hempty)
        · exact h k' hempty
    · exact h

omit [DecidableEq V] in
/-- A key without an empty set is there exactly when it has a member. -/
theorem NoneEmpty.mem_keys_iff {d : Dict K (Finset V)} (h : d.NoneEmpty) : k ∈ d.keys ↔ ∃ v, d.Has k v := by
  rw [Dict.mem_keys_iff]
  constructor
  · rintro ⟨s,hs⟩
    obtain ⟨v,hv⟩ := Finset.nonempty_of_ne_empty fun hempty => h k (hempty ▸ hs)
    exact ⟨v,s,hs,hv⟩
  · rintro ⟨-,s,hs,-⟩
    exact ⟨s,hs⟩

end Dict

end DistributedSystems
