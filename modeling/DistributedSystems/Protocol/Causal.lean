import DistributedSystems.Protocol.Runs
import Mathlib.Data.Finset.Insert
import Mathlib.Data.Finset.Filter
import Mathlib.Data.Finset.Lattice.Basic
import Mathlib.Logic.Function.Basic

/-! # State-based replication and causal histories

Replicas apply updates of their own and merge states that any replica had at any time. The
history of a state is the set of the updates that led to it, each named by its position
among all updates of the run.
-/
namespace DistributedSystems.Causal
open Runs
variable {ι Op σ : Type*}

/-- A replicated object: its initial states, what an update makes of a state (nothing if it
is refused), and the merge. -/
structure Object (ι Op σ : Type*) where
  init : ι → σ
  apply : σ → Op → Option σ
  merge : σ → σ → σ

/-- An update, with the history of its replica just before. -/
structure Update (ι Op : Type*) where
  origin : ι
  op : Op
  past : Finset ℕ

/-- The update at a position, without its replica and past. -/
def opAt (updates : List (Update ι Op)) (k : ℕ) : Option Op := updates[k]?.map Update.op

theorem opAt_append {updates new : List (Update ι Op)} {k : ℕ} (h : k < updates.length) :
    opAt (updates ++ new) k = opAt updates k := by
  simp [opAt,List.getElem?_append_left h]

@[simp] theorem opAt_length (updates : List (Update ι Op)) (u : Update ι Op) :
    opAt (updates ++ [u]) updates.length = some u.op := by
  simp [opAt]

def originAt (updates : List (Update ι Op)) (k : ℕ) : Option ι := updates[k]?.map Update.origin

theorem originAt_append {updates new : List (Update ι Op)} {k : ℕ} (h : k < updates.length) :
    originAt (updates ++ new) k = originAt updates k := by
  simp [originAt,List.getElem?_append_left h]

@[simp] theorem originAt_length (updates : List (Update ι Op)) (u : Update ι Op) :
    originAt (updates ++ [u]) updates.length = some u.origin := by
  simp [originAt]

theorem originAt_of_lt {updates : List (Update ι Op)} {k : ℕ} (h : k < updates.length) :
    ∃ i, originAt updates k = some i :=
  ⟨updates[k].origin,by simp [originAt,h]⟩

structure Snapshot (σ : Type*) where
  state : σ
  history : Finset ℕ

/-- The replicas now, all updates so far, and all replicas at each moment so far. -/
structure System (ι Op σ : Type*) where
  replicas : ι → Snapshot σ
  updates : List (Update ι Op)
  moments : List (ι → Snapshot σ)

/-- `merge i j k`: replica `i` merges the state that replica `j` had at moment `k`. -/
inductive Action (ι Op : Type*)
  | update (i : ι) (op : Op)
  | merge (i j : ι) (k : ℕ)

namespace System
variable [DecidableEq ι]

def init (O : Object ι Op σ) : System ι Op σ where
  replicas i := ⟨O.init i,∅⟩
  updates := []
  moments := [fun i => ⟨O.init i,∅⟩]

def put (s : System ι Op σ) (i : ι) (t : Snapshot σ) (new : List (Update ι Op)) : System ι Op σ where
  replicas := Function.update s.replicas i t
  updates := s.updates ++ new
  moments := s.moments ++ [Function.update s.replicas i t]

def step (O : Object ι Op σ) (s : System ι Op σ) : Action ι Op → System ι Op σ
  | .update i op =>
    match O.apply (s.replicas i).state op with
    | none => s
    | some state => s.put i ⟨state,insert s.updates.length (s.replicas i).history⟩ [⟨i,op,(s.replicas i).history⟩]
  | .merge i j k =>
    match s.moments[k]? with
    | none => s
    | some g => s.put i ⟨O.merge (s.replicas i).state (g j).state,(s.replicas i).history ∪ (g j).history⟩ []

/-- Replica `i` has, or had at some moment, the snapshot. -/
def Occurs (s : System ι Op σ) (i : ι) (t : Snapshot σ) : Prop := ∃ g ∈ s.moments, t = g i

@[simp] theorem put_self (s : System ι Op σ) (i : ι) (t : Snapshot σ) (new : List (Update ι Op)) :
    (s.put i t new).replicas i = t := by
  simp [put]

@[simp] theorem put_updates (s : System ι Op σ) (i : ι) (t : Snapshot σ) (new : List (Update ι Op)) :
    (s.put i t new).updates = s.updates ++ new := rfl

theorem put_ne (s : System ι Op σ) {i j : ι} (t : Snapshot σ) (new : List (Update ι Op)) (h : j ≠ i) :
    (s.put i t new).replicas j = s.replicas j := by
  simp [put,h]

/-- Everything a step can do. -/
theorem step_cases (O : Object ι Op σ) (s : System ι Op σ) (a : Action ι Op) :
    s.step O a = s ∨
    (∃ i op state, O.apply (s.replicas i).state op = some state ∧ s.step O a =
      s.put i ⟨state,insert s.updates.length (s.replicas i).history⟩ [⟨i,op,(s.replicas i).history⟩]) ∨
    ∃ i j t, s.Occurs j t ∧ s.step O a =
      s.put i ⟨O.merge (s.replicas i).state t.state,(s.replicas i).history ∪ t.history⟩ [] := by
  cases a with
  | update i op =>
    cases h : O.apply (s.replicas i).state op with
    | none => exact Or.inl (by simp [step,h])
    | some state => exact Or.inr (Or.inl ⟨i,op,state,h,by simp [step,h]⟩)
  | merge i j k =>
    cases h : s.moments[k]? with
    | none => exact Or.inl (by simp [step,h])
    | some g => exact Or.inr (Or.inr ⟨i,j,g j,⟨g,List.mem_of_getElem? h,rfl⟩,by simp [step,h]⟩)

/-- Histories consist of known updates and contain the past of each of them, a replica
knows its own updates, and so does each of these. -/
structure Recorded (s : System ι Op σ) : Prop where
  current : s.replicas ∈ s.moments
  known : ∀ i t, s.Occurs i t → ∀ k ∈ t.history, k < s.updates.length
  closed : ∀ i t, s.Occurs i t → ∀ k ∈ t.history, ∀ u, s.updates[k]? = some u → u.past ⊆ t.history
  own : ∀ (k : ℕ) u, s.updates[k]? = some u → k ∈ (s.replicas u.origin).history
  order : ∀ (k l : ℕ) u u', s.updates[l]? = some u → s.updates[k]? = some u' → k < l → u'.origin = u.origin →
    k ∈ u.past

omit [DecidableEq ι] in
theorem recorded_init (O : Object ι Op σ) : Recorded (init O) := by
  constructor <;> simp [init,Occurs]

namespace Recorded
variable {s : System ι Op σ}

omit [DecidableEq ι] in
theorem occurs (h : Recorded s) (i : ι) : s.Occurs i (s.replicas i) := ⟨s.replicas,h.current,rfl⟩

/-- A snapshot of the next state is one of before, or the new one. -/
theorem occurs_put (h : Recorded s) {i j : ι} {t t' : Snapshot σ} {new : List (Update ι Op)}
    (ht : (s.put i t' new).Occurs j t) : s.Occurs j t ∨ (j = i ∧ t = t') := by
  obtain ⟨g,hg,rfl⟩ := ht
  rcases List.mem_append.mp hg with hg | hg
  · exact Or.inl ⟨g,hg,rfl⟩
  rw [List.mem_singleton.mp hg]
  by_cases hj : j = i
  · subst j
    exact Or.inr ⟨rfl,by simp⟩
  · exact Or.inl ⟨s.replicas,h.current,by simp [hj]⟩

/-- The new snapshot of a replica extends the one before. -/
theorem put (h : Recorded s) {i : ι} {t : Snapshot σ} {new : List (Update ι Op)}
    (hnew : ∀ u ∈ new, u.origin = i ∧ u.past = (s.replicas i).history) (hone : new.length ≤ 1)
    (hgrow : (s.replicas i).history ⊆ t.history) (hown : ∀ k < new.length, s.updates.length + k ∈ t.history)
    (hknown : ∀ k ∈ t.history, k < s.updates.length + new.length)
    (hclosed : ∀ k ∈ t.history, k < s.updates.length → ∀ u, s.updates[k]? = some u → u.past ⊆ t.history) :
    Recorded (s.put i t new) := by
  have hget : ∀ k u, (s.updates ++ new)[k]? = some u →
      (s.updates[k]? = some u ∧ k < s.updates.length) ∨ (k = s.updates.length ∧ u ∈ new) := by
    intro k u hu
    rcases lt_or_ge k s.updates.length with hk | hk
    · rw [List.getElem?_append_left hk] at hu
      exact Or.inl ⟨hu,hk⟩
    · rw [List.getElem?_append_right hk] at hu
      obtain ⟨hlt,-⟩ := List.getElem?_eq_some_iff.mp hu
      exact Or.inr ⟨by omega,List.mem_of_getElem? hu⟩
  have hmono : ∀ j, (s.replicas j).history ⊆ ((s.put i t new).replicas j).history := by
    intro j
    by_cases hj : j = i
    · subst j
      simpa using hgrow
    · rw [put_ne s t new hj]
  refine ⟨by simp [System.put],?_,?_,?_,?_⟩
  · intro j t' ht' k hk
    rw [put_updates,List.length_append]
    rcases h.occurs_put ht' with ht' | ⟨rfl,rfl⟩
    · exact Nat.lt_add_right _ (h.known j t' ht' k hk)
    · exact hknown k hk
  · intro j t' ht' k hk u hu
    rcases h.occurs_put ht' with ht' | ⟨rfl,rfl⟩
    · rcases hget k u hu with ⟨hu,-⟩ | ⟨rfl,-⟩
      · exact h.closed j t' ht' k hk u hu
      · exact absurd (h.known j t' ht' _ hk) (lt_irrefl _)
    · rcases hget k u hu with ⟨hold,hlt⟩ | ⟨-,hn⟩
      · exact hclosed k hk hlt u hold
      · rw [(hnew u hn).2]
        exact hgrow
  · intro k u hu
    rcases hget k u hu with ⟨hold,-⟩ | ⟨rfl,hn⟩
    · exact hmono _ (h.own k u hold)
    · rw [(hnew u hn).1,put_self]
      exact hown 0 (List.length_pos_of_mem hn)
  · intro k l u u' hu hu' hk horigin
    rcases hget l u hu with ⟨hold,hlt⟩ | ⟨rfl,hn⟩
    · rcases hget k u' hu' with ⟨hold',-⟩ | ⟨rfl,-⟩
      · exact h.order k l u u' hold hold' hk horigin
      · exact absurd (hk.trans hlt) (lt_irrefl _)
    · rcases hget k u' hu' with ⟨hold',-⟩ | ⟨rfl,-⟩
      · have hmem := h.own k u' hold'
        rw [horigin,(hnew u hn).1] at hmem
        rw [(hnew u hn).2]
        exact hmem
      · exact absurd hk (lt_irrefl _)

theorem step (h : Recorded s) (O : Object ι Op σ) (a : Action ι Op) : Recorded (s.step O a) := by
  rcases s.step_cases O a with hs | ⟨i,op,state,-,hs⟩ | ⟨i,j,t,ht,hs⟩
  · rw [hs]
    exact h
  · rw [hs]
    refine h.put (by simp) (by simp) (Finset.subset_insert _ _) (by simp) ?_ ?_
    · intro k hk
      rcases Finset.mem_insert.mp hk with rfl | hk
      · simp
      · exact Nat.lt_add_right _ (h.known i _ (h.occurs i) k hk)
    · intro k hk hlt u hu
      rcases Finset.mem_insert.mp hk with rfl | hk
      · exact absurd hlt (lt_irrefl _)
      · exact (h.closed i _ (h.occurs i) k hk u hu).trans (Finset.subset_insert _ _)
  · rw [hs]
    refine h.put (by simp) (by simp) Finset.subset_union_left (by simp) ?_ ?_
    · intro k hk
      rcases Finset.mem_union.mp hk with hk | hk
      · exact h.known i _ (h.occurs i) k hk
      · exact h.known j t ht k hk
    · intro k hk _ u hu
      rcases Finset.mem_union.mp hk with hk | hk
      · exact (h.closed i _ (h.occurs i) k hk u hu).trans Finset.subset_union_left
      · exact (h.closed j t ht k hk u hu).trans Finset.subset_union_right

omit [DecidableEq ι] in
/-- Of the updates of one replica a history has those up to some point. -/
theorem initial_segment (h : Recorded s) {i : ι} {t : Snapshot σ} (ht : s.Occurs i t) {k l : ℕ} (hkl : k < l)
    (hl : l ∈ t.history) {u u' : Update ι Op} (hu : s.updates[k]? = some u) (hu' : s.updates[l]? = some u')
    (horigin : u.origin = u'.origin) : k ∈ t.history :=
  h.closed i t ht l hl u' hu' (h.order k l u' u hu' hu hkl horigin)

/-- Two histories have the same updates of a replica, except that one may end earlier. -/
theorem comparable (h : Recorded s) {i j : ι} {t t' : Snapshot σ} (ht : s.Occurs i t) (ht' : s.Occurs j t') (o : ι) :
    (t.history.filter fun k => originAt s.updates k = some o) ⊆ t'.history ∨
    (t'.history.filter fun k => originAt s.updates k = some o) ⊆ t.history := by
  refine or_iff_not_imp_left.mpr fun hnot l hl => ?_
  obtain ⟨k,hk,hkt'⟩ := Finset.not_subset.mp hnot
  obtain ⟨hkt,hko⟩ := Finset.mem_filter.mp hk
  obtain ⟨hlt',hlo⟩ := Finset.mem_filter.mp hl
  obtain ⟨u,hu,huo⟩ := Option.map_eq_some_iff.mp hko
  obtain ⟨v,hv,hvo⟩ := Option.map_eq_some_iff.mp hlo
  rcases lt_trichotomy k l with hkl | rfl | hlk
  · exact absurd (h.initial_segment ht' hkl hlt' hu hv (huo.trans hvo.symm)) hkt'
  · exact absurd hlt' hkt'
  · exact h.initial_segment ht hlk hkt hv hu (hvo.trans huo.symm)

end Recorded

theorem recorded_run (O : Object ι Op σ) (schedule : List (Action ι Op)) :
    Recorded (run (step O) (init O) schedule) :=
  run_invariant_of_step (fun _ a h => h.step O a) (recorded_init O) schedule

/-- What holds at the start and survives later updates, an own update and a merge holds of
every snapshot of a run. -/
theorem run_occurs {O : Object ι Op σ} {P : List (Update ι Op) → ι → Snapshot σ → Prop}
    (hinit : ∀ i, P [] i ⟨O.init i,∅⟩)
    (happend : ∀ (s : System ι Op σ) i t u, Recorded s → s.Occurs i t → (O.apply (s.replicas u.origin).state u.op).isSome →
      P s.updates i t → P (s.updates ++ [u]) i t)
    (hupdate : ∀ (s : System ι Op σ) i op state, Recorded s → P s.updates i (s.replicas i) →
      O.apply (s.replicas i).state op = some state → P (s.updates ++ [⟨i,op,(s.replicas i).history⟩]) i
        ⟨state,insert s.updates.length (s.replicas i).history⟩)
    (hmerge : ∀ (s : System ι Op σ) i j t t', Recorded s → s.Occurs i t → s.Occurs j t' → P s.updates i t →
      P s.updates j t' → P s.updates i ⟨O.merge t.state t'.state,t.history ∪ t'.history⟩)
    (schedule : List (Action ι Op)) : ∀ i t, (run (step O) (init O) schedule).Occurs i t →
      P (run (step O) (init O) schedule).updates i t := by
  suffices hall : Recorded (run (step O) (init O) schedule) ∧
      ∀ i t, (run (step O) (init O) schedule).Occurs i t → P (run (step O) (init O) schedule).updates i t from hall.2
  refine run_invariant_of_step (I := fun s => Recorded s ∧ ∀ i t, s.Occurs i t → P s.updates i t) ?_ ?_ schedule
  · intro s a ⟨hs,hP⟩
    refine ⟨hs.step O a,?_⟩
    rcases s.step_cases O a with h | ⟨i,op,state,happly,h⟩ | ⟨i,j,t,ht,h⟩
    · rw [h]
      exact hP
    · rw [h]
      intro j t' ht'
      rcases hs.occurs_put ht' with ht' | ⟨rfl,rfl⟩
      · exact happend s j t' _ hs ht' (by rw [happly]; rfl) (hP j t' ht')
      · exact hupdate s j op state hs (hP j _ (hs.occurs j)) happly
    · rw [h]
      intro j' t' ht'
      rw [put_updates,List.append_nil]
      rcases hs.occurs_put ht' with ht' | ⟨rfl,rfl⟩
      · exact hP j' t' ht'
      · exact hmerge s j' j _ t hs (hs.occurs j') ht (hP j' _ (hs.occurs j')) (hP j t ht)
  · refine ⟨recorded_init O,fun i t ht => ?_⟩
    obtain ⟨g,hg,rfl⟩ := ht
    rw [List.mem_singleton.mp hg]
    exact hinit i

end System

end DistributedSystems.Causal
