import DistributedSystems.Protocol.Causal
import Mathlib.Data.Finset.Image
import Mathlib.Data.Finset.SDiff

/-! # Observed-remove sets

The two tag sets of a replica against its causal history: the first holds the additions of
the history, the second what the removals of the history had seen. Elements are compared by
an equality that is an equivalence, and the tag of an addition is an input.
-/
namespace DistributedSystems.Crdt
open Runs Causal

structure ORSet (E τ : Type) where
  addSet : Finset (E × τ)
  removeSet : Finset (E × τ)

inductive ORSetOp (E τ : Type)
  | add (element : E) (tag : τ)
  | remove (element : E)

/-- The new tag of an addition. -/
def ORSetOp.tag? {E τ : Type} : ORSetOp E τ → Option τ
  | .add _ tag => some tag
  | .remove _ => none

variable {ι E τ : Type} [DecidableEq ι] [DecidableEq E] [DecidableEq τ]

namespace ORSet

def init (E τ : Type) : ORSet E τ := ⟨∅,∅⟩

def add (s : ORSet E τ) (element : E) (tag : τ) : ORSet E τ := { s with addSet := insert (element,tag) s.addSet }

def remove (s : ORSet E τ) (element : E) : ORSet E τ :=
  let observedInstances := s.addSet.filter fun p => p.1 = element ∧ p ∉ s.removeSet
  { s with removeSet := s.removeSet ∪ observedInstances }

def value (s : ORSet E τ) : Finset E := (s.addSet \ s.removeSet).image Prod.fst

def merge (s other : ORSet E τ) : ORSet E τ := ⟨s.addSet ∪ other.addSet,s.removeSet ∪ other.removeSet⟩

def apply (s : ORSet E τ) : ORSetOp E τ → ORSet E τ
  | .add element tag => s.add element tag
  | .remove element => s.remove element

theorem mem_value {s : ORSet E τ} {e : E} : e ∈ s.value ↔ ∃ tag, (e,tag) ∈ s.addSet ∧ (e,tag) ∉ s.removeSet := by
  simp [value]

/-- A removal covers all instances of its element, also those removed before. -/
theorem mem_removeSet_remove {s : ORSet E τ} {element e : E} {tag : τ} : (e,tag) ∈ (s.remove element).removeSet ↔
    (e,tag) ∈ s.removeSet ∨ (e = element ∧ (e,tag) ∈ s.addSet) := by
  simp only [remove,Finset.mem_union,Finset.mem_filter]
  tauto

/-- Replicas with distinct ids, which the operations do not look at. -/
def object (ι E τ : Type) [DecidableEq E] [DecidableEq τ] : Object ι (ORSetOp E τ) (ORSet E τ) where
  init _ := init E τ
  apply s op := some (s.apply op)
  merge := merge

/-- Some addition of the element in the history was seen by no removal of the element in the
history. -/
def Observed (updates : List (Update ι (ORSetOp E τ))) (history : Finset ℕ) (e : E) : Prop :=
  ∃ a ∈ history, (∃ tag, opAt updates a = some (.add e tag)) ∧
    ∀ r ∈ history, ∀ u, updates[r]? = some u → u.op = .remove e → a ∉ u.past

/-- The tag sets hold the additions, and what the removals had in their past. -/
structure Tagged (updates : List (Update ι (ORSetOp E τ))) (t : Snapshot (ORSet E τ)) : Prop where
  added : ∀ e tag, (e,tag) ∈ t.state.addSet ↔ ∃ a ∈ t.history, opAt updates a = some (.add e tag)
  removed : ∀ e tag, (e,tag) ∈ t.state.removeSet ↔ ∃ r ∈ t.history, ∃ u, updates[r]? = some u ∧
    u.op = .remove e ∧ ∃ a ∈ u.past, opAt updates a = some (.add e tag)

namespace Tagged
variable {s : System ι (ORSetOp E τ) (ORSet E τ)} {i j : ι} {t t' : Snapshot (ORSet E τ)}

omit [DecidableEq ι] [DecidableEq E] [DecidableEq τ] in
theorem append (hs : s.Recorded) (ht : s.Occurs i t) (h : Tagged s.updates t) (u : Update ι (ORSetOp E τ)) :
    Tagged (s.updates ++ [u]) t where
  added e tag := by
    rw [h.added e tag]
    refine exists_congr fun a => and_congr_right fun ha => ?_
    rw [opAt_append (hs.known i t ht a ha)]
  removed e tag := by
    rw [h.removed e tag]
    refine exists_congr fun r => and_congr_right fun hr => ?_
    rw [List.getElem?_append_left (hs.known i t ht r hr)]
    refine exists_congr fun v => and_congr_right fun hv => and_congr_right fun _ => ?_
    refine exists_congr fun a => and_congr_right fun ha => ?_
    rw [opAt_append (hs.known i t ht a (hs.closed i t ht r hr v hv ha))]

omit [DecidableEq ι] in
theorem merge (h : Tagged s.updates t) (h' : Tagged s.updates t') :
    Tagged s.updates ⟨t.state.merge t'.state,t.history ∪ t'.history⟩ where
  added e tag := by
    simp only [ORSet.merge,Finset.mem_union,h.added,h'.added,or_and_right,exists_or]
  removed e tag := by
    simp only [ORSet.merge,Finset.mem_union,h.removed,h'.removed,or_and_right,exists_or]

omit [DecidableEq ι] in
/-- An update adds one entry to the history, and its own instances to the tag sets. -/
theorem apply (hs : s.Recorded) (h : Tagged s.updates (s.replicas i)) (op : ORSetOp E τ) :
    Tagged (s.updates ++ [⟨i,op,(s.replicas i).history⟩])
      ⟨(s.replicas i).state.apply op,insert s.updates.length (s.replicas i).history⟩ := by
  have happend := h.append hs (hs.occurs i) ⟨i,op,(s.replicas i).history⟩
  constructor
  · intro e tag
    cases op with
    | add element new =>
      simp only [ORSet.apply,ORSet.add,Finset.mem_insert,exists_eq_or_imp,opAt_length,happend.added,Option.some.injEq,
        ORSetOp.add.injEq,Prod.mk.injEq,eq_comm]
    | remove element =>
      simp only [ORSet.apply,ORSet.remove,Finset.mem_insert,exists_eq_or_imp,opAt_length,happend.added,
        Option.some.injEq,reduceCtorEq,false_or]
  · intro e tag
    cases op with
    | add element new =>
      simp [ORSet.apply,ORSet.add,happend.removed]
    | remove element =>
      simp only [ORSet.apply,mem_removeSet_remove,Finset.mem_insert,exists_eq_or_imp,happend.removed,happend.added,
        List.getElem?_concat_length,Option.some.injEq,exists_eq_left',ORSetOp.remove.injEq]
      rw [or_comm,@eq_comm _ e element]

end Tagged

omit [DecidableEq ι] [DecidableEq E] [DecidableEq τ] in
/-- Additions with distinct tags are told apart by their tags. -/
theorem add_unique {updates : List (Update ι (ORSetOp E τ))}
    (hfresh : (updates.filterMap fun u => u.op.tag?).Nodup) {a b : ℕ} {e e' : E} {tag : τ}
    (ha : opAt updates a = some (.add e tag)) (hb : opAt updates b = some (.add e' tag)) : a = b := by
  obtain ⟨u,hu,hop⟩ := Option.map_eq_some_iff.mp ha
  obtain ⟨v,hv,hop'⟩ := Option.map_eq_some_iff.mp hb
  obtain ⟨hlt,rfl⟩ := List.getElem?_eq_some_iff.mp hu
  obtain ⟨hlt',rfl⟩ := List.getElem?_eq_some_iff.mp hv
  have hpair := List.pairwise_iff_getElem.mp (List.pairwise_filterMap.mp hfresh)
  have hne : ∀ k l (hk : k < updates.length) (hl : l < updates.length), k < l → updates[k].op.tag? = some tag →
      updates[l].op.tag? ≠ some tag := fun k l hk hl hkl hkt hlt => hpair k l hk hl hkl tag hkt tag hlt rfl
  rcases lt_trichotomy a b with h | h | h
  · exact absurd (by rw [hop']; rfl) (hne a b hlt hlt' h (by rw [hop]; rfl))
  · exact h
  · exact absurd (by rw [hop]; rfl) (hne b a hlt' hlt h (by rw [hop']; rfl))

omit [DecidableEq ι] in
/-- Replicas show what their history calls for. -/
theorem Tagged.mem_value {updates : List (Update ι (ORSetOp E τ))} {t : Snapshot (ORSet E τ)} (h : Tagged updates t)
    (hfresh : (updates.filterMap fun u => u.op.tag?).Nodup) (e : E) :
    e ∈ t.state.value ↔ Observed updates t.history e := by
  rw [ORSet.mem_value]
  constructor
  · rintro ⟨tag,hadd,hrem⟩
    obtain ⟨a,ha,hop⟩ := (h.added e tag).mp hadd
    refine ⟨a,ha,⟨tag,hop⟩,fun r hr u hu hur hpast => hrem ?_⟩
    exact (h.removed e tag).mpr ⟨r,hr,u,hu,hur,a,hpast,hop⟩
  · rintro ⟨a,ha,⟨tag,hop⟩,hunseen⟩
    refine ⟨tag,(h.added e tag).mpr ⟨a,ha,hop⟩,fun hrem => ?_⟩
    obtain ⟨r,hr,u,hu,hur,b,hb,hop'⟩ := (h.removed e tag).mp hrem
    rw [add_unique hfresh hop hop'] at hunseen
    exact hunseen r hr u hu hur hb

theorem tagged_run (schedule : List (Action ι (ORSetOp E τ))) :
    ∀ i t, (run (System.step (object ι E τ)) (System.init (object ι E τ)) schedule).Occurs i t →
      Tagged (run (System.step (object ι E τ)) (System.init (object ι E τ)) schedule).updates t := by
  refine System.run_occurs (P := fun updates _ t => Tagged updates t) ?_ ?_ ?_ ?_ schedule
  · exact fun i => ⟨by simp [object,init],by simp [object,init]⟩
  · exact fun s i t u hs ht _ h => h.append hs ht u
  · intro s i op state hs h happly
    cases happly
    exact h.apply hs op
  · exact fun s i j t t' _ _ _ h h' => h.merge h'

/-- At every moment of a run with fresh tags, a replica contains an element exactly when some
addition in its history was seen by no removal there; replicas of one history are equal. -/
theorem value_iff_observed (schedule : List (Action ι (ORSetOp E τ)))
    (hfresh : ((run (System.step (object ι E τ)) (System.init (object ι E τ)) schedule).updates.filterMap
      fun u => u.op.tag?).Nodup) {i : ι} {t : Snapshot (ORSet E τ)}
    (ht : (run (System.step (object ι E τ)) (System.init (object ι E τ)) schedule).Occurs i t) :
    (∀ e, e ∈ t.state.value ↔
      Observed (run (System.step (object ι E τ)) (System.init (object ι E τ)) schedule).updates t.history e) ∧
    ∀ j t', (run (System.step (object ι E τ)) (System.init (object ι E τ)) schedule).Occurs j t' →
      t'.history = t.history → t'.state.value = t.state.value := by
  have hvalue := (tagged_run schedule i t ht).mem_value hfresh
  refine ⟨hvalue,fun j t' ht' hhistory => Finset.ext fun e => ?_⟩
  rw [(tagged_run schedule j t' ht').mem_value hfresh,hvalue,hhistory]

/-- Replica 1 removes the element while replica 0 adds it again; the new addition wins. -/
def addWins : List (Action ℕ (ORSetOp ℕ ℕ)) :=
  [.update 0 (.add 7 0),.merge 1 0 1,.update 1 (.remove 7),.update 0 (.add 7 1),.merge 1 0 4]

theorem value_iff_observed_addWins :
    Observed (run (System.step (object ℕ ℕ ℕ)) (System.init (object ℕ ℕ ℕ)) addWins).updates
      ((run (System.step (object ℕ ℕ ℕ)) (System.init (object ℕ ℕ ℕ)) addWins).replicas 1).history 7 :=
  ((@value_iff_observed ℕ ℕ ℕ _ _ _ addWins (by decide) 1 _ ⟨_,List.mem_of_getElem? (i := 5) rfl,rfl⟩).1 7).mp
    (by decide)

end ORSet

end DistributedSystems.Crdt
