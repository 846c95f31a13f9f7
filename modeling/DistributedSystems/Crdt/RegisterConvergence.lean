import DistributedSystems.Crdt.LWWRegister
import DistributedSystems.Protocol.Causal

/-! # Convergence of last-write-wins registers

Replicas write in their own name, at any timestamps, and merge states that any replica had at
any time. A replica accepts a write of its own only when it is newer than all it has, so
timestamp and writer identify one value in the whole run.
-/
namespace DistributedSystems.Crdt.LWWRegister
open Runs Causal

variable {ι V T : Type} [LinearOrder ι] [LinearOrder T]

/-- A register, and all states in its causal history, its own included. -/
structure Traced (ι V T : Type) where
  register : LWWRegister ι V T
  past : List (LWWRegister ι V T)

def Traced.become (past : List (LWWRegister ι V T)) (register : LWWRegister ι V T) : Traced ι V T :=
  ⟨register,past ++ [register]⟩

/-- The arguments of `write`. -/
structure Write (V T : Type) where
  value : Option V
  timestamp : T

def replicated (initialValue : Option V) (initialTs : T) : Object ι (Write V T) (Traced ι V T) where
  init nodeId := .become [] (.init nodeId initialValue initialTs)
  apply t w := some (.become t.past (t.register.write w.value w.timestamp))
  merge t other := .become (t.past ++ other.past) (t.register.merge other.register)

@[simp] theorem nodeId_write (r : LWWRegister ι V T) (value : Option V) (timestamp : T) :
    (r.write value timestamp).nodeId = r.nodeId := by
  rw [write]
  split <;> rfl

@[simp] theorem nodeId_merge (r other : LWWRegister ι V T) : (r.merge other).nodeId = r.nodeId := by
  rw [merge]
  split <;> rfl

theorem content_merge_eq_or (r other : LWWRegister ι V T) :
    (r.merge other).content = r.content ∨ (r.merge other).content = other.content := by
  rw [content_merge]
  exact newest_eq_or Prod.fst r.content other.content

theorem stamp_le_merge (r other : LWWRegister ι V T) : r.stamp ≤ (r.merge other).stamp := by
  have h := le_newest Prod.fst r.content other.content
  rwa [← content_merge] at h

theorem right_stamp_le_merge (r other : LWWRegister ι V T) : other.stamp ≤ (r.merge other).stamp := by
  have h := right_le_newest Prod.fst r.content other.content
  rwa [← content_merge] at h

/-- A write is refused, or newer than what was there and in the name of the replica. -/
theorem write_cases (r : LWWRegister ι V T) (value : Option V) (timestamp : T) :
    r.write value timestamp = r ∨
      (r.stamp < (r.write value timestamp).stamp ∧ (r.write value timestamp).writerNode = r.nodeId) := by
  by_cases h : r.shouldUpdate timestamp r.nodeId
  · right
    have hw : r.write value timestamp = { r with value := value, timestamp := timestamp, writerNode := r.nodeId } :=
      if_pos h
    rw [hw]
    exact ⟨(r.shouldUpdate_iff _ _).mp h,rfl⟩
  · exact Or.inl (if_neg h)

theorem stamp_le_write (r : LWWRegister ι V T) (value : Option V) (timestamp : T) :
    r.stamp ≤ (r.write value timestamp).stamp := by
  rcases r.write_cases value timestamp with h | h
  · rw [h]
  · exact h.1.le

/-- The register is the newest state of its causal history. -/
structure Newest (nodeId : ι) (t : Traced ι V T) : Prop where
  own : t.register.nodeId = nodeId
  current : t.register ∈ t.past
  newest : ∀ r ∈ t.past, r.stamp ≤ t.register.stamp

theorem newest_become {nodeId : ι} {past : List (LWWRegister ι V T)} {r : LWWRegister ι V T} (hown : r.nodeId = nodeId)
    (h : ∀ q ∈ past, q.stamp ≤ r.stamp) : Newest nodeId (.become past r) := by
  refine ⟨hown,List.mem_append_right _ List.mem_cons_self,fun q hq => ?_⟩
  rcases List.mem_append.mp hq with hq | hq
  · exact h q hq
  · rw [List.mem_singleton.mp hq]
    exact le_refl _

theorem newest_run (initialValue : Option V) (initialTs : T) (schedule : List (Causal.Action ι (Write V T))) :
    ∀ i t, (run (System.step (replicated initialValue initialTs)) (System.init (replicated initialValue initialTs))
      schedule).Occurs i t → Newest i t.state := by
  refine System.run_occurs (P := fun _ i t => Newest i t.state) ?_ ?_ ?_ ?_ schedule
  · exact fun i => newest_become rfl (by simp)
  · exact fun _ _ _ _ _ _ _ h => h
  · intro s i op state _ h happly
    cases happly
    exact newest_become (by simp [h.own]) fun q hq => (h.newest q hq).trans (stamp_le_write ..)
  · intro s i j t t' _ _ _ h h'
    refine newest_become (by simp [h.own]) fun q hq => ?_
    rcases List.mem_append.mp hq with hq | hq
    · exact (h.newest q hq).trans (stamp_le_merge ..)
    · exact (h'.newest q hq).trans (right_stamp_le_merge ..)

omit [LinearOrder ι] [LinearOrder T] in
theorem writerNode_of_stamp {r q : LWWRegister ι V T} (h : r.stamp = q.stamp) : r.writerNode = q.writerNode :=
  congrArg (fun stamp => (ofLex stamp).2) h

/-- Stamps identify values, and no replica has fallen behind what it has written. -/
structure Unique (s : System ι (Write V T) (Traced ι V T)) : Prop where
  recorded : s.Recorded
  nodeId : ∀ i, (s.replicas i).state.register.nodeId = i
  value : ∀ i t j u, s.Occurs i t → s.Occurs j u → t.state.register.stamp = u.state.register.stamp →
    t.state.register.value = u.state.register.value
  own : ∀ i t, s.Occurs i t →
    t.state.register.stamp ≤ (s.replicas t.state.register.writerNode).state.register.stamp

namespace Unique
variable {s : System ι (Write V T) (Traced ι V T)}

/-- A replica may take over what any state says, and write in its own name what is newer than
all it has. -/
theorem put (h : Unique s) {s' : System ι (Write V T) (Traced ι V T)} (hrec : s'.Recorded) {i : ι}
    {t : Snapshot (Traced ι V T)} {new : List (Update ι (Write V T))} (hs : s' = s.put i t new)
    (hid : t.state.register.nodeId = i) (hgrow : (s.replicas i).state.register.stamp ≤ t.state.register.stamp)
    (horigin : (∃ j u, s.Occurs j u ∧ t.state.register.content = u.state.register.content) ∨
      (t.state.register.writerNode = i ∧ (s.replicas i).state.register.stamp < t.state.register.stamp)) :
    Unique s' := by
  subst hs
  have hmono : ∀ j, (s.replicas j).state.register.stamp ≤ ((s.put i t new).replicas j).state.register.stamp := by
    intro j
    by_cases hj : j = i
    · subst j
      simpa using hgrow
    · rw [System.put_ne s t new hj]
  -- The new state says what an earlier one said, or carries a stamp that no state has had.
  have hnew : ∀ j u, s.Occurs j u → t.state.register.stamp = u.state.register.stamp →
      t.state.register.value = u.state.register.value := by
    intro j u hu heq
    rcases horigin with ⟨k,v,hv,hcontent⟩ | ⟨hwriter,hlt⟩
    · have hstamp := congrArg Prod.fst hcontent
      exact (congrArg Prod.snd hcontent).trans (h.value k v j u hv hu (hstamp.symm.trans heq))
    · have hle := h.own j u hu
      rw [← writerNode_of_stamp heq,hwriter,← heq] at hle
      exact absurd hlt (not_lt.mpr hle)
  refine ⟨hrec,?_,?_,?_⟩
  · intro j
    by_cases hj : j = i
    · subst j
      simpa using hid
    · rw [System.put_ne s t new hj]
      exact h.nodeId j
  · intro j u k v hu hv heq
    rcases h.recorded.occurs_put hu with hold | ⟨-,hu⟩
    · rcases h.recorded.occurs_put hv with hold' | ⟨-,hv⟩
      · exact h.value j u k v hold hold' heq
      · rw [hv] at heq ⊢
        exact (hnew j u hold heq.symm).symm
    · rcases h.recorded.occurs_put hv with hold' | ⟨-,hv⟩
      · rw [hu] at heq ⊢
        exact hnew k v hold' heq
      · rw [hu,hv]
  · intro j u hu
    rcases h.recorded.occurs_put hu with hu | ⟨rfl,rfl⟩
    · exact (h.own j u hu).trans (hmono _)
    rcases horigin with ⟨k,v,hv,hcontent⟩ | ⟨hwriter,-⟩
    · have hstamp : u.state.register.stamp = v.state.register.stamp := congrArg Prod.fst hcontent
      rw [writerNode_of_stamp hstamp,hstamp]
      exact (h.own k v hv).trans (hmono _)
    · rw [hwriter,System.put_self]

theorem init (initialValue : Option V) (initialTs : T) :
    Unique (System.init (replicated (ι := ι) initialValue initialTs)) := by
  have hinit : ∀ i t, (System.init (replicated (ι := ι) initialValue initialTs)).Occurs i t →
      t.state.register = .init i initialValue initialTs := by
    rintro i t ⟨g,hg,rfl⟩
    rw [List.mem_singleton.mp hg]
    rfl
  refine ⟨System.recorded_init _,fun _ => rfl,?_,?_⟩
  · intro i t j u ht hu _
    rw [hinit i t ht,hinit j u hu]
    rfl
  · intro i t ht
    rw [hinit i t ht]
    exact le_refl _

theorem step (h : Unique s) (initialValue : Option V) (initialTs : T) (a : Causal.Action ι (Write V T)) :
    Unique (s.step (replicated initialValue initialTs) a) := by
  have hrec := h.recorded.step (replicated initialValue initialTs) a
  rcases s.step_cases (replicated initialValue initialTs) a with hs | ⟨i,w,state,happly,hs⟩ | ⟨i,j,t,ht,hs⟩
  · rw [hs]
    exact h
  · cases happly
    refine h.put hrec hs ((nodeId_write ..).trans (h.nodeId i)) (stamp_le_write ..) ?_
    rcases (s.replicas i).state.register.write_cases w.value w.timestamp with hsame | ⟨hlt,hwriter⟩
    · exact Or.inl ⟨i,_,h.recorded.occurs i,congrArg content hsame⟩
    · exact Or.inr ⟨hwriter.trans (h.nodeId i),hlt⟩
  · refine h.put hrec hs ((nodeId_merge ..).trans (h.nodeId i)) (stamp_le_merge ..) (Or.inl ?_)
    rcases (s.replicas i).state.register.content_merge_eq_or t.state.register with hc | hc
    · exact ⟨i,_,h.recorded.occurs i,hc⟩
    · exact ⟨j,t,ht,hc⟩

theorem run (initialValue : Option V) (initialTs : T) (schedule : List (Causal.Action ι (Write V T))) :
    Unique (Runs.run (System.step (replicated initialValue initialTs))
      (System.init (replicated initialValue initialTs)) schedule) :=
  run_invariant_of_step (fun _ a h => h.step initialValue initialTs a) (init initialValue initialTs) schedule

theorem content (h : Unique s) {i j : ι} {t u : Snapshot (Traced ι V T)} (ht : s.Occurs i t) (hu : s.Occurs j u)
    (heq : t.state.register.stamp = u.state.register.stamp) : t.state.register.content = u.state.register.content :=
  Prod.ext heq (h.value i t j u ht hu heq)

end Unique

/-- One state of the run for each timestamp and writer, each replica with the newest of its
causal history, and merges that do not depend on the order. -/
structure Converges (s : System ι (Write V T) (Traced ι V T)) : Prop where
  unique : ∀ i t j u, s.Occurs i t → s.Occurs j u → t.state.register.stamp = u.state.register.stamp →
    t.state.register.value = u.state.register.value
  newest : ∀ i t, s.Occurs i t → t.state.register ∈ t.state.past ∧
    ∀ r ∈ t.state.past, r.stamp ≤ t.state.register.stamp
  comm : ∀ i t j u, s.Occurs i t → s.Occurs j u →
    (t.state.register.merge u.state.register).content = (u.state.register.merge t.state.register).content
  assoc : ∀ i t j u k v, s.Occurs i t → s.Occurs j u → s.Occurs k v →
    ((t.state.register.merge u.state.register).merge v.state.register).content =
      (t.state.register.merge (u.state.register.merge v.state.register)).content
  idem : ∀ i t, s.Occurs i t → (t.state.register.merge t.state.register).content = t.state.register.content
  mutually : ∀ i t j u, s.Occurs i t → s.Occurs j u →
    (u.state.register.merge (t.state.register.merge u.state.register)).content =
      (t.state.register.merge u.state.register).content

theorem Unique.comm {s : System ι (Write V T) (Traced ι V T)} (h : Unique s) {i j : ι}
    {t u : Snapshot (Traced ι V T)} (ht : s.Occurs i t) (hu : s.Occurs j u) :
    (t.state.register.merge u.state.register).content = (u.state.register.merge t.state.register).content := by
  rw [content_merge,content_merge]
  exact newest_comm (h.content ht hu)

theorem merge_assoc (r q p : LWWRegister ι V T) :
    ((r.merge q).merge p).content = (r.merge (q.merge p)).content := by
  simp only [content_merge]
  exact @Std.Associative.assoc _ (DistributedSystems.newest Prod.fst) _ _ _ _

theorem merge_self (r : LWWRegister ι V T) : (r.merge r).content = r.content := by
  rw [content_merge,newest_of_le Prod.fst (le_refl _)]

/-- Replicas of a run converge, whatever the timestamps of their writes and the states they
merge. -/
theorem lwwRegister_converges (initialValue : Option V) (initialTs : T)
    (schedule : List (Causal.Action ι (Write V T))) :
    Converges (run (System.step (replicated initialValue initialTs))
      (System.init (replicated initialValue initialTs)) schedule) where
  unique := (Unique.run initialValue initialTs schedule).value
  newest i t ht :=
    have h := newest_run initialValue initialTs schedule i t ht
    ⟨h.current,h.newest⟩
  comm _ _ _ _ ht hu := (Unique.run initialValue initialTs schedule).comm ht hu
  assoc _ _ _ _ _ _ _ _ _ := merge_assoc ..
  idem _ _ _ := merge_self _
  mutually i t j u ht hu := by
    have hcomm := (Unique.run initialValue initialTs schedule).comm ht hu
    calc (u.state.register.merge (t.state.register.merge u.state.register)).content
        = ((u.state.register.merge t.state.register).merge u.state.register).content := (merge_assoc ..).symm
      _ = ((t.state.register.merge u.state.register).merge u.state.register).content := by
        rw [content_merge,← hcomm,← content_merge]
      _ = (t.state.register.merge (u.state.register.merge u.state.register)).content := merge_assoc ..
      _ = (t.state.register.merge u.state.register).content := by
        rw [content_merge,merge_self,← content_merge]

end DistributedSystems.Crdt.LWWRegister
