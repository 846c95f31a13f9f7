import DistributedSystems.EventualConsistency.VectorClock
import DistributedSystems.Protocol.VectorTime

/-! # Causal sessions

Clients put their clocks on what they write, and take over the clocks of what they read.
Versions are kept for good, and a client may read any of them at any time.
-/
namespace DistributedSystems.EventualConsistency
open Causal Runs

variable {ι : Type} [DecidableEq ι]

structure CausalSession (ι : Type) where
  clientId : ι
  clock : VectorClock ι

namespace CausalSession

def init (clientId : ι) : CausalSession ι := ⟨clientId,⟨Dict.empty⟩⟩

def updateClock (s : CausalSession ι) (otherClock : VectorClock ι) : CausalSession ι :=
  { s with clock := s.clock.merge otherClock }

/-- The session afterwards, and the copy that the write gets. -/
def prepareWrite (s : CausalSession ι) : CausalSession ι × VectorClock ι :=
  let clock := s.clock.increment s.clientId
  ({ s with clock := clock },clock)

/-- No component of the session is ahead of the version. -/
def checkConsistency (s : CausalSession ι) (vectorClock : VectorClock ι) : Bool :=
  s.clock.clock.entries.all fun e => !decide (vectorClock.clock.coord e.1 < e.2)

/-- The components that a session lacks are no bound where no version goes below 0. -/
theorem checkConsistency_iff (s : CausalSession ι) {vectorClock : VectorClock ι} (h : 0 ≤ vectorClock.clock.coord) :
    s.checkConsistency vectorClock = true ↔ s.clock.clock.coord ≤ vectorClock.clock.coord := by
  simp only [checkConsistency,List.all_eq_true,Bool.not_eq_true',decide_eq_false_iff_not,not_lt]
  constructor
  · intro hall k
    cases hk : s.clock.clock.get? k with
    | none => simpa [Dict.coord,hk] using h k
    | some v => simpa [Dict.coord,hk] using hall (k,v) (Dict.mem_entries_iff.mpr hk)
  · intro hle e he
    have hk := hle e.1
    rwa [Dict.coord,Dict.mem_entries_iff.mp he] at hk

/-- Sessions as replicas: a write is an update, and a read merges the clock of a version. -/
def object (ι : Type) [DecidableEq ι] : Object ι Unit (CausalSession ι) where
  init := init
  apply s _ := some s.prepareWrite.1
  merge s other := s.updateClock other.clock

theorem counts : (object ι).Counts (fun i s => s.clientId = i) fun s => s.clock.clock.coord where
  init i := ⟨rfl,rfl⟩
  update i s op s' hs h := by
    subst hs
    obtain rfl : s.prepareWrite.1 = s' := Option.some.inj h
    refine ⟨rfl,funext fun k => ?_⟩
    simp only [prepareWrite,VectorClock.increment,Dict.coord_insert,Function.update_apply]
  merge i s s' hs := ⟨hs,s.clock.coord_merge s'.clock⟩

end CausalSession

/-- The clock of a version with the versions that it depends on, itself included. -/
structure Version (ι : Type) where
  vectorClock : VectorClock ι
  past : Finset ℕ

/-- All sessions with the versions that each depends on, and all versions so far. -/
structure Sessions (ι : Type) where
  sessions : ι → CausalSession ι
  seen : ι → Finset ℕ
  versions : List (Version ι)

/-- `observe i k`: client `i` takes over version `k`. `read i k`: it does so if the version passes
the check. -/
inductive SessionAction (ι : Type)
  | write (i : ι)
  | observe (i : ι) (k : ℕ)
  | read (i : ι) (k : ℕ)

namespace Sessions

def init (ι : Type) [DecidableEq ι] : Sessions ι := ⟨CausalSession.init,fun _ => ∅,[]⟩

def observe (s : Sessions ι) (i : ι) (v : Version ι) : Sessions ι :=
  { s with
    sessions := Function.update s.sessions i ((s.sessions i).updateClock v.vectorClock)
    seen := Function.update s.seen i (s.seen i ∪ v.past) }

def step (s : Sessions ι) : SessionAction ι → Sessions ι
  | .write i =>
    let (session,clock) := (s.sessions i).prepareWrite
    let past := insert s.versions.length (s.seen i)
    { sessions := Function.update s.sessions i session
      seen := Function.update s.seen i past
      versions := s.versions ++ [⟨clock,past⟩] }
  | .observe i k =>
    match s.versions[k]? with
    | none => s
    | some v => s.observe i v
  | .read i k =>
    match s.versions[k]? with
    | none => s
    | some v => if (s.sessions i).checkConsistency v.vectorClock then s.observe i v else s

theorem step_read (s : Sessions ι) (i : ι) (k : ℕ) : s.step (.read i k) = s.step (.observe i k) ∨ s.step (.read i k) = s := by
  simp only [step]
  cases s.versions[k]? with
  | none => exact Or.inl rfl
  | some v =>
    simp only
    split
    · exact Or.inl rfl
    · exact Or.inr rfl

/-- Sessions and versions are states of replicas with their histories, and each version is the
update of its own number. -/
structure Refines (s : Sessions ι) (c : System ι Unit (CausalSession ι)) : Prop where
  sessions : ∀ i, c.replicas i = ⟨s.sessions i,s.seen i⟩
  length : s.versions.length = c.updates.length
  versions : ∀ (k : ℕ) v, s.versions[k]? = some v → ∃ u, c.updates[k]? = some u ∧ v.past = insert k u.past ∧
    ∃ j t, c.Occurs j t ∧ t.state.clock = v.vectorClock ∧ t.history = v.past

namespace Refines
variable {s : Sessions ι} {c : System ι Unit (CausalSession ι)}

theorem init : Refines (Sessions.init ι) (System.init (CausalSession.object ι)) :=
  ⟨fun _ => rfl,rfl,fun _ _ hv => nomatch hv⟩

theorem occurs_put {j : ι} {t : Snapshot (CausalSession ι)} (ht : c.Occurs j t) (i : ι) (t' : Snapshot (CausalSession ι))
    (new : List (Update ι Unit)) : (c.put i t' new).Occurs j t := by
  obtain ⟨g,hg,h⟩ := ht
  exact ⟨g,List.mem_append_left _ hg,h⟩

theorem put_replicas (h : Refines s c) (i : ι) (session : CausalSession ι) (past : Finset ℕ) (new : List (Update ι Unit))
    (j : ι) : (c.put i ⟨session,past⟩ new).replicas j =
      ⟨Function.update s.sessions i session j,Function.update s.seen i past j⟩ := by
  by_cases hj : j = i
  · subst hj
    simp
  · rw [System.put_ne c _ _ hj,h.sessions,Function.update_of_ne hj,Function.update_of_ne hj]

theorem write (h : Refines s c) (i : ι) : Refines (s.step (.write i)) (c.step (CausalSession.object ι) (.update i ())) := by
  have hstep : c.step (CausalSession.object ι) (.update i ()) = c.put i
      ⟨(s.sessions i).prepareWrite.1,insert s.versions.length (s.seen i)⟩ [⟨i,(),s.seen i⟩] := by
    simp [System.step,CausalSession.object,h.sessions,h.length]
  rw [hstep]
  refine ⟨h.put_replicas i _ _ _,by simp [step,h.length],fun k v hv => ?_⟩
  rcases lt_or_ge k s.versions.length with hk | hk
  · have hold : s.versions[k]? = some v := by rwa [step,List.getElem?_append_left hk] at hv
    obtain ⟨u,hu,hpast,j,t,ht,hclock,hhistory⟩ := h.versions k v hold
    refine ⟨u,?_,hpast,j,t,occurs_put ht _ _ _,hclock,hhistory⟩
    rw [System.put_updates,List.getElem?_append_left (h.length ▸ hk)]
    exact hu
  · simp only [step,List.getElem?_append_right hk,List.getElem?_singleton] at hv
    split at hv
    · rename_i hzero
      obtain rfl : k = s.versions.length := by omega
      rw [← Option.some.inj hv]
      refine ⟨⟨i,(),s.seen i⟩,by simp [h.length],rfl,i,⟨(s.sessions i).prepareWrite.1,insert s.versions.length (s.seen i)⟩,
        ⟨_,List.mem_append_right _ List.mem_cons_self,?_⟩,rfl,rfl⟩
      exact (Function.update_self i _ c.replicas).symm
    · cases hv

theorem observe (h : Refines s c) (i : ι) (k : ℕ) :
    ∃ schedule, Refines (s.step (.observe i k)) (run (System.step (CausalSession.object ι)) c schedule) := by
  simp only [step]
  cases hk : s.versions[k]? with
  | none => exact ⟨[],h⟩
  | some v =>
    obtain ⟨u,hu,hpast,j,t,⟨g,hg,ht⟩,hclock,hhistory⟩ := h.versions k v hk
    obtain ⟨m,hm⟩ := List.getElem?_of_mem hg
    have hstep : c.step (CausalSession.object ι) (.merge i j m) = c.put i
        ⟨(s.sessions i).updateClock v.vectorClock,s.seen i ∪ v.past⟩ [] := by
      simp [System.step,hm,CausalSession.object,h.sessions,← ht,hclock,hhistory]
    refine ⟨[.merge i j m],?_⟩
    rw [run_cons,hstep]
    refine ⟨h.put_replicas i _ _ _,by simp [Sessions.observe,h.length,run],fun k' v' hv' => ?_⟩
    obtain ⟨u',hu',hpast',j',t',ht',hrest⟩ := h.versions k' v' hv'
    exact ⟨u',by simpa [run] using hu',hpast',j',t',occurs_put ht' _ _ _,hrest⟩

theorem step (h : Refines s c) (a : SessionAction ι) :
    ∃ schedule, Refines (s.step a) (run (System.step (CausalSession.object ι)) c schedule) := by
  cases a with
  | write i => exact ⟨[.update i ()],h.write i⟩
  | observe i k => exact h.observe i k
  | read i k =>
    rcases s.step_read i k with hread | hread
    · rw [hread]
      exact h.observe i k
    · rw [hread]
      exact ⟨[],h⟩

end Refines

/-- Every run of sessions is one of replicas. -/
theorem refines_run (schedule : List (SessionAction ι)) : ∃ schedule', Refines (run step (Sessions.init ι) schedule)
    (run (System.step (CausalSession.object ι)) (System.init (CausalSession.object ι)) schedule') := by
  refine run_invariant_of_step (I := fun s : Sessions ι => ∃ schedule', Refines s
    (run (System.step (CausalSession.object ι)) (System.init (CausalSession.object ι)) schedule')) ?_ ⟨[],Refines.init⟩ schedule
  rintro s a ⟨first,h⟩
  obtain ⟨second,h'⟩ := h.step a
  exact ⟨first ++ second,by rwa [run_append]⟩

/-- Sessions forget nothing that they saw. -/
theorem seen_run (s : Sessions ι) (schedule : List (SessionAction ι)) (i : ι) : s.seen i ⊆ (run step s schedule).seen i := by
  refine run_invariant_of_step (I := fun s' : Sessions ι => s.seen i ⊆ s'.seen i) ?_ subset_rfl schedule
  intro s' a h
  have hgrow : ∀ (j : ι) (past : Finset ℕ), s'.seen j ⊆ past → s.seen i ⊆ Function.update s'.seen j past i := by
    intro j past hpast
    by_cases hi : i = j
    · subst hi
      rw [Function.update_self]
      exact h.trans hpast
    · rwa [Function.update_of_ne hi]
  have hobserve : ∀ j k, s.seen i ⊆ (s'.step (.observe j k)).seen i := by
    intro j k
    simp only [step]
    cases s'.versions[k]? with
    | none => exact h
    | some v => exact hgrow j _ Finset.subset_union_left
  cases a with
  | write j => exact hgrow j _ (Finset.subset_insert _ _)
  | observe j k => exact hobserve j k
  | read j k =>
    rcases s'.step_read j k with hread | hread
    · rw [hread]
      exact hobserve j k
    · rw [hread]
      exact h

/-- Clocks of versions compare as their pasts do, and the check accepts exactly the versions
whose past has all that the session saw. -/
theorem causality (schedule : List (SessionAction ι)) :
    let s := run step (Sessions.init ι) schedule
    (∀ (k l : ℕ) (v w : Version ι), s.versions[k]? = some v → s.versions[l]? = some w →
      (v.vectorClock.compare w.vectorClock = .lt ∨ v.vectorClock.compare w.vectorClock = .eq ↔ k ∈ w.past)) ∧
    ∀ i, ∀ w ∈ s.versions, (s.sessions i).checkConsistency w.vectorClock = true ↔ s.seen i ⊆ w.past := by
  intro s
  obtain ⟨schedule',h⟩ := refines_run schedule
  have hs := System.recorded_run (CausalSession.object ι) schedule'
  constructor
  · intro k l v w hv hw
    obtain ⟨u,hu,hpast,i,t,ht,hclock,hhistory⟩ := h.versions k v hv
    obtain ⟨-,-,-,j,t',ht',hclock',hhistory'⟩ := h.versions l w hw
    have hreads := v.vectorClock.reads_compare w.vectorClock
    have hle := hreads.le_iff
    rw [← hclock,← hclock',System.view_le_iff CausalSession.counts schedule' ht ht',hhistory,hhistory',hclock,hclock'] at hle
    have hmem : v.past ⊆ w.past ↔ k ∈ w.past := by
      rw [hpast]
      refine ⟨fun hsub => hsub (Finset.mem_insert_self _ _),fun hk => Finset.insert_subset hk ?_⟩
      rw [← hhistory'] at hk ⊢
      exact hs.closed j t' ht' k hk u hu
    rw [← hmem,hle]
    cases v.vectorClock.compare w.vectorClock <;> simp [Ordering.toComparison]
  · intro i w hw
    obtain ⟨l,hl⟩ := List.getElem?_of_mem hw
    obtain ⟨-,-,-,j,t,ht,hclock,hhistory⟩ := h.versions l w hl
    have hnonneg : 0 ≤ w.vectorClock.clock.coord := by
      rw [← hclock]
      intro o
      rw [(System.view_eq_card CausalSession.counts schedule' j t ht).2 o]
      exact Int.natCast_nonneg _
    have hi := hs.occurs i
    rw [h.sessions] at hi
    rw [CausalSession.checkConsistency_iff _ hnonneg,← hclock,← hhistory]
    exact System.view_le_iff CausalSession.counts schedule' hi ht

end Sessions

/-- Clocks of versions tell what depends on what, and a session accepts exactly the versions that
depend on all it saw. Its own writes and what it took over are among these from then on. -/
theorem causal_sessions (schedule rest : List (SessionAction ι)) (i : ι) :
    let s := run Sessions.step (Sessions.init ι) schedule
    (∀ (k l : ℕ) (v w : Version ι), s.versions[k]? = some v → s.versions[l]? = some w →
      (v.vectorClock.compare w.vectorClock = .lt ∨ v.vectorClock.compare w.vectorClock = .eq ↔ k ∈ w.past)) ∧
    (∀ w ∈ s.versions, (s.sessions i).checkConsistency w.vectorClock = true ↔ s.seen i ⊆ w.past) ∧
    (let later := run Sessions.step s (.write i :: rest)
      ∀ w ∈ later.versions, (later.sessions i).checkConsistency w.vectorClock = true → s.versions.length ∈ w.past) ∧
    ∀ (k : ℕ) v, s.versions[k]? = some v → let later := run Sessions.step s (.observe i k :: rest)
      ∀ w ∈ later.versions, (later.sessions i).checkConsistency w.vectorClock = true → v.past ⊆ w.past := by
  intro s
  obtain ⟨hcompare,hcheck⟩ := Sessions.causality schedule
  have hlater : ∀ (a : SessionAction ι), ∀ w ∈ (run Sessions.step s (a :: rest)).versions,
      ((run Sessions.step s (a :: rest)).sessions i).checkConsistency w.vectorClock = true →
        (s.step a).seen i ⊆ w.past := by
    intro a w hw haccept
    have hrun := (Sessions.causality (schedule ++ a :: rest)).2 i
    rw [run_append] at hrun
    exact ((s.step a).seen_run rest i).trans ((hrun w hw).mp haccept)
  refine ⟨hcompare,hcheck i,?_,?_⟩
  · intro later w hw haccept
    refine hlater (.write i) w hw haccept ?_
    simp [Sessions.step]
  · intro k v hv later w hw haccept
    refine subset_trans ?_ (hlater (.observe i k) w hw haccept)
    simp [Sessions.step,hv,Sessions.observe]

end DistributedSystems.EventualConsistency
