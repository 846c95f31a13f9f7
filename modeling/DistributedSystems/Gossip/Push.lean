import DistributedSystems.Gossip.StateStore
import DistributedSystems.Protocol.Runs
import Mathlib.Logic.Function.Basic

/-! # Convergence of stores under push

Entries that a node has pushed arrive one by one, in any order, late, repeatedly or never;
the answer to a pull is a part of what a push would have carried. Entries arrive as they were
sent: values are those that JSON gives back unchanged.
-/

namespace DistributedSystems.Gossip
open Runs

variable {κ ν V T : Type} [DecidableEq κ] [LinearOrder ν]

/-- The stores, and the entries on their way, whose values JSON gives back unchanged. `written`
has every entry that a store ever wrote, and `offered` those that a store wrote or was asked to
merge. -/
structure GossipCluster (κ ν V T : Type) where
  stores : ν → StateStore κ ν V T
  network : List (StateEntry κ ν V T)
  written : List (StateEntry κ ν V T)
  offered : ν → List (StateEntry κ ν V T)

inductive GossipAction (κ ν V T : Type)
  | set (i : ν) (now : T) (key : κ) (value : Option V)
  | delete (i : ν) (now : T) (key : κ)
  | push (i : ν)
  | merge (i : ν) (k : ℕ)

/-- A store holds entries that it was offered, and none of its offers is newer. -/
structure StateStore.Keeps (s : StateStore κ ν V T) (offered : List (StateEntry κ ν V T)) : Prop where
  held : ∀ key e, s.getEntry key = some e → e.key = key ∧ e ∈ offered
  newest : ∀ e ∈ offered, ∃ h, s.getEntry e.key = some h ∧ e.stamp ≤ h.stamp

/-- One more offer, of which the store takes the newer value. -/
theorem StateStore.Keeps.offer {s store : StateStore κ ν V T} {offered : List (StateEntry κ ν V T)}
    (h : s.Keeps offered) {entry : StateEntry κ ν V T} (hstore : ∀ key, store.getEntry key = if key = entry.key then
      Option.merge (DistributedSystems.newest StateEntry.stamp) (s.getEntry key) (some entry)
      else s.getEntry key) : store.Keeps (offered ++ [entry]) := by
  constructor
  · intro key e he
    rw [hstore] at he
    by_cases hk : key = entry.key
    · rw [if_pos hk] at he
      rcases Option.merge_eq_or_eq (newest_eq_or StateEntry.stamp) (s.getEntry key) (some entry) with hl | hr
      · rw [hl] at he
        obtain ⟨hkey,hmem⟩ := h.held key e he
        exact ⟨hkey,List.mem_append_left _ hmem⟩
      · rw [hr] at he
        cases he
        exact ⟨hk.symm,List.mem_append_right _ List.mem_cons_self⟩
    · rw [if_neg hk] at he
      obtain ⟨hkey,hmem⟩ := h.held key e he
      exact ⟨hkey,List.mem_append_left _ hmem⟩
  · intro e he
    rw [hstore]
    rcases List.mem_append.mp he with he | he
    · obtain ⟨x,hx,hle⟩ := h.newest e he
      split
      · rw [hx,Option.merge_some_some]
        exact ⟨_,rfl,hle.trans (le_newest StateEntry.stamp x entry)⟩
      · exact ⟨x,hx,hle⟩
    · rw [List.mem_singleton.mp he,if_pos rfl]
      cases s.getEntry entry.key with
      | none => exact ⟨entry,Option.merge_none_left,le_refl _⟩
      | some x => exact ⟨_,Option.merge_some_some,right_le_newest StateEntry.stamp x entry⟩

namespace GossipCluster

def init (κ ν V T : Type) : GossipCluster κ ν V T := ⟨StateStore.init κ V T,[],[],fun _ => []⟩

/-- A store of the cluster after it has been offered an entry, its own or one that arrived. -/
def offer (c : GossipCluster κ ν V T) (i : ν) (store : StateStore κ ν V T) (entry : StateEntry κ ν V T) :
    GossipCluster κ ν V T :=
  { c with
    stores := Function.update c.stores i store
    offered := Function.update c.offered i (c.offered i ++ [entry]) }

omit [DecidableEq κ] in
/-- Only the store that is offered an entry changes. -/
theorem forall_offer (c : GossipCluster κ ν V T) (i : ν) (store : StateStore κ ν V T) (entry : StateEntry κ ν V T)
    {P : ν → StateStore κ ν V T → List (StateEntry κ ν V T) → Prop} (hrest : ∀ j, P j (c.stores j) (c.offered j))
    (hi : P i store (c.offered i ++ [entry])) (j : ν) :
    P j ((c.offer i store entry).stores j) ((c.offer i store entry).offered j) := by
  unfold offer
  by_cases hj : j = i
  · subst j
    simpa using hi
  · simpa [hj] using hrest j

/-- A local write, with the entry that it returns. -/
def wrote (c : GossipCluster κ ν V T) (i : ν) (store : StateStore κ ν V T) (entry : StateEntry κ ν V T) :
    GossipCluster κ ν V T :=
  { c.offer i store entry with written := c.written ++ [entry] }

def step (c : GossipCluster κ ν V T) : GossipAction κ ν V T → GossipCluster κ ν V T
  | .set i now key value =>
    let (store,entry) := (c.stores i).set now key value
    c.wrote i store entry
  | .delete i now key =>
    match (c.stores i).delete now key with
    | (_,none) => c
    | (store,some entry) => c.wrote i store entry
  | .push i => { c with network := c.network ++ (c.stores i).getAllEntries }
  | .merge i k =>
    match c.network[k]? with
    | none => c
    | some entry => c.offer i ((c.stores i).merge entry).1 entry

/-- A local write puts an entry of the next version under the name of the node. -/
theorem step_cases (c : GossipCluster κ ν V T) (a : GossipAction κ ν V T) :
    c.step a = c ∨
    (∃ i entry, entry.nodeId = (c.stores i).nodeId ∧ entry.version = (c.stores i).nextVersion entry.key ∧
      c.step a = c.wrote i ((c.stores i).put entry) entry) ∨
    (∃ i, c.step a = { c with network := c.network ++ (c.stores i).getAllEntries }) ∨
    ∃ i, ∃ entry ∈ c.network, c.step a = c.offer i ((c.stores i).merge entry).1 entry := by
  cases a with
  | set i now key value => exact Or.inr (Or.inl ⟨i,_,rfl,rfl,rfl⟩)
  | delete i now key =>
    cases h : (c.stores i).getEntry key with
    | none => exact Or.inl (by simp only [step,StateStore.delete,h])
    | some existing =>
      cases ht : existing.tombstone with
      | true => exact Or.inl (by simp [step,StateStore.delete,h,ht])
      | false =>
        refine Or.inr (Or.inl ⟨i,⟨key,none,existing.version + 1,now,(c.stores i).nodeId,true⟩,rfl,?_,?_⟩)
        · simp [StateStore.nextVersion,h]
        · simp [step,StateStore.delete,h,ht]
  | push i => exact Or.inr (Or.inr (Or.inl ⟨i,rfl⟩))
  | merge i k =>
    cases h : c.network[k]? with
    | none => exact Or.inl (by simp [step,h])
    | some entry => exact Or.inr (Or.inr (Or.inr ⟨i,entry,List.mem_of_getElem? h,by simp [step,h]⟩))

/-- Stores hold the newest entry they know, and every writer knows what it has written. -/
structure Stamped (c : GossipCluster κ ν V T) : Prop where
  nodeId : ∀ i, (c.stores i).nodeId = i
  network : ∀ e ∈ c.network, e ∈ c.written
  offered : ∀ i, ∀ e ∈ c.offered i, e ∈ c.written
  own : ∀ e ∈ c.written, e ∈ c.offered e.nodeId
  positive : ∀ e ∈ c.written, 0 < e.version
  held : ∀ i key e, (c.stores i).getEntry key = some e → e.key = key ∧ e ∈ c.offered i
  newest : ∀ i, ∀ e ∈ c.offered i, ∃ h, (c.stores i).getEntry e.key = some h ∧ e.stamp ≤ h.stamp
  unique : ∀ e ∈ c.written, ∀ e' ∈ c.written, e.key = e'.key → e.stamp = e'.stamp → e = e'

theorem stamped_init : Stamped (init κ ν V T) := by
  constructor <;> simp [init,StateStore.init,StateStore.getEntry,Dict.get?,lookupEntry]

namespace Stamped
variable {c : GossipCluster κ ν V T}

theorem keeps (h : Stamped c) (i : ν) : (c.stores i).Keeps (c.offered i) := ⟨h.held i,h.newest i⟩

/-- A node gives its next write a version above all its earlier ones. -/
theorem version_lt (h : Stamped c) {e : StateEntry κ ν V T} (he : e ∈ c.written) :
    e.version < (c.stores e.nodeId).nextVersion e.key := by
  obtain ⟨x,hx,hle⟩ := h.newest _ e (h.own e he)
  have hversion : e.version ≤ x.version := by
    rcases Prod.Lex.toLex_le_toLex.mp hle with hlt | ⟨heq,-⟩
    · exact hlt.le
    · exact heq.le
  simp only [StateStore.nextVersion,hx]
  omega

/-- The store that is offered an entry keeps the newest. -/
theorem offer (h : Stamped c) {i : ν} {store : StateStore κ ν V T} {entry : StateEntry κ ν V T}
    {written : List (StateEntry κ ν V T)} (hold : ∀ e ∈ c.written, e ∈ written) (hentry : entry ∈ written)
    (hown : ∀ e ∈ written, e ∈ c.written ∨ (e = entry ∧ e.nodeId = i)) (hpositive : 0 < entry.version)
    (hunique : ∀ e ∈ written, ∀ e' ∈ written, e.key = e'.key → e.stamp = e'.stamp → e = e')
    (hid : store.nodeId = i) (hstore : ∀ key, store.getEntry key = if key = entry.key then
      Option.merge (DistributedSystems.newest StateEntry.stamp) ((c.stores i).getEntry key) (some entry)
      else (c.stores i).getEntry key) : Stamped { c.offer i store entry with written := written } := by
  have hkeeps : ∀ j, ((c.offer i store entry).stores j).Keeps ((c.offer i store entry).offered j) :=
    c.forall_offer i store entry (P := fun _ => StateStore.Keeps) h.keeps ((h.keeps i).offer hstore)
  have hoffer : ∀ j, ∀ e ∈ c.offered j, e ∈ (c.offer i store entry).offered j :=
    c.forall_offer i store entry (P := fun j _ offered => ∀ e ∈ c.offered j, e ∈ offered) (fun _ _ he => he)
      fun e he => List.mem_append_left _ he
  refine ⟨?_,fun e he => hold e (h.network e he),?_,?_,?_,fun j => (hkeeps j).held,fun j => (hkeeps j).newest,hunique⟩
  · exact c.forall_offer i store entry (P := fun j store _ => store.nodeId = j) h.nodeId hid
  · refine c.forall_offer i store entry (P := fun _ _ offered => ∀ e ∈ offered, e ∈ written)
      (fun j e he => hold e (h.offered j e he)) ?_
    intro e he
    rcases List.mem_append.mp he with he | he
    · exact hold e (h.offered i e he)
    · rw [List.mem_singleton.mp he]
      exact hentry
  · intro e he
    rcases hown e he with he | ⟨rfl,hi⟩
    · exact hoffer _ e (h.own e he)
    · simp [GossipCluster.offer,hi]
  · intro e he
    rcases hown e he with he | ⟨rfl,-⟩
    · exact h.positive e he
    · exact hpositive

/-- Entries that arrive are not new to the cluster. -/
theorem merge (h : Stamped c) (i : ν) {entry : StateEntry κ ν V T} (he : entry ∈ c.network) :
    Stamped (c.offer i ((c.stores i).merge entry).1 entry) :=
  h.offer (fun _ h => h) (h.network entry he) (fun _ h => Or.inl h) (h.positive entry (h.network entry he)) h.unique
    ((StateStore.merge_nodeId _ entry).trans (h.nodeId i)) ((c.stores i).getEntry_merge entry)

/-- A local write is newer than what its node has of the key. -/
theorem wrote (h : Stamped c) {i : ν} {entry : StateEntry κ ν V T} (hid : entry.nodeId = (c.stores i).nodeId)
    (hversion : entry.version = (c.stores i).nextVersion entry.key) :
    Stamped (c.wrote i ((c.stores i).put entry) entry) := by
  have hi : entry.nodeId = i := hid.trans (h.nodeId i)
  have hfresh : ∀ e ∈ c.written, e.key = entry.key → e.stamp ≠ entry.stamp := by
    intro e he hkey hstamp
    obtain ⟨hv,hn⟩ := Prod.mk.inj (toLex_inj.mp hstamp)
    have hlt := h.version_lt he
    rw [hn,hi,hkey,← hversion,hv] at hlt
    exact lt_irrefl _ hlt
  refine h.offer (fun e he => List.mem_append_left _ he) (List.mem_append_right _ List.mem_cons_self) ?_ ?_ ?_
    (h.nodeId i) ?_
  · intro e he
    rcases List.mem_append.mp he with he | he
    · exact Or.inl he
    · rw [List.mem_singleton.mp he]
      exact Or.inr ⟨rfl,hi⟩
  · rw [hversion]
    unfold StateStore.nextVersion
    split
    · exact Nat.one_pos
    · exact Nat.succ_pos _
  · intro e he e' he' hkey hstamp
    rw [List.mem_append,List.mem_singleton] at he he'
    rcases he with he | rfl
    · rcases he' with he' | rfl
      · exact h.unique e he e' he' hkey hstamp
      · exact absurd hstamp (hfresh e he hkey)
    · rcases he' with he' | rfl
      · exact absurd hstamp.symm (hfresh e' he' hkey.symm)
      · rfl
  · intro key
    rw [StateStore.getEntry_put]
    by_cases hk : key = entry.key
    · subst hk
      rw [if_pos rfl,if_pos rfl]
      cases hx : (c.stores i).getEntry entry.key with
      | none => exact Option.merge_none_left.symm
      | some x =>
        have hlt : x.stamp < entry.stamp := by
          refine Prod.Lex.toLex_lt_toLex.mpr (Or.inl ?_)
          simp only [hversion,StateStore.nextVersion,hx]
          exact Nat.lt_succ_self _
        rw [Option.merge_some_some,newest_of_lt _ hlt]
    · rw [if_neg hk,if_neg hk]

theorem step (h : Stamped c) (a : GossipAction κ ν V T) : Stamped (c.step a) := by
  rcases c.step_cases a with hc | ⟨i,entry,hid,hversion,hc⟩ | ⟨i,hc⟩ | ⟨i,entry,he,hc⟩
  · rw [hc]
    exact h
  · rw [hc]
    exact h.wrote hid hversion
  · rw [hc]
    refine { h with network := fun e he => ?_ }
    rcases List.mem_append.mp he with he | he
    · exact h.network e he
    · obtain ⟨key,hkey⟩ := StateStore.mem_getAllEntries he
      exact h.offered i e (h.held i key e hkey).2
  · rw [hc]
    exact h.merge i he

end Stamped

theorem stamped_run (schedule : List (GossipAction κ ν V T)) : Stamped (run step (init κ ν V T) schedule) :=
  run_invariant_of_step (fun _ a h => h.step a) stamped_init schedule

/-- Version and node identify the entry of a key, every store holds the largest entry that it
wrote or was offered, and stores with the same offers for a key hold the same. -/
structure Convergent (c : GossipCluster κ ν V T) : Prop where
  identified : ∀ e ∈ c.written, ∀ e' ∈ c.written, e.key = e'.key → e.version = e'.version → e.nodeId = e'.nodeId →
    e = e'
  largest : ∀ i key e, (c.stores i).getEntry key = some e ↔
    e ∈ c.offered i ∧ e.key = key ∧ ∀ e' ∈ c.offered i, e'.key = key → e'.stamp ≤ e.stamp
  agreeing : ∀ i j key, (∀ e : StateEntry κ ν V T, e.key = key → (e ∈ c.offered i ↔ e ∈ c.offered j)) →
    (c.stores i).getEntry key = (c.stores j).getEntry key

theorem Stamped.largest {c : GossipCluster κ ν V T} (h : Stamped c) (i : ν) (key : κ) (e : StateEntry κ ν V T) :
    (c.stores i).getEntry key = some e ↔
      e ∈ c.offered i ∧ e.key = key ∧ ∀ e' ∈ c.offered i, e'.key = key → e'.stamp ≤ e.stamp := by
  constructor
  · intro he
    obtain ⟨hkey,hmem⟩ := h.held i key e he
    refine ⟨hmem,hkey,fun e' he' hkey' => ?_⟩
    obtain ⟨x,hx,hle⟩ := h.newest i e' he'
    rw [hkey',he] at hx
    cases hx
    exact hle
  · rintro ⟨hmem,rfl,hmax⟩
    obtain ⟨x,hx,hle⟩ := h.newest i e hmem
    obtain ⟨hkey,hx'⟩ := h.held i e.key x hx
    rw [hx]
    have heq := le_antisymm hle (hmax x hx' hkey)
    exact congrArg some (h.unique e (h.offered i e hmem) x (h.offered i x hx') hkey.symm heq).symm

theorem Stamped.convergent {c : GossipCluster κ ν V T} (h : Stamped c) : Convergent c where
  identified e he e' he' hkey hversion hnode := by
    refine h.unique e he e' he' hkey ?_
    unfold StateEntry.stamp
    rw [hversion,hnode]
  largest := h.largest
  agreeing i j key hsame := by
    ext e
    rw [h.largest,h.largest]
    constructor
    · rintro ⟨hmem,hkey,hmax⟩
      exact ⟨(hsame e hkey).mp hmem,hkey,fun e' he' hkey' => hmax e' ((hsame e' hkey').mpr he') hkey'⟩
    · rintro ⟨hmem,hkey,hmax⟩
      exact ⟨(hsame e hkey).mpr hmem,hkey,fun e' he' hkey' => hmax e' ((hsame e' hkey').mp he') hkey'⟩

/-- Every run of stores with distinct node ids converges. -/
theorem push_converges (schedule : List (GossipAction κ ν V T)) : Convergent (run step (init κ ν V T) schedule) :=
  (stamped_run schedule).convergent

end GossipCluster

end DistributedSystems.Gossip
