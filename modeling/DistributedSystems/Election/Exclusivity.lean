import DistributedSystems.Election.LeaseCluster
import DistributedSystems.Protocol.Quorum
import Mathlib.Order.Monotone.Defs

/-! # One leader at an instant

A vote is no promise in the code: `vote_timestamp` is written and never read, and what
keeps a node from voting for another candidate is only the lease that a heartbeat has told
it of. The guard asks for the promise, and that a quorum is made of votes still kept.
-/
namespace DistributedSystems.Election
open Runs LeaseBasedElection

variable {T : Type} [Add T] [LinearOrder T]

namespace LeaseBasedElection

/-- The candidate of the last vote. -/
def lastVote (n : LeaseBasedElection T) : Option ℕ := n.casts.getLast?.map Prod.snd

/-- A node leads until its lease ends. -/
theorem leads_of_le {n : LeaseBasedElection T} {now later : T} (h : n.leads later) (hle : now ≤ later) :
    n.leads now := by
  obtain ⟨hflag,lease,hlease,hholder,hvalid⟩ := h
  exact ⟨hflag,lease,hlease,hholder,lt_of_le_of_lt hle hvalid⟩

namespace Reacts
variable {n : LeaseBasedElection T} {now : T} {cause : Cause} {r : Reaction T}

theorem lastVote (h : n.Reacts now cause r) :
    r.node.lastVote = n.lastVote ∨ ∃ x, n.ballot now cause = some x ∧ r.node.lastVote = some x := by
  unfold LeaseBasedElection.lastVote
  rcases h.casts with hc | ⟨t,x,hx,hc⟩
  · rw [hc]
    exact Or.inl rfl
  · refine Or.inr ⟨x,hx,?_⟩
    rw [hc,List.getLast?_append_cons]
    rfl

/-- A node that leads did so before, or has just completed a quorum. -/
theorem leads (h : n.Reacts now cause r) (hl : r.node.leads now) :
    (n.leads now ∧ r.node.electors = n.electors) ∨
    ∃ msg, cause = .message msg ∧ msg.type = .grantLease ∧ n.completesQuorum msg ∧
      r.node.electors = insert msg.senderId n.votesReceived := by
  cases h with
  | silent h => exact Or.inl ⟨h.1.leads now hl,h.1.electors⟩
  | request => exact Or.inl ⟨hl,rfl⟩
  | @grant msg =>
    have hadopt := Steady.adoptTerm n msg.term
    exact Or.inl ⟨hadopt.leads now hl,hadopt.electors⟩
  | count => exact Or.inl ⟨hl,rfl⟩
  | lead ht hq => exact Or.inr ⟨_,rfl,ht,hq,rfl⟩

end Reacts

end LeaseBasedElection

namespace LeaseCluster

/-- The votes of a quorum that a node completes are still kept. -/
def Binding (c : LeaseCluster T) (i : ℕ) : Cause → Prop
  | .own _ => True
  | .message msg => msg.type = .grantLease → (c.nodes i).completesQuorum msg →
      ∀ v ∈ insert msg.senderId (c.nodes i).votesReceived, (c.nodes v).lastVote = some i

instance (c : LeaseCluster T) (i : ℕ) : ∀ cause, Decidable (c.Binding i cause)
  | .own _ => isTrue trivial
  | .message _ => inferInstanceAs (Decidable (_ → _))

/-- Nobody votes for another candidate while a node leads that it has elected. -/
def KeepsPromise (cfg : LeaseConfig T) (c : LeaseCluster T) (a : LeaseAction T) : Prop :=
  ∀ o ∈ c.cause cfg a,
    (∀ x ∈ (c.nodes o.1).ballot (cfg.clock o.1 c.time) o.2, ∀ j < cfg.totalNodes,
      (c.nodes j).leads (cfg.clock j c.time) → o.1 ∈ (c.nodes j).electors → j = x) ∧ c.Binding o.1 o.2

instance (cfg : LeaseConfig T) (c : LeaseCluster T) (a : LeaseAction T) : Decidable (c.KeepsPromise cfg a) :=
  inferInstanceAs (Decidable (∀ o ∈ c.cause cfg a, (∀ x ∈ (c.nodes o.1).ballot (cfg.clock o.1 c.time) o.2,
    ∀ j < cfg.totalNodes, (c.nodes j).leads (cfg.clock j c.time) → o.1 ∈ (c.nodes j).electors → j = x) ∧
    c.Binding o.1 o.2))

/-- A majority of the cluster gave its last vote to the node. -/
structure Backed (cfg : LeaseConfig T) (c : LeaseCluster T) (i : ℕ) (electors : Finset ℕ) : Prop where
  lt : i < cfg.totalNodes
  members : electors ⊆ Finset.range cfg.totalNodes
  majority : cfg.totalNodes < 2 * electors.card
  kept : ∀ v ∈ electors, (c.nodes v).lastVote = some i

omit [Add T] [LinearOrder T] in
/-- Two nodes with a majority behind them share a voter. -/
theorem Backed.unique {cfg : LeaseConfig T} {c : LeaseCluster T} {i j : ℕ} {A B : Finset ℕ} (hi : c.Backed cfg i A)
    (hj : c.Backed cfg j B) : i = j := by
  have hA := hi.majority
  have hB := hj.majority
  obtain ⟨v,hv⟩ := inter_nonempty_of_card hi.members hj.members (by rw [Finset.card_range]; omega)
  obtain ⟨hvA,hvB⟩ := Finset.mem_inter.mp hv
  exact Option.some.inj ((hi.kept v hvA).symm.trans (hj.kept v hvB))

structure Exclusive (cfg : LeaseConfig T) (c : LeaseCluster T) : Prop where
  proper : Proper cfg c
  backed : ∀ i, (c.nodes i).leads (cfg.clock i c.time) → c.Backed cfg i (c.nodes i).electors

theorem exclusive_init (cfg : LeaseConfig T) (time : T) : Exclusive cfg (init cfg time) where
  proper := proper_init cfg time
  backed _ h := by cases h.1

/-- The last votes for a leading node survive the vote of any node. -/
theorem lastVote_update {cfg : LeaseConfig T} {c : LeaseCluster T} {i : ℕ} {cause : Cause} {r : Reaction T}
    (hr : (c.nodes i).Reacts (cfg.clock i c.time) cause r) {j : ℕ} {electors : Finset ℕ}
    (hpromise : ∀ x ∈ (c.nodes i).ballot (cfg.clock i c.time) cause, i ∈ electors → j = x) {v : ℕ} (hv : v ∈ electors)
    (hlast : (c.nodes v).lastVote = some j) : ((c.update i r).nodes v).lastVote = some j := by
  by_cases hvi : v = i
  · subst v
    rw [update_self]
    rcases hr.lastVote with h | ⟨x,hx,h⟩
    · rw [h]
      exact hlast
    · rw [h,hpromise x hx hv]
  · rw [update_ne c r hvi]
    exact hlast

theorem Exclusive.step {cfg : LeaseConfig T} (hclock : ∀ i, Monotone (cfg.clock i)) {c : LeaseCluster T}
    {a : LeaseAction T} (h : Exclusive cfg c) (hguard : c.KeepsPromise cfg a) : Exclusive cfg (c.step cfg a) := by
  have hproper := h.proper.step a
  rcases h.proper.step_cases a with ⟨time,hle,hc⟩ | ⟨i,cause,r,hcause,hr,hc⟩
  · rw [hc] at hproper ⊢
    refine ⟨hproper,fun j hj => ?_⟩
    have hbacked := h.backed j (leads_of_le hj (hclock j hle))
    exact ⟨hbacked.lt,hbacked.members,hbacked.majority,hbacked.kept⟩
  obtain ⟨hi,hmsg⟩ := h.proper.cause_lt hcause
  obtain ⟨hpromise,hbinding⟩ := hguard _ hcause
  rw [hc] at hproper ⊢
  refine ⟨hproper,?_⟩
  -- A node that led before the step keeps its votes, by the promise of the node that moves.
  have hold : ∀ j, (c.nodes j).leads (cfg.clock j c.time) → (c.update i r).Backed cfg j (c.nodes j).electors := by
    intro j hj
    have hbacked := h.backed j hj
    refine ⟨hbacked.lt,hbacked.members,hbacked.majority,fun v hv => ?_⟩
    exact lastVote_update hr (fun x hx => hpromise x hx j hbacked.lt hj) hv (hbacked.kept v hv)
  refine forall_nodes_update (P := fun j n => n.leads (cfg.clock j c.time) → (c.update i r).Backed cfg j n.electors)
    ?_ hold
  intro hl
  rcases hr.leads hl with ⟨hl,helectors⟩ | ⟨msg,rfl,ht,hq,helectors⟩
  · rw [helectors]
    exact hold i hl
  rw [helectors]
  obtain ⟨-,hs,-⟩ := hmsg msg rfl
  have hcard := hq.2.2.2
  rw [h.proper.quorumSize i hi] at hcard
  refine ⟨hi,?_,by omega,fun v hv => ?_⟩
  · intro v hv
    rcases Finset.mem_insert.mp hv with rfl | hv
    · exact Finset.mem_range.mpr hs
    · exact Finset.mem_range.mpr (h.proper.votesReceived i hi v hv)
  · have hballot : (c.nodes i).ballot (cfg.clock i c.time) (.message msg) = none :=
      if_neg fun hb => by rw [ht] at hb; cases hb.1
    refine lastVote_update hr (fun x hx => ?_) hv (hbinding ht hq v hv)
    rw [hballot] at hx
    cases hx

/-- In runs whose steps keep the promise of a vote, on clocks that never run backwards, at
most one node leads. -/
theorem lease_exclusive (cfg : LeaseConfig T) (hclock : ∀ i, Monotone (cfg.clock i)) (time : T)
    {schedule : List (LeaseAction T)} (hguard : Along (step cfg) (KeepsPromise cfg) (init cfg time) schedule)
    {i j : ℕ} (hi : ((run (step cfg) (init cfg time) schedule).nodes i).leads
      (cfg.clock i (run (step cfg) (init cfg time) schedule).time))
    (hj : ((run (step cfg) (init cfg time) schedule).nodes j).leads
      (cfg.clock j (run (step cfg) (init cfg time) schedule).time)) : i = j := by
  have h := run_invariant (I := Exclusive cfg) (fun _ _ hs hg => hs.step hclock hg) (exclusive_init cfg time) hguard
  exact (h.backed i hi).unique (h.backed j hj)

/-- Node 0 leads, its lease expires, and node 2 leads. -/
theorem lease_exclusive_failover :
    ∃ schedule : List (LeaseAction ℕ),
      ((run (step LeaseConfig.threeNodes) (init LeaseConfig.threeNodes 0) schedule).nodes 2).leads 10 ∧
      ∀ j, ((run (step LeaseConfig.threeNodes) (init LeaseConfig.threeNodes 0) schedule).nodes j).leads 10 → 2 = j :=
  ⟨[.move 0 .start,.move 1 .start,.move 2 .start,.move 0 .attemptAcquireLease,.deliver 0,.deliver 2,.deliver 1,
      .elapse 10,.move 2 .attemptAcquireLease,.deliver 5,.deliver 6],by decide,
    fun _ hj => lease_exclusive LeaseConfig.threeNodes (fun _ _ _ h => h) 0 (by decide) (by decide) hj⟩

/-- Node 1 elects node 0 and, before a heartbeat arrives, node 2. -/
theorem two_leaders_at_once :
    ¬ ∀ (schedule : List (LeaseAction ℕ)) (i j : ℕ),
      ((run (step LeaseConfig.threeNodes) (init LeaseConfig.threeNodes 0) schedule).nodes i).leads
        (run (step LeaseConfig.threeNodes) (init LeaseConfig.threeNodes 0) schedule).time →
      ((run (step LeaseConfig.threeNodes) (init LeaseConfig.threeNodes 0) schedule).nodes j).leads
        (run (step LeaseConfig.threeNodes) (init LeaseConfig.threeNodes 0) schedule).time → i = j := by
  intro h
  have he := h [.move 0 .start,.move 1 .start,.move 2 .start,.move 0 .attemptAcquireLease,.deliver 0,.deliver 2,
    .deliver 1,.move 2 .attemptAcquireLease,.deliver 5,.deliver 6] 0 2 (by decide) (by decide)
  exact absurd he (by decide)

end LeaseCluster

end DistributedSystems.Election
