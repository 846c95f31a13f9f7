import DistributedSystems.Election.Lease
import DistributedSystems.Protocol.Runs

/-! # A cluster of lease-based nodes

All nodes know all others and use the default quorum. Messages stay in the network for
ever and are delivered late, repeatedly or never. Each node reads its own clock.
-/
namespace DistributedSystems.Election
open Runs LeaseBasedElection

/-- A cluster of nodes `0, …, totalNodes - 1`. `clock i` turns the time into what node `i` reads. -/
structure LeaseConfig (T : Type) where
  totalNodes : ℕ
  leaseDuration : ℕ → T
  clock : ℕ → T → T

structure LeaseCluster (T : Type) where
  nodes : ℕ → LeaseBasedElection T
  network : List Packet
  time : T

/-- A message may be handled after the call of `stop` that ends its reception, so a
delivery does not ask whether the node is running. -/
inductive LeaseAction (T : Type)
  | move (i : ℕ) (move : Move)
  | deliver (k : ℕ)
  | elapse (time : T)

namespace LeaseCluster
variable {T : Type} [Add T] [LinearOrder T]

def init (cfg : LeaseConfig T) (time : T) : LeaseCluster T where
  nodes i := LeaseBasedElection.init i ((List.range cfg.totalNodes).filter (· ≠ i)) (cfg.leaseDuration i) none
  network := []
  time := time

def update (c : LeaseCluster T) (i : ℕ) (r : Reaction T) : LeaseCluster T :=
  { c with nodes := Function.update c.nodes i r.node, network := c.network ++ r.sent }

/-- The node that takes the step of an action, and why. -/
def cause (cfg : LeaseConfig T) (c : LeaseCluster T) : LeaseAction T → Option (ℕ × Cause)
  | .move i move => if i < cfg.totalNodes then some (i,.own move) else none
  | .deliver k => c.network[k]?.map fun p => (p.destination,.message p.message)
  | .elapse _ => none

def step (cfg : LeaseConfig T) (c : LeaseCluster T) (a : LeaseAction T) : LeaseCluster T :=
  match c.cause cfg a with
  | some (i,cause) => c.update i ((c.nodes i).respond (cfg.clock i c.time) cause)
  | none =>
    match a with
    | .elapse time => if c.time ≤ time then { c with time := time } else c
    | _ => c

omit [Add T] [LinearOrder T] in
@[simp] theorem update_self (c : LeaseCluster T) (i : ℕ) (r : Reaction T) : (c.update i r).nodes i = r.node :=
  Function.update_self ..

omit [Add T] [LinearOrder T] in
theorem update_ne (c : LeaseCluster T) {i j : ℕ} (r : Reaction T) (h : j ≠ i) : (c.update i r).nodes j = c.nodes j :=
  Function.update_of_ne h _ _

omit [Add T] [LinearOrder T] in
/-- What holds of the new node and of all old ones holds of every node. -/
theorem forall_nodes_update {c : LeaseCluster T} {i : ℕ} {r : Reaction T} {P : ℕ → LeaseBasedElection T → Prop}
    (hi : P i r.node) (h : ∀ j, P j (c.nodes j)) (j : ℕ) : P j ((c.update i r).nodes j) :=
  (Function.forall_update_iff c.nodes P).mpr ⟨hi,fun j _ => h j⟩ j

omit [Add T] [LinearOrder T] in
theorem mem_update_network {c : LeaseCluster T} {i : ℕ} {r : Reaction T} {p : Packet}
    (h : p ∈ (c.update i r).network) : p ∈ c.network ∨ p ∈ r.sent := List.mem_append.mp h

/-- Nodes are who they are, know the cluster, count its members and write under their own name. -/
structure Proper (cfg : LeaseConfig T) (c : LeaseCluster T) : Prop where
  nodeId : ∀ i, (c.nodes i).nodeId = i
  quorumSize : ∀ i < cfg.totalNodes, (c.nodes i).quorumSize = cfg.totalNodes / 2 + 1
  peers : ∀ i, ∀ p ∈ (c.nodes i).peers, p < cfg.totalNodes ∧ p ≠ i
  votesReceived : ∀ i < cfg.totalNodes, ∀ v ∈ (c.nodes i).votesReceived, v < cfg.totalNodes
  packets : ∀ p ∈ c.network,
    p.destination < cfg.totalNodes ∧ p.message.senderId < cfg.totalNodes ∧ p.message.senderId ≠ p.destination

omit [Add T] [LinearOrder T] in
theorem proper_init (cfg : LeaseConfig T) (time : T) : Proper cfg (init cfg time) where
  nodeId _ := rfl
  quorumSize i hi := by
    have hall : insert i ((List.range cfg.totalNodes).filter (· ≠ i)).toFinset = Finset.range cfg.totalNodes := by
      ext j
      simp only [Finset.mem_insert,List.mem_toFinset,List.mem_filter,List.mem_range,decide_eq_true_eq,Finset.mem_range]
      constructor
      · rintro (rfl | h)
        · exact hi
        · exact h.1
      · intro hj
        exact or_iff_not_imp_left.mpr fun hne => ⟨hj,hne⟩
    change (insert i ((List.range cfg.totalNodes).filter (· ≠ i)).toFinset).card / 2 + 1 = _
    rw [hall,Finset.card_range]
  peers i p hp := by
    obtain ⟨hp,hne⟩ := List.mem_filter.mp (List.mem_dedup.mp hp)
    exact ⟨List.mem_range.mp hp,of_decide_eq_true hne⟩
  votesReceived _ _ _ hv := absurd hv (Finset.notMem_empty _)
  packets _ hp := absurd hp List.not_mem_nil

omit [Add T] [LinearOrder T] in
theorem Proper.cause_lt {cfg : LeaseConfig T} {c : LeaseCluster T} (h : Proper cfg c) {a : LeaseAction T} {i : ℕ}
    {cause : Cause} (hc : c.cause cfg a = some (i,cause)) :
    i < cfg.totalNodes ∧ ∀ msg, cause = .message msg →
      (⟨i,msg⟩ : Packet) ∈ c.network ∧ msg.senderId < cfg.totalNodes ∧ msg.senderId ≠ i := by
  cases a with
  | move j move =>
    unfold LeaseCluster.cause at hc
    dsimp only at hc
    split at hc
    · rename_i hj
      cases hc
      exact ⟨hj,fun msg hmsg => nomatch hmsg⟩
    · cases hc
  | deliver k =>
    obtain ⟨p,hp,hpc⟩ := Option.map_eq_some_iff.mp hc
    cases hpc
    have hmem := List.mem_of_getElem? hp
    obtain ⟨hd,hs,hne⟩ := h.packets p hmem
    refine ⟨hd,fun msg hmsg => ?_⟩
    cases hmsg
    exact ⟨hmem,hs,hne⟩
  | elapse time => cases hc

/-- A step does nothing, lets time pass, or lets one node react. -/
theorem Proper.step_cases {cfg : LeaseConfig T} {c : LeaseCluster T} (h : Proper cfg c) (a : LeaseAction T) :
    (∃ time, c.time ≤ time ∧ c.step cfg a = { c with time := time }) ∨
    ∃ i cause r, c.cause cfg a = some (i,cause) ∧ (c.nodes i).Reacts (cfg.clock i c.time) cause r ∧
      c.step cfg a = c.update i r := by
  cases hc : c.cause cfg a with
  | none =>
    left
    unfold step
    rw [hc]
    dsimp only
    split
    · rename_i time
      split
      · rename_i hle
        exact ⟨time,hle,rfl⟩
      · exact ⟨c.time,le_refl _,rfl⟩
    · exact ⟨c.time,le_refl _,rfl⟩
  | some origin =>
    obtain ⟨i,cause⟩ := origin
    refine Or.inr ⟨i,cause,_,rfl,respond_reacts _ _ ?_,by unfold step; rw [hc]⟩
    intro msg hmsg
    rw [h.nodeId i]
    exact ((h.cause_lt hc).2 msg hmsg).2.2

theorem Proper.step {cfg : LeaseConfig T} {c : LeaseCluster T} (h : Proper cfg c) (a : LeaseAction T) :
    Proper cfg (c.step cfg a) := by
  rcases h.step_cases a with ⟨time,-,hc⟩ | ⟨i,cause,r,hcause,hr,hc⟩
  · rw [hc]
    exact ⟨h.nodeId,h.quorumSize,h.peers,h.votesReceived,h.packets⟩
  obtain ⟨hi,hmsg⟩ := h.cause_lt hcause
  rw [hc]
  constructor
  · exact forall_nodes_update (P := fun j n => n.nodeId = j) (hr.nodeId.trans (h.nodeId i)) h.nodeId
  · exact forall_nodes_update (P := fun j n => j < cfg.totalNodes → n.quorumSize = cfg.totalNodes / 2 + 1)
      (fun hi => hr.quorumSize.trans (h.quorumSize i hi)) h.quorumSize
  · exact forall_nodes_update (P := fun j n => ∀ p ∈ n.peers, p < cfg.totalNodes ∧ p ≠ j)
      (by rw [hr.peers]; exact h.peers i) h.peers
  · refine forall_nodes_update (P := fun j n => j < cfg.totalNodes → ∀ v ∈ n.votesReceived, v < cfg.totalNodes)
      (fun _ v hv => ?_) h.votesReceived
    rcases hr.votesReceived hv with hv | rfl | ⟨msg,rfl,rfl⟩
    · exact h.votesReceived i hi v hv
    · rw [h.nodeId i]
      exact hi
    · exact (hmsg msg rfl).2.1
  · intro p hp
    rcases mem_update_network hp with hp | hp
    · exact h.packets p hp
    obtain ⟨hs,hd⟩ := hr.sent hp
    rw [hs,h.nodeId i]
    rcases hd with hd | ⟨msg,rfl,hd⟩
    · obtain ⟨hlt,hne⟩ := h.peers i _ hd
      exact ⟨hlt,hi,hne.symm⟩
    · obtain ⟨-,hlt,hne⟩ := hmsg msg rfl
      rw [hd]
      exact ⟨hlt,hi,hne.symm⟩

end LeaseCluster

/-- Three nodes with exact clocks. -/
def LeaseConfig.threeNodes : LeaseConfig ℕ where
  totalNodes := 3
  leaseDuration _ := 5
  clock _ time := time

end DistributedSystems.Election
