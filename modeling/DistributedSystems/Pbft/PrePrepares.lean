import DistributedSystems.Pbft.System

/-! # The PRE-PREPAREs of a node

A handler stores at most one PRE-PREPARE: the one it was sent, or the one a primary
makes of a request. Only the latter is broadcast.
-/
namespace DistributedSystems.Pbft
variable {Op Dig : Type} [DecidableEq Op] [DecidableEq Dig]

namespace PBFTNode

/-- The PRE-PREPARE a primary makes of a request. -/
def proposal (n : PBFTNode Op Dig) (d : Dig) (msg : RequestMessage Op) : PrePrepareMessage Op Dig where
  sender := n.nodeId
  view := n.view
  sequenceNumber := n.seqNum + 1
  digest := d
  request := some msg.asdict

/-- The request a node makes of an operation it is asked to propose. -/
def clientRequest (n : PBFTNode Op Dig) (operation : Op) (reqId : ℤ) : RequestMessage Op where
  sender := n.nodeId
  view := n.view
  clientId := n.nodeId
  operation := operation
  requestId := reqId

/-- The PRE-PREPARE a handler writes to `pre_prepares`. -/
def stores (digest : Op → Option Dig) (n : PBFTNode Op Dig) : Message Op Dig → Option (PrePrepareMessage Op Dig)
  | .request msg => if n.isPrimary then (digest msg.operation).map (n.proposal · msg) else none
  | .prePrepare msg => if msg.view = n.view ∧ n.prePrepares msg.key = none then some msg else none
  | _ => none

omit [DecidableEq Op] [DecidableEq Dig] in
theorem stores_request (digest : Op → Option Dig) (n : PBFTNode Op Dig) (msg : RequestMessage Op) :
    n.stores digest (.request msg) =
      if n.isPrimary then (digest msg.operation).map (n.proposal · msg) else none := rfl

omit [DecidableEq Op] [DecidableEq Dig] in
theorem stores_prePrepare (digest : Op → Option Dig) (n : PBFTNode Op Dig) (msg : PrePrepareMessage Op Dig) :
    n.stores digest (.prePrepare msg) = if msg.view = n.view ∧ n.prePrepares msg.key = none then some msg else none := rfl

end PBFTNode

/-- The PRE-PREPARE an honest node writes to its `pre_prepares` in a step. -/
def System.stores (cfg : Config) (digest : Op → Option Dig) (c : System Op Dig) :
    Action Op Dig → Option (PrePrepareMessage Op Dig)
  | .propose i operation reqId =>
    if cfg.honest i then (c.nodes i).stores digest (.request ((c.nodes i).clientRequest operation reqId)) else none
  | .deliver k i => c.network[k]?.bind fun envelope =>
    if cfg.honest i ∧ envelope.reaches i then (c.nodes i).stores digest envelope.message else none
  | _ => none

/-- What a handler that stores `stored` does. A stored PRE-PREPARE is known to the network
or becomes so. -/
structure AcceptStep (digest : Op → Option Dig) (known : PrePrepareMessage Op Dig → Prop) (n : PBFTNode Op Dig)
    (stored : Option (PrePrepareMessage Op Dig)) (out : PBFTNode Op Dig × List (Outgoing Op Dig)) : Prop where
  accepted : out.1.accepted = n.accepted ++ stored.toList
  nodeId : out.1.nodeId = n.nodeId
  totalNodes : out.1.totalNodes = n.totalNodes
  seqNum : n.seqNum ≤ out.1.seqNum
  proposed : ∀ o ∈ out.2, ∀ pp, o.message = .prePrepare pp → n.isPrimary ∧ out.1.seqNum = n.seqNum + 1 ∧
    stored = some pp ∧ ∃ d msg, digest msg.operation = some d ∧ pp = n.proposal d msg
  published : ∀ pp, stored = some pp → known pp ∨ .broadcast (.prePrepare pp) ∈ out.2

namespace AcceptStep
variable {digest : Op → Option Dig} {known : PrePrepareMessage Op Dig → Prop} {n : PBFTNode Op Dig}

omit [DecidableEq Op] [DecidableEq Dig] in
/-- A handler that leaves PRE-PREPAREs alone. -/
theorem quiet {out : PBFTNode Op Dig × List (Outgoing Op Dig)} (ha : out.1.accepted = n.accepted)
    (hid : out.1.nodeId = n.nodeId) (ht : out.1.totalNodes = n.totalNodes) (hs : out.1.seqNum = n.seqNum)
    (ho : ∀ o ∈ out.2, ∀ pp, o.message ≠ .prePrepare pp) : AcceptStep digest known n none out :=
  ⟨by rw [ha]; exact (List.append_nil _).symm,hid,ht,hs.ge,fun o hmem pp hpp => absurd hpp (ho o hmem pp),
    fun _ h => by cases h⟩

theorem checkPrepared (digest : Op → Option Dig) (known : PrePrepareMessage Op Dig → Prop) (n : PBFTNode Op Dig)
    (key : Key) (d : Dig) : AcceptStep digest known n none (n.checkPrepared key d) := by
  rcases n.checkPrepared_cases key d with ⟨-,h⟩ | ⟨-,-,h⟩
  · rw [h]
    exact quiet rfl rfl rfl rfl (by simp)
  · obtain ⟨committed,requests,executed,hc⟩ := (n.becomePrepared key d).checkCommitted_eq key d
    rw [h,hc]
    exact quiet rfl rfl rfl rfl (by simp [Outgoing.message])

omit [DecidableEq Op] [DecidableEq Dig] in
theorem handleRequest (digest : Op → Option Dig) (known : PrePrepareMessage Op Dig → Prop) (n : PBFTNode Op Dig)
    (msg : RequestMessage Op) : AcceptStep digest known n (n.stores digest (.request msg)) (n.handleRequest digest msg) := by
  rw [PBFTNode.stores_request]
  unfold PBFTNode.handleRequest
  by_cases hp : n.isPrimary
  · rw [if_neg (not_not.mpr hp),if_pos hp]
    dsimp only
    cases hd : digest msg.operation with
    | none => exact ⟨(List.append_nil _).symm,rfl,rfl,by simp,by simp,by simp⟩
    | some d =>
      refine ⟨rfl,rfl,rfl,by simp [PBFTNode.storePrePrepare],?_,?_⟩
      · intro o ho pp hpp
        rw [List.mem_singleton.mp ho] at hpp
        cases hpp
        exact ⟨hp,rfl,rfl,d,msg,hd,rfl⟩
      · intro pp hpp
        cases hpp
        exact Or.inr (List.mem_singleton.mpr rfl)
  · rw [if_pos hp,if_neg hp]
    exact quiet rfl rfl rfl rfl (by simp [Outgoing.message])

theorem handlePrePrepare (n : PBFTNode Op Dig) (msg : PrePrepareMessage Op Dig) (hk : known msg) :
    AcceptStep digest known n (n.stores digest (.prePrepare msg)) (n.handlePrePrepare msg) := by
  rw [PBFTNode.stores_prePrepare]
  rcases n.handlePrePrepare_cases msg with ⟨hno,h⟩ | ⟨hview,hnone,h⟩
  · rw [h,if_neg hno]
    exact quiet rfl rfl rfl rfl (by simp)
  · rw [h,if_pos ⟨hview,hnone⟩]
    have hc := checkPrepared digest known
      ((n.storePrePrepare msg).addPrepare msg.key n.nodeId msg.digest) msg.key msg.digest
    refine ⟨hc.accepted.trans (List.append_nil _),hc.nodeId,hc.totalNodes,hc.seqNum,?_,?_⟩
    · intro o ho pp hpp
      rcases List.mem_cons.mp ho with rfl | ho
      · cases hpp
      · cases (hc.proposed o ho pp hpp).2.2.1
    · intro pp hpp
      cases hpp
      exact Or.inl hk

theorem handlePrepare (n : PBFTNode Op Dig) (msg : VoteMessage Dig) :
    AcceptStep digest known n none (n.handlePrepare msg) := by
  rcases n.handlePrepare_cases msg with ⟨-,h⟩ | ⟨-,-,h⟩ | ⟨-,pp,-,-,h⟩
  · rw [h]
    exact quiet rfl rfl rfl rfl (by simp)
  · rw [h]
    exact quiet rfl rfl rfl rfl (by simp)
  · rw [h]
    have hc := checkPrepared digest known (n.addPrepare msg.key msg.sender msg.digest) msg.key pp.digest
    exact ⟨hc.accepted,hc.nodeId,hc.totalNodes,hc.seqNum,hc.proposed,hc.published⟩

theorem handleCommit (n : PBFTNode Op Dig) (msg : VoteMessage Dig) :
    AcceptStep digest known n none (n.handleCommit msg,[]) := by
  rcases n.handleCommit_cases msg with ⟨-,h⟩ | ⟨-,-,h⟩ | ⟨-,pp,-,-,h⟩
  · rw [h]
    exact quiet rfl rfl rfl rfl (by simp)
  · rw [h]
    exact quiet rfl rfl rfl rfl (by simp)
  · obtain ⟨committed,requests,executed,hc⟩ :=
      (n.addCommit msg.key msg.sender msg.digest).checkCommitted_eq msg.key pp.digest
    rw [h,hc]
    exact quiet rfl rfl rfl rfl (by simp)

theorem receive (digest : Op → Option Dig) (n : PBFTNode Op Dig) (message : Message Op Dig)
    (hk : ∀ pp, message = .prePrepare pp → known pp) :
    AcceptStep digest known n (n.stores digest message) (n.receive digest message) := by
  cases message with
  | request msg => exact handleRequest digest known n msg
  | prePrepare msg => exact handlePrePrepare n msg (hk msg rfl)
  | prepare msg => exact handlePrepare n msg
  | commit msg => exact handleCommit n msg
  | viewChange msg =>
    unfold PBFTNode.receive PBFTNode.handleViewChange
    dsimp only
    split
    · exact quiet rfl rfl rfl rfl (by simp)
    split
    · exact quiet rfl rfl rfl rfl (by simp [PBFTNode.sendNewView,Outgoing.message])
    · exact quiet rfl rfl rfl rfl (by simp)
  | newView msg => exact quiet rfl rfl rfl rfl (by simp [PBFTNode.receive])

omit [DecidableEq Op] [DecidableEq Dig] in
theorem propose (digest : Op → Option Dig) (n : PBFTNode Op Dig) (operation : Op) (reqId : ℤ) :
    AcceptStep digest known n (n.stores digest (.request (n.clientRequest operation reqId)))
      (n.propose digest operation reqId) := by
  unfold PBFTNode.propose
  dsimp only
  split
  · have hr := handleRequest digest known
      { n with clientRequests := Function.update n.clientRequests reqId (some ⟨false,none⟩) }
      (n.clientRequest operation reqId)
    exact ⟨hr.accepted,hr.nodeId,hr.totalNodes,hr.seqNum,hr.proposed,hr.published⟩
  · rename_i hp
    change ¬n.isPrimary at hp
    rw [PBFTNode.stores_request,if_neg hp]
    exact quiet rfl rfl rfl rfl (by simp [Outgoing.message])

end AcceptStep

namespace System

def Known (c : System Op Dig) (pp : PrePrepareMessage Op Dig) : Prop := ∃ e ∈ c.network, e.message = .prePrepare pp

/-- The handler a step runs stores what the step stores. -/
theorem Handler.acceptStep {cfg : Config} {digest : Op → Option Dig} {c : System Op Dig} {a : Action Op Dig} {i : ℕ}
    {out : PBFTNode Op Dig × List (Outgoing Op Dig)} (h : c.Handler digest a i out) (hi : cfg.honest i) :
    AcceptStep digest c.Known (c.nodes i) (c.stores cfg digest a) out := by
  cases h with
  | propose i operation reqId =>
    rw [stores,if_pos hi]
    exact .propose digest _ operation reqId
  | triggerViewChange i =>
    exact .quiet rfl rfl rfl rfl (by simp [PBFTNode.triggerViewChange,Outgoing.message])
  | deliver k i envelope hk hr =>
    rw [stores,hk,Option.bind_some,if_pos ⟨hi,hr⟩]
    exact .receive digest _ envelope.message fun pp hpp => ⟨envelope,List.mem_of_getElem? hk,hpp⟩

omit [DecidableEq Op] [DecidableEq Dig] in
/-- Whatever a node has accepted after a handler it had before, or the handler stored it. -/
theorem mem_accepted_update {digest : Op → Option Dig} {c : System Op Dig} {i j : ℕ}
    {stored : Option (PrePrepareMessage Op Dig)} {out : PBFTNode Op Dig × List (Outgoing Op Dig)}
    (hs : AcceptStep digest c.Known (c.nodes i) stored out) {pp : PrePrepareMessage Op Dig}
    (h : pp ∈ ((c.update i out).nodes j).accepted) : pp ∈ (c.nodes j).accepted ∨ stored = some pp := by
  by_cases hj : j = i
  · subst j
    rw [update_self,hs.accepted] at h
    exact (List.mem_append.mp h).imp id Option.mem_toList.mp
  · rw [update_ne c out hj] at h
    exact Or.inl h

end System

end DistributedSystems.Pbft
