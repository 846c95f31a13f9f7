import DistributedSystems.Pbft.System

/-! # Operations that look alike

No handler reads an operation, except for its digest. A cluster behaves as before when its
operations are replaced by others of the same digests.
-/
namespace DistributedSystems.Pbft
variable {Op Op' Dig : Type} [DecidableEq Op] [DecidableEq Op'] [DecidableEq Dig] (f : Op → Op')

def RequestMessage.map (msg : RequestMessage Op) : RequestMessage Op' where
  sender := msg.sender
  view := msg.view
  clientId := msg.clientId
  operation := f msg.operation
  requestId := msg.requestId

def RequestDict.map (dict : RequestDict Op) : RequestDict Op' where
  sender := dict.sender
  view := dict.view
  clientId := dict.clientId
  operation := dict.operation.map f
  requestId := dict.requestId

def PrePrepareMessage.map (msg : PrePrepareMessage Op Dig) : PrePrepareMessage Op' Dig where
  sender := msg.sender
  view := msg.view
  sequenceNumber := msg.sequenceNumber
  digest := msg.digest
  request := msg.request.map (RequestDict.map f)

def Message.map : Message Op Dig → Message Op' Dig
  | .request msg => .request (msg.map f)
  | .prePrepare msg => .prePrepare (msg.map f)
  | .prepare msg => .prepare msg
  | .commit msg => .commit msg
  | .viewChange msg => .viewChange msg
  | .newView msg => .newView msg

def Outgoing.map : Outgoing Op Dig → Outgoing Op' Dig
  | .broadcast message => .broadcast (message.map f)
  | .send message destination => .send (message.map f) destination

namespace PBFTNode

def map (n : PBFTNode Op Dig) : PBFTNode Op' Dig where
  nodeId := n.nodeId
  totalNodes := n.totalNodes
  f := n.f
  view := n.view
  seqNum := n.seqNum
  prePrepares := Option.map (PrePrepareMessage.map f) ∘ n.prePrepares
  prepares := n.prepares
  commits := n.commits
  viewChangeLog := n.viewChangeLog
  status := n.status
  preparedPredicate := n.preparedPredicate
  committedPredicate := n.committedPredicate
  clientRequests := n.clientRequests
  accepted := n.accepted.map (PrePrepareMessage.map f)
  commitSent := n.commitSent
  executed := n.executed.map (PrePrepareMessage.map f)

/-- The result of a handler. -/
def mapOut (out : PBFTNode Op Dig × List (Outgoing Op Dig)) : PBFTNode Op' Dig × List (Outgoing Op' Dig) :=
  (out.1.map f,out.2.map (Outgoing.map f))

theorem requestIdOf_map (request : Option (RequestDict Op)) :
    requestIdOf (request.map (RequestDict.map f)) = requestIdOf request := by
  cases request with
  | none => rfl
  | some dict =>
    have hempty : dict.map f = RequestDict.empty ↔ dict = RequestDict.empty := by
      cases dict
      simp [RequestDict.map,RequestDict.empty]
    exact if_congr hempty rfl rfl

omit [DecidableEq Op] [DecidableEq Op'] [DecidableEq Dig] in
theorem storePrePrepare_map (n : PBFTNode Op Dig) (msg : PrePrepareMessage Op Dig) :
    (n.map f).storePrePrepare (msg.map f) = (n.storePrePrepare msg).map f := by
  unfold storePrePrepare map
  rw [Function.comp_update,List.map_append]
  rfl

omit [DecidableEq Dig] in
theorem executeRequest_map (n : PBFTNode Op Dig) (key : Key) : (n.map f).executeRequest key = (n.executeRequest key).map f := by
  have hstored : (n.map f).prePrepares key = (n.prePrepares key).map (PrePrepareMessage.map f) := rfl
  unfold executeRequest
  rw [hstored]
  cases n.prePrepares key with
  | none => rfl
  | some pp =>
    have hid : requestIdOf (pp.map f).request = requestIdOf pp.request := requestIdOf_map f pp.request
    dsimp only [Option.map_some]
    rw [hid]
    unfold map
    rw [List.map_append]
    rfl

theorem checkCommitted_map (n : PBFTNode Op Dig) (key : Key) (d : Dig) :
    (n.map f).checkCommitted key d = (n.checkCommitted key d).map f := by
  unfold checkCommitted
  rw [apply_ite (map f),apply_ite (map f),apply_ite (map f),← executeRequest_map]
  rfl

theorem checkPrepared_map (n : PBFTNode Op Dig) (key : Key) (d : Dig) :
    (n.map f).checkPrepared key d = mapOut f (n.checkPrepared key d) := by
  have hcommitted := checkCommitted_map f (n.becomePrepared key d) key d
  unfold checkPrepared
  rw [apply_ite (mapOut f),apply_ite (mapOut f)]
  unfold mapOut
  dsimp only
  rw [← hcommitted]
  rfl

omit [DecidableEq Op] [DecidableEq Op'] [DecidableEq Dig] in
theorem handleRequest_map (digest : Op' → Option Dig) (n : PBFTNode Op Dig) (msg : RequestMessage Op) :
    (n.map f).handleRequest digest (msg.map f) = mapOut f (n.handleRequest (digest ∘ f) msg) := by
  unfold handleRequest
  rw [apply_ite (mapOut f)]
  refine if_congr Iff.rfl rfl ?_
  have hdigest : digest (msg.map f).operation = (digest ∘ f) msg.operation := rfl
  dsimp only
  rw [hdigest]
  cases (digest ∘ f) msg.operation with
  | none => rfl
  | some d =>
    exact Prod.ext (storePrePrepare_map f { n with seqNum := n.seqNum + 1 }
      ⟨n.nodeId,n.view,n.seqNum + 1,d,some msg.asdict⟩) rfl

theorem handlePrePrepare_map (n : PBFTNode Op Dig) (msg : PrePrepareMessage Op Dig) :
    (n.map f).handlePrePrepare (msg.map f) = mapOut f (n.handlePrePrepare msg) := by
  unfold handlePrePrepare
  rw [apply_ite (mapOut f),apply_ite (mapOut f)]
  refine if_congr Iff.rfl rfl (if_congr ?_ rfl ?_)
  · change (Option.map _ (n.prePrepares msg.key)).isSome = true ↔ _
    rw [Option.isSome_map]
  · have hcheck : (((n.map f).storePrePrepare (msg.map f)).addPrepare msg.key n.nodeId msg.digest).checkPrepared msg.key
        msg.digest = mapOut f (((n.storePrePrepare msg).addPrepare msg.key n.nodeId msg.digest).checkPrepared msg.key
          msg.digest) := by
      rw [storePrePrepare_map]
      exact checkPrepared_map f ((n.storePrePrepare msg).addPrepare msg.key n.nodeId msg.digest) msg.key msg.digest
    exact congrArg (fun out => (out.1,Outgoing.broadcast (.prepare ⟨n.nodeId,n.view,msg.sequenceNumber,msg.digest⟩) :: out.2))
      hcheck

theorem handlePrepare_map (n : PBFTNode Op Dig) (msg : VoteMessage Dig) :
    (n.map f).handlePrepare msg = mapOut f (n.handlePrepare msg) := by
  have hstored : ((n.map f).addPrepare msg.key msg.sender msg.digest).prePrepares msg.key =
      ((n.addPrepare msg.key msg.sender msg.digest).prePrepares msg.key).map (PrePrepareMessage.map f) := rfl
  have hcheck := checkPrepared_map f (n.addPrepare msg.key msg.sender msg.digest) msg.key
  unfold handlePrepare
  rw [apply_ite (mapOut f)]
  refine if_congr Iff.rfl rfl ?_
  dsimp only
  rw [hstored]
  cases (n.addPrepare msg.key msg.sender msg.digest).prePrepares msg.key with
  | none => rfl
  | some pp =>
    dsimp only [Option.map_some]
    rw [apply_ite (mapOut f),← hcheck]
    rfl

theorem handleCommit_map (n : PBFTNode Op Dig) (msg : VoteMessage Dig) :
    (n.map f).handleCommit msg = (n.handleCommit msg).map f := by
  have hstored : ((n.map f).addCommit msg.key msg.sender msg.digest).prePrepares msg.key =
      ((n.addCommit msg.key msg.sender msg.digest).prePrepares msg.key).map (PrePrepareMessage.map f) := rfl
  have hcheck := checkCommitted_map f (n.addCommit msg.key msg.sender msg.digest) msg.key
  unfold handleCommit
  rw [apply_ite (map f)]
  refine if_congr Iff.rfl rfl ?_
  dsimp only
  rw [hstored]
  cases (n.addCommit msg.key msg.sender msg.digest).prePrepares msg.key with
  | none => rfl
  | some pp =>
    dsimp only [Option.map_some]
    rw [apply_ite (map f),← hcheck]
    rfl

omit [DecidableEq Op] [DecidableEq Op'] [DecidableEq Dig] in
theorem handleViewChange_map (n : PBFTNode Op Dig) (msg : ViewChangeMessage) :
    (n.map f).handleViewChange msg = mapOut f (n.handleViewChange msg) := by
  unfold handleViewChange
  dsimp only
  rw [apply_ite (mapOut f),apply_ite (mapOut f)]
  rfl

theorem receive_map (digest : Op' → Option Dig) (n : PBFTNode Op Dig) (message : Message Op Dig) :
    (n.map f).receive digest (message.map f) = mapOut f (n.receive (digest ∘ f) message) := by
  cases message with
  | request msg => exact handleRequest_map f digest n msg
  | prePrepare msg => exact handlePrePrepare_map f n msg
  | prepare msg => exact handlePrepare_map f n msg
  | commit msg => exact congrArg (·,[]) (handleCommit_map f n msg)
  | viewChange msg => exact handleViewChange_map f n msg
  | newView msg => rfl

omit [DecidableEq Op] [DecidableEq Op'] [DecidableEq Dig] in
theorem propose_map (digest : Op' → Option Dig) (n : PBFTNode Op Dig) (operation : Op) (reqId : ℤ) :
    (n.map f).propose digest (f operation) reqId = mapOut f (n.propose (digest ∘ f) operation reqId) := by
  unfold propose
  dsimp only
  rw [apply_ite (mapOut f),← handleRequest_map]
  rfl

end PBFTNode

def Envelope.map (envelope : Envelope Op Dig) : Envelope Op' Dig where
  source := envelope.source
  destination := envelope.destination
  message := envelope.message.map f

def Action.map : Action Op Dig → Action Op' Dig
  | .propose i operation reqId => .propose i (f operation) reqId
  | .triggerViewChange i => .triggerViewChange i
  | .deliver k i => .deliver k i
  | .inject envelope => .inject (envelope.map f)

namespace System

def map (c : System Op Dig) : System Op' Dig where
  nodes := PBFTNode.map f ∘ c.nodes
  network := c.network.map (Envelope.map f)

omit [DecidableEq Op] [DecidableEq Op'] [DecidableEq Dig] in
theorem update_map (c : System Op Dig) (i : ℕ) (out : PBFTNode Op Dig × List (Outgoing Op Dig)) :
    (c.map f).update i (PBFTNode.mapOut f out) = (c.update i out).map f := by
  have henvelope : Outgoing.envelope i ∘ Outgoing.map f = (Envelope.map f ∘ Outgoing.envelope i : Outgoing Op Dig → Envelope Op' Dig) := by
    funext o
    cases o with
    | broadcast message => rfl
    | send message destination => rfl
  unfold update map PBFTNode.mapOut
  rw [Function.comp_update,List.map_append,List.map_map,List.map_map,henvelope]

omit [DecidableEq Op] [DecidableEq Op'] [DecidableEq Dig] in
theorem init_map (cfg : Config) : (System.init Op Dig cfg).map f = System.init Op' Dig cfg := rfl

/-- A step of the cluster with the new operations. -/
theorem step_map (cfg : Config) (digest : Op' → Option Dig) (c : System Op Dig) (a : Action Op Dig) :
    (c.map f).step cfg digest (a.map f) = (c.step cfg (digest ∘ f) a).map f := by
  cases a with
  | propose i operation reqId =>
    unfold step Action.map
    dsimp only
    rw [apply_ite (map f),← update_map,← PBFTNode.propose_map]
    rfl
  | triggerViewChange i =>
    unfold step Action.map
    dsimp only
    rw [apply_ite (map f),← update_map]
    rfl
  | deliver k i =>
    have hnetwork : (c.map f).network[k]? = c.network[k]?.map (Envelope.map f) := List.getElem?_map ..
    unfold step Action.map
    dsimp only
    rw [hnetwork]
    cases c.network[k]? with
    | none => rfl
    | some envelope =>
      dsimp only [Option.map_some]
      rw [apply_ite (map f),← update_map,← PBFTNode.receive_map]
      rfl
  | inject envelope =>
    have hsender : (envelope.message.map f).sender = envelope.message.sender := by
      cases envelope.message <;> rfl
    unfold step Action.map
    dsimp only
    rw [apply_ite (map f)]
    refine if_congr ?_ ?_ rfl
    · change _ ∧ (envelope.message.map f).sender = _ ↔ _
      rw [hsender]
      rfl
    · unfold map
      rw [List.map_append]
      rfl

end System

end DistributedSystems.Pbft
