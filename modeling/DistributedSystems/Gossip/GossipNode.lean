import DistributedSystems.Gossip.FailureDetector
import DistributedSystems.Gossip.Membership
import DistributedSystems.Gossip.StateStore
import Mathlib.Data.String.Basic

/-! # Gossip nodes

A node pushes all its entries and its membership to random peers, asks them for what it lacks,
and answers. Each call, and the handling of each message, is one step. Messages travel between
addresses as JSON and may be late, lost or repeated; seeds are given by their address, parsed
already. The calls of subscribers are left to `Notifications`.
-/
namespace DistributedSystems.Gossip

inductive GossipMode
  | push
  | pull
  | pushPull
  deriving DecidableEq

abbrev Address := String × ℤ

variable {V T C : Type}

/-- The type of a message with its payload. -/
inductive Payload (V T : Type)
  | push (entries : List (StateEntry String String V T)) (membership : List MemberData)
  | pullRequest (digest : Dict String ℕ)
  | pullResponse (entries : List (StateEntry String String V T)) (membership : List MemberData)
  | ping
  | ack
  | pingReq (targetId : String)

structure GossipMessage (V T : Type) where
  senderId : String
  payload : Payload V T

structure Packet (V T : Type) where
  source : Address
  target : Address
  message : GossipMessage V T

structure GossipNode (V T C : Type) where
  nodeId : String
  address : Address
  seedNodes : List Address
  mode : GossipMode
  gossipFanout : ℕ
  membership : Membership
  failureDetector : PhiAccrualFailureDetector T
  stateStore : StateStore String String V T
  subscribers : Dict String (List C)
  gossipRounds : ℕ
  messagesSent : ℕ
  messagesReceived : ℕ

/-- What a call makes of a node and what it sends. -/
structure Effect (V T C : Type) where
  node : GossipNode V T C
  packets : List (Packet V T)

/-- An entry that was written as JSON and read again: `json v` is what `json.loads` makes of
`json.dumps v`, a list of a tuple. -/
def StateEntry.reread (json : V → V) (e : StateEntry String String V T) : StateEntry String String V T :=
  { e with value := e.value.map json }

/-- A message that was sent by `to_bytes` and read by `from_bytes`; besides the values of entries
it carries texts and numbers. -/
def GossipMessage.reread (json : V → V) (msg : GossipMessage V T) : GossipMessage V T :=
  { msg with payload := match msg.payload with
    | .push entries membership => .push (entries.map (StateEntry.reread json)) membership
    | .pullResponse entries membership => .pullResponse (entries.map (StateEntry.reread json)) membership
    | payload => payload }

namespace Membership

/-- Members that are alive, without the node itself. -/
def getAliveMembers (s : Membership) : List Member :=
  (s.members.entries.map Prod.snd).filter fun m => m.status = .alive ∧ m.nodeId ≠ s.localNodeId

/-- What `get_gossip_peers` may return: a sample of the members alive. -/
def Sampled (s : Membership) (count : ℕ) (peers : List Member) : Prop :=
  peers.Nodup ∧ (∀ m ∈ peers, m ∈ s.getAliveMembers) ∧ peers.length = min s.getAliveMembers.length count

instance (s : Membership) (count : ℕ) (peers : List Member) : Decidable (s.Sampled count peers) :=
  inferInstanceAs (Decidable (_ ∧ _ ∧ _))

end Membership

namespace GossipNode

/-- The constructor, with the settings that the node reads from its configuration. -/
def init (nodeId : String) (address : Address) (seedNodes : List Address) (mode : GossipMode) (gossipFanout : ℕ)
    (failureDetector : PhiAccrualFailureDetector T) : GossipNode V T C where
  nodeId := nodeId
  address := address
  seedNodes := seedNodes
  mode := mode
  gossipFanout := gossipFanout
  membership := Membership.init nodeId address
  failureDetector := failureDetector
  stateStore := StateStore.init String V T nodeId
  subscribers := Dict.empty
  gossipRounds := 0
  messagesSent := 0
  messagesReceived := 0

/-- A seed joins the membership under a name made of its address. -/
def seedId (seed : Address) : String := "seed_" ++ seed.1 ++ "_" ++ toString seed.2

/-- The part of `start` that adds the seeds other than the node itself. -/
def start (n : GossipNode V T C) : GossipNode V T C :=
  { n with
    membership := n.seedNodes.foldl
      (fun s seed => if seed = n.address then s else (s.updateMember (seedId seed) seed .alive 0).1) n.membership }

/-- `_send`, to each of the addresses. -/
def send (n : GossipNode V T C) (messages : List (Address × Payload V T)) : Effect V T C where
  node := { n with messagesSent := n.messagesSent + messages.length }
  packets := messages.map fun m => ⟨n.address,m.1,⟨n.nodeId,m.2⟩⟩

/-- `_send_push`. -/
def pushTo (n : GossipNode V T C) (peer : Member) : Address × Payload V T :=
  (peer.address,.push n.stateStore.getAllEntries n.membership.getAllMembersData)

/-- `_send_pull_request`. -/
def pullRequestTo (n : GossipNode V T C) (peer : Member) : Address × Payload V T :=
  (peer.address,.pullRequest n.stateStore.getDigest)

/-- `_perform_gossip_round` with the peers that were chosen. -/
def performGossipRound (n : GossipNode V T C) (peers : List Member) : Effect V T C :=
  send { n with gossipRounds := n.gossipRounds + 1 } <| peers.flatMap fun peer =>
    (if n.mode = .push ∨ n.mode = .pushPull then [n.pushTo peer] else []) ++
    (if n.mode = .pull ∨ n.mode = .pushPull then [n.pullRequestTo peer] else [])

/-- `_send_ping` of the failure detection loop. -/
def sendPing (n : GossipNode V T C) (target : Member) : Effect V T C := n.send [(target.address,.ping)]

/-- `_handle_push` and `_handle_pull_response`. A membership record that raises ends the handler,
and the node goes on with what was merged. -/
def handleEntries (n : GossipNode V T C) (entries : List (StateEntry String String V T))
    (remoteMembers : List MemberData) : Effect V T C :=
  send { n with
    stateStore := n.stateStore.mergeEntries entries
    membership := (n.membership.mergeMembershipList remoteMembers).1 } []

def handlePullRequest (n : GossipNode V T C) (digest : Dict String ℕ) (source : Address) : Effect V T C :=
  n.send [(source,.pullResponse (n.stateStore.getDelta digest) n.membership.getAllMembersData)]

/-- `_handle_ping_req` looks the target up and does nothing with it. -/
def handlePingReq (n : GossipNode V T C) : Effect V T C := n.send []

/-- Every message shows that its sender is alive. -/
def hear [Sub T] (n : GossipNode V T C) (now : T) (senderId : String) (source : Address) : GossipNode V T C :=
  { n with
    messagesReceived := n.messagesReceived + 1
    failureDetector := n.failureDetector.reportHeartbeat now senderId
    membership := (n.membership.updateMember senderId source .alive 0).1 }

def handleMessage [Sub T] (n : GossipNode V T C) (now : T) (msg : GossipMessage V T) (source : Address) :
    Effect V T C :=
  let n := n.hear now msg.senderId source
  match msg.payload with
  | .push entries remoteMembers => n.handleEntries entries remoteMembers
  | .pullRequest digest => n.handlePullRequest digest source
  | .pullResponse entries remoteMembers => n.handleEntries entries remoteMembers
  | .ping => n.send [(source,.ack)]
  | .ack => n.send []
  | .pingReq _ => n.handlePingReq

/-- The part of `set` in the store. -/
def set (n : GossipNode V T C) (now : T) (key : String) (value : Option V) : GossipNode V T C :=
  { n with stateStore := (n.stateStore.set now key value).1 }

def get (n : GossipNode V T C) (key : String) : Option V := n.stateStore.get key

/-- The part of `delete` in the store. -/
def delete (n : GossipNode V T C) (now : T) (key : String) : GossipNode V T C :=
  { n with stateStore := (n.stateStore.delete now key).1 }

def subscribe (n : GossipNode V T C) (pattern : String) (callback : C) : GossipNode V T C :=
  { n with subscribers := n.subscribers.insert pattern ((n.subscribers.get? pattern).getD [] ++ [callback]) }

def getMembers (n : GossipNode V T C) : List String := n.membership.getAliveMembers.map Member.nodeId

end GossipNode

/-- The nodes of a cluster with their settings, and what JSON makes of a value. -/
structure GossipConfig (V T : Type) where
  json : V → V
  members : Finset String
  address : String → Address
  seedNodes : String → List Address
  mode : String → GossipMode
  gossipFanout : String → ℕ
  failureDetector : String → PhiAccrualFailureDetector T

/-- The nodes and all packets so far. -/
structure GossipNodes (V T C : Type) where
  nodes : String → GossipNode V T C
  network : List (Packet V T)

/-- `deliver i k now`: packet `k` arrives at node `i`. -/
inductive NodeAction (V T C : Type)
  | start (i : String)
  | set (i : String) (now : T) (key : String) (value : Option V)
  | delete (i : String) (now : T) (key : String)
  | subscribe (i : String) (pattern : String) (callback : C)
  | gossipRound (i : String) (peers : List Member)
  | swim (i : String) (target : Member)
  | deliver (i : String) (k : ℕ) (now : T)

namespace GossipNodes

def init (cfg : GossipConfig V T) : GossipNodes V T C where
  nodes i := GossipNode.init i (cfg.address i) (cfg.seedNodes i) (cfg.mode i) (cfg.gossipFanout i) (cfg.failureDetector i)
  network := []

/-- The cluster after a call on a node. -/
def put (g : GossipNodes V T C) (i : String) (e : Effect V T C) : GossipNodes V T C where
  nodes := Function.update g.nodes i e.node
  network := g.network ++ e.packets

/-- The node that an action is a call on. -/
def actor : NodeAction V T C → String
  | .start i => i
  | .set i _ _ _ => i
  | .delete i _ _ => i
  | .subscribe i _ _ => i
  | .gossipRound i _ => i
  | .swim i _ => i
  | .deliver i _ _ => i

/-- The call that an action is, if it can happen. -/
def effect [Sub T] (cfg : GossipConfig V T) (g : GossipNodes V T C) : NodeAction V T C → Option (Effect V T C)
  | .start i => some ⟨(g.nodes i).start,[]⟩
  | .set i now key value => some ⟨(g.nodes i).set now key value,[]⟩
  | .delete i now key => some ⟨(g.nodes i).delete now key,[]⟩
  | .subscribe i pattern callback => some ⟨(g.nodes i).subscribe pattern callback,[]⟩
  | .gossipRound i peers =>
    if (g.nodes i).membership.Sampled (g.nodes i).gossipFanout peers then some ((g.nodes i).performGossipRound peers)
    else none
  | .swim i target =>
    if target ∈ (g.nodes i).membership.getAliveMembers then some ((g.nodes i).sendPing target) else none
  | .deliver i k now =>
    match g.network[k]? with
    | none => none
    | some p =>
      if p.target = (g.nodes i).address then
        some ((g.nodes i).handleMessage now (p.message.reread cfg.json) p.source)
      else none

def step [Sub T] (cfg : GossipConfig V T) (g : GossipNodes V T C) (a : NodeAction V T C) : GossipNodes V T C :=
  if actor a ∈ cfg.members then
    match g.effect cfg a with
    | none => g
    | some e => g.put (actor a) e
  else g

end GossipNodes

end DistributedSystems.Gossip
