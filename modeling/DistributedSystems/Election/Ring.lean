import Mathlib.Data.List.Dedup
import Mathlib.Data.List.Sort

/-! # Ring election

The nodes of one membership form a ring in the order of their ids. Every handler runs under
the lock of its node and is one step. `start` calls `_start_election` before it gives the
lock back; here that is a step of its own, since the other nodes go on in between.
-/
namespace DistributedSystems.Election

inductive RingMessageType
  | election
  | elected
  deriving DecidableEq

structure RingMessage (ν : Type) where
  type : RingMessageType
  candidates : List ν
  senderId : ν
  deriving DecidableEq

structure RingPacket (ν : Type) where
  destination : ν
  message : RingMessage ν
  deriving DecidableEq

structure RingElection (ν : Type) where
  nodeId : ν
  allNodes : List ν
  nextNode : ν
  isLeaderFlag : Bool
  currentLeader : Option ν
  inElection : Bool
  running : Bool

/-- The node, what it sent, and the leaders that the registered callbacks were called with. -/
structure RingReaction (ν : Type) where
  node : RingElection ν
  sent : List (RingPacket ν)
  notified : List (Option ν)

variable {ν : Type} [LinearOrder ν]

namespace RingElection

/-- The ids in ascending order, each once. -/
def sortIds (ids : List ν) : List ν := ids.dedup.insertionSort (· ≤ ·)

/-- `__init__` -/
def init (nodeId : ν) (peers : List ν) : RingElection ν :=
  let allNodes := sortIds (nodeId :: peers)
  { nodeId := nodeId
    allNodes := allNodes
    nextNode := allNodes.getD ((allNodes.idxOf nodeId + 1) % allNodes.length) nodeId
    isLeaderFlag := false
    currentLeader := none
    inElection := false
    running := false }

def becomeLeader (n : RingElection ν) : RingReaction ν :=
  if n.isLeaderFlag then ⟨n,[],[]⟩ else ⟨{ n with isLeaderFlag := true },[],[n.currentLeader]⟩

def becomeFollower (n : RingElection ν) : RingReaction ν :=
  if n.isLeaderFlag then ⟨{ n with isLeaderFlag := false },[],[n.currentLeader]⟩ else ⟨n,[],[]⟩

def electionComplete (n : RingElection ν) (winner : ν) : RingReaction ν :=
  let n := { n with inElection := false, currentLeader := some winner }
  if winner = n.nodeId then n.becomeLeader else n.becomeFollower

/-- A node that is its own successor is the only one. -/
def sendElectionMessage (n : RingElection ν) (candidates : List ν) : RingReaction ν :=
  if n.nextNode = n.nodeId then n.electionComplete n.nodeId
  else ⟨n,[⟨n.nextNode,⟨.election,candidates,n.nodeId⟩⟩],[]⟩

def sendElectedMessage (n : RingElection ν) (winner : ν) : List (RingPacket ν) :=
  if n.nextNode = n.nodeId then [] else [⟨n.nextNode,⟨.elected,[winner],n.nodeId⟩⟩]

def startElection (n : RingElection ν) : RingReaction ν :=
  if n.inElection then ⟨n,[],[]⟩ else ({ n with inElection := true } : RingElection ν).sendElectionMessage [n.nodeId]

def start (n : RingElection ν) : RingElection ν := if n.running then n else { n with running := true }

def stop (n : RingElection ν) : RingElection ν :=
  let n := { n with running := false }
  if n.isLeaderFlag then { n with isLeaderFlag := false } else n

def handleElectionMessage (n : RingElection ν) (message : RingMessage ν) : RingReaction ν :=
  if ¬n.running then ⟨n,[],[]⟩
  else if n.nodeId ∈ message.candidates then
    match message.candidates.max? with
    | some winner =>
      let r := n.electionComplete winner
      { r with sent := r.node.sendElectedMessage winner }
    | none => ⟨n,[],[]⟩
  else ({ n with inElection := true } : RingElection ν).sendElectionMessage (message.candidates ++ [n.nodeId])

/-- The handler does not ask whether the node is running. Without a candidate it raises before
it changes anything; otherwise it forwards the message as it came. -/
def handleElectedMessage (n : RingElection ν) (message : RingMessage ν) : RingReaction ν :=
  match message.candidates with
  | [] => ⟨n,[],[]⟩
  | winner :: _ =>
    if message.senderId = n.nodeId then ⟨n,[],[]⟩
    else { n.electionComplete winner with sent := [⟨n.nextNode,message⟩] }

def handleMessage (n : RingElection ν) (message : RingMessage ν) : RingReaction ν :=
  match message.type with
  | .election => n.handleElectionMessage message
  | .elected => n.handleElectedMessage message

/-- After `_election_complete` the flag says whether the node is the winner. -/
theorem electionComplete_eq (n : RingElection ν) (winner : ν) : ∃ notified, n.electionComplete winner =
    ⟨{ n with inElection := false, currentLeader := some winner, isLeaderFlag := decide (winner = n.nodeId) },[],
      notified⟩ := by
  unfold electionComplete becomeLeader becomeFollower
  dsimp only
  by_cases hw : winner = n.nodeId <;> cases n.isLeaderFlag <;> simp [hw]

end RingElection

/-- Nodes that are all built with one membership. -/
structure RingConfig (ν : Type) where
  members : List ν
  nonempty : members ≠ []

/-- The nodes and the messages in flight; the number of elections that have been initiated is
history. -/
structure RingCluster (ν : Type) where
  nodes : ν → RingElection ν
  network : List (RingPacket ν)
  elections : ℕ

/-- A node may initiate an election at any time, as `start`, `trigger_election` and
`_monitor_leader` do. -/
inductive RingAction (ν : Type)
  | start (i : ν)
  | startElection (i : ν)
  | stop (i : ν)
  | deliver (k : ℕ)
  | duplicate (k : ℕ)
  | drop (k : ℕ)

namespace RingCluster

def init (cfg : RingConfig ν) : RingCluster ν := ⟨fun i => .init i (cfg.members.filter (· ≠ i)),[],0⟩

def setNode (c : RingCluster ν) (i : ν) (n : RingElection ν) : RingCluster ν :=
  { c with nodes := Function.update c.nodes i n }

def react (c : RingCluster ν) (i : ν) (r : RingReaction ν) : RingCluster ν :=
  { c.setNode i r.node with network := c.network ++ r.sent }

def step (cfg : RingConfig ν) (c : RingCluster ν) : RingAction ν → RingCluster ν
  | .start i => if i ∈ cfg.members then c.setNode i (c.nodes i).start else c
  | .startElection i =>
    if i ∈ cfg.members then
      { c.react i (c.nodes i).startElection with
        elections := if (c.nodes i).inElection then c.elections else c.elections + 1 }
    else c
  | .stop i => if i ∈ cfg.members then c.setNode i (c.nodes i).stop else c
  | .deliver k =>
    match c.network[k]? with
    | some p => ({ c with network := c.network.eraseIdx k } : RingCluster ν).react p.destination
        ((c.nodes p.destination).handleMessage p.message)
    | none => c
  | .duplicate k => { c with network := c.network ++ c.network[k]?.toList }
  | .drop k => { c with network := c.network.eraseIdx k }

end RingCluster

end DistributedSystems.Election
