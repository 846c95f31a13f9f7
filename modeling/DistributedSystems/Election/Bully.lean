import Mathlib.Data.List.Dedup
import Mathlib.Order.Lattice

/-! # Bully election

Every handler and every timer runs under the lock of its node and is one step, which reads
the clock at most once. A timer is never cancelled. The rounds of the monitor and of the
heartbeat thread may come at any time, since their loops test `running` without the lock.
-/
namespace DistributedSystems.Election

inductive BullyMessageType
  | election
  | ok
  | coordinator
  | heartbeat
  deriving DecidableEq

structure BullyMessage (ν : Type) where
  type : BullyMessageType
  senderId : ν
  term : ℕ
  deriving DecidableEq

structure BullyPacket (ν : Type) where
  destination : ν
  message : BullyMessage ν
  deriving DecidableEq

/-- A pending `threading.Timer`. History: the election that it was set in, how many timers its
node had set then, itself included, and how many OK messages it had handled. -/
structure ElectionTimer where
  election : ℕ
  order : ℕ
  oksHandled : ℕ
  deriving DecidableEq

/-- The fields of a node and its pending timers. The last four are histories: how many elections
it has started, the senders of the OK messages handled since the last of them started, and
how many timers it has set and OK messages handled at all. -/
structure BullyElection (ν T : Type) where
  nodeId : ν
  peers : List ν
  electionTimeout : T
  isLeaderFlag : Bool
  currentLeader : Option ν
  inElection : Bool
  term : ℕ
  running : Bool
  heartbeatThread : Bool
  lastLeaderHeartbeat : T
  timers : List ElectionTimer
  elections : ℕ
  oks : List ν
  timersSet : ℕ
  oksHandled : ℕ

/-- The node, what it sent, and the leaders that the registered callbacks were called with. -/
structure BullyReaction (ν T : Type) where
  node : BullyElection ν T
  sent : List (BullyPacket ν)
  notified : List (Option ν)

variable {ν T : Type} [LinearOrder ν] [Sub T] [LinearOrder T]

namespace BullyElection

def init (nodeId : ν) (peers : List ν) (electionTimeout now : T) : BullyElection ν T where
  nodeId := nodeId
  peers := peers.dedup
  electionTimeout := electionTimeout
  isLeaderFlag := false
  currentLeader := none
  inElection := false
  term := 0
  running := false
  heartbeatThread := false
  lastLeaderHeartbeat := now
  timers := []
  elections := 0
  oks := []
  timersSet := 0
  oksHandled := 0

def toPeers (n : BullyElection ν T) (message : BullyMessage ν) : List (BullyPacket ν) :=
  n.peers.map fun peer => ⟨peer,message⟩

def higherNodes (n : BullyElection ν T) : List ν := n.peers.filter (n.nodeId < ·)

/-- `_become_leader` with `_broadcast_coordinator` and `_start_heartbeat`. -/
def becomeLeader (n : BullyElection ν T) : BullyReaction ν T :=
  let oldLeader := n.currentLeader
  let n := { n with
    inElection := false
    isLeaderFlag := true
    currentLeader := some n.nodeId
    heartbeatThread := true }
  ⟨n,n.toPeers ⟨.coordinator,n.nodeId,n.term⟩,if oldLeader ≠ some n.nodeId then [n.currentLeader] else []⟩

def setTimer (n : BullyElection ν T) : BullyElection ν T :=
  { n with
    timers := n.timers ++ [⟨n.elections,n.timersSet + 1,n.oksHandled⟩]
    timersSet := n.timersSet + 1 }

def startElection (n : BullyElection ν T) : BullyReaction ν T :=
  if n.inElection then ⟨n,[],[]⟩
  else
    let n := { n with
      inElection := true
      term := n.term + 1
      elections := n.elections + 1
      oks := [] }
    if n.higherNodes = [] then n.becomeLeader
    else ⟨n.setTimer,n.higherNodes.map fun node => ⟨node,⟨.election,n.nodeId,n.term⟩⟩,[]⟩

def electionTimeoutCheck (n : BullyElection ν T) : BullyReaction ν T :=
  if n.inElection ∧ ¬n.isLeaderFlag then n.becomeLeader else ⟨n,[],[]⟩

def start (n : BullyElection ν T) : BullyReaction ν T :=
  if n.running then ⟨n,[],[]⟩ else ({ n with running := true } : BullyElection ν T).startElection

def stepDown (n : BullyElection ν T) : BullyElection ν T :=
  if ¬n.isLeaderFlag then n else { n with isLeaderFlag := false }

def stop (n : BullyElection ν T) : BullyElection ν T :=
  let n := { n with running := false }
  if n.isLeaderFlag then n.stepDown else n

/-- One round of `_monitor_leader`. -/
def monitorLeader (n : BullyElection ν T) (now : T) : BullyReaction ν T :=
  if ¬n.isLeaderFlag ∧ n.electionTimeout < now - n.lastLeaderHeartbeat then n.startElection else ⟨n,[],[]⟩

def sendHeartbeat (n : BullyElection ν T) : List (BullyPacket ν) := n.toPeers ⟨.heartbeat,n.nodeId,n.term⟩

def handleElectionMsg (n : BullyElection ν T) (msg : BullyMessage ν) : BullyReaction ν T :=
  if msg.senderId < n.nodeId then
    let response : BullyPacket ν := ⟨msg.senderId,⟨.ok,n.nodeId,n.term⟩⟩
    if ¬n.inElection ∧ ¬n.isLeaderFlag then
      { n.startElection with sent := response :: n.startElection.sent }
    else ⟨n,[response],[]⟩
  else ⟨n,[],[]⟩

/-- The handler does nothing. -/
def handleOkMsg (n : BullyElection ν T) (msg : BullyMessage ν) : BullyReaction ν T :=
  ⟨{ n with oks := n.oks ++ [msg.senderId], oksHandled := n.oksHandled + 1 },[],[]⟩

def handleCoordinatorMsg (n : BullyElection ν T) (now : T) (msg : BullyMessage ν) : BullyReaction ν T :=
  if msg.senderId < n.nodeId then n.startElection
  else
    let oldLeader := n.currentLeader
    let n := { n with
      currentLeader := some msg.senderId
      inElection := false
      term := msg.term
      lastLeaderHeartbeat := now }
    let n := if n.isLeaderFlag then n.stepDown else n
    ⟨n,[],if oldLeader ≠ some msg.senderId then [n.currentLeader] else []⟩

def handleHeartbeatMsg (n : BullyElection ν T) (now : T) (msg : BullyMessage ν) : BullyReaction ν T :=
  if some msg.senderId = n.currentLeader then
    let n := { n with lastLeaderHeartbeat := now }
    ⟨if n.term < msg.term then { n with term := msg.term } else n,[],[]⟩
  else if n.term < msg.term then n.handleCoordinatorMsg now msg
  else ⟨n,[],[]⟩

def handleMessage (n : BullyElection ν T) (now : T) (msg : BullyMessage ν) : BullyReaction ν T :=
  match msg.type with
  | .election => n.handleElectionMsg msg
  | .ok => n.handleOkMsg msg
  | .coordinator => n.handleCoordinatorMsg now msg
  | .heartbeat => n.handleHeartbeatMsg now msg

/-- The timer at position `k` fires. -/
def fire (n : BullyElection ν T) (k : ℕ) : BullyReaction ν T :=
  ({ n with timers := n.timers.eraseIdx k } : BullyElection ν T).electionTimeoutCheck

/-- The heartbeat thread ends when it finds its node stopped or not leading. -/
def endHeartbeat (n : BullyElection ν T) : BullyElection ν T :=
  if n.running ∧ n.isLeaderFlag then n else { n with heartbeatThread := false }

end BullyElection

/-- Every id has a node, which knows the peers that it is given. -/
structure BullyConfig (ν T : Type) where
  peers : ν → List ν
  electionTimeout : T

structure BullyCluster (ν T : Type) where
  nodes : ν → BullyElection ν T
  network : List (BullyPacket ν)
  time : T

/-- Messages stay in the network and are delivered late, repeatedly or never. A timer fires at
any time after it was set. -/
inductive BullyAction (ν T : Type)
  | start (i : ν)
  | stop (i : ν)
  | triggerElection (i : ν)
  | monitorLeader (i : ν)
  | electionTimeout (i : ν) (k : ℕ)
  | sendHeartbeat (i : ν)
  | endHeartbeat (i : ν)
  | deliver (k : ℕ)
  | elapse (time : T)

namespace BullyCluster

def init (cfg : BullyConfig ν T) (time : T) : BullyCluster ν T :=
  ⟨fun i => .init i (cfg.peers i) cfg.electionTimeout time,[],time⟩

def react (c : BullyCluster ν T) (i : ν) (r : BullyReaction ν T) : BullyCluster ν T :=
  { c with nodes := Function.update c.nodes i r.node, network := c.network ++ r.sent }

def step (c : BullyCluster ν T) : BullyAction ν T → BullyCluster ν T
  | .start i => c.react i (c.nodes i).start
  | .stop i => c.react i ⟨(c.nodes i).stop,[],[]⟩
  | .triggerElection i => c.react i (c.nodes i).startElection
  | .monitorLeader i => c.react i ((c.nodes i).monitorLeader c.time)
  | .electionTimeout i k =>
    match (c.nodes i).timers[k]? with
    | some _ => c.react i ((c.nodes i).fire k)
    | none => c
  | .sendHeartbeat i =>
    if (c.nodes i).heartbeatThread then c.react i ⟨c.nodes i,(c.nodes i).sendHeartbeat,[]⟩ else c
  | .endHeartbeat i => c.react i ⟨(c.nodes i).endHeartbeat,[],[]⟩
  | .deliver k =>
    match c.network[k]? with
    | some p => c.react p.destination ((c.nodes p.destination).handleMessage c.time p.message)
    | none => c
  | .elapse time => if c.time ≤ time then { c with time := time } else c

end BullyCluster

end DistributedSystems.Election
