import DistributedSystems.Protocol.Runs
import DistributedSystems.Raft.Node

/-! # A cluster of Raft nodes and its network

Calls and replies stay in the network for ever and are named by the position at
which they were added. A schedule may therefore deliver each of them late, out
of order, repeatedly or never. A worker runs its handler on the peer and
processes the reply in separate steps.
-/
namespace DistributedSystems.Raft

/-- A cluster: distinct node ids, each node knowing all others as peers. -/
structure Config (Id : Type) where
  members : List Id
  nodup : members.Nodup
  snapshotInterval : Id → ℕ

structure VoteCall (Id : Type) where
  peer : Id
  args : VoteArgs Id

structure VoteReply (Id : Type) where
  call : VoteCall Id
  replyTerm : ℕ
  voteGranted : Bool

structure AppendCall (Id Cmd : Type) where
  peer : Id
  args : AppendArgs Id Cmd

structure AppendReply (Id Cmd : Type) where
  call : AppendCall Id Cmd
  replyTerm : ℕ
  success : Bool

structure Cluster (Id : Type) {Cmd : Type} (M : StateMachine Cmd) where
  nodes : Id → RaftNode Id M
  voteCalls : List (VoteCall Id)
  voteReplies : List (VoteReply Id)
  appendCalls : List (AppendCall Id Cmd)
  appendReplies : List (AppendReply Id Cmd)

/-- What may happen next. A failed call is one whose RPC returns `(0, False)`. -/
inductive Action (Id Cmd : Type)
  | start (i : Id)
  | stop (i : Id)
  | electionTimeout (i : Id)
  | handleRequestVote (call : ℕ)
  | failRequestVote (call : ℕ)
  | requestVoteReply (reply : ℕ)
  | sendAppendEntries (i peer : Id)
  | handleAppendEntries (call : ℕ)
  | failAppendEntries (call : ℕ)
  | appendEntriesReply (reply : ℕ)
  | submitCommand (i : Id) (command : Cmd)

variable {Id Cmd : Type} [DecidableEq Id] {M : StateMachine Cmd}

def Config.peers (cfg : Config Id) (i : Id) : List Id := cfg.members.filter (· ≠ i)

theorem Config.card_members (cfg : Config Id) :
    cfg.members.toFinset.card = cfg.members.length := List.toFinset_card_of_nodup cfg.nodup

theorem Config.mem_peers {cfg : Config Id} {i j : Id} : j ∈ cfg.peers i ↔ j ∈ cfg.members ∧ j ≠ i := by
  simp [Config.peers]

theorem Config.peers_nodup (cfg : Config Id) (i : Id) : (cfg.peers i).Nodup := cfg.nodup.filter _

/-- A member and its peers are all members. -/
theorem Config.length_insert_peers {cfg : Config Id} {i : Id} (hi : i ∈ cfg.members) :
    ((cfg.peers i).insert i).length = cfg.members.length := by
  have hni : i ∉ cfg.peers i := by simp [Config.mem_peers]
  have he : ((cfg.peers i).insert i).Perm cfg.members := by
    rw [List.perm_ext_iff_of_nodup ((cfg.peers_nodup i).insert) cfg.nodup]
    intro x
    rw [List.mem_insert_iff,Config.mem_peers]
    by_cases hx : x = i
    · simp [hx,hi]
    · simp [hx]
  exact he.length_eq

namespace Cluster

/-- Nodes started on empty storage. -/
def init (M : StateMachine Cmd) (cfg : Config Id) : Cluster Id M where
  nodes i := RaftNode.init i (cfg.peers i) (cfg.snapshotInterval i) Storage.empty
  voteCalls := []
  voteReplies := []
  appendCalls := []
  appendReplies := []

def setNode (c : Cluster Id M) (i : Id) (n : RaftNode Id M) : Cluster Id M :=
  { c with nodes := Function.update c.nodes i n }

def addVoteCalls (c : Cluster Id M) (calls : List (VoteCall Id)) : Cluster Id M :=
  { c with voteCalls := c.voteCalls ++ calls }

def addVoteReply (c : Cluster Id M) (r : VoteReply Id) : Cluster Id M :=
  { c with voteReplies := c.voteReplies ++ [r] }

def addAppendCall (c : Cluster Id M) (call : AppendCall Id Cmd) : Cluster Id M :=
  { c with appendCalls := c.appendCalls ++ [call] }

def addAppendReply (c : Cluster Id M) (r : AppendReply Id Cmd) : Cluster Id M :=
  { c with appendReplies := c.appendReplies ++ [r] }

/-- One step of the cluster. Only members are ever started. -/
def step (cfg : Config Id) (c : Cluster Id M) : Action Id Cmd → Cluster Id M
  | .start i => if i ∈ cfg.members then c.setNode i (c.nodes i).start else c
  | .stop i => c.setNode i (c.nodes i).stop
  | .electionTimeout i =>
    let out := (c.nodes i).electionTimeoutHandler
    match out.2 with
    | none => c
    | some args => (c.setNode i out.1).addVoteCalls ((c.nodes i).peers.map fun peer => ⟨peer,args⟩)
  | .handleRequestVote k =>
    match c.voteCalls[k]? with
    | none => c
    | some call =>
      let out := (c.nodes call.peer).handleRequestVote call.args
      (c.setNode call.peer out.1).addVoteReply ⟨call,out.2.1,out.2.2⟩
  | .failRequestVote k =>
    match c.voteCalls[k]? with
    | none => c
    | some call => c.addVoteReply ⟨call,0,false⟩
  | .requestVoteReply k =>
    match c.voteReplies[k]? with
    | none => c
    | some r =>
      let i := r.call.args.candidateId
      c.setNode i ((c.nodes i).requestVoteReply r.call.peer r.call.args.term r.replyTerm r.voteGranted)
  | .sendAppendEntries i peer =>
    if peer ∈ (c.nodes i).peers then
      match (c.nodes i).appendEntriesArgs peer with
      | none => c
      | some args => c.addAppendCall ⟨peer,args⟩
    else c
  | .handleAppendEntries k =>
    match c.appendCalls[k]? with
    | none => c
    | some call =>
      let out := (c.nodes call.peer).handleAppendEntries call.args
      match out.2 with
      | none => c.setNode call.peer out.1
      | some reply => (c.setNode call.peer out.1).addAppendReply ⟨call,reply.1,reply.2⟩
  | .failAppendEntries k =>
    match c.appendCalls[k]? with
    | none => c
    | some call => c.addAppendReply ⟨call,0,false⟩
  | .appendEntriesReply k =>
    match c.appendReplies[k]? with
    | none => c
    | some r =>
      let i := r.call.args.leaderId
      c.setNode i ((c.nodes i).appendEntriesReply r.call.peer r.call.args r.replyTerm r.success)
  | .submitCommand i command => c.setNode i ((c.nodes i).submitCommand command).1

@[simp] theorem setNode_self (c : Cluster Id M) (i : Id) (n : RaftNode Id M) :
    (c.setNode i n).nodes i = n := by simp [setNode]
theorem setNode_ne (c : Cluster Id M) {i j : Id} (n : RaftNode Id M) (h : j ≠ i) :
    (c.setNode i n).nodes j = c.nodes j := by simp [setNode,h]

end Cluster

end DistributedSystems.Raft
