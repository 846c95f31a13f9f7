import DistributedSystems.Raft.Cluster

/-! # The methods of a node

Every action of the cluster runs at most one method, on one node. A property of
single nodes that every method keeps therefore holds in every run.
-/
namespace DistributedSystems.Raft

/-- The steps of a node, each with what the other side supplies. -/
inductive Method (Id Cmd : Type)
  | start
  | stop
  | electionTimeout
  | handleRequestVote (args : VoteArgs Id)
  | requestVoteReply (peer : Id) (term replyTerm : ℕ) (voteGranted : Bool)
  | handleAppendEntries (args : AppendArgs Id Cmd)
  | appendEntriesReply (peer : Id) (args : AppendArgs Id Cmd) (replyTerm : ℕ) (success : Bool)
  | submitCommand (command : Cmd)

variable {Id Cmd : Type} [DecidableEq Id] {M : StateMachine Cmd}

def RaftNode.call (n : RaftNode Id M) : Method Id Cmd → RaftNode Id M
  | .start => n.start
  | .stop => n.stop
  | .electionTimeout => n.electionTimeoutHandler.1
  | .handleRequestVote args => (n.handleRequestVote args).1
  | .requestVoteReply peer term replyTerm granted => n.requestVoteReply peer term replyTerm granted
  | .handleAppendEntries args => (n.handleAppendEntries args).1
  | .appendEntriesReply peer args replyTerm success => n.appendEntriesReply peer args replyTerm success
  | .submitCommand command => (n.submitCommand command).1

namespace Cluster

/-- The method an action runs, and the node it runs on. -/
def method (cfg : Config Id) (c : Cluster Id M) : Action Id Cmd → Option (Id × Method Id Cmd)
  | .start i => if i ∈ cfg.members then some (i,.start) else none
  | .stop i => some (i,.stop)
  | .electionTimeout i => some (i,.electionTimeout)
  | .handleRequestVote k => c.voteCalls[k]?.map fun call => (call.peer,.handleRequestVote call.args)
  | .failRequestVote _ => none
  | .requestVoteReply k => c.voteReplies[k]?.map fun r =>
      (r.call.args.candidateId,.requestVoteReply r.call.peer r.call.args.term r.replyTerm r.voteGranted)
  | .sendAppendEntries _ _ => none
  | .handleAppendEntries k => c.appendCalls[k]?.map fun call => (call.peer,.handleAppendEntries call.args)
  | .failAppendEntries _ => none
  | .appendEntriesReply k => c.appendReplies[k]?.map fun r =>
      (r.call.args.leaderId,.appendEntriesReply r.call.peer r.call.args r.replyTerm r.success)
  | .submitCommand i command => some (i,.submitCommand command)

theorem step_nodes (cfg : Config Id) (c : Cluster Id M) (a : Action Id Cmd) :
    (c.step cfg a).nodes = match c.method cfg a with
      | none => c.nodes
      | some (i,m) => Function.update c.nodes i ((c.nodes i).call m) := by
  cases a with
  | start i =>
    unfold Cluster.step method
    dsimp only
    split <;> rfl
  | stop i => rfl
  | electionTimeout i =>
    unfold Cluster.step method
    dsimp only
    rcases (c.nodes i).electionTimeoutHandler_cases with he | ⟨_,_,he⟩
    · rw [he,RaftNode.call,he,Function.update_eq_self]
    · rw [he,RaftNode.call,he]
      rfl
  | handleRequestVote k =>
    unfold Cluster.step method
    dsimp only
    cases c.voteCalls[k]? <;> rfl
  | failRequestVote k =>
    unfold Cluster.step method
    dsimp only
    cases c.voteCalls[k]? <;> rfl
  | requestVoteReply k =>
    unfold Cluster.step method
    dsimp only
    cases c.voteReplies[k]? <;> rfl
  | sendAppendEntries i peer =>
    unfold Cluster.step method
    dsimp only
    split
    · cases (c.nodes i).appendEntriesArgs peer <;> rfl
    · rfl
  | handleAppendEntries k =>
    unfold Cluster.step method
    dsimp only
    cases c.appendCalls[k]? with
    | none => rfl
    | some call =>
      dsimp only
      cases ((c.nodes call.peer).handleAppendEntries call.args).2 <;> rfl
  | failAppendEntries k =>
    unfold Cluster.step method
    dsimp only
    cases c.appendCalls[k]? <;> rfl
  | appendEntriesReply k =>
    unfold Cluster.step method
    dsimp only
    cases c.appendReplies[k]? <;> rfl
  | submitCommand i command => rfl

/-- A property that every method keeps on its node, where the guard of the step
allows it, is kept on every node. -/
theorem forall_nodes_step {cfg : Config Id} {c : Cluster Id M} {a : Action Id Cmd} {P : RaftNode Id M → Prop}
    (hP : ∀ i, P (c.nodes i))
    (hm : ∀ i m, c.method cfg a = some (i,m) → P (c.nodes i) → P ((c.nodes i).call m)) (i : Id) :
    P ((c.step cfg a).nodes i) := by
  rw [step_nodes]
  cases ha : c.method cfg a with
  | none => exact hP i
  | some im =>
    obtain ⟨j,m⟩ := im
    dsimp only
    by_cases hij : i = j
    · subst i
      rw [Function.update_self]
      exact hm j m ha (hP j)
    · rw [Function.update_of_ne hij]
      exact hP i

end Cluster

end DistributedSystems.Raft
