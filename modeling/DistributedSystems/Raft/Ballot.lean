import DistributedSystems.Raft.Cluster

/-! # The voting view of a node

Elections read and write only the fields collected here. Each method either
leaves the ballot alone or performs one of the ballot operations below, so an
argument about votes never looks at logs or state machines.
-/
namespace DistributedSystems.Raft

structure Ballot (Id : Type) where
  nodeId : Id
  peers : List Id
  allNodes : List Id
  running : Bool
  currentTerm : ℕ
  votedFor : Option Id
  state : NodeState
  votesReceived : ℕ → Finset Id
  votes : ℕ → Option Id
  leaderTerms : List ℕ

/-- The effect of `_update_term` on a ballot. -/
def Ballot.observe {Id : Type} (b : Ballot Id) (newTerm : ℕ) : Ballot Id :=
  { b with currentTerm := newTerm, votedFor := none, state := .follower }

namespace RaftNode
variable {Id Cmd : Type} [DecidableEq Id] {M : StateMachine Cmd}

def ballot (n : RaftNode Id M) : Ballot Id where
  nodeId := n.nodeId
  peers := n.peers
  allNodes := n.allNodes
  running := n.running
  currentTerm := n.currentTerm
  votedFor := n.votedFor
  state := n.state
  votesReceived := n.votesReceived
  votes := n.votes
  leaderTerms := n.leaderTerms

omit [DecidableEq Id] in
@[simp] theorem ballot_updateTerm (n : RaftNode Id M) (t : ℕ) :
    (n.updateTerm t).ballot = n.ballot.observe t := rfl

section Frame
variable {α : Type} {view : RaftNode Id M → α}

omit [DecidableEq Id] in
theorem frame_notifyPending (hpending : ∀ n f p, view { n with futures := f, pendingCommits := p } = view n)
    (n : RaftNode Id M) (r : M.Result) : view (n.notifyPending r) = view n := by
  unfold notifyPending
  cases n.pendingCommits n.lastApplied with
  | none => rfl
  | some f => exact hpending n _ _

omit [DecidableEq Id] in
theorem frame_checkSnapshot (hlog : ∀ n log, view { n with log := log } = view n) (n : RaftNode Id M) :
    view n.checkSnapshot = view n := by
  rcases n.checkSnapshot_cases with he | ⟨_,t,_,he⟩
  · rw [he]
  · rw [he]
    exact hlog n _

omit [DecidableEq Id] in
theorem frame_applyNext (hpending : ∀ n f p, view { n with futures := f, pendingCommits := p } = view n)
    (hlog : ∀ n log, view { n with log := log } = view n)
    (happly : ∀ n k s a, view { n with lastApplied := k, stateMachine := s, applied := a } = view n)
    (n : RaftNode Id M) : view n.applyNext.1 = view n := by
  unfold applyNext
  dsimp only
  cases n.log.getItem (n.lastApplied + 1) with
  | none => exact happly n _ _ _
  | some entry =>
    dsimp only
    cases (M.apply n.stateMachine entry.command).2 with
    | none => exact happly n _ _ _
    | some result =>
      dsimp only
      rw [frame_checkSnapshot hlog,frame_notifyPending hpending]
      exact happly n _ _ _

omit [DecidableEq Id] in
/-- The apply loop touches the log, the state machine, the applied mark and the waiting
futures: a view of the other fields stays the same. -/
theorem frame_applyLoop (hpending : ∀ n f p, view { n with futures := f, pendingCommits := p } = view n)
    (hlog : ∀ n log, view { n with log := log } = view n)
    (happly : ∀ n k s a, view { n with lastApplied := k, stateMachine := s, applied := a } = view n) (fuel : ℕ)
    (n : RaftNode Id M) : view (applyLoop fuel n).1 = view n := by
  induction fuel generalizing n with
  | zero => rfl
  | succ fuel ih =>
    rw [applyLoop]
    split
    · split
      · rw [ih,frame_applyNext hpending hlog happly]
      · exact frame_applyNext hpending hlog happly n
    · rfl

end Frame

omit [DecidableEq Id] in
theorem notifyPending_log (n : RaftNode Id M) (r : M.Result) : (n.notifyPending r).log = n.log :=
  frame_notifyPending (fun _ _ _ => rfl) n r

omit [DecidableEq Id] in
theorem notifyPending_lastApplied (n : RaftNode Id M) (r : M.Result) :
    (n.notifyPending r).lastApplied = n.lastApplied := frame_notifyPending (fun _ _ _ => rfl) n r

omit [DecidableEq Id] in
@[simp] theorem applyLoop_commitIndex (fuel : ℕ) (n : RaftNode Id M) :
    (applyLoop fuel n).1.commitIndex = n.commitIndex :=
  frame_applyLoop (fun _ _ _ => rfl) (fun _ _ => rfl) (fun _ _ _ _ => rfl) fuel n

omit [DecidableEq Id] in
@[simp] theorem ballot_applyCommittedEntries (n : RaftNode Id M) :
    n.applyCommittedEntries.1.ballot = n.ballot :=
  frame_applyLoop (fun _ _ _ => rfl) (fun _ _ => rfl) (fun _ _ _ _ => rfl) _ n

omit [DecidableEq Id] in
@[simp] theorem ballot_updateCommitIndex (n : RaftNode Id M) : n.updateCommitIndex.ballot = n.ballot := by
  rcases n.updateCommitIndex_cases with he | ⟨N,_,_,_,he⟩
  · rw [he]
  · rw [he,ballot_applyCommittedEntries]
    rfl

omit [DecidableEq Id] in
@[simp] theorem ballot_followLeaderCommit (n : RaftNode Id M) (leaderCommit : ℕ) :
    (n.followLeaderCommit leaderCommit).1.ballot = n.ballot := by
  unfold followLeaderCommit
  split
  · rw [ballot_applyCommittedEntries]
    rfl
  · rfl

omit [DecidableEq Id] in
@[simp] theorem ballot_storeEntries (n : RaftNode Id M) (args : AppendArgs Id Cmd) :
    (n.storeEntries args).1.ballot = n.ballot := by
  rw [storeEntries,ballot_followLeaderCommit]
  rfl

omit [DecidableEq Id] in
theorem ballot_submitCommand (n : RaftNode Id M) (command : Cmd) :
    (n.submitCommand command).1.ballot = n.ballot := by
  unfold submitCommand
  split <;> rfl

omit [DecidableEq Id] in
theorem ballot_adoptTerm (n : RaftNode Id M) (t : ℕ) :
    (n.adoptTerm t).ballot = n.ballot ∨
      (n.currentTerm < t ∧ (n.adoptTerm t).ballot = n.ballot.observe t) := by
  unfold adoptTerm
  split
  · rename_i h
    exact Or.inr ⟨h,rfl⟩
  · exact Or.inl rfl

omit [DecidableEq Id] in
/-- An AppendEntries handler at most moves the ballot to the caller's newer term. -/
theorem ballot_handleAppendEntries (n : RaftNode Id M) (args : AppendArgs Id Cmd) :
    (n.handleAppendEntries args).1.ballot = n.ballot ∨
      (n.currentTerm < args.term ∧ (n.handleAppendEntries args).1.ballot = n.ballot.observe args.term) := by
  rcases n.handleAppendEntries_cases args with he | ⟨_,he⟩ | ⟨_,_,reply,he⟩
  · rw [he]
    exact Or.inl rfl
  · rw [he]
    exact ballot_adoptTerm n args.term
  · rw [he,ballot_storeEntries]
    exact ballot_adoptTerm n args.term

theorem ballot_appendEntriesReply (n : RaftNode Id M) (peer : Id) (args : AppendArgs Id Cmd)
    (replyTerm : ℕ) (success : Bool) :
    (n.appendEntriesReply peer args replyTerm success).ballot = n.ballot ∨
      (n.currentTerm < replyTerm ∧
        (n.appendEntriesReply peer args replyTerm success).ballot = n.ballot.observe replyTerm) := by
  rcases n.appendEntriesReply_cases peer args replyTerm success with
    he | ⟨hgt,he⟩ | ⟨_,_,_,⟨_,_,he⟩ | ⟨_,next,_,he⟩⟩
  · rw [he]
    exact Or.inl rfl
  · rw [he]
    exact Or.inr ⟨hgt,rfl⟩
  · rw [he,ballot_updateCommitIndex]
    exact Or.inl rfl
  · rw [he]
    exact Or.inl rfl

end RaftNode

end DistributedSystems.Raft
