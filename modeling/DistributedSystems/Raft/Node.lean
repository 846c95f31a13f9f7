import DistributedSystems.Raft.Log
import DistributedSystems.Raft.StateMachine
import Mathlib.Data.Finset.Card
import Mathlib.Data.List.Sort

/-! # One Raft node

Every definition is one method of `RaftNode`, run while the node holds its lock.
An exception that leaves a method keeps the assignments made before it; where a
caller can tell, the method also returns whether it finished. Timers carry no
data, so here a timeout or a heartbeat may happen at any moment.
-/
namespace DistributedSystems.Raft

inductive NodeState
  | follower
  | candidate
  | leader
  deriving DecidableEq, Repr

/-- A future handed out by `submit_command`, with the entry that call created. -/
structure Future (Cmd Res : Type) where
  entry : LogEntry Cmd
  result : Option Res

/-- Arguments of a RequestVote call. -/
structure VoteArgs (Id : Type) where
  term : ℕ
  candidateId : Id
  lastLogIndex : ℕ
  lastLogTerm : ℕ

/-- Arguments of an AppendEntries call. -/
structure AppendArgs (Id Cmd : Type) where
  term : ℕ
  leaderId : Id
  prevLogIndex : ℕ
  prevLogTerm : ℕ
  entries : List (LogEntry Cmd)
  leaderCommit : ℕ

/-- The fields of a node. `votesReceived` holds the vote set of each election by
the term the election was started in. The last three fields are histories: the
entry applied at each index, the vote cast in each term, and the terms in which
`_become_leader` ran. -/
structure RaftNode (Id : Type) {Cmd : Type} (M : StateMachine Cmd) where
  nodeId : Id
  peers : List Id
  allNodes : List Id
  snapshotInterval : ℕ
  log : RaftLog Id Cmd M.Snapshot
  stateMachine : M.State
  currentTerm : ℕ
  votedFor : Option Id
  commitIndex : ℕ
  lastApplied : ℕ
  state : NodeState
  nextIndex : Id → Option ℕ
  matchIndex : Id → Option ℕ
  pendingCommits : ℕ → Option ℕ
  futures : List (Future Cmd M.Result)
  running : Bool
  votesReceived : ℕ → Finset Id
  applied : ℕ → Option (LogEntry Cmd)
  votes : ℕ → Option Id
  leaderTerms : List ℕ

namespace RaftNode
variable {Id Cmd : Type} [DecidableEq Id] {M : StateMachine Cmd}

/-- `__init__`: the persistent state is read back, the rest starts fresh. -/
def init (nodeId : Id) (peers : List Id) (snapshotInterval : ℕ)
    (storage : Storage Id Cmd M.Snapshot) : RaftNode Id M :=
  let log := RaftLog.load storage
  { nodeId := nodeId
    peers := peers.dedup
    allNodes := peers.dedup.insert nodeId
    snapshotInterval := snapshotInterval
    log := log
    stateMachine := match storage.loadSnapshot.1 with
      | some snapshot => M.restore snapshot
      | none => M.init
    currentTerm := storage.loadState.1
    votedFor := storage.loadState.2
    commitIndex := log.lastIncludedIndex
    lastApplied := log.lastIncludedIndex
    state := .follower
    nextIndex := fun _ => none
    matchIndex := fun _ => none
    pendingCommits := fun _ => none
    futures := []
    running := false
    votesReceived := fun _ => ∅
    applied := fun _ => none
    votes := fun _ => none
    leaderTerms := [] }

def start (n : RaftNode Id M) : RaftNode Id M := { n with running := true }
def stop (n : RaftNode Id M) : RaftNode Id M := { n with running := false }

def saveState (n : RaftNode Id M) : RaftNode Id M :=
  { n with log := { n.log with storage := n.log.storage.saveState n.currentTerm n.votedFor } }

def updateTerm (n : RaftNode Id M) (newTerm : ℕ) : RaftNode Id M :=
  { saveState { n with currentTerm := newTerm, votedFor := none } with state := .follower }

/-- Assigns `voted_for`, saves it, and records the vote of the current term. -/
def castVote (n : RaftNode Id M) (candidateId : Id) : RaftNode Id M :=
  saveState { n with
    votedFor := some candidateId
    votes := Function.update n.votes n.currentTerm (some candidateId) }

/-- The arguments every worker of the current election sends. -/
def voteArgs (n : RaftNode Id M) : VoteArgs Id where
  term := n.currentTerm
  candidateId := n.nodeId
  lastLogIndex := n.log.len
  lastLogTerm := n.log.lastTerm

def startElection (n : RaftNode Id M) : RaftNode Id M :=
  let n := castVote { n with currentTerm := n.currentTerm + 1, state := .candidate } n.nodeId
  { n with votesReceived := Function.update n.votesReceived n.currentTerm {n.nodeId} }

/-- The timer callback; an election starts on a running node that does not lead. -/
def electionTimeoutHandler (n : RaftNode Id M) : RaftNode Id M × Option (VoteArgs Id) :=
  if n.running = false ∨ n.state = .leader then (n,none)
  else (n.startElection,some n.startElection.voteArgs)

def becomeLeader (n : RaftNode Id M) : RaftNode Id M :=
  { n with
    state := .leader
    nextIndex := fun p => if p ∈ n.peers then some (n.log.len + 1) else n.nextIndex p
    matchIndex := fun p => if p ∈ n.peers then some 0 else n.matchIndex p
    leaderTerms := n.leaderTerms ++ [n.currentTerm] }

/-- `votes_received.add(peer)` on the vote set of the election started in `term`. -/
def countVote (n : RaftNode Id M) (peer : Id) (term : ℕ) : RaftNode Id M :=
  { n with votesReceived := Function.update n.votesReceived term (insert peer (n.votesReceived term)) }

/-- The locked part of `_request_vote_worker`, for a worker of the election
started in `term`. The term of that election is not compared with the current one. -/
def requestVoteReply (n : RaftNode Id M) (peer : Id) (term replyTerm : ℕ) (voteGranted : Bool) :
    RaftNode Id M :=
  if n.running = false ∨ n.state ≠ .candidate then n
  else if replyTerm > n.currentTerm then n.updateTerm replyTerm
  else if voteGranted then
    let n := n.countVote peer term
    if (n.votesReceived term).card > n.allNodes.length / 2 then n.becomeLeader else n
  else n

/-- Both handlers first adopt a newer term. -/
def adoptTerm (n : RaftNode Id M) (term : ℕ) : RaftNode Id M :=
  if term > n.currentTerm then n.updateTerm term else n

/-- The log of the caller is at least as complete as the log of this node. -/
def logIsFresh (n : RaftNode Id M) (args : VoteArgs Id) : Prop :=
  args.lastLogTerm > n.log.lastTerm ∨
    (args.lastLogTerm = n.log.lastTerm ∧ args.lastLogIndex ≥ n.log.len)

omit [DecidableEq Id] in
instance (n : RaftNode Id M) (args : VoteArgs Id) : Decidable (n.logIsFresh args) :=
  inferInstanceAs (Decidable (_ ∨ _))

def handleRequestVote (n : RaftNode Id M) (args : VoteArgs Id) : RaftNode Id M × (ℕ × Bool) :=
  if args.term < n.currentTerm then (n,n.currentTerm,false)
  else
    let n := n.adoptTerm args.term
    let canVote := n.votedFor = none ∨ n.votedFor = some args.candidateId
    if canVote ∧ n.logIsFresh args then (n.castVote args.candidateId,n.currentTerm,true)
    else (n,n.currentTerm,false)

/-- The first locked part of `_append_entries_worker`: the call it makes, if any.
A `prev_log_index` past the end of the log raises before the call. -/
def appendEntriesArgs (n : RaftNode Id M) (peer : Id) : Option (AppendArgs Id Cmd) :=
  if n.state ≠ .leader then none
  else
    let nextIdx := (n.nextIndex peer).getD 1
    let prevLogIndex := nextIdx - 1
    if prevLogIndex < n.log.lastIncludedIndex then none
    else
      match n.log.getTerm prevLogIndex with
      | none => none
      | some prevLogTerm => some
        { term := n.currentTerm
          leaderId := n.nodeId
          prevLogIndex := prevLogIndex
          prevLogTerm := prevLogTerm
          entries := n.log.getEntries nextIdx
          leaderCommit := n.commitIndex }

/-- Resolves the future waiting for the index that was just applied. -/
def notifyPending (n : RaftNode Id M) (result : M.Result) : RaftNode Id M :=
  match n.pendingCommits n.lastApplied with
  | none => n
  | some f =>
    { n with
      futures := n.futures.modify f (fun future => { future with result := some result })
      pendingCommits := Function.update n.pendingCommits n.lastApplied none }

/-- Compacts the log once enough entries were applied since the last snapshot.
The term lookup cannot fail: the entry was just read. -/
def checkSnapshot (n : RaftNode Id M) : RaftNode Id M :=
  if n.lastApplied - n.log.lastIncludedIndex ≥ n.snapshotInterval then
    match n.log.getTerm n.lastApplied with
    | none => n
    | some lastTerm =>
      { n with log := n.log.compact n.lastApplied lastTerm (M.snapshot n.stateMachine) }
  else n

/-- One iteration of the apply loop, and whether it finished without an exception. -/
def applyNext (n : RaftNode Id M) : RaftNode Id M × Bool :=
  let n := { n with lastApplied := n.lastApplied + 1 }
  match n.log.getItem n.lastApplied with
  | none => (n,false)
  | some entry =>
    let outcome := M.apply n.stateMachine entry.command
    let n := { n with
      stateMachine := outcome.1
      applied := Function.update n.applied n.lastApplied (some entry) }
    match outcome.2 with
    | none => (n,false)
    | some result => ((n.notifyPending result).checkSnapshot,true)

/-- The `while` loop; `fuel` bounds the iterations left. -/
def applyLoop : ℕ → RaftNode Id M → RaftNode Id M × Bool
  | 0, n => (n,true)
  | fuel + 1, n =>
    if n.lastApplied < n.commitIndex then
      if n.applyNext.2 then applyLoop fuel n.applyNext.1 else n.applyNext
    else (n,true)

/-- Each iteration applies one entry, so the loop runs at most once for each
index between `last_applied` and `commit_index`. -/
def applyCommittedEntries (n : RaftNode Id M) : RaftNode Id M × Bool :=
  applyLoop (n.commitIndex - n.lastApplied) n

/-- The value `matches[len(all_nodes) // 2]`, if the list is that long. -/
def majorityMatch (n : RaftNode Id M) : Option ℕ :=
  let found := (n.peers.filterMap n.matchIndex ++ [n.log.len]).insertionSort (· ≥ ·)
  found[n.allNodes.length / 2]?

def updateCommitIndex (n : RaftNode Id M) : RaftNode Id M :=
  match n.majorityMatch with
  | none => n
  | some N =>
    if N > n.commitIndex ∧ n.log.getTerm N = some n.currentTerm then
      (applyCommittedEntries { n with commitIndex := N }).1
    else n

/-- The second locked part of `_append_entries_worker`, for the worker that made
the call `args`. Exceptions raised here are swallowed by the worker. -/
def appendEntriesReply (n : RaftNode Id M) (peer : Id) (args : AppendArgs Id Cmd)
    (replyTerm : ℕ) (success : Bool) : RaftNode Id M :=
  if n.running = false then n
  else if replyTerm > n.currentTerm then n.updateTerm replyTerm
  else if n.state ≠ .leader then n
  else if success then
    if args.entries.length > 0 then
      let matched := args.prevLogIndex + args.entries.length
      updateCommitIndex { n with
        matchIndex := Function.update n.matchIndex peer (some matched)
        nextIndex := Function.update n.nextIndex peer (some (matched + 1)) }
    else n
  else
    match n.nextIndex peer with
    | none => n
    | some next => { n with nextIndex := Function.update n.nextIndex peer (some (max 1 (next - 1))) }

/-- The loop over the received entries, the first of which belongs at `idx`. -/
def appendNewEntries (log : RaftLog Id Cmd M.Snapshot) :
    ℕ → List (LogEntry Cmd) → RaftLog Id Cmd M.Snapshot
  | _, [] => log
  | idx, entry :: rest =>
    if idx ≤ log.len then
      if log.getTerm idx ≠ some entry.term then
        appendNewEntries ((log.truncate idx).append entry) (idx + 1) rest
      else appendNewEntries log (idx + 1) rest
    else appendNewEntries (log.append entry) (idx + 1) rest

/-- The assignments after the entries were stored: commit index, then apply. -/
def followLeaderCommit (n : RaftNode Id M) (leaderCommit : ℕ) : RaftNode Id M × Bool :=
  if leaderCommit > n.commitIndex then
    applyCommittedEntries { n with commitIndex := min leaderCommit n.log.len }
  else (n,true)

/-- The handler from the loop over the entries on. -/
def storeEntries (n : RaftNode Id M) (args : AppendArgs Id Cmd) : RaftNode Id M × Bool :=
  followLeaderCommit { n with log := appendNewEntries n.log (args.prevLogIndex + 1) args.entries }
    args.leaderCommit

/-- No reply is returned when applying a committed entry raises. -/
def handleAppendEntries (n : RaftNode Id M) (args : AppendArgs Id Cmd) :
    RaftNode Id M × Option (ℕ × Bool) :=
  if args.term < n.currentTerm then (n,some (n.currentTerm,false))
  else
    let n := n.adoptTerm args.term
    if n.log.matchLog args.prevLogIndex args.prevLogTerm = false then (n,some (n.currentTerm,false))
    else
      let out := n.storeEntries args
      (out.1,if out.2 then some (out.1.currentTerm,true) else none)

/-- Appends a command on a leader; the future waits under the new entry's index. -/
def submitCommand (n : RaftNode Id M) (command : Cmd) : RaftNode Id M × Option ℕ :=
  if n.state ≠ .leader then (n,none)
  else
    let index := n.log.len + 1
    let entry : LogEntry Cmd := { term := n.currentTerm, index := index, command := command }
    let f := n.futures.length
    ({ n with
       log := n.log.append entry
       futures := n.futures ++ [{ entry := entry, result := none }]
       pendingCommits := Function.update n.pendingCommits index (some f) },some f)

theorem mem_countVote {n : RaftNode Id M} {peer v : Id} {term t : ℕ} :
    v ∈ (n.countVote peer term).votesReceived t ↔ (t = term ∧ v = peer) ∨ v ∈ n.votesReceived t := by
  unfold countVote
  by_cases h : t = term
  · subst t
    simp
  · simp [h]

omit [DecidableEq Id] in
theorem electionTimeoutHandler_cases (n : RaftNode Id M) :
    n.electionTimeoutHandler = (n,none) ∨
      (n.running = true ∧ n.state ≠ .leader ∧
        n.electionTimeoutHandler = (n.startElection,some n.startElection.voteArgs)) := by
  unfold electionTimeoutHandler
  split
  · exact Or.inl rfl
  · rename_i h
    obtain ⟨hr,hs⟩ := not_or.mp h
    exact Or.inr ⟨by simpa using hr,hs,rfl⟩

/-- A reply is ignored, raises the term, or is counted for its own election. -/
theorem requestVoteReply_cases (n : RaftNode Id M) (peer : Id) (term replyTerm : ℕ) (granted : Bool) :
    n.requestVoteReply peer term replyTerm granted = n ∨
    (n.currentTerm < replyTerm ∧ n.requestVoteReply peer term replyTerm granted = n.updateTerm replyTerm) ∨
    (n.running = true ∧ n.state = .candidate ∧ replyTerm ≤ n.currentTerm ∧ granted = true ∧
      (n.requestVoteReply peer term replyTerm granted = n.countVote peer term ∨
        (n.allNodes.length / 2 < (insert peer (n.votesReceived term)).card ∧
          n.requestVoteReply peer term replyTerm granted = (n.countVote peer term).becomeLeader))) := by
  unfold requestVoteReply
  split
  · exact Or.inl rfl
  rename_i h
  obtain ⟨hr,hs⟩ := not_or.mp h
  split
  · rename_i ht
    exact Or.inr (Or.inl ⟨ht,rfl⟩)
  rename_i ht
  split
  · rename_i hg
    refine Or.inr (Or.inr ⟨by simpa using hr,not_not.mp hs,by omega,hg,?_⟩)
    dsimp only
    split
    · rename_i hc
      exact Or.inr ⟨by simpa [countVote] using hc,rfl⟩
    · exact Or.inl rfl
  · exact Or.inl rfl

omit [DecidableEq Id] in
theorem adoptTerm_currentTerm {n : RaftNode Id M} {t : ℕ} (h : n.currentTerm ≤ t) :
    (n.adoptTerm t).currentTerm = t := by
  unfold adoptTerm
  split
  · rfl
  · omega

/-- A RequestVote is refused without a change, refused after adopting the term,
or granted in the term it asks for. -/
theorem handleRequestVote_cases (n : RaftNode Id M) (args : VoteArgs Id) :
    n.handleRequestVote args = (n,n.currentTerm,false) ∨
    (n.currentTerm ≤ args.term ∧ n.handleRequestVote args = (n.adoptTerm args.term,args.term,false)) ∨
    (n.currentTerm ≤ args.term ∧
      ((n.adoptTerm args.term).votedFor = none ∨
        (n.adoptTerm args.term).votedFor = some args.candidateId) ∧
      (n.adoptTerm args.term).logIsFresh args ∧
      n.handleRequestVote args = ((n.adoptTerm args.term).castVote args.candidateId,args.term,true)) := by
  unfold handleRequestVote
  split
  · exact Or.inl rfl
  rename_i hle
  have hle : n.currentTerm ≤ args.term := by omega
  right
  dsimp only
  rw [adoptTerm_currentTerm hle]
  split
  · rename_i h
    exact Or.inr ⟨hle,h.1,h.2,rfl⟩
  · exact Or.inl ⟨hle,rfl⟩

omit [DecidableEq Id] in
/-- The check leaves the node alone, or compacts behind the applied entries. -/
theorem checkSnapshot_cases (n : RaftNode Id M) :
    n.checkSnapshot = n ∨
      (n.log.lastIncludedIndex < n.lastApplied ∧ ∃ lastTerm, n.log.getTerm n.lastApplied = some lastTerm ∧
        n.checkSnapshot =
          { n with log := n.log.compact n.lastApplied lastTerm (M.snapshot n.stateMachine) }) := by
  unfold checkSnapshot
  split
  · cases n.log.getTerm n.lastApplied with
    | none => exact Or.inl rfl
    | some lastTerm =>
      by_cases hle : n.lastApplied ≤ n.log.lastIncludedIndex
      · left
        dsimp only
        rw [RaftLog.compact,if_pos hle]
      · exact Or.inr ⟨not_le.mp hle,lastTerm,rfl,rfl⟩
  · exact Or.inl rfl

omit [DecidableEq Id] in
theorem updateCommitIndex_cases (n : RaftNode Id M) :
    n.updateCommitIndex = n ∨
      ∃ N, n.majorityMatch = some N ∧ n.commitIndex < N ∧ n.log.getTerm N = some n.currentTerm ∧
        n.updateCommitIndex = (applyCommittedEntries { n with commitIndex := N }).1 := by
  unfold updateCommitIndex
  cases hN : n.majorityMatch with
  | none => exact Or.inl rfl
  | some N =>
    dsimp only
    split
    · rename_i h
      exact Or.inr ⟨N,rfl,h.1,h.2,rfl⟩
    · exact Or.inl rfl

/-- A reply is ignored, raises the term, counts what was stored or moves the next index back. -/
theorem appendEntriesReply_cases (n : RaftNode Id M) (peer : Id) (args : AppendArgs Id Cmd)
    (replyTerm : ℕ) (success : Bool) :
    n.appendEntriesReply peer args replyTerm success = n ∨
    (n.currentTerm < replyTerm ∧ n.appendEntriesReply peer args replyTerm success = n.updateTerm replyTerm) ∨
    (n.running = true ∧ n.state = .leader ∧ replyTerm ≤ n.currentTerm ∧
      ((success = true ∧ 0 < args.entries.length ∧
          n.appendEntriesReply peer args replyTerm success = updateCommitIndex { n with
            matchIndex := Function.update n.matchIndex peer (some (args.prevLogIndex + args.entries.length))
            nextIndex := Function.update n.nextIndex peer (some (args.prevLogIndex + args.entries.length + 1)) }) ∨
        (success = false ∧ ∃ next, n.nextIndex peer = some next ∧
          n.appendEntriesReply peer args replyTerm success =
            { n with nextIndex := Function.update n.nextIndex peer (some (max 1 (next - 1))) }))) := by
  unfold appendEntriesReply
  split
  · exact Or.inl rfl
  rename_i hr
  split
  · rename_i ht
    exact Or.inr (Or.inl ⟨ht,rfl⟩)
  rename_i ht
  split
  · exact Or.inl rfl
  rename_i hl
  cases success with
  | true =>
    rw [if_pos rfl]
    split
    · rename_i hpos
      exact Or.inr (Or.inr ⟨by simpa using hr,not_not.mp hl,not_lt.mp ht,Or.inl ⟨rfl,hpos,rfl⟩⟩)
    · exact Or.inl rfl
  | false =>
    rw [if_neg Bool.false_ne_true]
    cases hnext : n.nextIndex peer with
    | none => exact Or.inl rfl
    | some next =>
      exact Or.inr (Or.inr ⟨by simpa using hr,not_not.mp hl,not_lt.mp ht,Or.inr ⟨rfl,next,rfl,rfl⟩⟩)

omit [DecidableEq Id] in
/-- Adopting a term writes to storage and leaves the log alone. -/
theorem adoptTerm_log (n : RaftNode Id M) (t : ℕ) :
    ∃ storage, (n.adoptTerm t).log = { n.log with storage := storage } := by
  unfold adoptTerm
  split
  · exact ⟨_,rfl⟩
  · exact ⟨_,rfl⟩

omit [DecidableEq Id] in
/-- A call is refused for its term, refused by the consistency check, or stored. -/
theorem handleAppendEntries_cases (n : RaftNode Id M) (args : AppendArgs Id Cmd) :
    n.handleAppendEntries args = (n,some (n.currentTerm,false)) ∨
    (n.currentTerm ≤ args.term ∧
      n.handleAppendEntries args = (n.adoptTerm args.term,some ((n.adoptTerm args.term).currentTerm,false))) ∨
    (n.currentTerm ≤ args.term ∧ n.log.matchLog args.prevLogIndex args.prevLogTerm = true ∧
      ∃ reply, n.handleAppendEntries args = (((n.adoptTerm args.term).storeEntries args).1,reply)) := by
  obtain ⟨storage,hlog⟩ := n.adoptTerm_log args.term
  have hmatch : (n.adoptTerm args.term).log.matchLog args.prevLogIndex args.prevLogTerm =
      n.log.matchLog args.prevLogIndex args.prevLogTerm := by
    rw [hlog]
    rfl
  unfold handleAppendEntries
  split
  · exact Or.inl rfl
  rename_i hterm
  right
  dsimp only
  split
  · exact Or.inl ⟨Nat.not_lt.mp hterm,rfl⟩
  · rename_i hm
    rw [hmatch] at hm
    exact Or.inr ⟨Nat.not_lt.mp hterm,by simpa using hm,_,rfl⟩

end RaftNode

end DistributedSystems.Raft
