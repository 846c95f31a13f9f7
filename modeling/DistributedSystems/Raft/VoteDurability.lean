import DistributedSystems.Raft.Ballot
import DistributedSystems.Raft.Journal
import DistributedSystems.Raft.Method

/-! # Durable terms and votes

One node runs its methods and may crash after any number of the saves a method
performs; it then restarts from what reached the disk. A method sends its reply
or its RequestVote calls after its last save. Assignments that precede a save
are read by nobody before it, so they are lost with the crash.
-/
namespace DistributedSystems.Raft
variable {Id Cmd Snap : Type}

/-- Saves that leave the state file alone. -/
def LogSaves (log log' : RaftLog Id Cmd Snap) : Prop :=
  ∃ ws, log'.storage.saves = log.storage.saves ++ ws ∧ stateSaves ws = []

namespace LogSaves

theorem refl (log : RaftLog Id Cmd Snap) : LogSaves log log := ⟨[],by simp,rfl⟩

theorem trans {a b c : RaftLog Id Cmd Snap} (h : LogSaves a b) (h' : LogSaves b c) : LogSaves a c := by
  obtain ⟨ws,hs,hn⟩ := h
  obtain ⟨ws',hs',hn'⟩ := h'
  exact ⟨ws ++ ws',by rw [hs',hs,List.append_assoc],by rw [stateSaves_append,hn,hn']; rfl⟩

theorem append (log : RaftLog Id Cmd Snap) (e : LogEntry Cmd) : LogSaves log (log.append e) :=
  ⟨[.saveLog (log.entries ++ [e])],rfl,rfl⟩

theorem truncate (log : RaftLog Id Cmd Snap) (i : ℕ) : LogSaves log (log.truncate i) := by
  unfold RaftLog.truncate
  dsimp only
  split_ifs
  · exact refl log
  · exact ⟨[.saveLog _],rfl,rfl⟩
  · exact refl log

theorem compact (log : RaftLog Id Cmd Snap) (i t : ℕ) (b : Snap) : LogSaves log (log.compact i t b) := by
  unfold RaftLog.compact
  dsimp only
  by_cases h : i ≤ log.lastIncludedIndex
  · rw [if_pos h]
    exact refl log
  · rw [if_neg h]
    exact ⟨[.saveSnapshot b i t,.saveLog _],List.append_assoc _ _ _,rfl⟩

end LogSaves

namespace RaftNode
variable [DecidableEq Id] {M : StateMachine Cmd}

/-- The durable pair as the node holds it in memory. -/
def pair (n : RaftNode Id M) : ℕ × Option Id := (n.currentTerm,n.votedFor)

omit [DecidableEq Id] in
theorem pair_of_ballot {n n' : RaftNode Id M} (h : n'.ballot = n.ballot) : n'.pair = n.pair :=
  congrArg (fun b : Ballot Id => (b.currentTerm,b.votedFor)) h

/-- From `n` to `n'` the journal grew by saves that move the state file forward
to the pair `n'` holds in memory. -/
def Persists (n n' : RaftNode Id M) : Prop :=
  ∃ ws, n'.log.storage.saves = n.log.storage.saves ++ ws ∧ Forward n.pair ws ∧ latest n.pair ws = n'.pair

omit [DecidableEq Id] in
theorem Persists.trans {a b c : RaftNode Id M} (h : Persists a b) (h' : Persists b c) : Persists a c := by
  obtain ⟨ws,hs,hf,hl⟩ := h
  obtain ⟨ws',hs',hf',hl'⟩ := h'
  refine ⟨ws ++ ws',by rw [hs',hs,List.append_assoc],hf.append (hl ▸ hf'),?_⟩
  rw [latest_append,hl,hl']

omit [DecidableEq Id] in
theorem Persists.of_logSaves {n n' : RaftNode Id M} (hp : n'.pair = n.pair) (h : LogSaves n.log n'.log) :
    Persists n n' := by
  obtain ⟨ws,hs,hn⟩ := h
  have hf : Forward n.pair ws := by
    unfold Forward
    rw [hn]
    exact List.pairwise_singleton _ _
  refine ⟨ws,hs,hf,?_⟩
  have hl : latest n.pair ws = n.pair := by
    clear hs hf
    induction ws with
    | nil => rfl
    | cons w rest ih =>
      cases w with
      | saveState t v => cases hn
      | saveLog log => exact ih hn
      | saveSnapshot b i t => exact ih hn
  rw [hl,hp]

omit [DecidableEq Id] in
/-- One save of the state file that moves it forward. -/
theorem Persists.saveState {n : RaftNode Id M} {m : RaftNode Id M} (hm : m.log = n.log)
    (h : Follows n.pair m.pair) : Persists n m.saveState := by
  refine ⟨[.saveState m.currentTerm m.votedFor],?_,?_,rfl⟩
  · rw [← hm]
    rfl
  · exact List.pairwise_pair.mpr h

omit [DecidableEq Id] in
theorem persists_updateTerm {n : RaftNode Id M} {t : ℕ} (h : n.currentTerm < t) :
    Persists n (n.updateTerm t) := by
  have hs : Persists n (RaftNode.saveState { n with currentTerm := t, votedFor := none }) :=
    Persists.saveState rfl (Or.inl h)
  exact hs.trans (Persists.of_logSaves rfl (LogSaves.refl _))

omit [DecidableEq Id] in
theorem persists_adoptTerm (n : RaftNode Id M) (t : ℕ) : Persists n (n.adoptTerm t) := by
  unfold adoptTerm
  split
  · rename_i h
    exact persists_updateTerm h
  · exact Persists.of_logSaves rfl (LogSaves.refl _)

omit [DecidableEq Id] in
theorem persists_castVote {n : RaftNode Id M} {x : Id} (h : n.votedFor = none ∨ n.votedFor = some x) :
    Persists n (n.castVote x) :=
  Persists.saveState rfl (Or.inr ⟨rfl,h⟩)

omit [DecidableEq Id] in
theorem persists_startElection (n : RaftNode Id M) : Persists n n.startElection :=
  ⟨[.saveState (n.currentTerm + 1) (some n.nodeId)],rfl,List.pairwise_pair.mpr (Or.inl (Nat.lt_succ_self _)),rfl⟩

omit [DecidableEq Id] in
theorem logSaves_notifyPending (n : RaftNode Id M) (r : M.Result) :
    LogSaves n.log (n.notifyPending r).log := by
  unfold notifyPending
  cases n.pendingCommits n.lastApplied <;> exact LogSaves.refl _

omit [DecidableEq Id] in
theorem logSaves_checkSnapshot (n : RaftNode Id M) : LogSaves n.log n.checkSnapshot.log := by
  rcases n.checkSnapshot_cases with he | ⟨_,t,_,he⟩
  · rw [he]
    exact LogSaves.refl _
  · rw [he]
    exact LogSaves.compact _ _ _ _

omit [DecidableEq Id] in
theorem logSaves_applyNext (n : RaftNode Id M) : LogSaves n.log n.applyNext.1.log := by
  unfold applyNext
  dsimp only
  cases n.log.getItem (n.lastApplied + 1) with
  | none => exact LogSaves.refl _
  | some entry =>
    dsimp only
    cases (M.apply n.stateMachine entry.command).2 with
    | none => exact LogSaves.refl _
    | some result =>
      dsimp only
      refine LogSaves.trans ?_ (logSaves_checkSnapshot _)
      exact logSaves_notifyPending
        { n with
          lastApplied := n.lastApplied + 1
          stateMachine := (M.apply n.stateMachine entry.command).1
          applied := Function.update n.applied (n.lastApplied + 1) (some entry) } result

omit [DecidableEq Id] in
theorem logSaves_applyLoop (fuel : ℕ) (n : RaftNode Id M) : LogSaves n.log (applyLoop fuel n).1.log := by
  induction fuel generalizing n with
  | zero => exact LogSaves.refl _
  | succ fuel ih =>
    rw [applyLoop]
    split
    · split
      · exact (logSaves_applyNext n).trans (ih _)
      · exact logSaves_applyNext n
    · exact LogSaves.refl _

omit [DecidableEq Id] in
theorem persists_applyCommittedEntries (n : RaftNode Id M) : Persists n n.applyCommittedEntries.1 :=
  Persists.of_logSaves (pair_of_ballot (ballot_applyCommittedEntries n)) (logSaves_applyLoop _ n)

omit [DecidableEq Id] in
theorem persists_updateCommitIndex (n : RaftNode Id M) : Persists n n.updateCommitIndex := by
  rcases n.updateCommitIndex_cases with he | ⟨N,_,_,_,he⟩
  · rw [he]
    exact Persists.of_logSaves rfl (LogSaves.refl _)
  · rw [he]
    exact persists_applyCommittedEntries { n with commitIndex := N }

omit [DecidableEq Id] in
theorem logSaves_appendNewEntries (log : RaftLog Id Cmd M.Snapshot) (idx : ℕ) (es : List (LogEntry Cmd)) :
    LogSaves log (appendNewEntries log idx es) := by
  induction es generalizing log idx with
  | nil => exact LogSaves.refl log
  | cons e es ih =>
    rw [appendNewEntries]
    split
    · split
      · exact ((LogSaves.truncate log idx).trans (LogSaves.append _ e)).trans (ih _ _)
      · exact ih _ _
    · exact (LogSaves.append log e).trans (ih _ _)

omit [DecidableEq Id] in
theorem persists_storeEntries (n : RaftNode Id M) (args : AppendArgs Id Cmd) :
    Persists n (n.storeEntries args).1 := by
  have hs : Persists n { n with log := appendNewEntries n.log (args.prevLogIndex + 1) args.entries } :=
    Persists.of_logSaves rfl (logSaves_appendNewEntries _ _ _)
  apply hs.trans
  unfold storeEntries followLeaderCommit
  split
  · exact persists_applyCommittedEntries
      { n with
        log := appendNewEntries n.log (args.prevLogIndex + 1) args.entries
        commitIndex := min args.leaderCommit
          (appendNewEntries n.log (args.prevLogIndex + 1) args.entries).len }
  · exact Persists.of_logSaves rfl (LogSaves.refl _)

omit [DecidableEq Id] in
theorem persists_handleAppendEntries (n : RaftNode Id M) (args : AppendArgs Id Cmd) :
    Persists n (n.handleAppendEntries args).1 := by
  rcases n.handleAppendEntries_cases args with he | ⟨_,he⟩ | ⟨_,_,reply,he⟩
  · rw [he]
    exact Persists.of_logSaves rfl (LogSaves.refl _)
  · rw [he]
    exact persists_adoptTerm n args.term
  · rw [he]
    exact (persists_adoptTerm n args.term).trans (persists_storeEntries _ args)

theorem persists_appendEntriesReply (n : RaftNode Id M) (peer : Id) (args : AppendArgs Id Cmd)
    (replyTerm : ℕ) (success : Bool) : Persists n (n.appendEntriesReply peer args replyTerm success) := by
  rcases n.appendEntriesReply_cases peer args replyTerm success with
    he | ⟨ht,he⟩ | ⟨_,_,_,⟨_,_,he⟩ | ⟨_,next,_,he⟩⟩
  · rw [he]
    exact Persists.of_logSaves rfl (LogSaves.refl _)
  · rw [he]
    exact persists_updateTerm ht
  · rw [he]
    exact persists_updateCommitIndex
      { n with
        matchIndex := Function.update n.matchIndex peer (some (args.prevLogIndex + args.entries.length))
        nextIndex := Function.update n.nextIndex peer (some (args.prevLogIndex + args.entries.length + 1)) }
  · rw [he]
    exact Persists.of_logSaves rfl (LogSaves.refl _)

theorem persists_requestVoteReply (n : RaftNode Id M) (peer : Id) (term replyTerm : ℕ) (granted : Bool) :
    Persists n (n.requestVoteReply peer term replyTerm granted) := by
  rcases n.requestVoteReply_cases peer term replyTerm granted with he | ⟨ht,he⟩ | ⟨_,_,_,_,he | ⟨_,he⟩⟩
  · rw [he]
    exact Persists.of_logSaves rfl (LogSaves.refl _)
  · rw [he]
    exact persists_updateTerm ht
  · rw [he]
    exact Persists.of_logSaves rfl (LogSaves.refl _)
  · rw [he]
    exact Persists.of_logSaves rfl (LogSaves.refl _)

theorem persists_handleRequestVote (n : RaftNode Id M) (args : VoteArgs Id) :
    Persists n (n.handleRequestVote args).1 := by
  rcases n.handleRequestVote_cases args with he | ⟨_,he⟩ | ⟨_,hv,_,he⟩
  · rw [he]
    exact Persists.of_logSaves rfl (LogSaves.refl _)
  · rw [he]
    exact persists_adoptTerm n args.term
  · rw [he]
    exact (persists_adoptTerm n args.term).trans (persists_castVote hv)

omit [DecidableEq Id] in
theorem persists_submitCommand (n : RaftNode Id M) (command : Cmd) :
    Persists n (n.submitCommand command).1 := by
  unfold submitCommand
  split
  · exact Persists.of_logSaves rfl (LogSaves.refl _)
  · exact Persists.of_logSaves rfl (LogSaves.append _ _)

end RaftNode

namespace RaftNode
variable [DecidableEq Id] {M : StateMachine Cmd}

/-- The vote a method gives away: a True reply, or the node's own candidacy. -/
def grants (n : RaftNode Id M) : Method Id Cmd → Option (ℕ × Id)
  | .handleRequestVote args =>
    let out := (n.handleRequestVote args).2
    if out.2 then some (out.1,args.candidateId) else none
  | .electionTimeout => n.electionTimeoutHandler.2.map fun args => (args.term,args.candidateId)
  | _ => none

/-- The vote already given away when the method dies after `k` of its saves. The
first RequestVote call of a candidacy follows its only save; a reply is sent last. -/
def grantsBefore (n : RaftNode Id M) (k : ℕ) : Method Id Cmd → Option (ℕ × Id)
  | .electionTimeout => if k = 0 then none else n.grants .electionTimeout
  | _ => none

theorem persists_call (n : RaftNode Id M) (m : Method Id Cmd) : Persists n (n.call m) := by
  cases m with
  | start => exact Persists.of_logSaves rfl (LogSaves.refl _)
  | stop => exact Persists.of_logSaves rfl (LogSaves.refl _)
  | electionTimeout =>
    rcases n.electionTimeoutHandler_cases with he | ⟨_,_,he⟩
    · rw [call,he]
      exact Persists.of_logSaves rfl (LogSaves.refl _)
    · rw [call,he]
      exact persists_startElection n
  | handleRequestVote args => exact persists_handleRequestVote n args
  | requestVoteReply peer term replyTerm granted => exact persists_requestVoteReply n peer term replyTerm granted
  | handleAppendEntries args => exact persists_handleAppendEntries n args
  | appendEntriesReply peer args replyTerm success =>
    exact persists_appendEntriesReply n peer args replyTerm success
  | submitCommand command => exact persists_submitCommand n command

/-- A vote is given away only as the pair the node has just made durable. -/
theorem pair_of_grants {n : RaftNode Id M} {m : Method Id Cmd} {g : ℕ × Id} (h : n.grants m = some g) :
    (n.call m).pair = (g.1,some g.2) := by
  cases m with
  | handleRequestVote args =>
    dsimp only [grants] at h
    dsimp only [call]
    rcases n.handleRequestVote_cases args with he | ⟨_,he⟩ | ⟨hle,_,_,he⟩
    · rw [he] at h
      cases h
    · rw [he] at h
      cases h
    · rw [he] at h ⊢
      cases h
      exact congrArg (fun t => (t,some args.candidateId)) (adoptTerm_currentTerm hle)
  | electionTimeout =>
    dsimp only [grants] at h
    dsimp only [call]
    rcases n.electionTimeoutHandler_cases with he | ⟨_,_,he⟩
    · rw [he] at h
      cases h
    · rw [he] at h ⊢
      cases h
      rfl
  | start => cases h
  | stop => cases h
  | requestVoteReply peer term replyTerm granted => cases h
  | handleAppendEntries args => cases h
  | appendEntriesReply peer args replyTerm success => cases h
  | submitCommand command => cases h

end RaftNode

/-- A node across its restarts, with the votes `(term,candidate)` it has given away. -/
structure NodeRun (Id : Type) {Cmd : Type} (M : StateMachine Cmd) where
  node : RaftNode Id M
  granted : List (ℕ × Id)

/-- A method runs to its end, or the process dies after `k` of its saves and restarts. -/
inductive Event (Id Cmd : Type)
  | call (m : Method Id Cmd)
  | crash (m : Method Id Cmd) (k : ℕ)

namespace NodeRun
variable [DecidableEq Id] {M : StateMachine Cmd}

def init (M : StateMachine Cmd) (nodeId : Id) (peers : List Id) (snapshotInterval : ℕ)
    (storage : Storage Id Cmd M.Snapshot) : NodeRun Id M :=
  ⟨RaftNode.init nodeId peers snapshotInterval storage,[]⟩

def step (r : NodeRun Id M) : Event Id Cmd → NodeRun Id M
  | .call m => ⟨r.node.call m,r.granted ++ (r.node.grants m).toList⟩
  | .crash m k =>
    let onDisk := (r.node.call m).log.storage.crashAfter (r.node.log.storage.saves.length + k)
    ⟨RaftNode.init r.node.nodeId r.node.peers r.node.snapshotInterval onDisk,
      r.granted ++ (r.node.grantsBefore k m).toList⟩

/-- The journal since `storage` moves forward, ends in the pair held in memory,
and contains every vote given away. -/
def Durable (storage : Storage Id Cmd M.Snapshot) (r : NodeRun Id M) : Prop :=
  ∃ ws, r.node.log.storage.saves = storage.saves ++ ws ∧ Forward storage.loadState ws ∧
    latest storage.loadState ws = r.node.pair ∧
    ∀ g ∈ r.granted, (g.1,some g.2) ∈ storage.loadState :: stateSaves ws

theorem durable_init (nodeId : Id) (peers : List Id) (interval : ℕ)
    (storage : Storage Id Cmd M.Snapshot) : Durable storage (init M nodeId peers interval storage) := by
  refine ⟨[],(List.append_nil _).symm,List.pairwise_singleton _ _,rfl,?_⟩
  intro g hg
  cases hg

omit [DecidableEq Id] in
/-- Extending the journal keeps what it already recorded. -/
theorem mem_journal_append {p q : ℕ × Option Id} {ws ws' : List (Save Id Cmd M.Snapshot)}
    (h : q ∈ p :: stateSaves ws) : q ∈ p :: stateSaves (ws ++ ws') := by
  rw [stateSaves_append,← List.cons_append]
  exact List.mem_append_left _ h

theorem Durable.call {storage : Storage Id Cmd M.Snapshot} {r : NodeRun Id M} (h : Durable storage r)
    (m : Method Id Cmd) :
    Durable storage (r.step (.call m)) ∧ Follows r.node.pair (r.step (.call m)).node.pair := by
  obtain ⟨ws,hs,hf,hl,hg⟩ := h
  obtain ⟨ws',hs',hf',hl'⟩ := r.node.persists_call m
  have hlast : latest storage.loadState (ws ++ ws') = (r.node.call m).pair := by
    rw [latest_append,hl,hl']
  constructor
  · refine ⟨ws ++ ws',by rw [← List.append_assoc,← hs]; exact hs',hf.append (hl ▸ hf'),hlast,?_⟩
    intro g hmem
    rcases List.mem_append.mp hmem with hmem | hmem
    · exact mem_journal_append (hg g hmem)
    · rw [← RaftNode.pair_of_grants (Option.mem_toList.mp hmem),← hlast]
      exact latest_mem _ _
  · have hlt := hf'.mem_latest r.node.pair List.mem_cons_self
    rw [hl'] at hlt
    exact hlt

theorem Durable.crash {storage : Storage Id Cmd M.Snapshot} {r : NodeRun Id M} (h : Durable storage r)
    (m : Method Id Cmd) (k : ℕ) :
    Durable storage (r.step (.crash m k)) ∧ Follows r.node.pair (r.step (.crash m k)).node.pair := by
  obtain ⟨ws,hs,hf,hl,hg⟩ := h
  obtain ⟨ws',hs',hf',hl'⟩ := r.node.persists_call m
  have hdisk : ((r.node.call m).log.storage.crashAfter (r.node.log.storage.saves.length + k)).saves =
      storage.saves ++ (ws ++ ws'.take k) := by
    change List.take _ (r.node.call m).log.storage.saves = _
    rw [hs',List.take_length_add_append,hs,List.append_assoc]
  -- the restarted node holds the last pair that reached the disk
  have hpair : (r.step (.crash m k)).node.pair = latest r.node.pair (ws'.take k) := by
    have hload : (r.step (.crash m k)).node.pair =
        latest (0,none) ((r.node.call m).log.storage.crashAfter (r.node.log.storage.saves.length + k)).saves := rfl
    rw [hload,hdisk,latest_append,latest_append,← loadState_eq_latest,hl]
  have hf'' : Forward r.node.pair (ws'.take k) := hf'.take k
  constructor
  · refine ⟨ws ++ ws'.take k,hdisk,hf.append (hl ▸ hf''),by rw [latest_append,hl,hpair],?_⟩
    intro g hmem
    rcases List.mem_append.mp hmem with hmem | hmem
    · exact mem_journal_append (hg g hmem)
    · have hgr := Option.mem_toList.mp hmem
      cases m with
      | electionTimeout =>
        unfold RaftNode.grantsBefore at hgr
        dsimp only at hgr
        split at hgr
        · cases hgr
        rename_i hk
        -- the only save of a candidacy took place
        have htake : ws'.take k = ws' := by
          apply List.take_of_length_le
          rcases r.node.electionTimeoutHandler_cases with he | ⟨_,_,he⟩
          · rw [RaftNode.grants,he] at hgr
            cases hgr
          · have hone : r.node.log.storage.saves ++ ws' = r.node.log.storage.saves ++
                [.saveState (r.node.currentTerm + 1) (some r.node.nodeId)] := by
              rw [← hs',RaftNode.call,he]
              rfl
            rw [List.append_cancel_left hone]
            exact Nat.one_le_iff_ne_zero.mpr hk
        rw [htake,← RaftNode.pair_of_grants hgr,← hl',← hl,← latest_append]
        exact latest_mem _ _
      | start => cases hgr
      | stop => cases hgr
      | handleRequestVote args => cases hgr
      | requestVoteReply peer term replyTerm granted => cases hgr
      | handleAppendEntries args => cases hgr
      | appendEntriesReply peer args replyTerm success => cases hgr
      | submitCommand command => cases hgr
  · rw [hpair]
    exact hf''.mem_latest _ List.mem_cons_self

theorem Durable.step {storage : Storage Id Cmd M.Snapshot} {r : NodeRun Id M} (h : Durable storage r)
    (e : Event Id Cmd) : Durable storage (r.step e) ∧ Follows r.node.pair (r.step e).node.pair := by
  cases e with
  | call m => exact h.call m
  | crash m k => exact h.crash m k

/-- From a durable state on, every run stays durable and moves the pair forward. -/
theorem Durable.run {storage : Storage Id Cmd M.Snapshot} {r : NodeRun Id M} (h : Durable storage r)
    (events : List (Event Id Cmd)) :
    Durable storage (Runs.run NodeRun.step r events) ∧ Follows r.node.pair (Runs.run NodeRun.step r events).node.pair := by
  refine Runs.run_invariant_of_step
    (I := fun r' => Durable storage r' ∧ Follows r.node.pair r'.node.pair) ?_ ⟨h,Follows.refl _⟩ events
  intro r' e hr'
  obtain ⟨hd,hf⟩ := hr'.1.step e
  exact ⟨hd,hr'.2.trans hf⟩

/-- Whatever storage a node starts from, and wherever its process dies and
restarts, its term never decreases and each term has at most one of its votes. -/
theorem vote_durability (nodeId : Id) (peers : List Id) (interval : ℕ)
    (storage : Storage Id Cmd M.Snapshot) (before after : List (Event Id Cmd)) :
    (Runs.run step (init M nodeId peers interval storage) before).node.currentTerm ≤
      (Runs.run step (init M nodeId peers interval storage) (before ++ after)).node.currentTerm ∧
    ∀ t x y, (t,x) ∈ (Runs.run step (init M nodeId peers interval storage) before).granted →
      (t,y) ∈ (Runs.run step (init M nodeId peers interval storage) before).granted → x = y := by
  obtain ⟨hd,_⟩ := (durable_init nodeId peers interval storage).run before
  constructor
  · rw [Runs.run_append]
    exact (hd.run after).2.term_le
  · intro t x y hx hy
    obtain ⟨ws,_,hf,_,hg⟩ := hd
    exact hf.vote_unique (hg (t,x) hx) (hg (t,y) hy)

end NodeRun

end DistributedSystems.Raft
