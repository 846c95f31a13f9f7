import DistributedSystems.Raft.AppendEntries
import DistributedSystems.Raft.Election
import DistributedSystems.Raft.Method

/-! # Client futures

`pending_commits` is keyed by the index alone. The entry a future waits for stays
at its index until it is applied, unless an AppendEntries call overwrites it; the
guard of a run excludes exactly such calls.
-/
namespace DistributedSystems.Raft
variable {Id Cmd : Type} {M : StateMachine Cmd}

namespace RaftNode

/-- No entry of the call conflicts with the log at or below an index for which a
future is still waiting. -/
def keepsPending (n : RaftNode Id M) (args : AppendArgs Id Cmd) : Prop :=
  n.currentTerm ≤ args.term → n.log.matchLog args.prevLogIndex args.prevLogTerm = true →
    ∀ i < n.log.len + 1, n.lastApplied < i → (n.pendingCommits i).isSome →
      Agrees n.log i (args.prevLogIndex + 1) args.entries

instance (n : RaftNode Id M) (args : AppendArgs Id Cmd) : Decidable (n.keepsPending args) :=
  inferInstanceAs (Decidable (_ → _ → ∀ i < n.log.len + 1, _ → _ → _))

/-- A waiting future has its entry in the log, a resolved one had it applied. -/
structure PendingInv (n : RaftNode Id M) : Prop where
  snapshot : n.log.lastIncludedIndex ≤ n.lastApplied
  pending : ∀ i f, n.pendingCommits i = some f → ∃ future, n.futures[f]? = some future ∧
    future.entry.index = i ∧ (n.lastApplied < i → n.log.getItem i = some future.entry)
  resolved : ∀ future ∈ n.futures, future.result.isSome = true →
    future.entry.index ≤ n.lastApplied ∧ n.applied future.entry.index = some future.entry

namespace PendingInv
variable {n : RaftNode Id M}

/-- Pending entries survive a change of the log that keeps their positions. -/
theorem setLog (h : PendingInv n) {log : RaftLog Id Cmd M.Snapshot}
    (hi : log.lastIncludedIndex ≤ n.lastApplied)
    (hs : ∀ i f e, n.pendingCommits i = some f → n.lastApplied < i → n.log.getItem i = some e →
      log.getItem i = some e) : PendingInv { n with log := log } := by
  refine ⟨hi,?_,h.resolved⟩
  intro i f hf
  obtain ⟨future,hmem,hidx,hitem⟩ := h.pending i f hf
  exact ⟨future,hmem,hidx,fun hlt => hs i f future.entry hf hlt (hitem hlt)⟩

theorem checkSnapshot (h : PendingInv n) : PendingInv n.checkSnapshot := by
  rcases n.checkSnapshot_cases with he | ⟨hcompact,t,_,he⟩
  · rw [he]
    exact h
  · rw [he]
    refine h.setLog (RaftLog.compact_lastIncludedIndex hcompact _ _).le ?_
    intro i f e _ hlt he
    rw [RaftLog.compact_getItem hlt]
    exact he

/-- The entry at the next index becomes the applied one; nothing is resolved yet. -/
theorem advance (h : PendingInv n) (entry : Option (LogEntry Cmd)) (sm : M.State) :
    PendingInv { n with
      lastApplied := n.lastApplied + 1
      stateMachine := sm
      applied := Function.update n.applied (n.lastApplied + 1) entry } := by
  refine ⟨Nat.le_succ_of_le h.snapshot,?_,?_⟩
  · intro i f hf
    obtain ⟨future,hmem,hidx,hitem⟩ := h.pending i f hf
    exact ⟨future,hmem,hidx,fun hlt => hitem (Nat.lt_of_succ_lt hlt)⟩
  · intro future hmem hres
    obtain ⟨hle,happ⟩ := h.resolved future hmem hres
    refine ⟨Nat.le_succ_of_le hle,?_⟩
    change Function.update n.applied (n.lastApplied + 1) entry future.entry.index = _
    rw [Function.update_of_ne (by omega)]
    exact happ

/-- Resolving the future that waits for the index just applied. -/
theorem notifyPending (h : PendingInv n) (entry : LogEntry Cmd) (r : M.Result)
    (happ : n.applied n.lastApplied = some entry)
    (hwait : ∀ f, n.pendingCommits n.lastApplied = some f →
      ∃ future, n.futures[f]? = some future ∧ future.entry = entry) : PendingInv (n.notifyPending r) := by
  unfold RaftNode.notifyPending
  cases hf : n.pendingCommits n.lastApplied with
  | none => exact h
  | some f =>
    dsimp only
    obtain ⟨future,hfut,hentry⟩ := hwait f hf
    have hindex : future.entry.index = n.lastApplied := by
      obtain ⟨future',hfut',hidx,_⟩ := h.pending _ f hf
      rw [Option.some.inj (hfut.symm.trans hfut')]
      exact hidx
    refine ⟨h.snapshot,?_,?_⟩
    · intro i g hg
      by_cases hi : i = n.lastApplied
      · subst i
        change Function.update n.pendingCommits n.lastApplied none n.lastApplied = some g at hg
        rw [Function.update_self] at hg
        cases hg
      · change Function.update n.pendingCommits n.lastApplied none i = some g at hg
        rw [Function.update_of_ne hi] at hg
        obtain ⟨waiting,hmem,hidx,hitem⟩ := h.pending i g hg
        have hne : f ≠ g := by
          rintro rfl
          rw [Option.some.inj (hmem.symm.trans hfut),hindex] at hidx
          exact hi hidx.symm
        refine ⟨waiting,?_,hidx,hitem⟩
        change (n.futures.modify f _)[g]? = _
        rw [List.getElem?_modify_ne _ _ hne]
        exact hmem
    · intro done hdone hres
      obtain ⟨g,hg⟩ := List.mem_iff_getElem?.mp hdone
      change (n.futures.modify f _)[g]? = _ at hg
      by_cases hfg : f = g
      · subst g
        rw [List.getElem?_modify_eq,hfut] at hg
        have he : done.entry = entry := by
          rw [← Option.some.inj hg]
          exact hentry
        have hd : done.entry.index = n.lastApplied := by rw [he,← hentry,hindex]
        change done.entry.index ≤ n.lastApplied ∧ n.applied done.entry.index = some done.entry
        rw [hd,he]
        exact ⟨le_refl _,happ⟩
      · rw [List.getElem?_modify_ne _ _ hfg] at hg
        exact h.resolved done (List.mem_of_getElem? hg) hres

theorem applyNext (h : PendingInv n) : PendingInv n.applyNext.1 := by
  unfold RaftNode.applyNext
  dsimp only
  cases hitem : n.log.getItem (n.lastApplied + 1) with
  | none =>
    refine ⟨Nat.le_succ_of_le h.snapshot,?_,?_⟩
    · intro i f hf
      obtain ⟨future,hmem,hidx,hi⟩ := h.pending i f hf
      exact ⟨future,hmem,hidx,fun hlt => hi (Nat.lt_of_succ_lt hlt)⟩
    · intro future hmem hres
      obtain ⟨hle,happ⟩ := h.resolved future hmem hres
      exact ⟨Nat.le_succ_of_le hle,happ⟩
  | some entry =>
    dsimp only
    have hadv := h.advance (some entry) (M.apply n.stateMachine entry.command).1
    cases (M.apply n.stateMachine entry.command).2 with
    | none => exact hadv
    | some result =>
      refine (hadv.notifyPending entry result (Function.update_self ..) ?_).checkSnapshot
      intro f hf
      obtain ⟨future,hmem,_,hi⟩ := h.pending _ f hf
      have he := hi (Nat.lt_succ_self _)
      rw [hitem] at he
      exact ⟨future,hmem,(Option.some.inj he).symm⟩

theorem applyLoop (h : PendingInv n) (fuel : ℕ) : PendingInv (RaftNode.applyLoop fuel n).1 := by
  induction fuel generalizing n with
  | zero => exact h
  | succ fuel ih =>
    rw [RaftNode.applyLoop]
    split
    · split
      · exact ih h.applyNext
      · exact h.applyNext
    · exact h

theorem setCommitIndex (h : PendingInv n) (N : ℕ) :
    PendingInv (applyCommittedEntries { n with commitIndex := N }).1 :=
  PendingInv.applyLoop (n := { n with commitIndex := N }) ⟨h.snapshot,h.pending,h.resolved⟩ _

theorem updateCommitIndex (h : PendingInv n) : PendingInv n.updateCommitIndex := by
  rcases n.updateCommitIndex_cases with he | ⟨N,_,_,_,he⟩
  · rw [he]
    exact h
  · rw [he]
    exact h.setCommitIndex N

theorem updateTerm (h : PendingInv n) (t : ℕ) : PendingInv (n.updateTerm t) :=
  ⟨h.snapshot,h.pending,h.resolved⟩

theorem adoptTerm (h : PendingInv n) (t : ℕ) : PendingInv (n.adoptTerm t) := by
  unfold RaftNode.adoptTerm
  split
  · exact h.updateTerm t
  · exact h

theorem storeEntries (h : PendingInv n) {args : AppendArgs Id Cmd}
    (hk : ∀ i < n.log.len + 1, n.lastApplied < i → (n.pendingCommits i).isSome →
      Agrees n.log i (args.prevLogIndex + 1) args.entries) : PendingInv (n.storeEntries args).1 := by
  have hs : PendingInv { n with log := appendNewEntries n.log (args.prevLogIndex + 1) args.entries } := by
    refine h.setLog ?_ ?_
    · have hz : SameUpTo 0 n.log (appendNewEntries n.log (args.prevLogIndex + 1) args.entries) :=
        sameUpTo_appendNewEntries (Nat.zero_le _) (fun k _ _ hle => by omega)
      rw [hz.index]
      exact h.snapshot
    · intro i f e hf hlt he
      have hle := (RaftLog.getItem_some_le he).2
      have ha := hk i (by omega) hlt (by rw [hf]; rfl)
      rw [(sameUpTo_appendNewEntries hle ha).getItem i (le_refl i)]
      exact he
  unfold RaftNode.storeEntries followLeaderCommit
  split
  · exact hs.setCommitIndex _
  · exact hs

theorem handleAppendEntries (h : PendingInv n) {args : AppendArgs Id Cmd} (hk : n.keepsPending args) :
    PendingInv (n.handleAppendEntries args).1 := by
  have ha := h.adoptTerm args.term
  rcases n.handleAppendEntries_cases args with he | ⟨_,he⟩ | ⟨hle,hmatch,reply,he⟩
  · rw [he]
    exact h
  · rw [he]
    exact ha
  · rw [he]
    apply ha.storeEntries
    -- adopting the term only touches the stored term and vote
    have hkeep := hk hle hmatch
    unfold RaftNode.adoptTerm
    split
    · exact hkeep
    · exact hkeep

theorem submitCommand (h : PendingInv n) (command : Cmd) : PendingInv (n.submitCommand command).1 := by
  unfold RaftNode.submitCommand
  split
  · exact h
  dsimp only
  refine ⟨h.snapshot,?_,?_⟩
  · intro i f hf
    change Function.update n.pendingCommits (n.log.len + 1) (some n.futures.length) i = some f at hf
    by_cases hi : i = n.log.len + 1
    · subst i
      rw [Function.update_self] at hf
      cases hf
      exact ⟨_,List.getElem?_concat_length,rfl,fun _ => RaftLog.append_getItem_len n.log _⟩
    · rw [Function.update_of_ne hi] at hf
      obtain ⟨future,hmem,hidx,hitem⟩ := h.pending i f hf
      refine ⟨future,?_,hidx,?_⟩
      · exact List.getElem?_append_left (List.getElem?_eq_some_iff.mp hmem).1 ▸ hmem
      · intro hlt
        have he := hitem hlt
        have hle := (RaftLog.getItem_some_le he).2
        change (n.log.append _).getItem i = _
        rw [RaftLog.append_getItem_of_le _ hle]
        exact he
  · intro future hmem hres
    rcases List.mem_append.mp hmem with hmem | hmem
    · exact h.resolved future hmem hres
    · rw [List.mem_singleton.mp hmem] at hres
      cases hres

theorem appendEntriesReply [DecidableEq Id] (h : PendingInv n) (peer : Id) (args : AppendArgs Id Cmd)
    (replyTerm : ℕ) (success : Bool) : PendingInv (n.appendEntriesReply peer args replyTerm success) := by
  rcases n.appendEntriesReply_cases peer args replyTerm success with
    he | ⟨_,he⟩ | ⟨_,_,_,⟨_,_,he⟩ | ⟨_,next,_,he⟩⟩
  · rw [he]
    exact h
  · rw [he]
    exact h.updateTerm replyTerm
  · rw [he]
    exact PendingInv.updateCommitIndex ⟨h.snapshot,h.pending,h.resolved⟩
  · rw [he]
    exact ⟨h.snapshot,h.pending,h.resolved⟩

theorem call [DecidableEq Id] (h : PendingInv n) (m : Method Id Cmd)
    (hk : ∀ args, m = .handleAppendEntries args → n.keepsPending args) : PendingInv (n.call m) := by
  cases m with
  | start => exact ⟨h.snapshot,h.pending,h.resolved⟩
  | stop => exact ⟨h.snapshot,h.pending,h.resolved⟩
  | electionTimeout =>
    unfold RaftNode.call
    rcases n.electionTimeoutHandler_cases with he | ⟨_,_,he⟩
    · simpa only [he] using h
    · simp only [he]
      exact ⟨h.snapshot,h.pending,h.resolved⟩
  | handleRequestVote args =>
    unfold RaftNode.call
    have ha := h.adoptTerm args.term
    rcases n.handleRequestVote_cases args with he | ⟨_,he⟩ | ⟨_,_,_,he⟩
    · simpa only [he] using h
    · simpa only [he] using ha
    · simp only [he]
      exact ⟨ha.snapshot,ha.pending,ha.resolved⟩
  | requestVoteReply peer term replyTerm granted =>
    unfold RaftNode.call
    rcases n.requestVoteReply_cases peer term replyTerm granted with he | ⟨_,he⟩ | ⟨_,_,_,_,he | ⟨_,he⟩⟩
    · simpa only [he] using h
    · simpa only [he] using h.updateTerm replyTerm
    · simp only [he]
      exact ⟨h.snapshot,h.pending,h.resolved⟩
    · simp only [he]
      exact ⟨h.snapshot,h.pending,h.resolved⟩
  | handleAppendEntries args => exact h.handleAppendEntries (hk args rfl)
  | appendEntriesReply peer args replyTerm success => exact h.appendEntriesReply peer args replyTerm success
  | submitCommand command => exact h.submitCommand command

end PendingInv

theorem pendingInv_init (nodeId : Id) [DecidableEq Id] (peers : List Id) (interval : ℕ)
    (storage : Storage Id Cmd M.Snapshot) : PendingInv (init nodeId peers interval storage : RaftNode Id M) :=
  ⟨le_refl _,fun _ f hf => absurd hf.symm (Option.some_ne_none f),fun _ hmem => absurd hmem List.not_mem_nil⟩

end RaftNode

namespace Cluster
variable [DecidableEq Id]

/-- The guard of a step: no call overwrites an entry whose future still waits. -/
def KeepsPending (c : Cluster Id M) : Action Id Cmd → Prop
  | .handleAppendEntries k => ∀ call ∈ c.appendCalls[k]?, (c.nodes call.peer).keepsPending call.args
  | _ => True

instance (c : Cluster Id M) : (a : Action Id Cmd) → Decidable (c.KeepsPending a)
  | .handleAppendEntries k => inferInstanceAs (Decidable (∀ call ∈ c.appendCalls[k]?, _))
  | .start _ | .stop _ | .electionTimeout _ | .handleRequestVote _ | .failRequestVote _ | .requestVoteReply _ |
    .sendAppendEntries _ _ | .failAppendEntries _ | .appendEntriesReply _ | .submitCommand _ _ => isTrue trivial

theorem pendingInv_step (cfg : Config Id) {c : Cluster Id M} {a : Action Id Cmd}
    (h : ∀ i, (c.nodes i).PendingInv) (hk : c.KeepsPending a) (i : Id) :
    ((c.step cfg a).nodes i).PendingInv := by
  refine forall_nodes_step h ?_ i
  intro j m hm hj
  apply hj.call m
  rintro args rfl
  cases a with
  | handleAppendEntries k =>
    unfold method at hm
    dsimp only at hm
    cases hc : c.appendCalls[k]? with
    | none =>
      rw [hc] at hm
      cases hm
    | some call =>
      rw [hc] at hm
      cases hm
      exact hk call hc
  | start j =>
    unfold method at hm
    dsimp only at hm
    split at hm <;> cases hm
  | requestVoteReply k =>
    unfold method at hm
    dsimp only at hm
    cases hr : c.voteReplies[k]? <;> rw [hr] at hm <;> cases hm
  | handleRequestVote k =>
    unfold method at hm
    dsimp only at hm
    cases hr : c.voteCalls[k]? <;> rw [hr] at hm <;> cases hm
  | appendEntriesReply k =>
    unfold method at hm
    dsimp only at hm
    cases hr : c.appendReplies[k]? <;> rw [hr] at hm <;> cases hm
  | stop j => cases hm
  | electionTimeout j => cases hm
  | failRequestVote k => cases hm
  | sendAppendEntries j peer => cases hm
  | failAppendEntries k => cases hm
  | submitCommand j command => cases hm

/-- A resolved future reports the entry its `submit_command` call created, in every
run in which no AppendEntries call overwrites an entry with a waiting future. -/
theorem future_reports_own_entry (M : StateMachine Cmd) (cfg : Config Id) (schedule : List (Action Id Cmd))
    (h : Runs.Along (Cluster.step cfg) KeepsPending (Cluster.init M cfg) schedule) (i : Id) :
    ∀ future ∈ ((Runs.run (Cluster.step cfg) (Cluster.init M cfg) schedule).nodes i).futures,
      future.result.isSome = true →
      ((Runs.run (Cluster.step cfg) (Cluster.init M cfg) schedule).nodes i).applied future.entry.index =
        some future.entry := by
  have hinv := Runs.run_invariant (I := fun c : Cluster Id M => ∀ i, (c.nodes i).PendingInv)
    (fun c a hc hk => pendingInv_step cfg hc hk)
    (fun i => RaftNode.pendingInv_init i (cfg.peers i) (cfg.snapshotInterval i) Storage.empty) h
  intro future hmem hres
  exact ((hinv i).resolved future hmem hres).2

theorem future_reports_own_entry_committed :
    ∃ schedule : List (Action ℕ (KeyValueCommand ℕ ℕ)),
      (∃ future ∈ ((Runs.run (Cluster.step threeNodes) (Cluster.init (KeyValueStateMachine ℕ ℕ) threeNodes)
        schedule).nodes 0).futures, future.result.isSome = true) ∧
      ∀ future ∈ ((Runs.run (Cluster.step threeNodes) (Cluster.init (KeyValueStateMachine ℕ ℕ) threeNodes)
        schedule).nodes 0).futures, future.result.isSome = true →
        ((Runs.run (Cluster.step threeNodes) (Cluster.init (KeyValueStateMachine ℕ ℕ) threeNodes)
          schedule).nodes 0).applied future.entry.index = some future.entry :=
  ⟨[.start 0,.start 1,.start 2,.electionTimeout 0,.handleRequestVote 0,.requestVoteReply 0,
      .submitCommand 0 ⟨.set,some 1,some 10⟩,.sendAppendEntries 0 1,.handleAppendEntries 0,.appendEntriesReply 0],by decide,
    future_reports_own_entry (KeyValueStateMachine ℕ ℕ) threeNodes _ (by decide) 0⟩

/-- Node 0 leads term 1 and submits a command. Node 2 wins term 2 with the vote of
node 1, commits another command at index 1 and replicates it to node 0, whose
future then carries the result of the other command. -/
theorem future_reports_foreign_entry :
    ¬ ∀ (schedule : List (Action ℕ (KeyValueCommand ℕ ℕ))) (i : ℕ),
      ∀ future ∈ ((Runs.run (Cluster.step threeNodes) (Cluster.init (KeyValueStateMachine ℕ ℕ) threeNodes)
        schedule).nodes i).futures, future.result.isSome = true →
        ((Runs.run (Cluster.step threeNodes) (Cluster.init (KeyValueStateMachine ℕ ℕ) threeNodes)
          schedule).nodes i).applied future.entry.index = some future.entry := by
  intro h
  have he := h [.start 0,.start 1,.start 2,.electionTimeout 0,.handleRequestVote 0,.requestVoteReply 0,
    .submitCommand 0 ⟨.set,some 1,some 10⟩,.electionTimeout 2,.electionTimeout 2,.handleRequestVote 5,.requestVoteReply 1,
    .submitCommand 2 ⟨.set,some 2,some 20⟩,.sendAppendEntries 2 1,.handleAppendEntries 0,.appendEntriesReply 0,
    .sendAppendEntries 2 0,.handleAppendEntries 1] 0
  exact absurd he (by decide)

end Cluster

end DistributedSystems.Raft
