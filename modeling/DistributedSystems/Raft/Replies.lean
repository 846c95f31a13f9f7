import DistributedSystems.Raft.ClientFutures
import DistributedSystems.Raft.CompactionTransparency

/-! # What futures report

A future is resolved with what `apply` returned at the index of its entry, when the state
machine had seen the entries applied before. Futures keep their entries, and only a leader
adds one.
-/
namespace DistributedSystems.Raft

namespace RaftNode
variable {Id Cmd : Type} {M : StateMachine Cmd} {n : RaftNode Id M}

/-- The entries applied at the first `m` indices. -/
def appliedUpTo (n : RaftNode Id M) (m : ℕ) : List (LogEntry Cmd) := (List.range m).filterMap fun k => n.applied (k + 1)

theorem appliedUpTo_congr {n' : RaftNode Id M} {m : ℕ} (h : ∀ k, k ≤ m → n'.applied k = n.applied k) :
    n'.appliedUpTo m = n.appliedUpTo m := by
  refine List.filterMap_congr fun k hk => ?_
  exact h (k + 1) (List.mem_range.mp hk)

theorem appliedUpTo_succ (n : RaftNode Id M) (m : ℕ) :
    n.appliedUpTo (m + 1) = n.appliedUpTo m ++ (n.applied (m + 1)).toList := by
  unfold appliedUpTo
  rw [List.range_succ,List.filterMap_append]
  cases h : n.applied (m + 1) with
  | none => simp [h]
  | some e => simp [h]

/-- What the state machine answers to the entry that was applied at an index. -/
def Replied (n : RaftNode Id M) (index : ℕ) (r : M.Result) : Prop :=
  0 < index ∧ index ≤ n.lastApplied ∧ ∃ e, n.applied index = some e ∧
    (M.apply (replay M (n.appliedUpTo (index - 1))) e.command).2 = some r

/-- The store is the one of a replay, and every result is the reply to the entry at its index. -/
structure Replays (n : RaftNode Id M) : Prop where
  store : n.stateMachine = replay M (n.appliedUpTo n.lastApplied)
  above : ∀ k, n.lastApplied < k → n.applied k = none
  waiting : ∀ i f, n.pendingCommits i = some f → ∃ future, n.futures[f]? = some future ∧ future.entry.index = i
  results : ∀ future ∈ n.futures, ∀ r, future.result = some r → n.Replied future.entry.index r

namespace Replays

/-- Nothing is at the next index, and the applied mark passes it. -/
theorem skip (h : Replays n) : Replays { n with lastApplied := n.lastApplied + 1 } where
  store := by
    have hnone := h.above (n.lastApplied + 1) (Nat.lt_succ_self _)
    have he : n.appliedUpTo (n.lastApplied + 1) = n.appliedUpTo n.lastApplied := by
      rw [appliedUpTo_succ,hnone,Option.toList_none,List.append_nil]
    exact h.store.trans (congrArg (replay M) he.symm)
  above k hk := h.above k (Nat.lt_of_succ_lt hk)
  waiting := h.waiting
  results future hf r hr := by
    obtain ⟨hpos,hle,hreply⟩ := h.results future hf r hr
    exact ⟨hpos,Nat.le_succ_of_le hle,hreply⟩

theorem advance (h : Replays n) (entry : LogEntry Cmd) :
    Replays { n with
      lastApplied := n.lastApplied + 1
      stateMachine := (M.apply n.stateMachine entry.command).1
      applied := Function.update n.applied (n.lastApplied + 1) (some entry) } := by
  set n' : RaftNode Id M := { n with
    lastApplied := n.lastApplied + 1
    stateMachine := (M.apply n.stateMachine entry.command).1
    applied := Function.update n.applied (n.lastApplied + 1) (some entry) } with hn'
  have hold : ∀ k, k ≤ n.lastApplied → n'.applied k = n.applied k :=
    fun k hk => Function.update_of_ne (by omega) ..
  have hnew : n'.applied (n.lastApplied + 1) = some entry := Function.update_self ..
  refine ⟨?_,fun k hk => ?_,h.waiting,fun future hf r hr => ?_⟩
  · have happlied : n'.appliedUpTo (n.lastApplied + 1) = n.appliedUpTo n.lastApplied ++ [entry] := by
      rw [appliedUpTo_succ,appliedUpTo_congr hold,hnew,Option.toList_some]
    change (M.apply n.stateMachine entry.command).1 = replay M (n'.appliedUpTo (n.lastApplied + 1))
    rw [happlied,h.store]
    unfold replay
    rw [List.foldl_append]
    rfl
  · have hlt : n.lastApplied + 1 < k := hk
    exact (Function.update_of_ne (by omega) ..).trans (h.above k (by omega))
  · obtain ⟨hpos,hle,e,he,hreply⟩ := h.results future hf r hr
    refine ⟨hpos,Nat.le_succ_of_le hle,e,(hold _ hle).trans he,?_⟩
    rw [appliedUpTo_congr fun k hk => hold k (by omega)]
    exact hreply

theorem setLog (h : Replays n) (log : RaftLog Id Cmd M.Snapshot) : Replays { n with log := log } :=
  ⟨h.store,h.above,h.waiting,h.results⟩

theorem checkSnapshot (h : Replays n) : Replays n.checkSnapshot := by
  rcases n.checkSnapshot_cases with he | ⟨_,t,_,he⟩
  · rw [he]
    exact h
  · rw [he]
    exact h.setLog _

/-- The reply goes to the future that waits for the index just applied. -/
theorem notifyPending (h : Replays n) {r : M.Result} (hr : n.Replied n.lastApplied r) : Replays (n.notifyPending r) := by
  unfold RaftNode.notifyPending
  cases hf : n.pendingCommits n.lastApplied with
  | none => exact h
  | some f =>
    dsimp only
    obtain ⟨waiting,hwaiting,hindex⟩ := h.waiting _ f hf
    refine ⟨h.store,h.above,fun i g hg => ?_,fun future hmem r' hr' => ?_⟩
    · change Function.update n.pendingCommits n.lastApplied none i = some g at hg
      have hi : i ≠ n.lastApplied := by
        rintro rfl
        rw [Function.update_self] at hg
        cases hg
      rw [Function.update_of_ne hi] at hg
      obtain ⟨future,hfuture,hat⟩ := h.waiting i g hg
      have hne : f ≠ g := by
        rintro rfl
        rw [hwaiting] at hfuture
        exact hi (hat.symm.trans (Option.some.inj hfuture ▸ hindex))
      exact ⟨future,(List.getElem?_modify_ne _ _ hne).trans hfuture,hat⟩
    · obtain ⟨g,hg⟩ := List.mem_iff_getElem?.mp hmem
      change (n.futures.modify f _)[g]? = _ at hg
      by_cases hfg : f = g
      · subst hfg
        rw [List.getElem?_modify_eq,hwaiting] at hg
        obtain rfl := Option.some.inj hg
        obtain rfl := Option.some.inj hr'
        change n.Replied waiting.entry.index r
        rw [hindex]
        exact hr
      · rw [List.getElem?_modify_ne _ _ hfg] at hg
        exact h.results future (List.mem_of_getElem? hg) r' hr'

theorem applyNext (h : Replays n) : Replays n.applyNext.1 := by
  unfold RaftNode.applyNext
  dsimp only
  cases hitem : n.log.getItem (n.lastApplied + 1) with
  | none => exact h.skip
  | some entry =>
    have hadvance := h.advance entry
    dsimp only
    cases hout : (M.apply n.stateMachine entry.command).2 with
    | none => exact hadvance
    | some r =>
      refine (hadvance.notifyPending ?_).checkSnapshot
      refine ⟨Nat.succ_pos _,le_refl _,entry,Function.update_self ..,?_⟩
      have hbefore : RaftNode.appliedUpTo { n with
          lastApplied := n.lastApplied + 1
          stateMachine := (M.apply n.stateMachine entry.command).1
          applied := Function.update n.applied (n.lastApplied + 1) (some entry) } n.lastApplied =
          n.appliedUpTo n.lastApplied :=
        appliedUpTo_congr fun k hk => Function.update_of_ne (by omega) ..
      change (M.apply (replay M (RaftNode.appliedUpTo _ n.lastApplied)) entry.command).2 = some r
      rw [hbefore,← h.store]
      exact hout

theorem applyLoop (h : Replays n) (fuel : ℕ) : Replays (RaftNode.applyLoop fuel n).1 := by
  induction fuel generalizing n with
  | zero => exact h
  | succ fuel ih =>
    rw [RaftNode.applyLoop]
    split
    · split
      · exact ih h.applyNext
      · exact h.applyNext
    · exact h

theorem setCommitIndex (h : Replays n) (N : ℕ) : Replays (applyCommittedEntries { n with commitIndex := N }).1 :=
  Replays.applyLoop (n := { n with commitIndex := N }) ⟨h.store,h.above,h.waiting,h.results⟩ _

theorem updateCommitIndex (h : Replays n) : Replays n.updateCommitIndex := by
  rcases n.updateCommitIndex_cases with he | ⟨N,_,_,_,he⟩
  · rw [he]
    exact h
  · rw [he]
    exact h.setCommitIndex N

theorem adoptTerm (h : Replays n) (t : ℕ) : Replays (n.adoptTerm t) := by
  unfold RaftNode.adoptTerm
  split
  · exact ⟨h.store,h.above,h.waiting,h.results⟩
  · exact h

theorem storeEntries (h : Replays n) (args : AppendArgs Id Cmd) : Replays (n.storeEntries args).1 := by
  have hlog := h.setLog (appendNewEntries n.log (args.prevLogIndex + 1) args.entries)
  unfold RaftNode.storeEntries followLeaderCommit
  split
  · exact hlog.setCommitIndex _
  · exact hlog

theorem submitCommand (h : Replays n) (command : Cmd) : Replays (n.submitCommand command).1 := by
  unfold RaftNode.submitCommand
  split
  · exact h
  refine ⟨h.store,h.above,fun i f hf => ?_,fun future hmem r hr => ?_⟩
  · change Function.update n.pendingCommits (n.log.len + 1) (some n.futures.length) i = some f at hf
    by_cases hi : i = n.log.len + 1
    · subst hi
      rw [Function.update_self] at hf
      cases hf
      exact ⟨_,List.getElem?_concat_length,rfl⟩
    · rw [Function.update_of_ne hi] at hf
      obtain ⟨future,hfuture,hat⟩ := h.waiting i f hf
      exact ⟨future,(List.getElem?_append_left (List.getElem?_eq_some_iff.mp hfuture).1).trans hfuture,hat⟩
  · rcases List.mem_append.mp hmem with hmem | hmem
    · exact h.results future hmem r hr
    · rw [List.mem_singleton.mp hmem] at hr
      cases hr

theorem call [DecidableEq Id] (h : Replays n) (m : Method Id Cmd) : Replays (n.call m) := by
  cases m with
  | start | stop => exact ⟨h.store,h.above,h.waiting,h.results⟩
  | electionTimeout =>
    change Replays n.electionTimeoutHandler.1
    rcases n.electionTimeoutHandler_cases with he | ⟨_,_,he⟩
    · rw [he]
      exact h
    · rw [he]
      exact ⟨h.store,h.above,h.waiting,h.results⟩
  | handleRequestVote args =>
    change Replays (n.handleRequestVote args).1
    have ha := h.adoptTerm args.term
    rcases n.handleRequestVote_cases args with he | ⟨_,he⟩ | ⟨_,_,_,he⟩
    · rw [he]
      exact h
    · rw [he]
      exact ha
    · rw [he]
      exact ⟨ha.store,ha.above,ha.waiting,ha.results⟩
  | requestVoteReply peer term replyTerm granted =>
    change Replays (n.requestVoteReply peer term replyTerm granted)
    rcases n.requestVoteReply_cases peer term replyTerm granted with he | ⟨_,he⟩ | ⟨_,_,_,_,he | ⟨_,he⟩⟩
    · rw [he]
      exact h
    · rw [he]
      exact ⟨h.store,h.above,h.waiting,h.results⟩
    · rw [he]
      exact ⟨h.store,h.above,h.waiting,h.results⟩
    · rw [he]
      exact ⟨h.store,h.above,h.waiting,h.results⟩
  | handleAppendEntries args =>
    change Replays (n.handleAppendEntries args).1
    have ha := h.adoptTerm args.term
    rcases n.handleAppendEntries_cases args with he | ⟨_,he⟩ | ⟨_,_,reply,he⟩
    · rw [he]
      exact h
    · rw [he]
      exact ha
    · rw [he]
      exact ha.storeEntries args
  | appendEntriesReply peer args replyTerm success =>
    change Replays (n.appendEntriesReply peer args replyTerm success)
    rcases n.appendEntriesReply_cases peer args replyTerm success with
      he | ⟨_,he⟩ | ⟨_,_,_,⟨_,_,he⟩ | ⟨_,next,_,he⟩⟩
    · rw [he]
      exact h
    · rw [he]
      exact ⟨h.store,h.above,h.waiting,h.results⟩
    · rw [he]
      exact Replays.updateCommitIndex ⟨h.store,h.above,h.waiting,h.results⟩
    · rw [he]
      exact ⟨h.store,h.above,h.waiting,h.results⟩
  | submitCommand command => exact h.submitCommand command

end Replays

theorem replays_init [DecidableEq Id] (nodeId : Id) (peers : List Id) (interval : ℕ) :
    Replays (init nodeId peers interval Storage.empty : RaftNode Id M) where
  store := rfl
  above _ _ := rfl
  waiting _ _ h := by cases h
  results _ hmem := absurd hmem List.not_mem_nil

/-- The entries that futures were handed out for. -/
def submitted (n : RaftNode Id M) : List (LogEntry Cmd) := n.futures.map Future.entry

theorem submitted_notifyPending (n : RaftNode Id M) (r : M.Result) : (n.notifyPending r).submitted = n.submitted := by
  unfold notifyPending
  cases n.pendingCommits n.lastApplied with
  | none => rfl
  | some f =>
    refine List.ext_getElem? fun k => ?_
    unfold submitted
    rw [List.getElem?_map,List.getElem?_map,List.getElem?_modify]
    cases n.futures[k]? with
    | none => rfl
    | some future =>
      split
      · rfl
      · rfl

theorem submitted_applyNext (n : RaftNode Id M) : n.applyNext.1.submitted = n.submitted := by
  have hcheck : ∀ n : RaftNode Id M, n.checkSnapshot.submitted = n.submitted := frame_checkSnapshot fun _ _ => rfl
  unfold applyNext
  dsimp only
  cases n.log.getItem (n.lastApplied + 1) with
  | none => rfl
  | some entry =>
    dsimp only
    cases (M.apply n.stateMachine entry.command).2 with
    | none => rfl
    | some r => exact (hcheck _).trans (submitted_notifyPending _ r)

theorem submitted_applyLoop (fuel : ℕ) (n : RaftNode Id M) : (applyLoop fuel n).1.submitted = n.submitted := by
  induction fuel generalizing n with
  | zero => rfl
  | succ fuel ih =>
    rw [applyLoop]
    split
    · split
      · rw [ih,submitted_applyNext]
      · exact submitted_applyNext n
    · rfl

theorem submitted_updateCommitIndex (n : RaftNode Id M) : n.updateCommitIndex.submitted = n.submitted := by
  rcases n.updateCommitIndex_cases with he | ⟨N,_,_,_,he⟩
  · rw [he]
  · rw [he]
    exact submitted_applyLoop _ { n with commitIndex := N }

theorem submitted_adoptTerm [DecidableEq Id] (n : RaftNode Id M) (t : ℕ) : (n.adoptTerm t).submitted = n.submitted := by
  unfold adoptTerm
  split
  · rfl
  · rfl

/-- Only a leader hands out a future, for the entry it appends. -/
theorem submitted_call [DecidableEq Id] (n : RaftNode Id M) (m : Method Id Cmd) :
    (n.call m).submitted = n.submitted ∨ ∃ command, m = .submitCommand command ∧ n.state = .leader ∧
      (n.call m).submitted = n.submitted ++ [⟨n.currentTerm,n.log.len + 1,command⟩] := by
  cases m with
  | start | stop => exact Or.inl rfl
  | electionTimeout =>
    left
    change n.electionTimeoutHandler.1.submitted = n.submitted
    rcases n.electionTimeoutHandler_cases with he | ⟨_,_,he⟩
    · rw [he]
    · rw [he]
      rfl
  | handleRequestVote args =>
    left
    change (n.handleRequestVote args).1.submitted = n.submitted
    have ha := n.submitted_adoptTerm args.term
    rcases n.handleRequestVote_cases args with he | ⟨_,he⟩ | ⟨_,_,_,he⟩
    · rw [he]
    · rw [he]
      exact ha
    · rw [he]
      exact ha
  | requestVoteReply peer term replyTerm granted =>
    left
    change (n.requestVoteReply peer term replyTerm granted).submitted = n.submitted
    rcases n.requestVoteReply_cases peer term replyTerm granted with he | ⟨_,he⟩ | ⟨_,_,_,_,he | ⟨_,he⟩⟩
    · rw [he]
    · rw [he]
      rfl
    · rw [he]
      rfl
    · rw [he]
      rfl
  | handleAppendEntries args =>
    left
    change (n.handleAppendEntries args).1.submitted = n.submitted
    have ha := n.submitted_adoptTerm args.term
    rcases n.handleAppendEntries_cases args with he | ⟨_,he⟩ | ⟨_,_,reply,he⟩
    · rw [he]
    · rw [he]
      exact ha
    · rw [he,← ha]
      unfold storeEntries followLeaderCommit
      split
      · exact submitted_applyLoop ..
      · rfl
  | appendEntriesReply peer args replyTerm success =>
    left
    change (n.appendEntriesReply peer args replyTerm success).submitted = n.submitted
    rcases n.appendEntriesReply_cases peer args replyTerm success with
      he | ⟨_,he⟩ | ⟨_,_,_,⟨_,_,he⟩ | ⟨_,next,_,he⟩⟩
    · rw [he]
    · rw [he]
      rfl
    · rw [he]
      exact submitted_updateCommitIndex _
    · rw [he]
      rfl
  | submitCommand command =>
    change (n.submitCommand command).1.submitted = n.submitted ∨ _
    change _ ∨ ∃ command', _ ∧ _ ∧ (n.submitCommand command).1.submitted = _
    unfold submitCommand
    split
    · exact Or.inl rfl
    · rename_i hstate
      exact Or.inr ⟨command,rfl,not_not.mp hstate,List.map_append⟩

end RaftNode

namespace Cluster
variable {Id Cmd : Type} [DecidableEq Id] {M : StateMachine Cmd}

theorem replays_run (cfg : Config Id) (schedule : List (Action Id Cmd)) (i : Id) :
    ((Runs.run (Cluster.step cfg) (Cluster.init M cfg) schedule).nodes i).Replays := by
  refine Runs.run_invariant_of_step (I := fun c : Cluster Id M => ∀ i, (c.nodes i).Replays) ?_ (fun i => ?_) schedule i
  · exact fun c a h => forall_nodes_step h fun i m _ hi => hi.call m
  · exact RaftNode.replays_init ..

end Cluster

end DistributedSystems.Raft
