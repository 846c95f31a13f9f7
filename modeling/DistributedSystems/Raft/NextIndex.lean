import DistributedSystems.Raft.Safety
import DistributedSystems.Raft.ReplicationProgress

/-! # The range of next indices

A leader has a next index for every peer, and the entry before it is in its log or the log
begins there: it starts behind the last entry, falls by one with each failure and is set behind
what a peer acknowledged, which is never more than the leader has.
-/
namespace DistributedSystems.ReplicatedLog
variable {N E : Type*} [DecidableEq N] {τ : E → ℕ} {Q : QuorumSystem N} {ok : ℕ → E → Prop} {s s' : State N E}

theorem Inv.extends (h : Inv Q τ ok s) (hs : Steps Q τ ok s s') : Extends τ s s' := by
  induction hs with
  | refl => exact Extends.refl s
  | tail hs hstep ih =>
    have hmid := h.steps hs
    exact ih.trans (Extends.step hmid.voting hmid.matching hstep)

end DistributedSystems.ReplicatedLog

namespace DistributedSystems.Raft
open ReplicatedLog
variable {Id Cmd : Type} [DecidableEq Id] {M : StateMachine Cmd} {cfg : Config Id}

namespace RaftNode

/-- The next index of a leader for each peer. -/
def InRange (n : RaftNode Id M) : Prop :=
  n.state = .leader → ∀ p ∈ n.peers, ∃ next, n.nextIndex p = some next ∧ 0 < next ∧ next ≤ n.log.len + 1

/-- What a method that ends in a leader did to the next indices. -/
inductive NextStep (n n' : RaftNode Id M) : Prop
  | same (hwindow : n'.window = n.window)
  | elected (hnext : ∀ p ∈ n'.peers, n'.nextIndex p = some (n'.log.len + 1))
  | failed (peer : Id) (next : ℕ) (hold : n.nextIndex peer = some next) (hstate : n.state = .leader)
      (hpeers : n'.peers = n.peers) (hnext : n'.nextIndex = Function.update n.nextIndex peer (some (max 1 (next - 1))))
  | counted (peer : Id) (matched : ℕ) (hstate : n.state = .leader) (hpeers : n'.peers = n.peers)
      (hnext : n'.nextIndex = Function.update n.nextIndex peer (some (matched + 1)))
      (hmatch : n'.matchIndex peer = some matched)

omit [DecidableEq Id] in
theorem adoptTerm_of_leader {n : RaftNode Id M} {t : ℕ} (h : (n.adoptTerm t).state = .leader) : n.adoptTerm t = n := by
  unfold adoptTerm at h ⊢
  split at h
  · cases h
  · rename_i hle
    rw [if_neg hle]

/-- Next indices change where a leadership begins, and where a reply is handled. -/
theorem nextStep_call (n : RaftNode Id M) (m : Method Id Cmd) (hl : (n.call m).state = .leader) : NextStep n (n.call m) := by
  cases m with
  | start => exact .same rfl
  | stop => exact .same rfl
  | electionTimeout =>
    change n.electionTimeoutHandler.1.state = .leader at hl
    change NextStep n n.electionTimeoutHandler.1
    rcases n.electionTimeoutHandler_cases with he | ⟨-,-,he⟩
    · rw [he]
      exact .same rfl
    · rw [he] at hl
      cases hl
  | handleRequestVote args =>
    change (n.handleRequestVote args).1.state = .leader at hl
    change NextStep n (n.handleRequestVote args).1
    rcases n.handleRequestVote_cases args with he | ⟨-,he⟩ | ⟨-,-,-,he⟩
    · rw [he]
      exact .same rfl
    · rw [he] at hl ⊢
      exact .same (n.window_adoptTerm args.term hl)
    · rw [he] at hl ⊢
      exact .same (n.window_adoptTerm args.term hl)
  | requestVoteReply peer term replyTerm granted =>
    change (n.requestVoteReply peer term replyTerm granted).state = .leader at hl
    change NextStep n (n.requestVoteReply peer term replyTerm granted)
    rcases n.requestVoteReply_cases peer term replyTerm granted with he | ⟨-,he⟩ | ⟨-,-,-,-,he | ⟨-,he⟩⟩
    · rw [he]
      exact .same rfl
    · rw [he] at hl
      cases hl
    · rw [he]
      exact .same rfl
    · rw [he]
      exact .elected fun p hp => if_pos hp
  | handleAppendEntries args =>
    change (n.handleAppendEntries args).1.state = .leader at hl
    change NextStep n (n.handleAppendEntries args).1
    rcases n.handleAppendEntries_cases args with he | ⟨_,he⟩ | ⟨_,_,reply,he⟩
    · rw [he]
      exact .same rfl
    · rw [he] at hl ⊢
      exact .same (n.window_adoptTerm args.term hl)
    · have hw := window_storeEntries (n.adoptTerm args.term) args
      rw [he] at hl ⊢
      exact .same (hw.trans (n.window_adoptTerm args.term ((congrArg Prod.fst hw).symm.trans hl)))
  | appendEntriesReply peer args replyTerm success =>
    change (n.appendEntriesReply peer args replyTerm success).state = .leader at hl
    change NextStep n (n.appendEntriesReply peer args replyTerm success)
    rcases n.appendEntriesReply_cases peer args replyTerm success with
      he | ⟨-,he⟩ | ⟨-,hstate,-,⟨-,-,he⟩ | ⟨-,next,hnext,he⟩⟩
    · rw [he]
      exact .same rfl
    · rw [he] at hl
      cases hl
    · have hw := window_updateCommitIndex { n with
        matchIndex := Function.update n.matchIndex peer (some (args.prevLogIndex + args.entries.length))
        nextIndex := Function.update n.nextIndex peer (some (args.prevLogIndex + args.entries.length + 1)) }
      simp only [window,Prod.mk.injEq] at hw
      obtain ⟨-,hpeers,hnext,hmatch⟩ := hw
      rw [he]
      exact .counted peer (args.prevLogIndex + args.entries.length) hstate hpeers hnext
        ((congrFun hmatch peer).trans (Function.update_self ..))
    · rw [he]
      exact .failed peer next hnext hstate rfl rfl
  | submitCommand command =>
    change NextStep n (n.submitCommand command).1
    unfold submitCommand
    split
    · exact .same rfl
    · exact .same rfl

/-- A leader that still leads is in the same term. -/
theorem currentTerm_call {n : RaftNode Id M} (hl : n.state = .leader) (m : Method Id Cmd)
    (hl' : (n.call m).state = .leader) : (n.call m).currentTerm = n.currentTerm := by
  cases m with
  | start | stop => rfl
  | electionTimeout =>
    change n.electionTimeoutHandler.1.currentTerm = n.currentTerm
    rcases n.electionTimeoutHandler_cases with he | ⟨-,hne,-⟩
    · rw [he]
    · exact absurd hl hne
  | handleRequestVote args =>
    change (n.handleRequestVote args).1.state = .leader at hl'
    change (n.handleRequestVote args).1.currentTerm = n.currentTerm
    rcases n.handleRequestVote_cases args with he | ⟨-,he⟩ | ⟨-,-,-,he⟩
    · rw [he]
    · rw [he] at hl' ⊢
      exact congrArg currentTerm (adoptTerm_of_leader hl')
    · rw [he] at hl' ⊢
      have hadopt : n.adoptTerm args.term = n := adoptTerm_of_leader hl'
      change (n.adoptTerm args.term).currentTerm = n.currentTerm
      rw [hadopt]
  | requestVoteReply peer term replyTerm granted =>
    change (n.requestVoteReply peer term replyTerm granted).currentTerm = n.currentTerm
    unfold requestVoteReply
    rw [if_pos (Or.inr (by rw [hl]; decide))]
  | handleAppendEntries args =>
    change (n.handleAppendEntries args).1.state = .leader at hl'
    change (n.handleAppendEntries args).1.currentTerm = n.currentTerm
    rcases n.handleAppendEntries_cases args with he | ⟨_,he⟩ | ⟨_,_,reply,he⟩
    · rw [he]
    · rw [he] at hl' ⊢
      exact congrArg currentTerm (adoptTerm_of_leader hl')
    · have hb := ballot_storeEntries (n.adoptTerm args.term) args
      rw [he] at hl' ⊢
      have hterm := congrArg Ballot.currentTerm hb
      have hadopt := adoptTerm_of_leader ((congrArg Ballot.state hb).symm.trans hl')
      exact hterm.trans (congrArg currentTerm hadopt)
  | appendEntriesReply peer args replyTerm success =>
    change (n.appendEntriesReply peer args replyTerm success).state = .leader at hl'
    change (n.appendEntriesReply peer args replyTerm success).currentTerm = n.currentTerm
    rcases n.appendEntriesReply_cases peer args replyTerm success with
      he | ⟨-,he⟩ | ⟨-,-,-,⟨-,-,he⟩ | ⟨-,next,-,he⟩⟩
    · rw [he]
    · rw [he] at hl'
      cases hl'
    · rw [he]
      exact congrArg Ballot.currentTerm (ballot_updateCommitIndex _)
    · rw [he]
  | submitCommand command =>
    change (n.submitCommand command).1.currentTerm = n.currentTerm
    unfold submitCommand
    split
    · rfl
    · rfl

/-- The range is kept where a leader loses no entries, and has what its peers acknowledged. -/
theorem InRange.next {n n' : RaftNode Id M} (h : n.InRange)
    (hlen : n.state = .leader → n'.state = .leader → n.log.len ≤ n'.log.len)
    (hmatched : n'.state = .leader → ∀ p m, n'.matchIndex p = some m → m ≤ n'.log.len)
    (hstep : n'.state = .leader → NextStep n n') : n'.InRange := by
  intro hl p hp
  cases hstep hl with
  | same hwindow =>
    simp only [window,Prod.mk.injEq] at hwindow
    obtain ⟨hstate,hpeers,hnext,-⟩ := hwindow
    rw [hl] at hstate
    obtain ⟨next,hsome,hpos,hle⟩ := h hstate.symm p (hpeers ▸ hp)
    exact ⟨next,hnext ▸ hsome,hpos,hle.trans (Nat.succ_le_succ (hlen hstate.symm hl))⟩
  | elected hnext => exact ⟨_,hnext p hp,Nat.succ_pos _,le_refl _⟩
  | failed peer next hold hstate hpeers hnext =>
    have hlen := hlen hstate hl
    obtain ⟨old,hsome,hpos,hle⟩ := h hstate p (hpeers ▸ hp)
    rw [hnext]
    by_cases hpeer : p = peer
    · subst hpeer
      rw [hold] at hsome
      obtain rfl := Option.some.inj hsome
      exact ⟨max 1 (next - 1),Function.update_self ..,by omega,by omega⟩
    · exact ⟨old,by rw [Function.update_of_ne hpeer,hsome],hpos,by omega⟩
  | counted peer matched hstate hpeers hnext hmatch =>
    have hlen := hlen hstate hl
    obtain ⟨old,hsome,hpos,hle⟩ := h hstate p (hpeers ▸ hp)
    rw [hnext]
    by_cases hpeer : p = peer
    · subst hpeer
      exact ⟨matched + 1,Function.update_self ..,Nat.succ_pos _,Nat.succ_le_succ (hmatched hl p matched hmatch)⟩
    · exact ⟨old,by rw [Function.update_of_ne hpeer,hsome],hpos,by omega⟩

end RaftNode

namespace Refines
variable {c c' : Cluster Id M} {s s' : Abstract Id Cmd}

/-- A leader has what its peers acknowledged. -/
theorem matched_le_len (h : Refines cfg c s) {i p : Id} {m : ℕ} (hl : (c.nodes i).state = .leader)
    (hv : Cluster.VoteInv cfg c) (hm : (c.nodes i).matchIndex p = some m) : m ≤ (c.nodes i).log.len := by
  have hi := h.node i
  have hlead := (hi.leader _).mpr ((hv.node i).leading.mp hl)
  have hlog : s.log i = s.leaderLog (c.nodes i).currentTerm := h.inv.matching.leading _ i hlead hi.term
  have hacked := hi.matched hl p m hm
  rw [hi.holds.log.len,hlog]
  rcases Nat.eq_zero_or_pos (s.acked p (c.nodes i).currentTerm) with hzero | hpos
  · omega
  · exact hacked.trans (h.inv.matching.acked p _ hpos).2.2

/-- A leader that leads on in its term keeps its entries. -/
theorem len_le (h : Refines cfg c s) (hv : Cluster.VoteInv cfg c) (h' : Refines cfg c' s')
    (hv' : Cluster.VoteInv cfg c') (hs : Steps (quorums cfg) LogEntry.term Positioned s s') {i : Id}
    (hl : (c.nodes i).state = .leader) (hl' : (c'.nodes i).state = .leader)
    (hterm : (c'.nodes i).currentTerm = (c.nodes i).currentTerm) : (c.nodes i).log.len ≤ (c'.nodes i).log.len := by
  have hi := h.node i
  have hi' := h'.node i
  have hlead := (hi.leader _).mpr ((hv.node i).leading.mp hl)
  have hlead' := (hi'.leader _).mpr ((hv'.node i).leading.mp hl')
  have hlog : s.log i = s.leaderLog (c.nodes i).currentTerm := h.inv.matching.leading _ i hlead hi.term
  have hlog' : s'.log i = s'.leaderLog (c'.nodes i).currentTerm := h'.inv.matching.leading _ i hlead' hi'.term
  rw [hi.holds.log.len,hi'.holds.log.len,hlog,hlog',hterm]
  exact ((h.inv.extends hs).grows.prefix_leaderLog ⟨i,hlead⟩).length_le

end Refines

namespace Cluster

/-- In guarded runs the next indices of leaders stay in range. -/
theorem inRange_run {schedule : List (Action Id Cmd)} (h : Runs.Along (Cluster.step cfg) Sound (Cluster.init M cfg) schedule)
    (i : Id) : ((Runs.run (Cluster.step cfg) (Cluster.init M cfg) schedule).nodes i).InRange := by
  have hrun := Runs.run_invariant (P := Sound) (I := fun c : Cluster Id M => (∃ s, Refines cfg c s) ∧ VoteInv cfg c ∧
    ∀ i, (c.nodes i).InRange) ?_ ⟨⟨_,Refines.init M cfg⟩,VoteInv.init M cfg,fun i hl => by cases hl⟩ h
  · exact hrun.2.2 i
  rintro c a ⟨⟨s,href⟩,hv,hrange⟩ ha
  obtain ⟨s',hs,href'⟩ := href.step hv a ha
  have hv' := hv.step a ha.1
  refine ⟨⟨s',href'⟩,hv',fun i => ?_⟩
  have hnode := congrFun (step_nodes cfg c a) i
  cases hm : c.method cfg a with
  | none =>
    rw [hm] at hnode
    rw [hnode]
    exact hrange i
  | some im =>
    obtain ⟨j,m⟩ := im
    rw [hm] at hnode
    by_cases hij : i = j
    · subst hij
      have hcall : (c.step cfg a).nodes i = (c.nodes i).call m := hnode.trans (Function.update_self ..)
      refine (hrange i).next (fun hl hl' => ?_) (fun hl' p k hk => href'.matched_le_len hl' hv' hk) fun hl' => ?_
      · refine href.len_le hv href' hv' hs hl hl' ?_
        rw [hcall] at hl' ⊢
        exact RaftNode.currentTerm_call hl m hl'
      · rw [hcall] at hl' ⊢
        exact RaftNode.nextStep_call _ m hl'
    · rw [hnode]
      simpa [Function.update_of_ne hij] using hrange i

end Cluster

end DistributedSystems.Raft
