import DistributedSystems.Raft.Simulation

/-! # The cluster refines the abstract protocol

Messages carry facts about the abstract state that never expire. Every step of the
cluster is answered by protocol steps, except where a stale vote or a stale success
is counted, or a snapshot hides a conflict; the guard of a run excludes these three.
-/
namespace DistributedSystems.Raft
open ReplicatedLog
variable {Id Cmd : Type} [DecidableEq Id] {M : StateMachine Cmd}

namespace Cluster

/-- A success that a leader counts belongs to a call of its current term. -/
def FreshAppendReply (c : Cluster Id M) : Action Id Cmd → Prop
  | .appendEntriesReply k => ∀ r ∈ c.appendReplies[k]?,
    let n := c.nodes r.call.args.leaderId
    n.running = true → r.replyTerm ≤ n.currentTerm → n.state = .leader → r.success = true →
      0 < r.call.args.entries.length → r.call.args.term = n.currentTerm
  | _ => True

instance (c : Cluster Id M) : (a : Action Id Cmd) → Decidable (c.FreshAppendReply a)
  | .appendEntriesReply k => inferInstanceAs (Decidable (∀ r ∈ c.appendReplies[k]?, _))
  | .start _ | .stop _ | .electionTimeout _ | .handleRequestVote _ | .failRequestVote _ | .requestVoteReply _ |
    .sendAppendEntries _ _ | .handleAppendEntries _ | .failAppendEntries _ | .submitCommand _ _ => isTrue trivial

/-- The entries of an accepted call that a snapshot covers have the snapshot's term. -/
def SnapshotTerms (c : Cluster Id M) : Action Id Cmd → Prop
  | .handleAppendEntries k => ∀ call ∈ c.appendCalls[k]?,
    let n := c.nodes call.peer
    n.currentTerm ≤ call.args.term → n.log.matchLog call.args.prevLogIndex call.args.prevLogTerm = true →
      SnapshotAgrees n.log (call.args.prevLogIndex + 1) call.args.entries
  | _ => True

instance (c : Cluster Id M) : (a : Action Id Cmd) → Decidable (c.SnapshotTerms a)
  | .handleAppendEntries k => inferInstanceAs (Decidable (∀ call ∈ c.appendCalls[k]?, _))
  | .start _ | .stop _ | .electionTimeout _ | .handleRequestVote _ | .failRequestVote _ | .requestVoteReply _ |
    .sendAppendEntries _ _ | .failAppendEntries _ | .appendEntriesReply _ | .submitCommand _ _ => isTrue trivial

/-- The guard of a step under which the cluster follows the protocol. -/
def Sound (c : Cluster Id M) (a : Action Id Cmd) : Prop :=
  c.FreshVotes a ∧ c.FreshAppendReply a ∧ c.SnapshotTerms a

instance (c : Cluster Id M) (a : Action Id Cmd) : Decidable (c.Sound a) :=
  inferInstanceAs (Decidable (_ ∧ _ ∧ _))

end Cluster

/-- A call that was sent to a peer of its leader. -/
def Sent (cfg : Config Id) (s : Abstract Id Cmd) (call : AppendCall Id Cmd) : Prop :=
  call.peer ∈ cfg.peers call.args.leaderId ∧ ∃ P, SentWith cfg s call.args P

/-- A success reports a length the peer acknowledged in the term of the call. -/
def Acknowledged (s : Abstract Id Cmd) (r : AppendReply Id Cmd) : Prop :=
  r.success = true →
    r.call.args.prevLogIndex + r.call.args.entries.length ≤ s.acked r.call.peer r.call.args.term

structure Refines (cfg : Config Id) (c : Cluster Id M) (s : Abstract Id Cmd) : Prop where
  inv : AbstractInv cfg s
  node : ∀ i, Simulates cfg s i (c.nodes i)
  voteCall : ∀ call ∈ c.voteCalls, StandsWith s call.args
  appendCall : ∀ call ∈ c.appendCalls, Sent cfg s call
  appendReply : ∀ r ∈ c.appendReplies, Sent cfg s r.call ∧ Acknowledged s r

omit [DecidableEq Id] in
theorem StandsWith.keeps {s s' : Abstract Id Cmd} {args : VoteArgs Id} (h : StandsWith s args)
    (hk : Extends LogEntry.term s s') : StandsWith s' args := by
  obtain ⟨L,hL,hrest⟩ := h
  exact ⟨L,hk.standing _ _ L hL,hrest⟩

theorem SentWith.keeps {cfg : Config Id} {s s' : Abstract Id Cmd} {args : AppendArgs Id Cmd}
    {P : List (LogEntry Cmd)} (h : SentWith cfg s args P) (hk : Extends LogEntry.term s s') :
    SentWith cfg s' args P := by
  obtain ⟨hl,hP,hprev,hterm,hentries,hle,hc⟩ := h
  exact ⟨hk.grows.leader _ _ hl,hP.trans (hk.grows.prefix_leaderLog ⟨_,hl⟩),hprev,hterm,hentries,hle,
    hk.committed hc (le_refl _)⟩

theorem Sent.keeps {cfg : Config Id} {s s' : Abstract Id Cmd} {call : AppendCall Id Cmd} (h : Sent cfg s call)
    (hk : Extends LogEntry.term s s') : Sent cfg s' call := by
  obtain ⟨hpeer,P,hsent⟩ := h
  exact ⟨hpeer,P,hsent.keeps hk⟩

/-- The list of a receiver after a call: the committed part stands, and every other
change is an entry of the call at its own position. -/
structure Received (s s' : Abstract Id Cmd) (call : AppendCall Id Cmd) (commitIndex : ℕ) : Prop where
  committed : (s.log call.peer).take commitIndex <+: s'.log call.peer
  entry : ∀ k, (s'.log call.peer)[k]? = (s.log call.peer)[k]? ∨ (call.args.prevLogIndex ≤ k ∧
    (s'.log call.peer)[k]? = call.args.entries[k - call.args.prevLogIndex]?)

omit [DecidableEq Id] in
theorem Received.of_eq {s s' : Abstract Id Cmd} {call : AppendCall Id Cmd} {commitIndex : ℕ}
    (h : s'.log call.peer = s.log call.peer) : Received s s' call commitIndex :=
  ⟨by rw [h]; exact List.take_prefix _ _,fun k => Or.inl (by rw [h])⟩

namespace Refines
variable {cfg : Config Id} {c : Cluster Id M} {s s' : Abstract Id Cmd}

theorem init (M : StateMachine Cmd) (cfg : Config Id) :
    Refines cfg (Cluster.init M cfg) (ReplicatedLog.State.init Id (LogEntry Cmd)) where
  inv := ReplicatedLog.Inv.init _ _ _
  node i := by
    refine ⟨rfl,fun _ => rfl,fun t => ⟨(fun h => by cases h),fun h => absurd h List.not_mem_nil⟩,
      (fun h => by cases h),?_,Or.inl rfl,(fun h => by cases h),fun p m h => by cases h⟩
    exact ⟨⟨rfl,le_refl _,rfl⟩,le_refl _,le_refl _,le_refl _,fun k hk => absurd hk (Nat.not_lt_zero k)⟩
  voteCall call h := absurd h List.not_mem_nil
  appendCall call h := absurd h List.not_mem_nil
  appendReply r h := absurd h List.not_mem_nil

/-- One node moves; the others and the messages keep what they know. -/
theorem move (h : Refines cfg c s) {i : Id} (hm : Moves cfg i s s') {n : RaftNode Id M}
    (hn : Simulates cfg s' i n) : Refines cfg (c.setNode i n) s' where
  inv := hm.inv h.inv
  node j := by
    by_cases hj : j = i
    · subst j
      rw [Cluster.setNode_self]
      exact hn
    · rw [Cluster.setNode_ne c n hj]
      exact (h.node j).frame hm hj
  voteCall call hc := (h.voteCall call hc).keeps hm.keeps
  appendCall call hc := (h.appendCall call hc).keeps hm.keeps
  appendReply r hr := by
    obtain ⟨hs,ha⟩ := h.appendReply r hr
    exact ⟨hs.keeps hm.keeps,fun hsuc => (ha hsuc).trans (hm.keeps.acked _ _)⟩

/-- A change of a node that its participant does not see. -/
theorem stay (h : Refines cfg c s) {i : Id} {n : RaftNode Id M} (hn : Simulates cfg s i n) :
    Refines cfg (c.setNode i n) s := h.move (Moves.refl s) hn

theorem addVoteReply (h : Refines cfg c s) (r : VoteReply Id) : Refines cfg (c.addVoteReply r) s :=
  ⟨h.inv,h.node,h.voteCall,h.appendCall,h.appendReply⟩

theorem addVoteCalls (h : Refines cfg c s) {calls : List (VoteCall Id)}
    (hc : ∀ call ∈ calls, StandsWith s call.args) : Refines cfg (c.addVoteCalls calls) s := by
  refine ⟨h.inv,h.node,?_,h.appendCall,h.appendReply⟩
  intro call hmem
  rcases List.mem_append.mp hmem with hmem | hmem
  · exact h.voteCall call hmem
  · exact hc call hmem

theorem addAppendCall (h : Refines cfg c s) {call : AppendCall Id Cmd} (hc : Sent cfg s call) :
    Refines cfg (c.addAppendCall call) s := by
  refine ⟨h.inv,h.node,h.voteCall,?_,h.appendReply⟩
  intro call' hmem
  rcases List.mem_append.mp hmem with hmem | hmem
  · exact h.appendCall call' hmem
  · rw [List.mem_singleton.mp hmem]
    exact hc

theorem addAppendReply (h : Refines cfg c s) {r : AppendReply Id Cmd} (hr : Sent cfg s r.call)
    (ha : Acknowledged s r) : Refines cfg (c.addAppendReply r) s := by
  refine ⟨h.inv,h.node,h.voteCall,h.appendCall,?_⟩
  intro r' hmem
  rcases List.mem_append.mp hmem with hmem | hmem
  · exact h.appendReply r' hmem
  · rw [List.mem_singleton.mp hmem]
    exact ⟨hr,ha⟩

end Refines

/-- The cluster step is answered by protocol steps. -/
def Answers (cfg : Config Id) (s : Abstract Id Cmd) (c' : Cluster Id M) : Prop :=
  ∃ s', ReplicatedLog.Steps (quorums cfg) LogEntry.term Positioned s s' ∧ Refines cfg c' s'

namespace Refines
variable {cfg : Config Id} {c : Cluster Id M} {s : Abstract Id Cmd}

theorem answers (h : Refines cfg c s) : Answers cfg s c := ⟨s,Relation.ReflTransGen.refl,h⟩

theorem electionTimeout (h : Refines cfg c s) (hv : Cluster.VoteInv cfg c) (i : Id) :
    Answers cfg s (c.step cfg (.electionTimeout i)) := by
  unfold Cluster.step
  dsimp only
  rcases (c.nodes i).electionTimeoutHandler_cases with he | ⟨_,_,he⟩
  · rw [he]
    exact h.answers
  · rw [he]
    obtain ⟨s',hm,hn,hstand⟩ := (h.node i).startElection h.inv (hv.node i).nodeId
    refine ⟨s',hm.steps,(h.move hm hn).addVoteCalls ?_⟩
    intro call hcall
    obtain ⟨peer,_,rfl⟩ := List.mem_map.mp hcall
    exact hstand

theorem handleRequestVote (h : Refines cfg c s) (hv : Cluster.VoteInv cfg c) (k : ℕ) :
    Answers cfg s (c.step cfg (.handleRequestVote k)) := by
  unfold Cluster.step
  dsimp only
  cases hk : c.voteCalls[k]? with
  | none => exact h.answers
  | some call =>
    dsimp only
    have hstand := h.voteCall call (List.mem_of_getElem? hk)
    have hb := hv.node call.peer
    obtain ⟨s₁,hm₁,_,hn₁⟩ := (h.node call.peer).adoptTerm h.inv call.args.term
    rcases (c.nodes call.peer).handleRequestVote_cases call.args with he | ⟨_,he⟩ | ⟨hle,hvote,hfresh,he⟩
    · rw [he]
      exact ⟨s,Relation.ReflTransGen.refl,(h.stay (h.node call.peer)).addVoteReply _⟩
    · rw [he]
      exact ⟨s₁,hm₁.steps,(h.move hm₁ hn₁).addVoteReply _⟩
    · rw [he]
      obtain ⟨s₂,hm₂,hn₂⟩ := hn₁.castVote (hm₁.inv h.inv) (hb.adoptTerm call.args.term).current
        (RaftNode.adoptTerm_currentTerm hle).symm (hstand.keeps hm₁.keeps) hvote hfresh
      exact ⟨s₂,(hm₁.trans hm₂).steps,(h.move (hm₁.trans hm₂) hn₂).addVoteReply _⟩

theorem requestVoteReply (h : Refines cfg c s) (hv : Cluster.VoteInv cfg c) (k : ℕ)
    (hf : c.FreshVotes (.requestVoteReply k)) : Answers cfg s (c.step cfg (.requestVoteReply k)) := by
  unfold Cluster.step
  unfold Cluster.FreshVotes Cluster.countsStaleVotes at hf
  dsimp only at hf ⊢
  cases hk : c.voteReplies[k]? with
  | none => exact h.answers
  | some r =>
    have hmem : r ∈ c.voteReplies := List.mem_of_getElem? hk
    rw [hk] at hf
    dsimp only at hf ⊢
    have hi := h.node r.call.args.candidateId
    have hb := hv.node r.call.args.candidateId
    rcases (c.nodes r.call.args.candidateId).requestVoteReply_cases r.call.peer r.call.args.term
      r.replyTerm r.voteGranted with he | ⟨ht,he⟩ | ⟨hrun,hs,hle,hg,he | ⟨hcard,he⟩⟩
    · rw [he]
      exact ⟨s,Relation.ReflTransGen.refl,h.stay hi⟩
    · rw [he]
      obtain ⟨hm,hn⟩ := hi.updateTerm h.inv ht
      exact ⟨_,hm.steps,h.move hm hn⟩
    · rw [he]
      exact ⟨s,Relation.ReflTransGen.refl,h.stay (hi.countVote _ _)⟩
    · rw [he]
      have hterm : r.call.args.term = (c.nodes r.call.args.candidateId).currentTerm := by
        simpa [hrun,hs,hle,hg,hcard] using hf
      have hmember := (hb.active (by change (c.nodes _).state ≠ _; rw [hs]; decide)).1
      have hvotes : (quorums cfg).isQuorum
          {v | s.vote v (c.nodes r.call.args.candidateId).currentTerm = some r.call.args.candidateId} := by
        apply (quorums cfg).mono (hv.elected_of_card hmem hg hmember hcard)
        intro v hvote
        change s.vote v (c.nodes r.call.args.candidateId).currentTerm = some r.call.args.candidateId
        rw [(h.node v).vote,← hterm]
        exact hvote
      obtain ⟨s',hm,hn⟩ := (hi.countVote r.call.peer r.call.args.term).becomeLeader h.inv hb.leading hb.peers hs hvotes
      exact ⟨s',hm.steps,h.move hm hn⟩

/-- A worker that finds the previous index in its log cuts its call from the leader log. -/
theorem sent (h : Refines cfg c s) (hv : Cluster.VoteInv cfg c) {i peer : Id} {args : AppendArgs Id Cmd}
    (hpeer : peer ∈ (c.nodes i).peers) (hargs : (c.nodes i).appendEntriesArgs peer = some args) :
    Sent cfg s ⟨peer,args⟩ := by
  have hi := h.node i
  have hlog := hi.holds.log
  have hle := hlog.le
  have hb := hv.node i
  have hpeers : (c.nodes i).peers = cfg.peers i := hb.peers
  have hid : (c.nodes i).nodeId = i := hb.nodeId
  unfold RaftNode.appendEntriesArgs at hargs
  split at hargs
  · cases hargs
  rename_i hstate
  have hl := (hi.leader _).mpr (hb.leading.mp (not_not.mp hstate))
  have hlead : s.log i = s.leaderLog (c.nodes i).currentTerm := h.inv.matching.leading _ i hl hi.term
  dsimp only at hargs
  split at hargs
  · cases hargs
  rename_i hprev
  cases hterm : (c.nodes i).log.getTerm (((c.nodes i).nextIndex peer).getD 1 - 1) with
  | none =>
    rw [hterm] at hargs
    cases hargs
  | some prevTerm =>
    rw [hterm] at hargs
    cases hargs
    have hlen : ((c.nodes i).nextIndex peer).getD 1 - 1 ≤ (s.log i).length := by
      by_contra hgt
      have hlt : (c.nodes i).log.lastIncludedIndex < ((c.nodes i).nextIndex peer).getD 1 - 1 := by omega
      rw [RaftLog.getTerm_of_lt hlt,(RaftLog.getItem_eq_none_iff hlt).mpr (by rw [hlog.len]; omega)] at hterm
      cases hterm
    rw [hlog.getTerm (Nat.not_lt.mp hprev) hlen] at hterm
    refine ⟨?_,s.log i,?_,?_,hlen,(Option.some.inj hterm).symm,hlog.getEntries (Nat.not_lt.mp hprev),
      hi.holds.commit_le,hi.committed⟩
    · change peer ∈ cfg.peers (c.nodes i).nodeId
      rw [hid,← hpeers]
      exact hpeer
    · change s.leader (c.nodes i).currentTerm = some (c.nodes i).nodeId
      rw [hid]
      exact hl
    · change s.log i <+: s.leaderLog (c.nodes i).currentTerm
      rw [hlead]

theorem sendAppendEntries (h : Refines cfg c s) (hv : Cluster.VoteInv cfg c) (i peer : Id) :
    Answers cfg s (c.step cfg (.sendAppendEntries i peer)) := by
  unfold Cluster.step
  dsimp only
  split
  · rename_i hpeer
    cases hargs : (c.nodes i).appendEntriesArgs peer with
    | none => exact h.answers
    | some args => exact ⟨s,Relation.ReflTransGen.refl,h.addAppendCall (h.sent hv hpeer hargs)⟩
  · exact h.answers

/-- What an AppendEntries call does to its receiver: its participant moves, keeps
the committed part, and takes new entries from the call only. -/
theorem received (h : Refines cfg c s) {call : AppendCall Id Cmd} (hc : call ∈ c.appendCalls)
    (hsnap : (c.nodes call.peer).currentTerm ≤ call.args.term →
      (c.nodes call.peer).log.matchLog call.args.prevLogIndex call.args.prevLogTerm = true →
      SnapshotAgrees (c.nodes call.peer).log (call.args.prevLogIndex + 1) call.args.entries) :
    ∃ s', Moves cfg call.peer s s' ∧
      Simulates cfg s' call.peer ((c.nodes call.peer).handleAppendEntries call.args).1 ∧
      Received s s' call (c.nodes call.peer).commitIndex ∧
      ∀ reply, ((c.nodes call.peer).handleAppendEntries call.args).2 = some reply →
        Acknowledged s' ⟨call,reply.1,reply.2⟩ := by
  obtain ⟨hpeer,P,hsent⟩ := h.appendCall call hc
  obtain ⟨s₁,hm₁,hlog₁,hn₁⟩ := (h.node call.peer).adoptTerm h.inv call.args.term
  rcases (c.nodes call.peer).handleAppendEntries_cases call.args with he | ⟨_,he⟩ | ⟨hle,hmatch,reply,he⟩
  · rw [he]
    refine ⟨s,Moves.refl s,h.node call.peer,Received.of_eq rfl,?_⟩
    intro reply hr hsuc
    cases hr
    cases hsuc
  · rw [he]
    refine ⟨s₁,hm₁,hn₁,Received.of_eq hlog₁,?_⟩
    intro reply hr hsuc
    cases hr
    cases hsuc
  · rw [he]
    obtain ⟨storage,hlog⟩ := (c.nodes call.peer).adoptTerm_log call.args.term
    have hci : ((c.nodes call.peer).adoptTerm call.args.term).commitIndex = (c.nodes call.peer).commitIndex := by
      unfold RaftNode.adoptTerm
      split <;> rfl
    obtain ⟨s₂,hst,hn₂⟩ := hn₁.storeEntries (hm₁.inv h.inv) (hsent.keeps hm₁.keeps)
      (RaftNode.adoptTerm_currentTerm hle) (by rw [hlog]; exact hmatch) (by rw [hlog]; exact hsnap hle hmatch)
    refine ⟨s₂,hm₁.trans hst.moves,hn₂,⟨?_,?_⟩,fun reply _ _ => hst.acked⟩
    · rw [← hlog₁,← hci]
      exact hst.committed
    · rw [← hlog₁]
      exact hst.entry

theorem handleAppendEntries (h : Refines cfg c s) (k : ℕ) (hf : c.SnapshotTerms (.handleAppendEntries k)) :
    Answers cfg s (c.step cfg (.handleAppendEntries k)) := by
  unfold Cluster.step
  dsimp only
  cases hk : c.appendCalls[k]? with
  | none => exact h.answers
  | some call =>
    have hc : call ∈ c.appendCalls := List.mem_of_getElem? hk
    obtain ⟨s',hm,hn,_,hack⟩ := h.received hc (hf call hk)
    have hmoved := h.move hm hn
    dsimp only
    cases hr : ((c.nodes call.peer).handleAppendEntries call.args).2 with
    | none => exact ⟨s',hm.steps,hmoved⟩
    | some reply =>
      exact ⟨s',hm.steps,hmoved.addAppendReply ((h.appendCall call hc).keeps hm.keeps) (hack reply hr)⟩

/-- Counting a success of the current term, retrying earlier, or stepping down. -/
theorem appendEntriesReply (h : Refines cfg c s) (hv : Cluster.VoteInv cfg c) (k : ℕ)
    (hf : c.FreshAppendReply (.appendEntriesReply k)) :
    Answers cfg s (c.step cfg (.appendEntriesReply k)) := by
  unfold Cluster.step
  dsimp only
  cases hk : c.appendReplies[k]? with
  | none => exact h.answers
  | some r =>
    have hf := hf r hk
    dsimp only at hf ⊢
    obtain ⟨hsent,hack⟩ := h.appendReply r (List.mem_of_getElem? hk)
    have hi := h.node r.call.args.leaderId
    have hb := hv.node r.call.args.leaderId
    rcases (c.nodes r.call.args.leaderId).appendEntriesReply_cases r.call.peer r.call.args r.replyTerm r.success with
      he | ⟨ht,he⟩ | ⟨hrun,hstate,hle,⟨hsuc,hpos,he⟩ | ⟨_,next,_,he⟩⟩
    · rw [he]
      exact ⟨s,Relation.ReflTransGen.refl,h.stay hi⟩
    · rw [he]
      obtain ⟨hm,hn⟩ := hi.updateTerm h.inv ht
      exact ⟨_,hm.steps,h.move hm hn⟩
    · rw [he]
      have hterm := hf hrun hle hstate hsuc hpos
      have hacked := hack hsuc
      rw [hterm] at hacked
      refine ⟨s,Relation.ReflTransGen.refl,h.stay ?_⟩
      exact (hi.setMatch hsent.1 (fun _ => hacked) _).updateCommitIndex h.inv hb hstate
    · rw [he]
      exact ⟨s,Relation.ReflTransGen.refl,h.stay (hi.setNext _)⟩

theorem submitCommand (h : Refines cfg c s) (hv : Cluster.VoteInv cfg c) (i : Id) (command : Cmd) :
    Answers cfg s (c.step cfg (.submitCommand i command)) := by
  unfold Cluster.step RaftNode.submitCommand
  dsimp only
  have hi := h.node i
  split
  · exact ⟨s,Relation.ReflTransGen.refl,h.stay hi⟩
  rename_i hstate
  have hh := hi.holds
  have hl := (hi.leader _).mpr ((hv.node i).leading.mp (not_not.mp hstate))
  have hm : Moves cfg i s (s.append i
      { term := (c.nodes i).currentTerm, index := (c.nodes i).log.len + 1, command := command }) := by
    refine Moves.append h.inv ?_ hi.term.symm ?_
    · rw [hi.term]
      exact hl
    · change (c.nodes i).log.len + 1 = _
      rw [hh.log.len]
  refine ⟨_,hm.steps,h.move hm ?_⟩
  have hci := hh.commit_le
  refine ⟨hi.term,hi.vote,hi.leader,hi.standing,?_,?_,?_,hi.matchPeers⟩
  · rw [s.append_log_self]
    refine ⟨hh.log.append _,hh.snapshot,hh.applied_le,?_,?_⟩
    · rw [List.length_append]
      exact hci.trans (Nat.le_add_right _ _)
    · intro k hk
      have hk' : k < (s.log i).length := by
        have := hh.applied_le
        change k < (c.nodes i).lastApplied at hk
        omega
      rw [List.getElem?_append_left hk']
      exact hh.applied k hk
  · change IsCommitted cfg _ _ (List.take (c.nodes i).commitIndex _)
    rw [s.append_log_self,List.take_append_of_le_length hci]
    exact hm.keeps.committed hi.committed (le_refl _)
  · intro hs p m hp
    exact (hi.matched hs p m hp).trans (hm.keeps.acked p _)

/-- One step of the cluster under the guard is answered by the abstract protocol. -/
theorem step (h : Refines cfg c s) (hv : Cluster.VoteInv cfg c) (a : Action Id Cmd) (ha : c.Sound a) :
    Answers cfg s (c.step cfg a) := by
  obtain ⟨hvotes,hreply,hsnap⟩ := ha
  have hkeep : ∀ i (b : Bool), Simulates cfg s i { c.nodes i with running := b } := by
    intro i b
    have hi := h.node i
    exact ⟨hi.term,hi.vote,hi.leader,hi.standing,⟨hi.holds.log,hi.holds.snapshot,hi.holds.applied_le,
      hi.holds.commit_le,hi.holds.applied⟩,hi.committed,hi.matched,hi.matchPeers⟩
  cases a with
  | start i =>
    unfold Cluster.step
    dsimp only
    split
    · exact ⟨s,Relation.ReflTransGen.refl,h.stay (hkeep i true)⟩
    · exact h.answers
  | stop i => exact ⟨s,Relation.ReflTransGen.refl,h.stay (hkeep i false)⟩
  | electionTimeout i => exact h.electionTimeout hv i
  | handleRequestVote k => exact h.handleRequestVote hv k
  | failRequestVote k =>
    unfold Cluster.step
    dsimp only
    cases c.voteCalls[k]? with
    | none => exact h.answers
    | some call => exact ⟨s,Relation.ReflTransGen.refl,h.addVoteReply _⟩
  | requestVoteReply k => exact h.requestVoteReply hv k hvotes
  | sendAppendEntries i peer => exact h.sendAppendEntries hv i peer
  | handleAppendEntries k => exact h.handleAppendEntries k hsnap
  | failAppendEntries k =>
    unfold Cluster.step
    dsimp only
    cases hk : c.appendCalls[k]? with
    | none => exact h.answers
    | some call =>
      exact ⟨s,Relation.ReflTransGen.refl,
        h.addAppendReply (h.appendCall call (List.mem_of_getElem? hk)) (fun hsuc => by cases hsuc)⟩
  | appendEntriesReply k => exact h.appendEntriesReply hv k hreply
  | submitCommand i command => exact h.submitCommand hv i command

end Refines

/-- Every guarded run of the cluster is a run of the abstract protocol. -/
theorem Refines.run {cfg : Config Id} {schedule : List (Action Id Cmd)}
    (h : Runs.Along (Cluster.step cfg) Cluster.Sound (Cluster.init M cfg) schedule) :
    ∃ s, ReplicatedLog.Steps (quorums cfg) LogEntry.term Positioned
        (ReplicatedLog.State.init Id (LogEntry Cmd)) s ∧
      Refines cfg (Runs.run (Cluster.step cfg) (Cluster.init M cfg) schedule) s ∧
      Cluster.VoteInv cfg (Runs.run (Cluster.step cfg) (Cluster.init M cfg) schedule) := by
  refine Runs.run_invariant (P := Cluster.Sound) (I := fun c => ∃ s, ReplicatedLog.Steps (quorums cfg)
    LogEntry.term Positioned (ReplicatedLog.State.init Id (LogEntry Cmd)) s ∧ Refines cfg c s ∧
    Cluster.VoteInv cfg c) ?_ ⟨_,Relation.ReflTransGen.refl,Refines.init M cfg,Cluster.VoteInv.init M cfg⟩ h
  rintro c a ⟨s,hs,href,hv⟩ ha
  obtain ⟨s',hs',href'⟩ := href.step hv a ha
  exact ⟨s',hs.trans hs',href',hv.step a ha.1⟩

end DistributedSystems.Raft
