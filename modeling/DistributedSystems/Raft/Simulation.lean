import DistributedSystems.Raft.CommitRule
import DistributedSystems.Raft.Election

/-! # One node against the abstract protocol

A node simulates its participant: same term, votes, leaderships and list, a committed
part below the commit mark, and match indices below what the peers acknowledged. Each
method answers with protocol steps of its own participant.
-/
namespace DistributedSystems.Raft
open ReplicatedLog
variable {Id Cmd : Type} [DecidableEq Id] {M : StateMachine Cmd}

abbrev quorums (cfg : Config Id) : QuorumSystem Id := majority cfg.members.toFinset

/-- Entries carry the position they stand at. -/
def Positioned (k : ℕ) (e : LogEntry Cmd) : Prop := e.index = k

abbrev Abstract (Id Cmd : Type) : Type := ReplicatedLog.State Id (LogEntry Cmd)

abbrev AbstractInv (cfg : Config Id) (s : Abstract Id Cmd) : Prop :=
  ReplicatedLog.Inv (quorums cfg) LogEntry.term Positioned s

abbrev IsCommitted (cfg : Config Id) (s : Abstract Id Cmd) (T : ℕ) (P : List (LogEntry Cmd)) : Prop :=
  ReplicatedLog.Committed LogEntry.term (quorums cfg) s T P

/-- Node `i` in state `n` behaves as the participant `i` of `s`. -/
structure Simulates (cfg : Config Id) (s : Abstract Id Cmd) (i : Id) (n : RaftNode Id M) : Prop where
  term : s.term i = n.currentTerm
  vote : ∀ t, s.vote i t = n.votes t
  leader : ∀ t, s.leader t = some i ↔ t ∈ n.leaderTerms
  standing : n.state = .candidate → ∃ L, s.standing i n.currentTerm = some L
  holds : n.Holds (s.log i)
  committed : IsCommitted cfg s n.currentTerm ((s.log i).take n.commitIndex)
  matched : n.state = .leader → ∀ p m, n.matchIndex p = some m → m ≤ s.acked p n.currentTerm
  matchPeers : ∀ p m, n.matchIndex p = some m → p ∈ cfg.peers i

/-- Protocol steps that move participant `i` only. -/
structure Moves (cfg : Config Id) (i : Id) (s s' : Abstract Id Cmd) : Prop where
  steps : ReplicatedLog.Steps (quorums cfg) LogEntry.term Positioned s s'
  keeps : Extends LogEntry.term s s'
  term : ∀ j ≠ i, s'.term j = s.term j
  vote : ∀ j ≠ i, s'.vote j = s.vote j
  log : ∀ j ≠ i, s'.log j = s.log j
  leader : ∀ j ≠ i, ∀ t, s'.leader t = some j ↔ s.leader t = some j

namespace Moves
variable {cfg : Config Id} {i : Id} {s s' s'' : Abstract Id Cmd}

theorem refl (s : Abstract Id Cmd) : Moves cfg i s s :=
  ⟨Relation.ReflTransGen.refl,Extends.refl s,fun _ _ => rfl,fun _ _ => rfl,fun _ _ => rfl,fun _ _ _ => Iff.rfl⟩

theorem trans (h : Moves cfg i s s') (h' : Moves cfg i s' s'') : Moves cfg i s s'' :=
  ⟨h.steps.trans h'.steps,h.keeps.trans h'.keeps,fun j hj => (h'.term j hj).trans (h.term j hj),
    fun j hj => (h'.vote j hj).trans (h.vote j hj),fun j hj => (h'.log j hj).trans (h.log j hj),
    fun j hj t => (h'.leader j hj t).trans (h.leader j hj t)⟩

theorem inv (h : Moves cfg i s s') (hs : AbstractInv cfg s) : AbstractInv cfg s' := hs.steps h.steps

theorem observe (hs : AbstractInv cfg s) {t : ℕ} (ht : s.term i < t) : Moves cfg i s (s.observe i t) := by
  have hstep : Step (quorums cfg) LogEntry.term Positioned s (s.observe i t) := Step.observe i t ht
  refine ⟨.single hstep,Extends.step hs.voting hs.matching hstep,?_,fun _ _ => rfl,fun _ _ => rfl,fun _ _ _ => Iff.rfl⟩
  exact fun j hj => Function.update_of_ne hj _ _

theorem stand (hs : AbstractInv cfg s) {t : ℕ} (ht : s.term i < t) : Moves cfg i s (s.stand i t) := by
  have hstep : Step (quorums cfg) LogEntry.term Positioned s (s.stand i t) := Step.stand i t ht
  refine ⟨.single hstep,Extends.step hs.voting hs.matching hstep,?_,?_,fun _ _ => rfl,fun _ _ _ => Iff.rfl⟩
  · exact fun j hj => Function.update_of_ne hj _ _
  · intro j hj
    funext u
    exact s.stand_vote_of_ne i (fun h => hj h.1)

theorem grant (hs : AbstractInv cfg s) {c : Id} {L : List (LogEntry Cmd)} (hv : s.vote i (s.term i) = none)
    (hL : s.standing c (s.term i) = some L) (hup : UpToDate LogEntry.term L (s.log i)) :
    Moves cfg i s (s.grant i c) := by
  have hstep : Step (quorums cfg) LogEntry.term Positioned s (s.grant i c) := Step.grant i c hv hL hup
  refine ⟨.single hstep,Extends.step hs.voting hs.matching hstep,fun _ _ => rfl,?_,fun _ _ => rfl,fun _ _ _ => Iff.rfl⟩
  intro j hj
  funext u
  exact s.grant_vote_of_ne i c (fun h => hj h.1)

theorem elect (hs : AbstractInv cfg s) {L : List (LogEntry Cmd)} (hL : s.standing i (s.term i) = some L)
    (hn : s.leader (s.term i) = none) (hq : (quorums cfg).isQuorum {v | s.vote v (s.term i) = some i}) :
    Moves cfg i s (s.elect i) := by
  have hstep : Step (quorums cfg) LogEntry.term Positioned s (s.elect i) := Step.elect i hL hn hq
  refine ⟨.single hstep,Extends.step hs.voting hs.matching hstep,fun _ _ => rfl,fun _ _ => rfl,fun _ _ => rfl,?_⟩
  intro j hj t
  by_cases ht : t = s.term i
  · subst t
    rw [s.elect_leader_self,hn]
    simp [Ne.symm hj]
  · rw [s.elect_leader_of_ne i ht]

theorem append (hs : AbstractInv cfg s) {e : LogEntry Cmd} (hl : s.leader (s.term i) = some i)
    (he : e.term = s.term i) (hi : e.index = (s.log i).length + 1) : Moves cfg i s (s.append i e) := by
  have hstep : Step (quorums cfg) LogEntry.term Positioned s (s.append i e) := Step.append i e hl he hi
  refine ⟨.single hstep,Extends.step hs.voting hs.matching hstep,fun _ _ => rfl,fun _ _ => rfl,?_,fun _ _ _ => Iff.rfl⟩
  exact fun j hj => s.append_log_of_ne i e hj

theorem adopt (hs : AbstractInv cfg s) {m : ℕ} (hl : s.Led (s.term i))
    (hm : m ≤ (s.leaderLog (s.term i)).length) : Moves cfg i s (s.adopt i m) := by
  have hstep : Step (quorums cfg) LogEntry.term Positioned s (s.adopt i m) := Step.adopt i m hl hm
  refine ⟨.single hstep,Extends.step hs.voting hs.matching hstep,fun _ _ => rfl,fun _ _ => rfl,?_,fun _ _ _ => Iff.rfl⟩
  exact fun j hj => s.adopt_log_of_ne i m hj

end Moves

/-- The arguments of a RequestVote call describe the log of a standing candidate. -/
def StandsWith (s : Abstract Id Cmd) (args : VoteArgs Id) : Prop :=
  ∃ L, s.standing args.candidateId args.term = some L ∧ args.lastLogIndex = L.length ∧
    args.lastLogTerm = lastTermOf L

/-- The arguments of an AppendEntries call are cut from a leader log: `P` is the log
of the leader when it made the call. -/
def SentWith (cfg : Config Id) (s : Abstract Id Cmd) (args : AppendArgs Id Cmd) (P : List (LogEntry Cmd)) : Prop :=
  s.leader args.term = some args.leaderId ∧ P <+: s.leaderLog args.term ∧
    args.prevLogIndex ≤ P.length ∧ args.prevLogTerm = lastTermOf (P.take args.prevLogIndex) ∧
    args.entries = P.drop args.prevLogIndex ∧ args.leaderCommit ≤ P.length ∧
    IsCommitted cfg s args.term (P.take args.leaderCommit)

namespace Simulates
variable {cfg : Config Id} {i j : Id} {s s' : Abstract Id Cmd} {n : RaftNode Id M}

/-- The other participants do not notice a move. -/
theorem frame (h : Simulates cfg s j n) (hm : Moves cfg i s s') (hj : j ≠ i) : Simulates cfg s' j n where
  term := (hm.term j hj).trans h.term
  vote t := (congrFun (hm.vote j hj) t).trans (h.vote t)
  leader t := (hm.leader j hj t).trans (h.leader t)
  standing hs := by
    obtain ⟨L,hL⟩ := h.standing hs
    exact ⟨L,hm.keeps.standing j _ L hL⟩
  holds := by
    rw [hm.log j hj]
    exact h.holds
  committed := by
    rw [hm.log j hj]
    exact hm.keeps.committed h.committed (le_refl _)
  matched hs p m hp := (h.matched hs p m hp).trans (hm.keeps.acked p _)
  matchPeers := h.matchPeers

theorem updateTerm (h : Simulates cfg s i n) (hs : AbstractInv cfg s) {t : ℕ} (ht : n.currentTerm < t) :
    Moves cfg i s (s.observe i t) ∧ Simulates cfg (s.observe i t) i (n.updateTerm t) := by
  have hm : Moves cfg i s (s.observe i t) := Moves.observe hs (h.term.trans_lt ht)
  have hh := h.holds
  refine ⟨hm,s.observe_term_self i,h.vote,h.leader,(fun hc => by cases hc),?_,?_,(fun hc => by cases hc),h.matchPeers⟩
  · exact ⟨⟨hh.log.entries,hh.log.le,hh.log.term⟩,hh.snapshot,hh.applied_le,hh.commit_le,hh.applied⟩
  · exact hm.keeps.committed h.committed ht.le

theorem adoptTerm (h : Simulates cfg s i n) (hs : AbstractInv cfg s) (t : ℕ) :
    ∃ s', Moves cfg i s s' ∧ s'.log i = s.log i ∧ Simulates cfg s' i (n.adoptTerm t) := by
  unfold RaftNode.adoptTerm
  split
  · rename_i ht
    obtain ⟨hm,hn⟩ := h.updateTerm hs ht
    exact ⟨_,hm,rfl,hn⟩
  · exact ⟨s,Moves.refl s,rfl,h⟩

theorem startElection (h : Simulates cfg s i n) (hs : AbstractInv cfg s) (hid : n.nodeId = i) :
    ∃ s', Moves cfg i s s' ∧ Simulates cfg s' i n.startElection ∧ StandsWith s' n.startElection.voteArgs := by
  have hlt : s.term i < n.currentTerm + 1 := by
    rw [h.term]
    exact Nat.lt_succ_self _
  have hm : Moves cfg i s (s.stand i (n.currentTerm + 1)) := Moves.stand hs hlt
  have hh := h.holds
  have hstand : (s.stand i (n.currentTerm + 1)).standing i (n.currentTerm + 1) = some (s.log i) :=
    s.stand_standing_self i
  refine ⟨_,hm,⟨s.stand_term_self i,?_,h.leader,fun _ => ⟨_,hstand⟩,?_,?_,(fun hc => by cases hc),h.matchPeers⟩,
    s.log i,?_,hh.log.len,hh.log.lastTerm⟩
  · intro t
    change _ = Function.update n.votes (n.currentTerm + 1) (some n.nodeId) t
    by_cases ht : t = n.currentTerm + 1
    · subst t
      rw [Function.update_self,hid]
      exact s.stand_vote_self i
    · rw [Function.update_of_ne ht,← h.vote t]
      exact s.stand_vote_of_ne i (fun hh => ht hh.2)
  · exact ⟨⟨hh.log.entries,hh.log.le,hh.log.term⟩,hh.snapshot,hh.applied_le,hh.commit_le,hh.applied⟩
  · exact hm.keeps.committed h.committed (Nat.le_succ _)
  · change (s.stand i (n.currentTerm + 1)).standing n.nodeId (n.currentTerm + 1) = _
    rw [hid]
    exact hstand

/-- The freshness test of the handler is the up-to-date relation on the lists. -/
theorem upToDate (h : Simulates cfg s i n) {args : VoteArgs Id} {L : List (LogEntry Cmd)}
    (hidx : args.lastLogIndex = L.length) (hterm : args.lastLogTerm = lastTermOf L)
    (hf : n.logIsFresh args) : UpToDate LogEntry.term L (s.log i) := by
  unfold RaftNode.logIsFresh at hf
  rw [h.holds.log.lastTerm,h.holds.log.len,hidx,hterm] at hf
  rcases hf with hf | ⟨hf,hlen⟩
  · exact Or.inl hf
  · exact Or.inr ⟨hf.symm,hlen⟩

theorem castVote (h : Simulates cfg s i n) (hs : AbstractInv cfg s) (hcur : n.votes n.currentTerm = n.votedFor)
    {args : VoteArgs Id} (ht : args.term = n.currentTerm) (hstand : StandsWith s args)
    (hv : n.votedFor = none ∨ n.votedFor = some args.candidateId) (hf : n.logIsFresh args) :
    ∃ s', Moves cfg i s s' ∧ Simulates cfg s' i (n.castVote args.candidateId) := by
  have hh := h.holds
  obtain ⟨L,hL,hidx,hterm⟩ := hstand
  rcases hv with hnone | hsame
  · have hvote : s.vote i (s.term i) = none := by rw [h.vote,h.term,hcur,hnone]
    have hm : Moves cfg i s (s.grant i args.candidateId) := by
      refine Moves.grant hs hvote (L := L) ?_ (h.upToDate hidx hterm hf)
      rw [h.term,← ht]
      exact hL
    refine ⟨_,hm,h.term,?_,h.leader,h.standing,?_,hm.keeps.committed h.committed (le_refl _),h.matched,h.matchPeers⟩
    · intro t
      change _ = Function.update n.votes n.currentTerm (some args.candidateId) t
      by_cases htt : t = n.currentTerm
      · subst t
        rw [Function.update_self,← h.term]
        exact s.grant_vote_self i _
      · rw [Function.update_of_ne htt,← h.vote t]
        exact s.grant_vote_of_ne i _ (fun hc => htt (hc.2.trans h.term))
    · exact ⟨⟨hh.log.entries,hh.log.le,hh.log.term⟩,hh.snapshot,hh.applied_le,hh.commit_le,hh.applied⟩
  · -- the vote was cast before
    refine ⟨s,Moves.refl s,h.term,?_,h.leader,h.standing,?_,h.committed,h.matched,h.matchPeers⟩
    · intro t
      change _ = Function.update n.votes n.currentTerm (some args.candidateId) t
      rw [h.vote t,← hsame,← hcur,Function.update_eq_self]
    · exact ⟨⟨hh.log.entries,hh.log.le,hh.log.term⟩,hh.snapshot,hh.applied_le,hh.commit_le,hh.applied⟩

/-- A candidate with a majority of the votes of its term is the first leader of it. -/
theorem leader_none (h : Simulates cfg s i n) (hs : AbstractInv cfg s)
    (hlead : n.state = .leader ↔ n.currentTerm ∈ n.leaderTerms) (hc : n.state = .candidate)
    (hq : (quorums cfg).isQuorum {v | s.vote v n.currentTerm = some i}) : s.leader n.currentTerm = none := by
  cases hl : s.leader n.currentTerm with
  | none => rfl
  | some d =>
    have hqd := (quorums cfg).mono (hs.voting.electors _ ⟨d,hl⟩) (hs.voting.voted _ d hl)
    have hd : d = i := (quorums cfg).winner_unique (C := Id) hqd hq
    subst d
    have hstate := hlead.mpr ((h.leader _).mp hl)
    rw [hc] at hstate
    cases hstate

theorem becomeLeader (h : Simulates cfg s i n) (hs : AbstractInv cfg s)
    (hlead : n.state = .leader ↔ n.currentTerm ∈ n.leaderTerms) (hpeers : n.peers = cfg.peers i)
    (hc : n.state = .candidate) (hq : (quorums cfg).isQuorum {v | s.vote v n.currentTerm = some i}) :
    ∃ s', Moves cfg i s s' ∧ Simulates cfg s' i n.becomeLeader := by
  have hn := h.leader_none hs hlead hc hq
  obtain ⟨L,hL⟩ := h.standing hc
  have hh := h.holds
  rw [← h.term] at hn hL hq
  have hm : Moves cfg i s (s.elect i) := Moves.elect hs hL hn hq
  refine ⟨_,hm,h.term,h.vote,?_,(fun hc => by cases hc),⟨hh.log,hh.snapshot,hh.applied_le,hh.commit_le,hh.applied⟩,
    hm.keeps.committed h.committed (le_refl _),?_,?_⟩
  · intro t
    change _ ↔ t ∈ n.leaderTerms ++ [n.currentTerm]
    rw [List.mem_append,List.mem_singleton,← h.leader t,← h.term]
    by_cases ht : t = s.term i
    · subst t
      rw [s.elect_leader_self]
      simp
    · rw [s.elect_leader_of_ne i ht]
      simp [ht]
  · intro _ p m hp
    change (if p ∈ n.peers then some 0 else n.matchIndex p) = some m at hp
    split at hp
    · cases hp
      exact Nat.zero_le _
    · rename_i hnot
      rw [hpeers] at hnot
      exact absurd (h.matchPeers p m hp) hnot
  · intro p m hp
    change (if p ∈ n.peers then some 0 else n.matchIndex p) = some m at hp
    split at hp
    · rename_i hin
      rw [← hpeers]
      exact hin
    · exact h.matchPeers p m hp

theorem countVote (h : Simulates cfg s i n) (peer : Id) (term : ℕ) : Simulates cfg s i (n.countVote peer term) :=
  ⟨h.term,h.vote,h.leader,h.standing,⟨h.holds.log,h.holds.snapshot,h.holds.applied_le,h.holds.commit_le,
    h.holds.applied⟩,h.committed,h.matched,h.matchPeers⟩

/-- Applying committed entries is invisible to the protocol. -/
theorem applyCommittedEntries (h : Simulates cfg s i n) : Simulates cfg s i n.applyCommittedEntries.1 := by
  have hb := RaftNode.ballot_applyCommittedEntries n
  have hp := RaftNode.progress_applyCommittedEntries n
  have hterm : n.applyCommittedEntries.1.currentTerm = n.currentTerm := congrArg Ballot.currentTerm hb
  have hstate : n.applyCommittedEntries.1.state = n.state := congrArg Ballot.state hb
  have hvotes : n.applyCommittedEntries.1.votes = n.votes := congrArg Ballot.votes hb
  have hlead : n.applyCommittedEntries.1.leaderTerms = n.leaderTerms := congrArg Ballot.leaderTerms hb
  have hcommit : n.applyCommittedEntries.1.commitIndex = n.commitIndex := congrArg Prod.fst hp
  have hmatch : n.applyCommittedEntries.1.matchIndex = n.matchIndex := congrArg Prod.snd hp
  refine ⟨?_,?_,?_,?_,h.holds.applyCommittedEntries,?_,?_,?_⟩
  · rw [hterm]
    exact h.term
  · rw [hvotes]
    exact h.vote
  · rw [hlead]
    exact h.leader
  · rw [hstate,hterm]
    exact h.standing
  · rw [hterm,hcommit]
    exact h.committed
  · rw [hstate,hmatch,hterm]
    exact h.matched
  · rw [hmatch]
    exact h.matchPeers

theorem setCommitIndex (h : Simulates cfg s i n) {N : ℕ} (hle : n.commitIndex ≤ N)
    (hN : N ≤ (s.log i).length) (hc : IsCommitted cfg s n.currentTerm ((s.log i).take N)) :
    Simulates cfg s i { n with commitIndex := N } :=
  ⟨h.term,h.vote,h.leader,h.standing,h.holds.setCommitIndex hle hN,hc,h.matched,h.matchPeers⟩

/-- A leader records what a peer acknowledged, and where to send from next. -/
theorem setMatch (h : Simulates cfg s i n) {peer : Id} {m : ℕ} (hpeer : peer ∈ cfg.peers i)
    (hacked : n.state = .leader → m ≤ s.acked peer n.currentTerm) (next : Id → Option ℕ) :
    Simulates cfg s i
      { n with matchIndex := Function.update n.matchIndex peer (some m), nextIndex := next } := by
  refine ⟨h.term,h.vote,h.leader,h.standing,
    ⟨h.holds.log,h.holds.snapshot,h.holds.applied_le,h.holds.commit_le,h.holds.applied⟩,h.committed,?_,?_⟩
  · intro hl p k hp
    change Function.update n.matchIndex peer (some m) p = some k at hp
    by_cases heq : p = peer
    · subst p
      rw [Function.update_self] at hp
      cases hp
      exact hacked hl
    · rw [Function.update_of_ne heq] at hp
      exact h.matched hl p k hp
  · intro p k hp
    change Function.update n.matchIndex peer (some m) p = some k at hp
    by_cases heq : p = peer
    · subst p
      exact hpeer
    · rw [Function.update_of_ne heq] at hp
      exact h.matchPeers p k hp

/-- The next indices are not part of the protocol state. -/
theorem setNext (h : Simulates cfg s i n) (next : Id → Option ℕ) : Simulates cfg s i { n with nextIndex := next } :=
  ⟨h.term,h.vote,h.leader,h.standing,
    ⟨h.holds.log,h.holds.snapshot,h.holds.applied_le,h.holds.commit_le,h.holds.applied⟩,h.committed,h.matched,
    h.matchPeers⟩

/-- A leader that has entries of its own term at the chosen index commits what a
majority acknowledged. -/
theorem updateCommitIndex (h : Simulates cfg s i n) (hs : AbstractInv cfg s) (hb : BallotInv cfg i n.ballot)
    (hl : n.state = .leader) : Simulates cfg s i n.updateCommitIndex := by
  rcases n.updateCommitIndex_cases with he | ⟨N,hN,hgt,hterm,he⟩
  · rw [he]
    exact h
  · rw [he]
    have hh := h.holds
    have hsnap := hh.snapshot
    have happ := hh.applied_le
    have hle : N ≤ (s.log i).length := by
      rw [← hh.log.len]
      unfold RaftLog.getTerm at hterm
      rw [if_neg (by omega),if_neg (by omega),if_neg (by omega)] at hterm
      cases hitem : n.log.getItem N with
      | none =>
        rw [hitem] at hterm
        cases hterm
      | some e => exact (RaftLog.getItem_some_le hitem).2
    have hmem : n.currentTerm ∈ n.leaderTerms := hb.leading.mp hl
    have hlead := (h.leader _).mpr hmem
    have hlog : s.log i = s.leaderLog n.currentTerm := hs.matching.leading _ i hlead h.term
    refine (h.setCommitIndex hgt.le hle ?_).applyCommittedEntries
    refine Or.inr ⟨n.currentTerm,le_refl _,_,⟨⟨i,hlead⟩,?_,?_⟩,?_,List.prefix_refl _⟩
    · rw [← hlog]
      exact List.take_prefix _ _
    · obtain ⟨k,rfl⟩ : ∃ k, N = k + 1 := ⟨N - 1,by omega⟩
      rw [hh.log.getTerm (by omega) hle,lastTermOf_take hle] at hterm
      refine ⟨(s.log i)[k],?_,Option.some.inj hterm⟩
      rw [List.getLast?_take]
      simp [Nat.lt_of_succ_le hle]
    · have hm : i ∈ cfg.members := (hb.active (by change n.state ≠ _; rw [hl]; decide)).1
      have hpeers : n.peers = cfg.peers i := hb.peers
      have hni : i ∉ n.peers := by
        rw [hpeers,Config.mem_peers]
        exact fun hc => hc.2 rfl
      have hcard := n.majorityMatch_card (by rw [hpeers]; exact cfg.peers_nodup i) hni hN
      have hall : n.allNodes.length = cfg.members.length := hb.allNodes hm
      refine majority_of_finset (S := insert i (n.matchers N)) ?_ ?_ ?_
      · intro v hv
        rw [List.mem_toFinset]
        rcases Finset.mem_insert.mp hv with rfl | hv
        · exact hm
        · have hvp := (RaftNode.mem_matchers.mp hv).1
          rw [hpeers] at hvp
          exact (Config.mem_peers.mp hvp).1
      · intro v hv
        change List.length _ ≤ _
        rw [List.length_take,min_eq_left hle]
        rcases Finset.mem_insert.mp hv with rfl | hv
        · exact hle.trans (hlog ▸ hs.matching.acked_leader _ v hlead)
        · obtain ⟨_,m,hmatch,hNm⟩ := RaftNode.mem_matchers.mp hv
          exact hNm.trans (h.matched hl v m hmatch)
      · rw [cfg.card_members]
        omega

/-- What storing the entries of a call does to the list of a node. -/
structure Stores (cfg : Config Id) (s s' : Abstract Id Cmd) (i : Id) (commitIndex : ℕ)
    (args : AppendArgs Id Cmd) : Prop where
  moves : Moves cfg i s s'
  acked : args.prevLogIndex + args.entries.length ≤ s'.acked i args.term
  committed : (s.log i).take commitIndex <+: s'.log i
  entry : ∀ k, (s'.log i)[k]? = (s.log i)[k]? ∨
    (args.prevLogIndex ≤ k ∧ (s'.log i)[k]? = args.entries[k - args.prevLogIndex]?)

/-- A consistency check that succeeds finds a log that agrees with the caller's up to
the previous index: by log matching above the snapshot, as committed entries below. -/
theorem matchLog_isPrefix (h : Simulates cfg s i n) (hs : AbstractInv cfg s) {args : AppendArgs Id Cmd}
    {P : List (LogEntry Cmd)} (hsent : SentWith cfg s args P)
    (hcovered : P.take n.log.lastIncludedIndex <+: s.log i)
    (hmatch : n.log.matchLog args.prevLogIndex args.prevLogTerm = true) :
    P.take args.prevLogIndex <+: s.log i := by
  obtain ⟨hl,hPG,hprev,hprevTerm,_,_,_⟩ := hsent
  have hh := h.holds
  unfold RaftLog.matchLog at hmatch
  split at hmatch
  · rename_i h0
    rw [h0]
    exact List.nil_prefix
  rename_i h0
  split at hmatch
  · cases hmatch
  rename_i hlen
  rw [hh.log.len] at hlen
  split at hmatch
  · cases hmatch
  rename_i hterm
  have hterm := not_not.mp hterm
  by_cases hle : args.prevLogIndex ≤ n.log.lastIncludedIndex
  · exact (List.take_prefix_take_left hle).trans hcovered
  · obtain ⟨k,hk⟩ : ∃ k, args.prevLogIndex = k + 1 := ⟨args.prevLogIndex - 1,by omega⟩
    rw [hh.log.getTerm (by omega) (by omega),hprevTerm,hk,lastTermOf_take (by omega),lastTermOf_take (by omega)] at hterm
    have hP : Chained LogEntry.term s P := (hs.matching.leaderLog _ ⟨_,hl⟩).of_isPrefix hPG
    rw [hk,hP.take_eq (hs.matching.log i) (by omega) (by omega) (Option.some.inj hterm).symm]
    exact List.take_prefix _ _

/-- The commit mark follows the leader inside the part of the log that came from it. -/
theorem followLeaderCommit (h : Simulates cfg s i n) {P : List (LogEntry Cmd)} {leaderCommit : ℕ}
    (hP : P <+: s.log i) (hle : leaderCommit ≤ P.length)
    (hcom : IsCommitted cfg s n.currentTerm (P.take leaderCommit)) :
    Simulates cfg s i (n.followLeaderCommit leaderCommit).1 := by
  have hlen := hP.length_le
  have hcut : (s.log i).take leaderCommit = P.take leaderCommit := by
    obtain ⟨r,hr⟩ := hP
    rw [← hr,List.take_append_of_le_length hle]
  have hmin : min leaderCommit n.log.len = leaderCommit := by
    rw [h.holds.log.len]
    omega
  unfold RaftNode.followLeaderCommit
  split
  · rename_i hgt
    rw [hmin]
    exact (h.setCommitIndex hgt.le (hle.trans hlen) (hcut ▸ hcom)).applyCommittedEntries
  · exact h

/-- A log that keeps the committed part may take the place of the one there is. -/
theorem setLog (h : Simulates cfg s i n) {s' : Abstract Id Cmd} (hm : Moves cfg i s s') (hterm : s'.term = s.term)
    (hvote : s'.vote = s.vote) (hleader : s'.leader = s.leader) (hstanding : s'.standing = s.standing)
    {log : RaftLog Id Cmd M.Snapshot} (hlog : log.Holds (s'.log i))
    (hindex : log.lastIncludedIndex = n.log.lastIncludedIndex) (hkeep : (s.log i).take n.commitIndex <+: s'.log i) :
    Simulates cfg s' i { n with log := log } := by
  have hcut : (s'.log i).take n.commitIndex = (s.log i).take n.commitIndex := by
    have he := List.prefix_iff_eq_take.mp hkeep
    rw [List.length_take,min_eq_left h.holds.commit_le] at he
    exact he.symm
  refine ⟨hterm ▸ h.term,hvote ▸ h.vote,hleader ▸ h.leader,hstanding ▸ h.standing,
    h.holds.setLog hlog hindex hkeep,?_,fun hst p m hp => ?_,h.matchPeers⟩
  · change IsCommitted cfg _ _ ((s'.log i).take n.commitIndex)
    rw [hcut]
    exact hm.keeps.committed h.committed (le_refl _)
  · exact (h.matched hst p m hp).trans (hm.keeps.acked p _)

theorem storeEntries (h : Simulates cfg s i n) (hs : AbstractInv cfg s) {args : AppendArgs Id Cmd}
    {P : List (LogEntry Cmd)} (hsent : SentWith cfg s args P) (hterm : n.currentTerm = args.term)
    (hmatch : n.log.matchLog args.prevLogIndex args.prevLogTerm = true)
    (hsnap : SnapshotAgrees n.log (args.prevLogIndex + 1) args.entries) :
    ∃ s', Stores cfg s s' i n.commitIndex args ∧ Simulates cfg s' i (n.storeEntries args).1 := by
  have hsent' := hsent
  obtain ⟨hl,hPG,hprev,_,hentries,hcle,hcom⟩ := hsent
  have hh := h.holds
  have hsi : s.term i = args.term := h.term.trans hterm
  have hled : s.Led (s.term i) := ⟨args.leaderId,by rw [hsi]; exact hl⟩
  have hPtake : (s.leaderLog (s.term i)).take P.length = P := by
    rw [hsi]
    exact (List.prefix_iff_eq_take.mp hPG).symm
  -- the committed part of the log is part of the leader's log
  have hcG : (s.log i).take n.commitIndex <+: s.leaderLog args.term :=
    hs.committed_isPrefix (hterm ▸ h.committed) ⟨_,hl⟩
  have hci := hh.commit_le
  have hcovered : P.take n.log.lastIncludedIndex <+: s.log i := by
    have hle := hh.snapshot.trans hh.applied_le
    have hlen : (P.take n.log.lastIncludedIndex).length ≤ ((s.log i).take n.commitIndex).length := by
      rw [List.length_take,List.length_take]
      omega
    exact (List.prefix_of_prefix_length_le ((List.take_prefix _ _).trans hPG) hcG hlen).trans
      (List.take_prefix _ _)
  have hpre := h.matchLog_isPrefix hs hsent' hcovered hmatch
  have hPchain : Chained LogEntry.term s P := (hs.matching.leaderLog _ ⟨_,hl⟩).of_isPrefix hPG
  have hloop := holds_appendNewEntries (M := M) hh.log hprev hentries hpre hcovered hsnap (fun k hk hk' _ he => by
    rw [hPchain.take_eq (hs.matching.log i) hk' hk he.symm]
    exact List.take_prefix _ _)
  have hm : Moves cfg i s (s.adopt i P.length) := Moves.adopt hs hled (by rw [hsi]; exact hPG.length_le)
  have hnew : (s.adopt i P.length).log i = merge (s.log i) P := by rw [s.adopt_log_self,hPtake]
  have hkeep : (s.log i).take n.commitIndex <+: (s.adopt i P.length).log i := by
    rw [s.adopt_log_self]
    exact prefix_merge_of_isPrefix (List.take_prefix _ _) (hsi ▸ hcG)
  have hPnew : P <+: (s.adopt i P.length).log i := by
    rw [hnew]
    exact prefix_merge _ _
  refine ⟨_,⟨hm,?_,hkeep,?_⟩,?_⟩
  · rw [← hsi,s.adopt_acked_self,hentries,List.length_drop]
    exact (by omega : _ ≤ P.length).trans (le_max_right _ _)
  · intro k
    rw [hnew,hentries]
    exact merge_getElem? hpre hprev k
  · -- the entries are stored, and then the commit mark follows the leader
    have hsim := h.setLog hm rfl rfl rfl rfl (hnew ▸ hloop.1) hloop.2 hkeep
    exact hsim.followLeaderCommit hPnew hcle (hm.keeps.committed hcom hterm.ge)

end Simulates

end DistributedSystems.Raft
