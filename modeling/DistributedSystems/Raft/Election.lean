import DistributedSystems.Protocol.Quorum
import DistributedSystems.Raft.Ballot

/-! # Election safety

Every vote a candidate counts in the vote set of an election was cast for it in
the term of that election. A leader of a term has a majority of votes of that
term as long as no reply of an older election completes a majority.
-/
namespace DistributedSystems.Raft
variable {Id Cmd : Type} [DecidableEq Id] {M : StateMachine Cmd}

/-- What one node's ballot says about its own votes and leaderships. -/
structure BallotInv (cfg : Config Id) (i : Id) (b : Ballot Id) : Prop where
  nodeId : b.nodeId = i
  peers : b.peers = cfg.peers i
  allNodes : i ∈ cfg.members → b.allNodes.length = cfg.members.length
  running : b.running = true → i ∈ cfg.members
  active : b.state ≠ .follower → i ∈ cfg.members ∧ b.votedFor = some i
  future : ∀ t, b.currentTerm < t → b.votes t = none
  current : b.votes b.currentTerm = b.votedFor
  leading : b.state = .leader ↔ b.currentTerm ∈ b.leaderTerms
  led : ∀ t ∈ b.leaderTerms, t ≤ b.currentTerm

namespace Cluster

/-- A majority of the members voted for `i` in term `t`. -/
def Elected (cfg : Config Id) (c : Cluster Id M) (i : Id) (t : ℕ) : Prop :=
  (majority cfg.members.toFinset).isQuorum {v | (c.nodes v).votes t = some i}

/-- Every vote that is in transit or counted was cast, and leaders were elected. -/
structure VoteInv (cfg : Config Id) (c : Cluster Id M) : Prop where
  node : ∀ i, BallotInv cfg i (c.nodes i).ballot
  call : ∀ m ∈ c.voteCalls, m.peer ∈ cfg.peers m.args.candidateId
  granted : ∀ r ∈ c.voteReplies, r.call ∈ c.voteCalls ∧
    (r.voteGranted = true →
      (c.nodes r.call.peer).votes r.call.args.term = some r.call.args.candidateId)
  received : ∀ i t, ∀ v ∈ (c.nodes i).votesReceived t,
    v ∈ cfg.members ∧ (c.nodes v).votes t = some i
  elected : ∀ i, ∀ t ∈ (c.nodes i).leaderTerms, Elected cfg c i t

/-- Processing the reply would make its candidate leader on the votes of an
election it started in another term than its current one. -/
def countsStaleVotes (c : Cluster Id M) : Action Id Cmd → Bool
  | .requestVoteReply k =>
    match c.voteReplies[k]? with
    | none => false
    | some r =>
      let n := c.nodes r.call.args.candidateId
      n.running && n.state == .candidate && decide (r.replyTerm ≤ n.currentTerm) && r.voteGranted &&
        decide (n.allNodes.length / 2 < (insert r.call.peer (n.votesReceived r.call.args.term)).card) &&
        decide (r.call.args.term ≠ n.currentTerm)
  | _ => false

def FreshVotes (c : Cluster Id M) (a : Action Id Cmd) : Prop := c.countsStaleVotes a = false

instance (c : Cluster Id M) (a : Action Id Cmd) : Decidable (c.FreshVotes a) :=
  inferInstanceAs (Decidable (_ = false))

theorem Elected.mono {cfg : Config Id} {c c' : Cluster Id M}
    (h : ∀ v t x, (c.nodes v).votes t = some x → (c'.nodes v).votes t = some x) {i : Id} {t : ℕ}
    (he : Elected cfg c i t) : Elected cfg c' i t :=
  (majority cfg.members.toFinset).mono he fun v hv => h v t i hv

/-- Two nodes elected in one term are the same node. -/
theorem Elected.unique {cfg : Config Id} {c : Cluster Id M} {i j : Id} {t : ℕ}
    (hi : Elected cfg c i t) (hj : Elected cfg c j t) : i = j :=
  (majority cfg.members.toFinset).winner_unique hi hj

/-- Replacing one node keeps the invariant when its ballot is in order, no vote
is taken back, and new counted votes and leaderships are justified. -/
theorem VoteInv.setNode {cfg : Config Id} {c : Cluster Id M} (h : VoteInv cfg c) {i : Id}
    {n : RaftNode Id M} (hn : BallotInv cfg i n.ballot)
    (hvotes : ∀ t x, (c.nodes i).votes t = some x → n.votes t = some x)
    (hreceived : ∀ t, ∀ v ∈ n.votesReceived t, v ∈ (c.nodes i).votesReceived t ∨
      (v ∈ cfg.members ∧ ((c.setNode i n).nodes v).votes t = some i))
    (hled : ∀ t ∈ n.leaderTerms, t ∈ (c.nodes i).leaderTerms ∨ Elected cfg (c.setNode i n) i t) :
    VoteInv cfg (c.setNode i n) := by
  have hkeep : ∀ v t x, (c.nodes v).votes t = some x → ((c.setNode i n).nodes v).votes t = some x := by
    intro v t x hv
    by_cases hvi : v = i
    · subst v
      rw [setNode_self]
      exact hvotes t x hv
    · rw [setNode_ne c n hvi]
      exact hv
  constructor
  · intro j
    by_cases hji : j = i
    · subst j
      rw [setNode_self]
      exact hn
    · rw [setNode_ne c n hji]
      exact h.node j
  · exact h.call
  · intro r hr
    exact ⟨(h.granted r hr).1,fun hg => hkeep _ _ _ ((h.granted r hr).2 hg)⟩
  · intro j t v hv
    by_cases hji : j = i
    · subst j
      rw [setNode_self] at hv
      rcases hreceived t v hv with hold | hnew
      · obtain ⟨hm,hx⟩ := h.received i t v hold
        exact ⟨hm,hkeep v t i hx⟩
      · exact hnew
    · rw [setNode_ne c n hji] at hv
      obtain ⟨hm,hx⟩ := h.received j t v hv
      exact ⟨hm,hkeep v t j hx⟩
  · intro j t ht
    by_cases hji : j = i
    · subst j
      rw [setNode_self] at ht
      rcases hled t ht with hold | hnew
      · exact (h.elected i t hold).mono hkeep
      · exact hnew
    · rw [setNode_ne c n hji] at ht
      exact (h.elected j t ht).mono hkeep

theorem votes_setNode {c : Cluster Id M} {i : Id} {n : RaftNode Id M} (hn : n.votes = (c.nodes i).votes)
    (v : Id) : ((c.setNode i n).nodes v).votes = (c.nodes v).votes := by
  by_cases hv : v = i
  · rw [hv,setNode_self,hn]
  · rw [setNode_ne c n hv]

theorem VoteInv.of_ballot_eq {cfg : Config Id} {c : Cluster Id M} (h : VoteInv cfg c) {i : Id}
    {n : RaftNode Id M} (hb : n.ballot = (c.nodes i).ballot) : VoteInv cfg (c.setNode i n) := by
  have hvotes : n.votes = (c.nodes i).votes := congrArg Ballot.votes hb
  have hreceived : n.votesReceived = (c.nodes i).votesReceived := congrArg Ballot.votesReceived hb
  have hled : n.leaderTerms = (c.nodes i).leaderTerms := congrArg Ballot.leaderTerms hb
  refine h.setNode (hb ▸ h.node i) ?_ ?_ ?_
  · intro t x hx
    rw [hvotes]
    exact hx
  · intro t v hv
    rw [hreceived] at hv
    exact Or.inl hv
  · intro t ht
    rw [hled] at ht
    exact Or.inl ht


theorem VoteInv.addVoteReply {cfg : Config Id} {c : Cluster Id M} (h : VoteInv cfg c) {r : VoteReply Id}
    (hcall : r.call ∈ c.voteCalls)
    (hgranted : r.voteGranted = true →
      (c.nodes r.call.peer).votes r.call.args.term = some r.call.args.candidateId) :
    VoteInv cfg (c.addVoteReply r) := by
  refine ⟨h.node,h.call,?_,h.received,h.elected⟩
  intro r' hr'
  rcases List.mem_append.mp hr' with hr' | hr'
  · exact h.granted r' hr'
  · rw [List.mem_singleton.mp hr']
    exact ⟨hcall,hgranted⟩

theorem VoteInv.addVoteCalls {cfg : Config Id} {c : Cluster Id M} (h : VoteInv cfg c)
    {calls : List (VoteCall Id)} (hcalls : ∀ m ∈ calls, m.peer ∈ cfg.peers m.args.candidateId) :
    VoteInv cfg (c.addVoteCalls calls) := by
  refine ⟨h.node,?_,?_,h.received,h.elected⟩
  · intro m hm
    rcases List.mem_append.mp hm with hm | hm
    · exact h.call m hm
    · exact hcalls m hm
  · intro r hr
    exact ⟨List.mem_append_left _ (h.granted r hr).1,(h.granted r hr).2⟩

end Cluster

namespace BallotInv
variable {cfg : Config Id} {i : Id}

omit [DecidableEq Id] in
/-- Adopting a newer term: no vote was cast in it and no leadership reached it. -/
theorem observe [DecidableEq Id] {b : Ballot Id} (h : BallotInv cfg i b) {t : ℕ} (ht : b.currentTerm < t) :
    BallotInv cfg i (b.observe t) where
  nodeId := h.nodeId
  peers := h.peers
  allNodes := h.allNodes
  running := h.running
  active := fun hs => absurd rfl hs
  future := fun u hu => h.future u (ht.trans hu)
  current := h.future t ht
  leading := by
    constructor
    · intro hs
      exact absurd hs (by simp [Ballot.observe])
    · intro hl
      have := h.led t hl
      omega
  led := fun u hu => (h.led u hu).trans ht.le

theorem adoptTerm {n : RaftNode Id M} (h : BallotInv cfg i n.ballot) (t : ℕ) :
    BallotInv cfg i (n.adoptTerm t).ballot := by
  rcases RaftNode.ballot_adoptTerm n t with hb | ⟨ht,hb⟩
  · rw [hb]
    exact h
  · rw [hb]
    exact h.observe ht

/-- A vote may be cast when the node has not voted for another candidate. -/
theorem castVote {n : RaftNode Id M} (h : BallotInv cfg i n.ballot) {x : Id}
    (hx : n.state ≠ .follower → x = i) : BallotInv cfg i (n.castVote x).ballot where
  nodeId := h.nodeId
  peers := h.peers
  allNodes := h.allNodes
  running := h.running
  active := fun hs => ⟨(h.active hs).1,by rw [← hx hs]; rfl⟩
  future := by
    intro t ht
    change n.currentTerm < t at ht
    change Function.update n.votes n.currentTerm (some x) t = none
    rw [Function.update_of_ne (by omega)]
    exact h.future t ht
  current := Function.update_self ..
  leading := h.leading
  led := h.led

/-- An election opens a term above every vote and leadership of the node. -/
theorem startElection {n : RaftNode Id M} (h : BallotInv cfg i n.ballot) (hm : i ∈ cfg.members) :
    BallotInv cfg i n.startElection.ballot where
  nodeId := h.nodeId
  peers := h.peers
  allNodes := h.allNodes
  running := h.running
  active := fun _ => ⟨hm,congrArg some h.nodeId⟩
  future := by
    intro t ht
    change n.currentTerm + 1 < t at ht
    change Function.update n.votes (n.currentTerm + 1) (some n.nodeId) t = none
    rw [Function.update_of_ne (by omega)]
    exact h.future t (show n.currentTerm < t by omega)
  current := Function.update_self ..
  leading := by
    constructor
    · intro hs
      cases hs
    · intro hl
      have hle : n.currentTerm + 1 ≤ n.currentTerm := h.led _ hl
      omega
  led := fun t ht => (h.led t ht).trans (Nat.le_succ _)

theorem becomeLeader {n : RaftNode Id M} (h : BallotInv cfg i n.ballot) (hs : n.state = .candidate) :
    BallotInv cfg i n.becomeLeader.ballot where
  nodeId := h.nodeId
  peers := h.peers
  allNodes := h.allNodes
  running := h.running
  active := fun _ => h.active (by change n.state ≠ _; rw [hs]; decide)
  future := h.future
  current := h.current
  leading := by
    constructor
    · intro _
      exact List.mem_append_right _ (List.mem_singleton.mpr rfl)
    · intro _
      rfl
  led := by
    intro t ht
    rcases List.mem_append.mp ht with ht | ht
    · exact h.led t ht
    · exact (List.mem_singleton.mp ht).le

end BallotInv

namespace Cluster
variable {cfg : Config Id} {c : Cluster Id M}

theorem VoteInv.init (M : StateMachine Cmd) (cfg : Config Id) : VoteInv cfg (Cluster.init M cfg) where
  node i :=
    { nodeId := rfl
      peers := (cfg.peers_nodup i).dedup
      allNodes := by
        intro hi
        change (List.insert i (cfg.peers i).dedup).length = _
        rw [(cfg.peers_nodup i).dedup]
        exact Config.length_insert_peers hi
      running := fun h => by cases h
      active := fun h => absurd rfl h
      future := fun _ _ => rfl
      current := rfl
      leading := by
        constructor
        · intro h
          cases h
        · intro h
          cases h
      led := fun _ h => by cases h }
  call _ h := by cases h
  granted _ h := by cases h
  received _ _ _ h := by cases h
  elected _ _ h := by cases h

/-- A vote of the current term can only repeat one cast before. -/
theorem castVote_votes {i x : Id} {n : RaftNode Id M} (h : BallotInv cfg i n.ballot)
    (hv : n.votedFor = none ∨ n.votedFor = some x) (t : ℕ) (y : Id) (hy : n.votes t = some y) :
    (n.castVote x).votes t = some y := by
  change Function.update n.votes n.currentTerm (some x) t = some y
  by_cases ht : t = n.currentTerm
  · subst t
    have hcur : n.votes n.currentTerm = n.votedFor := h.current
    rw [Function.update_self]
    rw [hcur] at hy
    rcases hv with hv | hv
    · rw [hv] at hy
      contradiction
    · exact hv.symm.trans hy
  · rw [Function.update_of_ne ht]
    exact hy

theorem VoteInv.electionTimeout (h : VoteInv cfg c) (i : Id) :
    VoteInv cfg (c.step cfg (.electionTimeout i)) := by
  unfold step
  dsimp only
  rcases (c.nodes i).electionTimeoutHandler_cases with he | ⟨hr,_,he⟩
  · rw [he]
    exact h
  · rw [he]
    dsimp only
    have hb := h.node i
    have hid : (c.nodes i).nodeId = i := hb.nodeId
    have hpeers : (c.nodes i).peers = cfg.peers i := hb.peers
    apply VoteInv.addVoteCalls
    · apply h.setNode (hb.startElection (hb.running hr))
      · intro t x hx
        change Function.update (c.nodes i).votes ((c.nodes i).currentTerm + 1) _ t = _
        rw [Function.update_of_ne]
        · exact hx
        · rintro rfl
          have hnone : (c.nodes i).votes _ = none := hb.future ((c.nodes i).currentTerm + 1) (Nat.lt_succ_self _)
          rw [hnone] at hx
          contradiction
      · intro t v hv
        change v ∈ Function.update (c.nodes i).votesReceived ((c.nodes i).currentTerm + 1) {(c.nodes i).nodeId} t at hv
        by_cases ht : t = (c.nodes i).currentTerm + 1
        · subst t
          rw [Function.update_self,hid] at hv
          rw [Finset.mem_singleton.mp hv]
          refine Or.inr ⟨hb.running hr,?_⟩
          rw [setNode_self]
          change Function.update (c.nodes i).votes ((c.nodes i).currentTerm + 1) (some (c.nodes i).nodeId) _ = _
          rw [Function.update_self,hid]
        · rw [Function.update_of_ne ht] at hv
          exact Or.inl hv
      · exact fun t ht => Or.inl ht
    · intro m hm
      obtain ⟨peer,hpeer,rfl⟩ := List.mem_map.mp hm
      change peer ∈ cfg.peers (c.nodes i).nodeId
      rw [hid,← hpeers]
      exact hpeer

theorem VoteInv.adoptTerm (h : VoteInv cfg c) (i : Id) (t : ℕ) :
    VoteInv cfg (c.setNode i ((c.nodes i).adoptTerm t)) := by
  rcases RaftNode.ballot_adoptTerm (c.nodes i) t with hb | ⟨ht,hb⟩
  · exact h.of_ballot_eq hb
  · have hvotes : ((c.nodes i).adoptTerm t).votes = (c.nodes i).votes := congrArg Ballot.votes hb
    have hrec : ((c.nodes i).adoptTerm t).votesReceived = (c.nodes i).votesReceived :=
      congrArg Ballot.votesReceived hb
    have hled : ((c.nodes i).adoptTerm t).leaderTerms = (c.nodes i).leaderTerms :=
      congrArg Ballot.leaderTerms hb
    refine h.setNode ((h.node i).adoptTerm t) ?_ ?_ ?_
    · intro u x hx
      rw [hvotes]
      exact hx
    · intro u v hv
      rw [hrec] at hv
      exact Or.inl hv
    · intro u hu
      rw [hled] at hu
      exact Or.inl hu

theorem VoteInv.handleRequestVote (h : VoteInv cfg c) (k : ℕ) :
    VoteInv cfg (c.step cfg (.handleRequestVote k)) := by
  unfold step
  dsimp only
  cases hk : c.voteCalls[k]? with
  | none => exact h
  | some call =>
    have hmem : call ∈ c.voteCalls := List.mem_of_getElem? hk
    dsimp only
    rcases (c.nodes call.peer).handleRequestVote_cases call.args with he | ⟨_,he⟩ | ⟨hle,hv,_,he⟩
    · rw [he]
      exact (h.of_ballot_eq rfl).addVoteReply hmem (fun hg => by cases hg)
    · rw [he]
      exact (h.adoptTerm call.peer call.args.term).addVoteReply hmem (fun hg => by cases hg)
    · rw [he]
      dsimp only
      have ha := h.adoptTerm call.peer call.args.term
      have hb := ha.node call.peer
      rw [setNode_self] at hb
      have hterm := RaftNode.adoptTerm_currentTerm hle
      have hset : c.setNode call.peer (((c.nodes call.peer).adoptTerm call.args.term).castVote call.args.candidateId) =
          (c.setNode call.peer ((c.nodes call.peer).adoptTerm call.args.term)).setNode call.peer
            (((c.nodes call.peer).adoptTerm call.args.term).castVote call.args.candidateId) := by
        simp [Cluster.setNode]
      rw [hset]
      apply VoteInv.addVoteReply
      · apply ha.setNode
        · apply hb.castVote
          intro hs
          have hself := (hb.active hs).2
          rcases hv with hv | hv
          · exact absurd (hv.symm.trans hself) (by simp)
          · exact Option.some.inj (hv.symm.trans hself)
        · rw [setNode_self]
          exact fun t y hy => castVote_votes hb hv t y hy
        · rw [setNode_self]
          exact fun t v hv => Or.inl hv
        · rw [setNode_self]
          exact fun t ht => Or.inl ht
      · exact hmem
      · intro _
        rw [setNode_self]
        change Function.update ((c.nodes call.peer).adoptTerm call.args.term).votes
          ((c.nodes call.peer).adoptTerm call.args.term).currentTerm _ call.args.term = _
        rw [hterm,Function.update_self]

/-- Counting a granted reply adds a vote that was cast for this candidate. -/
theorem VoteInv.counted (h : VoteInv cfg c) {r : VoteReply Id} (hr : r ∈ c.voteReplies)
    (hg : r.voteGranted = true) (t : ℕ) (v : Id)
    (hv : v ∈ ((c.nodes r.call.args.candidateId).countVote r.call.peer r.call.args.term).votesReceived t) :
    v ∈ cfg.members ∧ (c.nodes v).votes t = some r.call.args.candidateId := by
  rcases RaftNode.mem_countVote.mp hv with ⟨rfl,rfl⟩ | hv
  · obtain ⟨hcall,hvote⟩ := h.granted r hr
    exact ⟨(Config.mem_peers.mp (h.call _ hcall)).1,hvote hg⟩
  · exact h.received _ _ v hv

/-- A full vote set of the current term is a majority of votes. -/
theorem VoteInv.elected_of_card (h : VoteInv cfg c) {r : VoteReply Id} (hr : r ∈ c.voteReplies)
    (hg : r.voteGranted = true) (hm : r.call.args.candidateId ∈ cfg.members)
    (hcard : (c.nodes r.call.args.candidateId).allNodes.length / 2 <
      (insert r.call.peer ((c.nodes r.call.args.candidateId).votesReceived r.call.args.term)).card) :
    Elected cfg c r.call.args.candidateId r.call.args.term := by
  have hall : (c.nodes r.call.args.candidateId).allNodes.length = cfg.members.length :=
    (h.node r.call.args.candidateId).allNodes hm
  have hvotes : ∀ v ∈ insert r.call.peer ((c.nodes r.call.args.candidateId).votesReceived r.call.args.term),
      v ∈ cfg.members ∧ (c.nodes v).votes r.call.args.term = some r.call.args.candidateId := by
    intro v hv
    apply h.counted hr hg r.call.args.term v
    rcases Finset.mem_insert.mp hv with hv | hv
    · exact RaftNode.mem_countVote.mpr (Or.inl ⟨rfl,hv⟩)
    · exact RaftNode.mem_countVote.mpr (Or.inr hv)
  refine majority_of_finset (S := insert r.call.peer
    ((c.nodes r.call.args.candidateId).votesReceived r.call.args.term)) ?_ ?_ ?_
  · intro v hv
    exact List.mem_toFinset.mpr (hvotes v hv).1
  · exact fun v hv => (hvotes v hv).2
  · rw [cfg.card_members]
    omega

theorem VoteInv.requestVoteReply (h : VoteInv cfg c) (k : ℕ) (hf : c.FreshVotes (.requestVoteReply k)) :
    VoteInv cfg (c.step cfg (.requestVoteReply k)) := by
  unfold step
  unfold FreshVotes countsStaleVotes at hf
  dsimp only at hf ⊢
  cases hk : c.voteReplies[k]? with
  | none => exact h
  | some r =>
    have hmem : r ∈ c.voteReplies := List.mem_of_getElem? hk
    rw [hk] at hf
    dsimp only at hf ⊢
    have hb := h.node r.call.args.candidateId
    have hcount := votes_setNode (c := c) (i := r.call.args.candidateId)
      (n := (c.nodes r.call.args.candidateId).countVote r.call.peer r.call.args.term) rfl
    have hlead := votes_setNode (c := c) (i := r.call.args.candidateId)
      (n := ((c.nodes r.call.args.candidateId).countVote r.call.peer r.call.args.term).becomeLeader) rfl
    rcases (c.nodes r.call.args.candidateId).requestVoteReply_cases r.call.peer r.call.args.term
      r.replyTerm r.voteGranted with he | ⟨ht,he⟩ | ⟨hrun,hs,hle,hg,he | ⟨hcard,he⟩⟩
    · rw [he]
      exact h.of_ballot_eq rfl
    · rw [he]
      exact h.setNode (hb.observe ht) (fun _ _ hx => hx) (fun _ _ hv => Or.inl hv) (fun _ hu => Or.inl hu)
    · rw [he]
      refine h.setNode ?_ (fun _ _ hx => hx) ?_ (fun _ hu => Or.inl hu)
      · exact ⟨hb.nodeId,hb.peers,hb.allNodes,hb.running,hb.active,hb.future,hb.current,hb.leading,hb.led⟩
      · intro t v hv
        rw [hcount v]
        exact Or.inr (h.counted hmem hg t v hv)
    · rw [he]
      -- The reply completes a majority, so its election is the current one.
      have hterm : r.call.args.term = (c.nodes r.call.args.candidateId).currentTerm := by
        simpa [hrun,hs,hle,hg,hcard] using hf
      have hm := (hb.active (by change (c.nodes _).state ≠ _; rw [hs]; decide)).1
      refine h.setNode ?_ (fun _ _ hx => hx) ?_ ?_
      · refine BallotInv.becomeLeader ?_ hs
        exact ⟨hb.nodeId,hb.peers,hb.allNodes,hb.running,hb.active,hb.future,hb.current,hb.leading,hb.led⟩
      · intro t v hv
        rw [hlead v]
        exact Or.inr (h.counted hmem hg t v hv)
      · intro t ht
        rcases List.mem_append.mp ht with ht | ht
        · exact Or.inl ht
        · right
          have hcur : t = (c.nodes r.call.args.candidateId).currentTerm := List.mem_singleton.mp ht
          rw [hcur,← hterm]
          apply (h.elected_of_card hmem hg hm hcard).mono
          intro v u x hx
          rw [hlead v]
          exact hx

/-- The AppendEntries side only ever adopts newer terms. -/
theorem VoteInv.of_observe (h : VoteInv cfg c) {i : Id} {n : RaftNode Id M} {t : ℕ}
    (hn : n.ballot = (c.nodes i).ballot ∨
      ((c.nodes i).currentTerm < t ∧ n.ballot = (c.nodes i).ballot.observe t)) :
    VoteInv cfg (c.setNode i n) := by
  rcases hn with hb | ⟨ht,hb⟩
  · exact h.of_ballot_eq hb
  · have ha := h.adoptTerm i t
    have hadopt : ((c.nodes i).adoptTerm t).ballot = (c.nodes i).ballot.observe t := by
      simp [RaftNode.adoptTerm,ht]
    have hset : c.setNode i n = (c.setNode i ((c.nodes i).adoptTerm t)).setNode i n := by
      simp [Cluster.setNode]
    rw [hset]
    apply ha.of_ballot_eq
    rw [setNode_self,hb,hadopt]

theorem VoteInv.step (h : VoteInv cfg c) (a : Action Id Cmd) (hf : c.FreshVotes a) :
    VoteInv cfg (c.step cfg a) := by
  cases a with
  | start i =>
    unfold Cluster.step
    dsimp only
    split
    · rename_i hi
      have hb := h.node i
      refine h.setNode ?_ (fun _ _ hx => hx) (fun _ _ hv => Or.inl hv) (fun _ hu => Or.inl hu)
      exact ⟨hb.nodeId,hb.peers,hb.allNodes,fun _ => hi,hb.active,hb.future,hb.current,hb.leading,hb.led⟩
    · exact h
  | stop i =>
    have hb := h.node i
    refine h.setNode ?_ (fun _ _ hx => hx) (fun _ _ hv => Or.inl hv) (fun _ hu => Or.inl hu)
    exact ⟨hb.nodeId,hb.peers,hb.allNodes,fun hr => absurd hr Bool.false_ne_true,hb.active,hb.future,hb.current,
      hb.leading,hb.led⟩
  | electionTimeout i => exact h.electionTimeout i
  | handleRequestVote k => exact h.handleRequestVote k
  | failRequestVote k =>
    unfold Cluster.step
    dsimp only
    cases hk : c.voteCalls[k]? with
    | none => exact h
    | some call => exact h.addVoteReply (List.mem_of_getElem? hk) (fun hg => by cases hg)
  | requestVoteReply k => exact h.requestVoteReply k hf
  | sendAppendEntries i peer =>
    unfold Cluster.step
    dsimp only
    split
    · cases (c.nodes i).appendEntriesArgs peer with
      | none => exact h
      | some args => exact ⟨h.node,h.call,h.granted,h.received,h.elected⟩
    · exact h
  | handleAppendEntries k =>
    unfold Cluster.step
    dsimp only
    cases c.appendCalls[k]? with
    | none => exact h
    | some call =>
      have hn := h.of_observe ((c.nodes call.peer).ballot_handleAppendEntries call.args)
      dsimp only
      cases ((c.nodes call.peer).handleAppendEntries call.args).2 with
      | none => exact hn
      | some reply => exact ⟨hn.node,hn.call,hn.granted,hn.received,hn.elected⟩
  | failAppendEntries k =>
    unfold Cluster.step
    dsimp only
    cases c.appendCalls[k]? with
    | none => exact h
    | some call => exact ⟨h.node,h.call,h.granted,h.received,h.elected⟩
  | appendEntriesReply k =>
    unfold Cluster.step
    dsimp only
    cases c.appendReplies[k]? with
    | none => exact h
    | some r => exact h.of_observe (RaftNode.ballot_appendEntriesReply _ _ _ _ _)
  | submitCommand i command => exact h.of_ballot_eq (RaftNode.ballot_submitCommand _ _)

theorem VoteInv.run {schedule : List (Action Id Cmd)}
    (h : Runs.Along (Cluster.step cfg) FreshVotes (Cluster.init M cfg) schedule) :
    VoteInv cfg (Runs.run (Cluster.step cfg) (Cluster.init M cfg) schedule) :=
  Runs.run_invariant (fun _ a hc hf => hc.step a hf) (VoteInv.init M cfg) h

/-- Election safety: when no reply of an older election completes a majority, two
nodes that ran `_become_leader` in the same term are the same node. -/
theorem election_safety (M : StateMachine Cmd) (cfg : Config Id) (schedule : List (Action Id Cmd))
    (h : Runs.Along (Cluster.step cfg) FreshVotes (Cluster.init M cfg) schedule) (i j : Id) (t : ℕ)
    (hi : t ∈ ((Runs.run (Cluster.step cfg) (Cluster.init M cfg) schedule).nodes i).leaderTerms)
    (hj : t ∈ ((Runs.run (Cluster.step cfg) (Cluster.init M cfg) schedule).nodes j).leaderTerms) :
    i = j :=
  ((VoteInv.run h).elected i t hi).unique ((VoteInv.run h).elected j t hj)

/-- Three nodes without snapshots. -/
def threeNodes : Config ℕ where
  members := [0,1,2]
  nodup := by decide
  snapshotInterval := fun _ => 1000

theorem election_safety_two_terms :
    ∃ schedule : List (Action ℕ (KeyValueCommand ℕ ℕ)),
      1 ∈ ((Runs.run (Cluster.step threeNodes) (Cluster.init (KeyValueStateMachine ℕ ℕ) threeNodes)
        schedule).nodes 0).leaderTerms ∧
      ∀ j, 1 ∈ ((Runs.run (Cluster.step threeNodes) (Cluster.init (KeyValueStateMachine ℕ ℕ) threeNodes)
        schedule).nodes j).leaderTerms → 0 = j :=
  ⟨[.start 0,.start 1,.start 2,.electionTimeout 0,.handleRequestVote 0,.requestVoteReply 0,
      .electionTimeout 2,.electionTimeout 2,.handleRequestVote 5,.requestVoteReply 1],by decide,
    fun j hj => election_safety (KeyValueStateMachine ℕ ℕ) threeNodes _ (by decide) 0 j 1 (by decide) hj⟩

/-- Node 0 stands in term 1 and node 1 votes for it, but the reply is late. Node 2
wins term 2 with the vote of node 1. Node 0 stands in term 2 and then counts the
late reply. -/
theorem two_leaders_of_one_term :
    ¬ ∀ (schedule : List (Action ℕ (KeyValueCommand ℕ ℕ))) (i j t : ℕ),
      t ∈ ((Runs.run (Cluster.step threeNodes) (Cluster.init (KeyValueStateMachine ℕ ℕ) threeNodes)
        schedule).nodes i).leaderTerms →
      t ∈ ((Runs.run (Cluster.step threeNodes) (Cluster.init (KeyValueStateMachine ℕ ℕ) threeNodes)
        schedule).nodes j).leaderTerms → i = j := by
  intro h
  -- Calls 0 and 1 are those of node 0 in term 1, calls 6 and 7 those of node 2 in term 2.
  have he := h [.start 0,.start 1,.start 2,.electionTimeout 0,.handleRequestVote 0,.electionTimeout 0,
    .electionTimeout 2,.electionTimeout 2,.handleRequestVote 7,.requestVoteReply 1,.requestVoteReply 0]
    0 2 2 (by decide) (by decide)
  exact absurd he (by decide)

end Cluster

end DistributedSystems.Raft
