import DistributedSystems.Raft.NextIndex
import DistributedSystems.Raft.AppendStep

/-! # A follower catches up

A leader that reaches a follower again and again moves its next index back by one with every
refusal, until it meets an entry that both have. The call that does is accepted and brings the
follower all the leader has.
-/
namespace DistributedSystems.Raft
open ReplicatedLog
variable {Id Cmd : Type} [DecidableEq Id] {M : StateMachine Cmd} {cfg : Config Id}

namespace Cluster

/-- The leader sends to the peer, which answers, and the answer is handled. -/
def exchange (cfg : Config Id) (i j : Id) (c : Cluster Id M) : Cluster Id M :=
  Runs.run (step cfg) c
    [.sendAppendEntries i j,.handleAppendEntries c.appendCalls.length,.appendEntriesReply c.appendReplies.length]

/-- A leader and a peer behind it, both without snapshots, with the lists `L` and `F`. -/
structure Trails (cfg : Config Id) (c : Cluster Id M) (i j : Id) (L F : List (LogEntry Cmd)) (next : ℕ) : Prop where
  refined : ∃ s, Refines cfg c s
  votes : VoteInv cfg c
  running : (c.nodes i).running = true
  leader : (c.nodes i).state = .leader
  peer : j ∈ cfg.peers i
  term : (c.nodes j).currentTerm ≤ (c.nodes i).currentTerm
  snapshots : (c.nodes i).log.lastIncludedIndex = 0 ∧ (c.nodes j).log.lastIncludedIndex = 0
  entries : (c.nodes i).log.entries = L ∧ (c.nodes j).log.entries = F
  nextIndex : (c.nodes i).nextIndex j = some next
  range : 0 < next ∧ next ≤ L.length + 1

namespace Trails
variable {c : Cluster Id M} {i j : Id} {L F : List (LogEntry Cmd)} {next : ℕ}

theorem holds (h : Trails cfg c i j L F next) : (c.nodes i).Holds L ∧ (c.nodes j).Holds F ∧ Matches F L := by
  obtain ⟨s,href⟩ := h.refined
  have hi := (href.node i).holds
  have hj := (href.node j).holds
  have hlist : ∀ {x : Id} {P : List (LogEntry Cmd)}, (c.nodes x).Holds P → (c.nodes x).log.lastIncludedIndex = 0 →
      (c.nodes x).log.entries = P := by
    intro x P hx hzero
    have he := hx.log.entries
    rwa [hzero,List.drop_zero] at he
  have hL : s.log i = L := (hlist hi h.snapshots.1).symm.trans h.entries.1
  have hF : s.log j = F := (hlist hj h.snapshots.2).symm.trans h.entries.2
  refine ⟨hL ▸ hi,hF ▸ hj,fun k hkF hkL hterm => ?_⟩
  subst hL hF
  exact (href.inv.matching.log j).take_eq (href.inv.matching.log i) hkF hkL hterm

/-- The call that the leader makes next. -/
def args (c : Cluster Id M) (i : Id) (L : List (LogEntry Cmd)) (next : ℕ) : AppendArgs Id Cmd where
  term := (c.nodes i).currentTerm
  leaderId := i
  prevLogIndex := next - 1
  prevLogTerm := lastTermOf (L.take (next - 1))
  entries := L.drop (next - 1)
  leaderCommit := (c.nodes i).commitIndex

theorem appendEntriesArgs_eq (h : Trails cfg c i j L F next) :
    (c.nodes i).appendEntriesArgs j = some (args c i L next) := by
  obtain ⟨hL,-,-⟩ := h.holds
  have hpos := h.range.1
  have hle := h.range.2
  have hterm : (c.nodes i).log.getTerm (next - 1) = some (lastTermOf (L.take (next - 1))) :=
    hL.log.getTerm (by rw [h.snapshots.1]; exact Nat.zero_le _) (by omega)
  have hentries : (c.nodes i).log.getEntries next = L.drop (next - 1) :=
    hL.log.getEntries (by rw [h.snapshots.1]; exact Nat.zero_le _)
  have hid : (c.nodes i).nodeId = i := (h.votes.node i).nodeId
  unfold RaftNode.appendEntriesArgs
  rw [if_neg (not_not.mpr h.leader)]
  simp only [h.nextIndex,Option.getD_some,h.snapshots.1,Nat.not_lt_zero,if_false,hterm,hentries,hid,args]

/-- The peer handles the call. -/
def handled (c : Cluster Id M) (i j : Id) (L : List (LogEntry Cmd)) (next : ℕ) : RaftNode Id M × Option (ℕ × Bool) :=
  (c.nodes j).handleAppendEntries (args c i L next)

/-- The cluster after the call and its reply, if there is one. -/
def answered (c : Cluster Id M) (i j : Id) (L : List (LogEntry Cmd)) (next : ℕ) : Cluster Id M :=
  let c' := (c.addAppendCall ⟨j,args c i L next⟩).setNode j (handled c i j L next).1
  match (handled c i j L next).2 with
  | none => c'
  | some reply => c'.addAppendReply ⟨⟨j,args c i L next⟩,reply.1,reply.2⟩

theorem ne (h : Trails cfg c i j L F next) : i ≠ j := fun heq => (Config.mem_peers.mp h.peer).2 heq.symm

theorem send_eq (h : Trails cfg c i j L F next) :
    c.step cfg (.sendAppendEntries i j) = c.addAppendCall ⟨j,args c i L next⟩ := by
  have hpeers : j ∈ (c.nodes i).peers := (congrArg (j ∈ ·) (h.votes.node i).peers).mpr h.peer
  simp only [step,if_pos hpeers,h.appendEntriesArgs_eq]

omit [DecidableEq Id] in
theorem getElem?_addAppendCall (call : AppendCall Id Cmd) :
    (c.addAppendCall call).appendCalls[c.appendCalls.length]? = some call := List.getElem?_concat_length

theorem handle_eq (c : Cluster Id M) (i j : Id) (L : List (LogEntry Cmd)) (next : ℕ) :
    (c.addAppendCall ⟨j,args c i L next⟩).step cfg (.handleAppendEntries c.appendCalls.length) = answered c i j L next := by
  simp only [step,getElem?_addAppendCall]
  rfl

theorem answered_nodes (c : Cluster Id M) (i j : Id) (L : List (LogEntry Cmd)) (next : ℕ) :
    (answered c i j L next).nodes = Function.update c.nodes j (handled c i j L next).1 := by
  unfold answered
  dsimp only
  split
  · rfl
  · rfl

theorem answered_leader (h : Trails cfg c i j L F next) : (answered c i j L next).nodes i = c.nodes i := by
  rw [answered_nodes,Function.update_of_ne h.ne]

theorem answered_reply (c : Cluster Id M) (i j : Id) (L : List (LogEntry Cmd)) (next : ℕ) :
    (answered c i j L next).appendReplies[c.appendReplies.length]? =
      (handled c i j L next).2.map fun reply => ⟨⟨j,args c i L next⟩,reply.1,reply.2⟩ := by
  unfold answered
  dsimp only
  split
  · rename_i hnone
    rw [hnone]
    exact List.getElem?_eq_none (le_refl _)
  · rename_i reply hsome
    rw [hsome]
    exact List.getElem?_concat_length

/-- The nodes after an exchange. -/
theorem exchange_nodes (h : Trails cfg c i j L F next) :
    ((exchange cfg i j c).nodes j = (handled c i j L next).1) ∧
      (exchange cfg i j c).nodes i = match (handled c i j L next).2 with
        | none => c.nodes i
        | some reply => (c.nodes i).appendEntriesReply j (args c i L next) reply.1 reply.2 := by
  unfold exchange
  rw [Runs.run_cons,Runs.run_cons,Runs.run_cons,Runs.run_nil,h.send_eq,handle_eq]
  simp only [step,answered_reply]
  cases (handled c i j L next).2 with
  | none =>
    refine ⟨?_,h.answered_leader⟩
    exact (congrFun (answered_nodes c i j L next) j).trans (Function.update_self ..)
  | some reply =>
    constructor
    · refine (setNode_ne _ _ h.ne.symm).trans ?_
      exact (congrFun (answered_nodes c i j L next) j).trans (Function.update_self ..)
    · refine (setNode_self _ i _).trans ?_
      exact congrArg (fun n : RaftNode Id M => n.appendEntriesReply j (args c i L next) reply.1 reply.2) h.answered_leader

theorem exchange_other (h : Trails cfg c i j L F next) {x : Id} (hi : x ≠ i) (hj : x ≠ j) :
    (exchange cfg i j c).nodes x = c.nodes x := by
  have hx : (answered c i j L next).nodes x = c.nodes x := by
    rw [answered_nodes,Function.update_of_ne hj]
  unfold exchange
  rw [Runs.run_cons,Runs.run_cons,Runs.run_cons,Runs.run_nil,h.send_eq,handle_eq]
  simp only [step,answered_reply]
  cases (handled c i j L next).2 with
  | none => exact hx
  | some reply => exact (setNode_ne _ _ hi).trans hx

/-- An exchange follows the protocol. -/
theorem refines_exchange (h : Trails cfg c i j L F next) :
    (∃ s, Refines cfg (exchange cfg i j c) s) ∧ VoteInv cfg (exchange cfg i j c) := by
  have hsound : Runs.Along (step cfg) Sound c
      [.sendAppendEntries i j,.handleAppendEntries c.appendCalls.length,.appendEntriesReply c.appendReplies.length] := by
    refine ⟨⟨rfl,trivial,trivial⟩,⟨rfl,trivial,?_⟩,⟨rfl,?_,trivial⟩,trivial⟩
    · rw [h.send_eq]
      intro call hsome n _ _ k _ hcovered
      rw [getElem?_addAppendCall] at hsome
      cases hsome
      have hzero : n.log.lastIncludedIndex = 0 := h.snapshots.2
      omega
    · rw [h.send_eq,handle_eq]
      intro r hsome n _ _ _ _ _
      rw [answered_reply] at hsome
      obtain ⟨reply,-,rfl⟩ := Option.map_eq_some_iff.mp hsome
      exact (congrArg RaftNode.currentTerm h.answered_leader).symm
  refine Runs.run_invariant (P := Sound) (I := fun c : Cluster Id M => (∃ s, Refines cfg c s) ∧ VoteInv cfg c) ?_
    ⟨h.refined,h.votes⟩ hsound
  rintro c a ⟨⟨s,href⟩,hv⟩ ha
  obtain ⟨s',-,href'⟩ := href.step hv a ha
  exact ⟨⟨s',href'⟩,hv.step a ha.1⟩

/-- The consistency check of the call compares the logs up to the entry before it. -/
theorem matchLog_iff (h : Trails cfg c i j L F next) :
    (c.nodes j).log.matchLog (next - 1) (lastTermOf (L.take (next - 1))) = true ↔ AgreeUpTo F L (next - 1) := by
  obtain ⟨-,hF,hmatch⟩ := h.holds
  have hle := h.range.2
  refine ⟨RaftNode.agreeUpTo_of_matchLog hF.log h.snapshots.2 hmatch (by omega),fun hagree => ?_⟩
  unfold RaftLog.matchLog
  have hleft := hagree.left
  split
  · rfl
  · rename_i hne
    rw [if_neg (by rw [hF.log.len]; omega),if_neg]
    rw [not_not,hF.log.getTerm (by rw [h.snapshots.2]; exact Nat.zero_le _) hleft,hagree.entries]

theorem handled_of_agree (h : Trails cfg c i j L F next) (hagree : AgreeUpTo F L (next - 1)) :
    handled c i j L next =
      let out := ((c.nodes j).adoptTerm (c.nodes i).currentTerm).storeEntries (args c i L next)
      (out.1,if out.2 then some (out.1.currentTerm,true) else none) := by
  obtain ⟨storage,hlog⟩ := (c.nodes j).adoptTerm_log (c.nodes i).currentTerm
  have hmatch : ((c.nodes j).adoptTerm (c.nodes i).currentTerm).log.matchLog (next - 1)
      (lastTermOf (L.take (next - 1))) = true := by
    rw [hlog]
    exact h.matchLog_iff.mpr hagree
  have hle : (c.nodes j).currentTerm ≤ (args c i L next).term := h.term
  unfold handled RaftNode.handleAppendEntries
  rw [if_neg (not_lt.mpr hle)]
  exact if_neg (by rw [Bool.not_eq_false]; exact hmatch)

/-- A call that the peer accepts brings it the log of the leader. -/
theorem accepts (h : Trails cfg c i j L F next) (hagree : AgreeUpTo F L (next - 1)) {x : ℕ} {e : LogEntry Cmd} (hx : 0 < x)
    (he : L[x - 1]? = some e) : ((exchange cfg i j c).nodes j).entryAt x = some e := by
  obtain ⟨s,href⟩ := h.refined
  have hL : s.log i = L := by
    have hentries := (href.node i).holds.log.entries
    rw [h.snapshots.1,List.drop_zero] at hentries
    exact hentries.symm.trans h.entries.1
  have hpeers : j ∈ (c.nodes i).peers := (congrArg (j ∈ ·) (h.votes.node i).peers).mpr h.peer
  obtain ⟨-,P,hsent⟩ := href.sent h.votes hpeers h.appendEntriesArgs_eq
  have hle : (c.nodes j).currentTerm ≤ (args c i L next).term := h.term
  obtain ⟨s₁,hm₁,-,hn₁⟩ := (href.node j).adoptTerm href.inv (args c i L next).term
  obtain ⟨storage,hlog⟩ := (c.nodes j).adoptTerm_log (args c i L next).term
  have hmatch : ((c.nodes j).adoptTerm (args c i L next).term).log.matchLog (args c i L next).prevLogIndex
      (args c i L next).prevLogTerm = true := by
    rw [hlog]
    exact h.matchLog_iff.mpr hagree
  have hzero : ((c.nodes j).adoptTerm (args c i L next).term).log.lastIncludedIndex = 0 := by
    rw [hlog]
    exact h.snapshots.2
  obtain ⟨s₂,hst,hn₂⟩ := hn₁.storeEntries (hm₁.inv href.inv) (hsent.keeps hm₁.keeps) (RaftNode.adoptTerm_currentTerm hle)
    hmatch fun k _ hcovered => absurd hcovered (by omega)
  -- the peer has acknowledged the whole log, which the log of the term goes on from
  have hlead := ((href.node i).leader _).mpr ((h.votes.node i).leading.mp h.leader)
  have hm := hm₁.trans hst.moves
  have hgrown : L <+: s₂.leaderLog (args c i L next).term := by
    have hown : s.log i = s.leaderLog (args c i L next).term := href.inv.matching.leading _ i hlead (href.node i).term
    rw [← hL,hown]
    exact (href.inv.extends hm.steps).grows.prefix_leaderLog ⟨i,hlead⟩
  have hacked : L.length ≤ s₂.acked j (args c i L next).term := by
    have hlen : (args c i L next).prevLogIndex + (args c i L next).entries.length = L.length := by
      have hle := h.range.2
      simp only [args,List.length_drop]
      omega
    exact hlen ▸ hst.acked
  have hterm : s₂.term j = (args c i L next).term := by
    have hstore := congrArg Ballot.currentTerm (RaftNode.ballot_storeEntries
      ((c.nodes j).adoptTerm (args c i L next).term) (args c i L next))
    exact hn₂.term.trans (hstore.trans (RaftNode.adoptTerm_currentTerm hle))
  have hstored : L <+: s₂.log j := by
    refine List.IsPrefix.trans ?_ ((hm.inv href.inv).matching.acked_log j _ hterm)
    rw [List.prefix_take_iff]
    exact ⟨hgrown,hacked⟩
  rw [h.exchange_nodes.1,h.handled_of_agree hagree]
  refine (hn₂.holds.entryAt hx).trans ?_
  obtain ⟨r,hr⟩ := hstored
  rw [← hr,List.getElem?_append_left (List.getElem?_eq_some_iff.mp he).1]
  exact he

/-- A call that the peer refuses changes its term and the next index of the leader. -/
theorem refused (h : Trails cfg c i j L F next) (hno : ¬AgreeUpTo F L (next - 1)) :
    1 < next ∧ (exchange cfg i j c).nodes j = (c.nodes j).adoptTerm (c.nodes i).currentTerm ∧
      (exchange cfg i j c).nodes i =
        { c.nodes i with nextIndex := Function.update (c.nodes i).nextIndex j (some (next - 1)) } := by
  have hpos := h.range.1
  have hone : 1 < next := by
    by_contra hle
    obtain rfl : next = 1 := by omega
    exact hno ⟨Nat.zero_le _,Nat.zero_le _,rfl⟩
  obtain ⟨storage,hlog⟩ := (c.nodes j).adoptTerm_log (c.nodes i).currentTerm
  have hterm : ((c.nodes j).adoptTerm (c.nodes i).currentTerm).currentTerm = (c.nodes i).currentTerm :=
    RaftNode.adoptTerm_currentTerm h.term
  have hmatch : ((c.nodes j).adoptTerm (c.nodes i).currentTerm).log.matchLog (next - 1)
      (lastTermOf (L.take (next - 1))) = false := by
    rw [hlog,← Bool.not_eq_true]
    exact fun hm => hno (h.matchLog_iff.mp hm)
  have hhandled : handled c i j L next =
      ((c.nodes j).adoptTerm (c.nodes i).currentTerm,some ((c.nodes i).currentTerm,false)) := by
    unfold handled RaftNode.handleAppendEntries
    simp only [args,if_neg (not_lt.mpr h.term),hmatch,if_true,hterm]
  obtain ⟨hj,hi⟩ := h.exchange_nodes
  rw [hhandled] at hj hi
  refine ⟨hone,hj,hi.trans ?_⟩
  change (c.nodes i).appendEntriesReply j (args c i L next) (c.nodes i).currentTerm false = _
  unfold RaftNode.appendEntriesReply
  rw [if_neg (by rw [h.running]; decide),if_neg (lt_irrefl _),if_neg (not_not.mpr h.leader),if_neg Bool.false_ne_true,
    h.nextIndex]
  have hmax : max 1 (next - 1) = next - 1 := max_eq_right (by omega)
  simp only [hmax]

/-- A refused call leaves both logs alone, and the next call begins one entry earlier. -/
theorem refuses (h : Trails cfg c i j L F next) (hno : ¬AgreeUpTo F L (next - 1)) :
    1 < next ∧ Trails cfg (exchange cfg i j c) i j L F (next - 1) := by
  obtain ⟨hone,hj,hi⟩ := h.refused hno
  obtain ⟨storage,hlog⟩ := (c.nodes j).adoptTerm_log (c.nodes i).currentTerm
  have href := h.refines_exchange
  have hle := h.range.2
  refine ⟨hone,href.1,href.2,?_,?_,h.peer,?_,?_,?_,?_,by omega,by omega⟩
  · rw [hi]
    exact h.running
  · rw [hi]
    exact h.leader
  · rw [hi,hj]
    exact (RaftNode.adoptTerm_currentTerm h.term).le
  · rw [hi,hj,hlog]
    exact h.snapshots
  · rw [hi,hj,hlog]
    exact h.entries
  · rw [hi]
    exact Function.update_self ..

/-- By induction on the next index: each exchange is accepted, or leads to one for an index less. -/
theorem catches_up (h : Trails cfg c i j L F next) : ∃ m < next, AgreeUpTo F L m ∧
    (∀ m' < next, AgreeUpTo F L m' → m' ≤ m) ∧
    (∀ k < next - m, (((exchange cfg i j)^[k] c).nodes j).log.entries = F) ∧
    ∀ (x : ℕ) (e : LogEntry Cmd), 0 < x → L[x - 1]? = some e →
      (((exchange cfg i j)^[next - m] c).nodes j).entryAt x = some e := by
  induction next generalizing c with
  | zero => exact absurd h.range.1 (lt_irrefl 0)
  | succ next ih =>
    by_cases hagree : AgreeUpTo F L next
    · have hone : next + 1 - next = 1 := by omega
      refine ⟨next,Nat.lt_succ_self next,hagree,fun m' hm' _ => Nat.le_of_lt_succ hm',fun k hk => ?_,fun x e hx he => ?_⟩
      · obtain rfl : k = 0 := by omega
        exact h.entries.2
      · rw [hone]
        exact h.accepts hagree hx he
    · obtain ⟨-,h'⟩ := h.refuses hagree
      obtain ⟨m,hm,hlast,hmax,hkept,hall⟩ := ih h'
      have hsucc : next + 1 - m = next - m + 1 := by omega
      refine ⟨m,by omega,hlast,fun m' hm' ha => ?_,fun k hk => ?_,fun x e hx he => ?_⟩
      · refine hmax m' ?_ ha
        have hne : m' ≠ next := fun heq => hagree (heq ▸ ha)
        omega
      · cases k with
        | zero => exact h.entries.2
        | succ k =>
          rw [Function.iterate_succ_apply]
          exact hkept k (by omega)
      · rw [hsucc,Function.iterate_succ_apply]
        exact hall x e hx he

end Trails

/-- After any guarded run, a leader that reaches a peer again and again needs as many exchanges as its
next index is beyond the last entry that both have: until then the peer refuses and keeps its log, and
then it has every entry of the leader. -/
theorem follower_catches_up (M : StateMachine Cmd) (cfg : Config Id) (schedule : List (Action Id Cmd)) (i j : Id)
    (h : Runs.Along (step cfg) Sound (init M cfg) schedule) :
    let c := Runs.run (step cfg) (init M cfg) schedule
    let L := (c.nodes i).log.entries
    let F := (c.nodes j).log.entries
    (c.nodes i).state = .leader → (c.nodes i).running = true → j ∈ cfg.peers i →
      (c.nodes j).currentTerm ≤ (c.nodes i).currentTerm →
      (c.nodes i).log.lastIncludedIndex = 0 → (c.nodes j).log.lastIncludedIndex = 0 →
      ∃ next m, (c.nodes i).nextIndex j = some next ∧ m < next ∧ AgreeUpTo F L m ∧
        (∀ m' < next, AgreeUpTo F L m' → m' ≤ m) ∧
        (∀ k < next - m, (((exchange cfg i j)^[k] c).nodes j).log.entries = F) ∧
        ∀ (x : ℕ) (e : LogEntry Cmd), 0 < x → (c.nodes i).entryAt x = some e →
          (((exchange cfg i j)^[next - m] c).nodes j).entryAt x = some e := by
  intro c L F hleader hrunning hpeer hterm hi hj
  obtain ⟨s,-,href,hv⟩ := Refines.run h
  have hholds := (href.node i).holds
  have hL : s.log i = L := by
    have hentries := hholds.log.entries
    rw [hi,List.drop_zero] at hentries
    exact hentries.symm
  have hpeers : j ∈ (c.nodes i).peers := (congrArg (j ∈ ·) (hv.node i).peers).mpr hpeer
  obtain ⟨next,hnext,hpos,hle⟩ := inRange_run h i hleader j hpeers
  rw [hholds.log.len,hL] at hle
  have htrails : Trails cfg c i j L F next :=
    ⟨⟨s,href⟩,hv,hrunning,hleader,hpeer,hterm,⟨hi,hj⟩,⟨rfl,rfl⟩,hnext,hpos,hle⟩
  obtain ⟨m,hm,hlast,hmax,hkept,hall⟩ := htrails.catches_up
  refine ⟨next,m,hnext,hm,hlast,hmax,hkept,fun x e hx he => hall x e hx ?_⟩
  rwa [hholds.entryAt hx,hL] at he

/-- Node 0 leads term 1 and replicates two commands to node 2, which then leads term 2 with the vote of node 1. -/
def behindByTwo : List (Action ℕ (KeyValueCommand ℕ ℕ)) :=
  [.start 0,.start 1,.start 2,.electionTimeout 0,.handleRequestVote 0,.requestVoteReply 0,
    .submitCommand 0 ⟨.set,some 1,some 10⟩,.submitCommand 0 ⟨.set,some 2,some 20⟩,.sendAppendEntries 0 2,
    .handleAppendEntries 0,.electionTimeout 2,.handleRequestVote 3,.requestVoteReply 1]

/-- Node 1 has nothing, and the calls begin behind the second entry: the third one is accepted. -/
theorem follower_catches_up_from_nothing :
    (((exchange threeNodes 2 1)^[3] (Runs.run (step threeNodes) (init (KeyValueStateMachine ℕ ℕ) threeNodes)
      behindByTwo)).nodes 1).entryAt 2 = some ⟨1,2,⟨.set,some 2,some 20⟩⟩ := by
  obtain ⟨next,m,hnext,-,hlast,-,-,hall⟩ := follower_catches_up (KeyValueStateMachine ℕ ℕ) threeNodes behindByTwo 2 1
    (by decide) (by decide) (by decide) (by decide) (by decide) (by decide) (by decide)
  have hthree : next = 3 := Option.some.inj (hnext.symm.trans (by decide))
  have hzero : m = 0 := Nat.le_zero.mp (hlast.left.trans_eq (by decide))
  rw [hthree,hzero,Nat.sub_zero] at hall
  exact hall 2 ⟨1,2,⟨.set,some 2,some 20⟩⟩ (by decide) (by decide)

end Cluster

end DistributedSystems.Raft
