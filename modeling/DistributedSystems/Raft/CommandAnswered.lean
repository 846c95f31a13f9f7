import DistributedSystems.Raft.ApplyProgress
import DistributedSystems.Raft.CatchUp
import DistributedSystems.Raft.Linearizability

/-! # A submitted command is answered

A leader that reaches a majority often enough, each heartbeat being answered before the next one,
commits what it appended, applies it and resolves the future of the client.
-/
namespace DistributedSystems.Raft
open ReplicatedLog
variable {Id Cmd : Type} [DecidableEq Id] {M : StateMachine Cmd} {cfg : Config Id}

namespace Cluster

/-- Exchanges with the peers of a list, one after the other. -/
def exchanges (cfg : Config Id) (i : Id) (ps : List Id) (c : Cluster Id M) : Cluster Id M :=
  ps.foldl (fun c j => exchange cfg i j c) c

section Accepted
variable {c : Cluster Id M} {i j : Id} {L F : List (LogEntry Cmd)} {next : ℕ}

/-- The peer with the entries of an accepted call in its log. -/
theorem Trails.stored (h : Trails cfg c i j L F next) (hagree : AgreeUpTo F L (next - 1)) :
    let n := (c.nodes j).adoptTerm (c.nodes i).currentTerm
    RaftNode.Holds { n with log := RaftNode.appendNewEntries n.log (next - 1 + 1) (L.drop (next - 1)) } (merge F L) ∧
      n.commitIndex ≤ L.length := by
  intro n
  obtain ⟨hL,-,hmatch⟩ := h.holds
  obtain ⟨s,href⟩ := h.refined
  obtain ⟨s₁,hm₁,-,hn₁⟩ := (href.node j).adoptTerm href.inv (c.nodes i).currentTerm
  obtain ⟨storage,hlog⟩ := (c.nodes j).adoptTerm_log (c.nodes i).currentTerm
  have hzero : n.log.lastIncludedIndex = 0 := by
    rw [show n.log = _ from hlog]
    exact h.snapshots.2
  have hF : s₁.log j = F := by
    have hentries := hn₁.holds.log.entries
    rw [show (RaftNode.adoptTerm _ _).log.lastIncludedIndex = 0 from hzero,List.drop_zero,hlog] at hentries
    exact hentries.symm.trans h.entries.2
  have hL₁ : s₁.log i = L := by
    have hentries := (href.node i).holds.log.entries
    rw [h.snapshots.1,List.drop_zero,h.entries.1] at hentries
    exact (hm₁.log i h.ne).trans hentries.symm
  have hn : n.Holds F := hF ▸ hn₁.holds
  have hterm : n.currentTerm = (c.nodes i).currentTerm := RaftNode.adoptTerm_currentTerm h.term
  -- what the peer committed is in the log of the leader
  have hlead := (hm₁.leader i h.ne _).mpr (((href.node i).leader _).mpr ((h.votes.node i).leading.mp h.leader))
  have hown : s₁.log i = s₁.leaderLog (c.nodes i).currentTerm :=
    (hm₁.inv href.inv).matching.leading _ i hlead ((hm₁.term i h.ne).trans (href.node i).term)
  have hcommitted : F.take n.commitIndex <+: L := by
    have hin := (hm₁.inv href.inv).committed_isPrefix hn₁.committed ⟨i,hterm.symm ▸ hlead⟩
    rw [show (RaftNode.adoptTerm _ _).currentTerm = _ from hterm,← hown,hL₁,hF] at hin
    exact hin
  have hkeep : F.take n.commitIndex <+: merge F L := by
    have hin := prefix_merge_of_isPrefix (m := L.length) (List.take_prefix n.commitIndex F) hcommitted
    rwa [List.take_length] at hin
  have hcommit : n.commitIndex ≤ L.length := by
    have hle := hcommitted.length_le
    have hin := hn.commit_le
    rw [List.length_take] at hle
    omega
  refine ⟨?_,hcommit⟩
  have hloop : (RaftNode.appendNewEntries n.log (next - 1 + 1) (L.drop (next - 1))).Holds (merge F L) :=
    (RaftNode.log_holds_storeEntries hn.log hzero hmatch
      (show AgreeUpTo F L (args c i L next).prevLogIndex from hagree) rfl).1
  have hindex : SameUpTo 0 n.log (RaftNode.appendNewEntries n.log (next - 1 + 1) (L.drop (next - 1))) :=
    sameUpTo_appendNewEntries (Nat.zero_le _) fun k _ _ hle => by omega
  exact hn.setLog hloop hindex.index hkeep

/-- What is left as it is where a leader only moves its indices and applies entries. -/
def steady (n : RaftNode Id M) : Ballot Id × RaftLog Id Cmd M.Snapshot × ℕ := (n.ballot,n.log,n.snapshotInterval)

omit [DecidableEq Id] in
theorem snapshotInterval_updateCommitIndex (n : RaftNode Id M) :
    n.updateCommitIndex.snapshotInterval = n.snapshotInterval := by
  rcases n.updateCommitIndex_cases with he | ⟨N,-,-,-,he⟩
  · rw [he]
  · rw [he]
    exact RaftNode.applyLoop_snapshotInterval ..

omit [DecidableEq Id] in
theorem snapshotInterval_storeEntries (n : RaftNode Id M) (args : AppendArgs Id Cmd) :
    (n.storeEntries args).1.snapshotInterval = n.snapshotInterval := by
  unfold RaftNode.storeEntries RaftNode.followLeaderCommit
  split
  · exact RaftNode.applyLoop_snapshotInterval ..
  · rfl

omit [DecidableEq Id] in
theorem snapshotInterval_adoptTerm (n : RaftNode Id M) (t : ℕ) : (n.adoptTerm t).snapshotInterval = n.snapshotInterval := by
  unfold RaftNode.adoptTerm
  split
  · rfl
  · rfl

/-- A peer that a leader with the log `L` can go on sending to. -/
structure Reachable (cfg : Config Id) (c : Cluster Id M) (i : Id) (L : List (LogEntry Cmd)) (j : Id) : Prop where
  peer : j ∈ cfg.peers i
  term : (c.nodes j).currentTerm ≤ (c.nodes i).currentTerm
  snapshot : (c.nodes j).log.lastIncludedIndex = 0
  interval : L.length < (c.nodes j).snapshotInterval

/-- The leader with what it counts after a success. -/
def counted (c : Cluster Id M) (i j : Id) (len : ℕ) : RaftNode Id M :=
  { c.nodes i with
    matchIndex := Function.update (c.nodes i).matchIndex j (some len)
    nextIndex := Function.update (c.nodes i).nextIndex j (some (len + 1)) }

/-- An accepted call is answered, and counted if it has entries. -/
theorem Trails.accepted (h : Trails cfg c i j L F next) (hagree : AgreeUpTo F L (next - 1)) (hans : AnswersAll M L)
    (hinterval : L.length < (c.nodes j).snapshotInterval) :
    ((exchange cfg i j c).nodes j).currentTerm = (c.nodes i).currentTerm ∧
      ((exchange cfg i j c).nodes j).log.lastIncludedIndex = 0 ∧
      ((exchange cfg i j c).nodes j).snapshotInterval = (c.nodes j).snapshotInterval ∧
      (exchange cfg i j c).nodes i =
        if next ≤ L.length then (counted c i j L.length).updateCommitIndex else c.nodes i := by
  obtain ⟨hstored,hcommit⟩ := h.stored hagree
  obtain ⟨hL,-,-⟩ := h.holds
  have hle := h.range.2
  have hpos := h.range.1
  set n := (c.nodes j).adoptTerm (c.nodes i).currentTerm with hn
  have hterm : n.currentTerm = (c.nodes i).currentTerm := RaftNode.adoptTerm_currentTerm h.term
  have hsame : n.snapshotInterval = (c.nodes j).snapshotInterval := snapshotInterval_adoptTerm ..
  have hans' : AnswersAll M ((merge F L).take (args c i L next).leaderCommit) := by
    obtain ⟨rest,hrest⟩ := prefix_merge F L
    have hwithin : (args c i L next).leaderCommit ≤ L.length := hL.commit_le
    rw [← hrest,List.take_append_of_le_length hwithin]
    exact hans.of_subset (List.take_subset ..)
  obtain ⟨hfin,hlog⟩ := RaftNode.storeEntries_applies hstored hans'
  have hlog := hlog (by
    rw [hsame]
    exact lt_of_le_of_lt (max_le hcommit hL.commit_le) hinterval)
  have hstoredTerm : (n.storeEntries (args c i L next)).1.currentTerm = (c.nodes i).currentTerm :=
    (congrArg Ballot.currentTerm (RaftNode.ballot_storeEntries n (args c i L next))).trans hterm
  have hhandled : handled c i j L next = ((n.storeEntries (args c i L next)).1,some ((c.nodes i).currentTerm,true)) := by
    rw [h.handled_of_agree hagree]
    dsimp only
    rw [← hn,hfin,hstoredTerm]
    rfl
  obtain ⟨hj,hi⟩ := h.exchange_nodes
  rw [hhandled] at hj hi
  refine ⟨?_,?_,?_,hi.trans ?_⟩
  · rw [hj]
    exact hstoredTerm
  · rw [hj,hlog]
    have hindex : SameUpTo 0 n.log (RaftNode.appendNewEntries n.log (next - 1 + 1) (L.drop (next - 1))) :=
      sameUpTo_appendNewEntries (Nat.zero_le _) fun k _ _ hle => by omega
    obtain ⟨storage,hadopt⟩ := (c.nodes j).adoptTerm_log (c.nodes i).currentTerm
    refine hindex.index.trans ?_
    rw [hn,hadopt]
    exact h.snapshots.2
  · rw [hj]
    exact (snapshotInterval_storeEntries ..).trans hsame
  · change (c.nodes i).appendEntriesReply j (args c i L next) (c.nodes i).currentTerm true = _
    have hlen : (args c i L next).prevLogIndex + (args c i L next).entries.length = L.length := by
      simp only [args,List.length_drop]
      omega
    unfold RaftNode.appendEntriesReply
    rw [if_neg (by rw [h.running]; decide),if_neg (lt_irrefl _),if_neg (not_not.mpr h.leader),if_pos rfl]
    by_cases hsome : next ≤ L.length
    · have hentries : (args c i L next).entries.length > 0 := by
        simp only [args,List.length_drop]
        omega
      rw [if_pos hsome,if_pos hentries]
      dsimp only
      rw [hlen]
      rfl
    · have hentries : ¬(args c i L next).entries.length > 0 := by
        simp only [args,List.length_drop]
        omega
      rw [if_neg hsome,if_neg hentries]

end Accepted

/-- A leader brings the log `L` to the peers `js`. Those that do not have it yet are reached
within their budget of exchanges. -/
structure Replicating (cfg : Config Id) (c : Cluster Id M) (i : Id) (L : List (LogEntry Cmd)) (js : List Id) (f : ℕ)
    (e : LogEntry Cmd) (budget : Id → ℕ) : Prop where
  refined : ∃ s, Refines cfg c s
  votes : VoteInv cfg c
  running : (c.nodes i).running = true
  leader : (c.nodes i).state = .leader
  snapshot : (c.nodes i).log.lastIncludedIndex = 0
  entries : (c.nodes i).log.entries = L
  interval : L.length < (c.nodes i).snapshotInterval
  last : (c.nodes i).log.getTerm L.length = some (c.nodes i).currentTerm
  reachable : ∀ j ∈ js, Reachable cfg c i L j
  next : ∀ j ∈ js, ∃ next, (c.nodes i).nextIndex j = some next ∧ 0 < next ∧ next ≤ L.length + 1 ∧
    ((c.nodes i).matchIndex j = some L.length ∨ (next ≤ L.length ∧ next ≤ budget j))
  awaits : (c.nodes i).Awaits f e
  behind : (c.nodes i).commitIndex < L.length ∨ L.length ≤ (c.nodes i).lastApplied
  done : (∀ j ∈ js, (c.nodes i).matchIndex j = some L.length) → L.length ≤ (c.nodes i).lastApplied

namespace Replicating
variable {c : Cluster Id M} {i j : Id} {L : List (LogEntry Cmd)} {js : List Id} {f : ℕ} {e : LogEntry Cmd}
  {budget : Id → ℕ}

theorem trails (h : Replicating cfg c i L js f e budget) (hj : j ∈ js) {next : ℕ}
    (hnext : (c.nodes i).nextIndex j = some next) (hpos : 0 < next) (hle : next ≤ L.length + 1) :
    Trails cfg c i j L (c.nodes j).log.entries next :=
  ⟨h.refined,h.votes,h.running,h.leader,(h.reachable j hj).peer,(h.reachable j hj).term,
    ⟨h.snapshot,(h.reachable j hj).snapshot⟩,⟨h.entries,rfl⟩,hnext,hpos,hle⟩

theorem holds (h : Replicating cfg c i L js f e budget) : (c.nodes i).Holds L := by
  obtain ⟨s,href⟩ := h.refined
  have hholds := (href.node i).holds
  have hentries := hholds.log.entries
  rw [h.snapshot,List.drop_zero,h.entries] at hentries
  exact hentries ▸ hholds

theorem len (h : Replicating cfg c i L js f e budget) : (c.nodes i).log.len = L.length := h.holds.log.len

/-- What an exchange leaves alone, whatever the peer answers. -/
theorem of_steady (h : Replicating cfg c i L js f e budget) {c' : Cluster Id M} (hj : j ∈ js)
    (href : (∃ s, Refines cfg c' s) ∧ VoteInv cfg c') (hsteady : steady (c'.nodes i) = steady (c.nodes i))
    (hother : ∀ x, x ≠ i → x ≠ j → c'.nodes x = c.nodes x) (hterm : (c'.nodes j).currentTerm = (c.nodes i).currentTerm)
    (hsnapshot : (c'.nodes j).log.lastIncludedIndex = 0)
    (hinterval : (c'.nodes j).snapshotInterval = (c.nodes j).snapshotInterval)
    {next : ℕ} (hnext : (c'.nodes i).nextIndex = Function.update (c.nodes i).nextIndex j (some next))
    (hpos : 0 < next) (hle : next ≤ L.length + 1) (hmatch : ∀ x ≠ j, (c'.nodes i).matchIndex x = (c.nodes i).matchIndex x)
    (hreached : (c'.nodes i).matchIndex j = some L.length ∨ (next ≤ L.length ∧ next ≤ budget j - 1))
    (hawaits : (c'.nodes i).Awaits f e) (hbehind : (c'.nodes i).commitIndex < L.length ∨ L.length ≤ (c'.nodes i).lastApplied)
    (hdone : (∀ x ∈ js, (c'.nodes i).matchIndex x = some L.length) → L.length ≤ (c'.nodes i).lastApplied) :
    Replicating cfg c' i L js f e (Function.update budget j (budget j - 1)) := by
  simp only [steady,Prod.mk.injEq] at hsteady
  obtain ⟨hballot,hlog,hsame⟩ := hsteady
  have hcurrent : (c'.nodes i).currentTerm = (c.nodes i).currentTerm := congrArg Ballot.currentTerm hballot
  refine ⟨href.1,href.2,(congrArg Ballot.running hballot).trans h.running,(congrArg Ballot.state hballot).trans h.leader,
    ?_,?_,?_,?_,fun x hx => ?_,fun x hx => ?_,hawaits,hbehind,hdone⟩
  · rw [hlog]
    exact h.snapshot
  · rw [hlog]
    exact h.entries
  · rw [hsame]
    exact h.interval
  · rw [hlog,hcurrent]
    exact h.last
  · have hr := h.reachable x hx
    by_cases hxj : x = j
    · subst hxj
      exact ⟨hr.peer,(hterm.trans hcurrent.symm).le,hsnapshot,hinterval.symm ▸ hr.interval⟩
    · have hxi : x ≠ i := (Config.mem_peers.mp hr.peer).2
      refine ⟨hr.peer,?_,?_,?_⟩
      · rw [hother x hxi hxj,hcurrent]
        exact hr.term
      · rw [hother x hxi hxj]
        exact hr.snapshot
      · rw [hother x hxi hxj]
        exact hr.interval
  · rw [hnext]
    by_cases hxj : x = j
    · subst hxj
      rw [Function.update_self,Function.update_self]
      exact ⟨next,rfl,hpos,hle,hreached⟩
    · rw [Function.update_of_ne hxj,Function.update_of_ne hxj,hmatch x hxj]
      exact h.next x hx

/-- An exchange with a peer that lacks entries uses up one of its budget. -/
theorem exchange (h : Replicating cfg c i L js f e budget) (hj : j ∈ js) (hans : AnswersAll M L)
    (hnodup : js.Nodup) (hmajority : cfg.members.length < 2 * (js.length + 1)) :
    Replicating cfg (exchange cfg i j c) i L js f e (Function.update budget j (budget j - 1)) := by
  obtain ⟨next,hnext,hpos,hle,hreached⟩ := h.next j hj
  have htrails := h.trails hj hnext hpos hle
  have hr := h.reachable j hj
  by_cases hagree : AgreeUpTo (c.nodes j).log.entries L (next - 1)
  · obtain ⟨hterm,hsnapshot,hinterval,hi⟩ := htrails.accepted hagree hans hr.interval
    by_cases hsome : next ≤ L.length
    · rw [if_pos hsome] at hi
      have hcounted : (counted c i j L.length).Holds L := by
        have hh := h.holds
        exact ⟨hh.log,hh.snapshot,hh.applied_le,hh.commit_le,hh.applied⟩
      have hcounts := RaftNode.updateCommitIndex_counts hcounted hans h.interval
      have hwindow := RaftNode.window_updateCommitIndex (counted c i j L.length)
      rw [← hi] at hcounts hwindow
      simp only [RaftNode.window,Prod.mk.injEq] at hwindow
      obtain ⟨-,-,hnext',hmatch'⟩ := hwindow
      have hsteady : steady ((Cluster.exchange cfg i j c).nodes i) = steady (c.nodes i) := by
        unfold steady
        rw [hcounts.log,hi,RaftNode.ballot_updateCommitIndex,snapshotInterval_updateCommitIndex]
        rfl
      refine h.of_steady hj htrails.refines_exchange hsteady (fun x => htrails.exchange_other) hterm hsnapshot hinterval
        hnext' (Nat.succ_pos _) (le_refl _) (fun x hx => ?_) (Or.inl ?_) (hcounts.awaits f e h.awaits)
        (hcounts.behind h.behind) fun hall => ?_
      · rw [hmatch']
        exact Function.update_of_ne hx ..
      · rw [hmatch']
        exact Function.update_self ..
      · refine hcounts.full h.behind ?_ h.last
        have hlen : (counted c i j L.length).log.len = L.length := h.len
        have hpeers : ∀ x ∈ js, x ∈ (counted c i j L.length).peers := fun x hx =>
          (congrArg (x ∈ ·) (h.votes.node i).peers).mpr (h.reachable x hx).peer
        have hbound : ∀ p m, (counted c i j L.length).matchIndex p = some m → m ≤ (counted c i j L.length).log.len := by
          intro p m hm
          obtain ⟨s,href⟩ := h.refined
          by_cases hp : p = j
          · subst hp
            have hm : Function.update (c.nodes i).matchIndex p (some L.length) p = some m := hm
            rw [Function.update_self] at hm
            exact (Option.some.inj hm).symm.trans_le hlen.ge
          · exact href.matched_le_len h.leader h.votes ((Function.update_of_ne hp ..).symm.trans hm)
        have hsize : (counted c i j L.length).allNodes.length < 2 * (js.length + 1) := by
          have hmember := (h.votes.node i).running h.running
          exact ((h.votes.node i).allNodes hmember).trans_lt hmajority
        have hfull := RaftNode.majorityMatch_of_matched hnodup hpeers
          (fun x hx => by rw [hlen,← hmatch']; exact hall x hx) hbound hsize
        rwa [hlen] at hfull
    · rw [if_neg hsome] at hi
      have hsame : (c.nodes i).nextIndex = Function.update (c.nodes i).nextIndex j (some next) := by
        rw [← hnext,Function.update_eq_self]
      refine h.of_steady hj htrails.refines_exchange (congrArg steady hi) (fun x => htrails.exchange_other) hterm hsnapshot
        hinterval (hi.symm ▸ hsame) hpos hle (fun x _ => by rw [hi]) (Or.inl ?_) (hi.symm ▸ h.awaits) (hi.symm ▸ h.behind)
        (hi.symm ▸ h.done)
      rw [hi]
      exact hreached.resolve_right fun hlt => hsome hlt.1
  · obtain ⟨hone,hjn,hi⟩ := htrails.refused hagree
    obtain ⟨storage,hlog⟩ := (c.nodes j).adoptTerm_log (c.nodes i).currentTerm
    refine h.of_steady hj htrails.refines_exchange (by rw [hi]; rfl) (fun x => htrails.exchange_other) ?_ ?_ ?_
      (by rw [hi]) (show 0 < next - 1 by omega) (by omega) (fun x _ => by rw [hi]) ?_ ?_ ?_ ?_
    · rw [hjn]
      exact RaftNode.adoptTerm_currentTerm hr.term
    · rw [hjn,hlog]
      exact hr.snapshot
    · rw [hjn]
      exact snapshotInterval_adoptTerm ..
    · rw [hi]
      exact hreached.imp_right fun hlt => ⟨by omega,by omega⟩
    · rw [hi]
      exact h.awaits
    · rw [hi]
      exact h.behind
    · rw [hi]
      exact h.done

/-- By induction on the exchanges: what is left of the budget of each peer. -/
theorem exchanges (hans : AnswersAll M L) (hnodup : js.Nodup) (hmajority : cfg.members.length < 2 * (js.length + 1))
    {ps : List Id} (hps : ∀ j ∈ ps, j ∈ js) (h : Replicating cfg c i L js f e budget) :
    Replicating cfg (Cluster.exchanges cfg i ps c) i L js f e fun j => budget j - ps.count j := by
  induction ps generalizing c budget with
  | nil => exact h
  | cons p ps ih =>
    have hstep := h.exchange (hps p List.mem_cons_self) hans hnodup hmajority
    have hrest := ih (fun j hj => hps j (List.mem_cons_of_mem p hj)) hstep
    refine (congrArg (Replicating cfg _ i L js f e) (funext fun j => ?_)).mp hrest
    by_cases hjp : j = p
    · subst hjp
      rw [Function.update_self,List.count_cons_self]
      omega
    · rw [Function.update_of_ne hjp,List.count_cons_of_ne (Ne.symm hjp)]

/-- A peer whose match index is the end of the log has the log. -/
theorem stores (h : Replicating cfg c i L js f e budget) (hj : j ∈ js) (hpos : 0 < L.length)
    (hmatched : (c.nodes i).matchIndex j = some L.length) {x : ℕ} {entry : LogEntry Cmd} (hx : 0 < x)
    (hentry : L[x - 1]? = some entry) : (c.nodes j).entryAt x = some entry := by
  obtain ⟨s,href⟩ := h.refined
  have hi := href.node i
  have hlead := (hi.leader _).mpr ((h.votes.node i).leading.mp h.leader)
  have hown : s.log i = s.leaderLog (c.nodes i).currentTerm := href.inv.matching.leading _ i hlead hi.term
  have hL : s.log i = L := by
    have hentries := hi.holds.log.entries
    rw [h.snapshot,List.drop_zero,h.entries] at hentries
    exact hentries.symm
  have hacked := hi.matched h.leader j _ hmatched
  obtain ⟨-,hterm,-⟩ := href.inv.matching.acked j _ (lt_of_lt_of_le hpos hacked)
  have hsame : s.term j = (c.nodes i).currentTerm :=
    le_antisymm ((href.node j).term.trans_le (h.reachable j hj).term) hterm
  have hstored := href.inv.matching.acked_log j _ hsame
  rw [← hown,hL,List.take_of_length_le hacked] at hstored
  rw [(href.node j).holds.entryAt hx]
  obtain ⟨rest,hrest⟩ := hstored
  rw [← hrest,List.getElem?_append_left (List.getElem?_eq_some_iff.mp hentry).1]
  exact hentry

end Replicating

theorem replays_exchanges (cfg : Config Id) (i : Id) (ps : List Id) {c : Cluster Id M} (h : ∀ x, (c.nodes x).Replays) (x : Id) :
    ((exchanges cfg i ps c).nodes x).Replays := by
  induction ps generalizing c with
  | nil => exact h x
  | cons p ps ih =>
    refine ih fun x => ?_
    refine Runs.run_invariant_of_step (I := fun c : Cluster Id M => ∀ x, (c.nodes x).Replays) ?_ h _ x
    exact fun c a h => forall_nodes_step h fun _ m _ hx => hx.call m

/-- What a leader has right after it appended a command. -/
theorem Replicating.submitted {c : Cluster Id M} {i : Id} {command : Cmd} {js : List Id} {budget : Id → ℕ}
    (href : ∃ s, Refines cfg c s) (hv : VoteInv cfg c) (hrange : (c.nodes i).InRange)
    (hleader : (c.nodes i).state = .leader) (hrunning : (c.nodes i).running = true)
    (hzero : (c.nodes i).log.lastIncludedIndex = 0)
    (hinterval : (c.nodes i).log.entries.length + 1 < (c.nodes i).snapshotInterval)
    (hsome : js ≠ []) (hreachable : ∀ j ∈ js, Reachable cfg (c.step cfg (.submitCommand i command)) i
      ((c.nodes i).log.entries ++ [⟨(c.nodes i).currentTerm,(c.nodes i).log.entries.length + 1,command⟩]) j)
    (hbudget : ∀ j ∈ js, ∀ next, (c.nodes i).nextIndex j = some next → next ≤ budget j) :
    Replicating cfg (c.step cfg (.submitCommand i command)) i
      ((c.nodes i).log.entries ++ [⟨(c.nodes i).currentTerm,(c.nodes i).log.entries.length + 1,command⟩]) js
      (c.nodes i).futures.length ⟨(c.nodes i).currentTerm,(c.nodes i).log.entries.length + 1,command⟩ budget := by
  obtain ⟨s,href⟩ := href
  have hsound : c.Sound (.submitCommand i command) := ⟨rfl,trivial,trivial⟩
  obtain ⟨s',-,href'⟩ := href.step hv _ hsound
  have hv' := hv.step (.submitCommand i command) hsound.1
  have hlen : (c.nodes i).log.len = (c.nodes i).log.entries.length := by
    rw [RaftLog.len,hzero,Nat.zero_add]
  have hnode : (c.step cfg (.submitCommand i command)).nodes i = { c.nodes i with
      log := (c.nodes i).log.append ⟨(c.nodes i).currentTerm,(c.nodes i).log.entries.length + 1,command⟩
      futures := (c.nodes i).futures ++
        [⟨⟨(c.nodes i).currentTerm,(c.nodes i).log.entries.length + 1,command⟩,none⟩]
      pendingCommits := Function.update (c.nodes i).pendingCommits ((c.nodes i).log.entries.length + 1)
        (some (c.nodes i).futures.length) } := by
    refine (setNode_self ..).trans ?_
    unfold RaftNode.submitCommand
    rw [if_neg (not_not.mpr hleader)]
    simp only [hlen]
  have hholds := (href.node i).holds
  have happlied := hholds.applied_le
  have hcommit := hholds.commit_le
  rw [← hholds.log.len,hlen] at hcommit
  refine ⟨⟨s',href'⟩,hv',?_,?_,?_,?_,?_,?_,hreachable,fun j hj => ?_,?_,?_,fun hall => ?_⟩
  · rw [hnode]
    exact hrunning
  · rw [hnode]
    exact hleader
  · rw [hnode]
    exact hzero
  · rw [hnode]
    rfl
  · rw [hnode,List.length_append,List.length_singleton]
    exact hinterval
  · rw [hnode,List.length_append,List.length_singleton]
    have hitem := RaftLog.append_getItem_len (c.nodes i).log
      ⟨(c.nodes i).currentTerm,(c.nodes i).log.entries.length + 1,command⟩
    rw [hlen] at hitem
    unfold RaftLog.getTerm
    dsimp only
    rw [RaftLog.append_lastIncludedIndex,hzero,if_neg (Nat.succ_ne_zero _),if_neg (Nat.succ_ne_zero _),
      if_neg (Nat.not_lt_zero _),hitem]
    rfl
  · rw [hnode]
    have hpeers : j ∈ (c.nodes i).peers := (congrArg (j ∈ ·) (hv.node i).peers).mpr (hreachable j hj).peer
    obtain ⟨next,hnext,hpos,hle⟩ := hrange hleader j hpeers
    rw [hlen] at hle
    rw [List.length_append,List.length_singleton]
    exact ⟨next,hnext,hpos,Nat.le_succ_of_le hle,Or.inr ⟨hle,hbudget j hj next hnext⟩⟩
  · rw [hnode]
    refine ⟨none,List.getElem?_concat_length,Or.inr ⟨?_,Function.update_self ..⟩⟩
    change (c.nodes i).lastApplied < (c.nodes i).log.entries.length + 1
    omega
  · rw [hnode,List.length_append,List.length_singleton]
    exact Or.inl (Nat.lt_succ_of_le hcommit)
  · obtain ⟨j,hj⟩ := List.exists_mem_of_ne_nil js hsome
    have hfull := hall j hj
    rw [hnode,List.length_append,List.length_singleton] at hfull
    have hle := href.matched_le_len hleader hv hfull
    omega

/-- After any guarded run, a leader without snapshots appends a command. It then exchanges heartbeats with the
peers of a majority, in any order, with each at least as often as its next index says. Then the
command is committed, every one of these peers has it, and the client has the reply that the
state machine gives to it behind all entries before it. -/
theorem submitted_command_answered (M : StateMachine Cmd) (cfg : Config Id) (schedule : List (Action Id Cmd)) (i : Id)
    (command : Cmd) (js ps : List Id) (h : Runs.Along (step cfg) Sound (init M cfg) schedule) :
    let c := Runs.run (step cfg) (init M cfg) schedule
    let entry : LogEntry Cmd := ⟨(c.nodes i).currentTerm,(c.nodes i).log.entries.length + 1,command⟩
    let L := (c.nodes i).log.entries ++ [entry]
    let c' := exchanges cfg i ps (c.step cfg (.submitCommand i command))
    (c.nodes i).state = .leader → (c.nodes i).running = true → (c.nodes i).log.lastIncludedIndex = 0 →
      L.length < (c.nodes i).snapshotInterval → AnswersAll M L →
      js ≠ [] → js.Nodup → cfg.members.length < 2 * (js.length + 1) →
      (∀ j ∈ js, Reachable cfg (c.step cfg (.submitCommand i command)) i L j) →
      (∀ j ∈ ps, j ∈ js) → (∀ j ∈ js, ∀ next, (c.nodes i).nextIndex j = some next → next ≤ ps.count j) →
      L.length ≤ (c'.nodes i).commitIndex ∧ (∀ j ∈ js, (c'.nodes j).entryAt L.length = some entry) ∧
        ∃ r, (c'.nodes i).futures[(c.nodes i).futures.length]? = some ⟨entry,some r⟩ ∧
          (M.apply (replay M (c.nodes i).log.entries) command).2 = some r := by
  intro c entry L c' hleader hrunning hzero hinterval hans hsome hnodup hmajority hreachable hps hbudget
  obtain ⟨s,-,href,hv⟩ := Refines.run h
  have hlen : L.length = (c.nodes i).log.entries.length + 1 := by
    rw [List.length_append,List.length_singleton]
  have hstart : Replicating cfg (c.step cfg (.submitCommand i command)) i L js (c.nodes i).futures.length entry
      fun j => ps.count j :=
    .submitted ⟨s,href⟩ hv (inRange_run h i) hleader hrunning hzero (hlen ▸ hinterval) hsome hreachable hbudget
  have hend := hstart.exchanges hans hnodup hmajority hps
  have hfull : ∀ j ∈ js, (c'.nodes i).matchIndex j = some L.length := by
    intro j hj
    obtain ⟨next,-,hpos,-,hmatched | ⟨-,hle⟩⟩ := hend.next j hj
    · exact hmatched
    · omega
  have happlied := hend.done hfull
  have hholds := hend.holds
  have hlast : L[L.length - 1]? = some entry := by
    rw [hlen,Nat.add_sub_cancel]
    exact List.getElem?_concat_length
  obtain ⟨r,hr⟩ := hend.awaits.resolved (hlen.symm.trans_le happlied)
  refine ⟨happlied.trans hholds.applied_le,fun j hj => ?_,r,hr,?_⟩
  · exact hend.stores hj (by omega) (hfull j hj) (by omega) hlast
  · have hreplays : (c'.nodes i).Replays := by
      refine replays_exchanges cfg i ps (fun x => ?_) i
      exact forall_nodes_step (replays_run cfg schedule) (fun _ m _ hx => hx.call m) x
    have hreplied := hreplays.results _ (List.mem_of_getElem? hr) r rfl
    have hresult := hholds.resultAt (List.take_prefix ..) hreplied
    change resultAt M L ((c.nodes i).log.entries.length + 1 - 1) = some r at hresult
    rw [Nat.add_sub_cancel,resultAt_of_lt (by omega)] at hresult
    rw [List.take_left,List.getElem_concat_length rfl] at hresult
    exact hresult

/-- Node 0 leads term 1 and replicates two commands to node 2, which then leads term 2. -/
def countedTwice : List (Action ℕ CounterCommand) :=
  [.start 0,.start 1,.start 2,.electionTimeout 0,.handleRequestVote 0,.requestVoteReply 0,
    .submitCommand 0 (.increment 10),.submitCommand 0 (.increment 20),.sendAppendEntries 0 2,
    .handleAppendEntries 0,.electionTimeout 2,.handleRequestVote 3,.requestVoteReply 1]

/-- Node 1 has nothing: it refuses two calls, and with the third one all three entries are committed. -/
theorem submitted_command_answered_get :
    ((exchanges threeNodes 2 [1,1,1] ((Runs.run (step threeNodes) (init CounterStateMachine threeNodes)
      countedTwice).step threeNodes (.submitCommand 2 .get))).nodes 2).futures[0]? =
        some ⟨⟨2,3,.get⟩,some (.value 30)⟩ := by
  obtain ⟨-,-,r,hfuture,hr⟩ := submitted_command_answered CounterStateMachine threeNodes countedTwice 2 .get [1] [1,1,1]
    (by decide) (by decide) (by decide) (by decide) (by decide)
    (fun s e _ => by rcases e with ⟨t,k,command⟩; cases command <;> rfl) (by decide) (by decide) (by decide)
    (fun j hj => by
      obtain rfl := List.mem_singleton.mp hj
      exact ⟨by decide,by decide,by decide,by decide⟩)
    (by decide) (fun j hj next hnext => by
      obtain rfl := List.mem_singleton.mp hj
      obtain rfl : 3 = next := Option.some.inj ((show some 3 = _ from by decide).trans hnext)
      decide)
  obtain rfl : CounterResult.value 30 = r := Option.some.inj hr
  exact hfuture

end Cluster

end DistributedSystems.Raft
