import DistributedSystems.Raft.Refinement

/-! # Safety of guarded runs

What the abstract protocol guarantees, read back from the nodes: equal commands at
equal indices, sound match indices, and a log whose committed part no call touches.
-/
namespace DistributedSystems.Raft
open ReplicatedLog
variable {Id Cmd : Type} [DecidableEq Id] {M : StateMachine Cmd} {cfg : Config Id} {c : Cluster Id M}
  {s : Abstract Id Cmd}

namespace Cluster

/-- Every stored entry carries the index it is stored at. -/
def EntriesPositioned (c : Cluster Id M) : Prop :=
  ∀ i k e, (c.nodes i).log.getItem k = some e → e.index = k

/-- Handling the call at position `q` changes no entry at or below the receiver's
commit index; above it an entry changes only to the one the call carries for it. -/
def CallKeepsCommitted (cfg : Config Id) (c : Cluster Id M) (q : ℕ) : Prop :=
  ∀ call, c.appendCalls[q]? = some call → ∀ k, 0 < k →
    (k ≤ (c.nodes call.peer).commitIndex → ∃ e, (c.nodes call.peer).entryAt k = some e ∧
      ((c.step cfg (.handleAppendEntries q)).nodes call.peer).entryAt k = some e) ∧
    (((c.step cfg (.handleAppendEntries q)).nodes call.peer).entryAt k = (c.nodes call.peer).entryAt k ∨
      (call.args.prevLogIndex < k ∧ ((c.step cfg (.handleAppendEntries q)).nodes call.peer).entryAt k =
        call.args.entries[k - call.args.prevLogIndex - 1]?))

/-- Both hold along a whole run: the first in its last state, the second at each of
its AppendEntries calls. -/
def LogIntegrity (M : StateMachine Cmd) (cfg : Config Id) (schedule : List (Action Id Cmd)) : Prop :=
  EntriesPositioned (Runs.run (Cluster.step cfg) (Cluster.init M cfg) schedule) ∧
  ∀ before q after, schedule = before ++ .handleAppendEntries q :: after →
    CallKeepsCommitted cfg (Runs.run (Cluster.step cfg) (Cluster.init M cfg) before) q

end Cluster

namespace Refines

omit [DecidableEq Id] in
/-- Lists that are prefixes of one another agree where both have an element. -/
theorem getElem?_of_comparable {α : Type} {P P' : List α} (h : P <+: P' ∨ P' <+: P) {k : ℕ} (hk : k < P.length)
    (hk' : k < P'.length) : P[k]? = P'[k]? := by
  rw [List.getElem?_eq_getElem hk,List.getElem?_eq_getElem hk']
  rcases h with h | h
  · rw [h.getElem hk]
  · rw [h.getElem hk']

theorem applied_eq (h : Refines cfg c s) {i j : Id} {k : ℕ} (hk : 0 < k) (hi : k ≤ (c.nodes i).lastApplied)
    (hj : k ≤ (c.nodes j).lastApplied) :
    ∃ e, (c.nodes i).applied k = some e ∧ (c.nodes j).applied k = some e := by
  have hni := h.node i
  have hnj := h.node j
  have hai := hni.holds.applied (k - 1) (by omega)
  have haj := hnj.holds.applied (k - 1) (by omega)
  have hci := hni.holds.applied_le
  have hcj := hnj.holds.applied_le
  have hli := hni.holds.commit_le
  have hlj := hnj.holds.commit_le
  rw [Nat.sub_add_cancel hk] at hai haj
  have hcomp := getElem?_of_comparable (k := k - 1) (h.inv.committed_comparable hni.committed hnj.committed)
    (by rw [List.length_take]; omega) (by rw [List.length_take]; omega)
  rw [List.getElem?_take_of_lt (by omega),List.getElem?_take_of_lt (by omega)] at hcomp
  have hlen : k - 1 < (s.log i).length := by omega
  refine ⟨(s.log i)[k - 1],?_,?_⟩
  · rw [hai,List.getElem?_eq_getElem hlen]
  · rw [haj,← hcomp,List.getElem?_eq_getElem hlen]

theorem matched_entry (h : Refines cfg c s) (hv : Cluster.VoteInv cfg c) {l p : Id} {m k : ℕ}
    (hl : (c.nodes l).state = .leader) (hm : (c.nodes l).matchIndex p = some m)
    (ht : (c.nodes p).currentTerm ≤ (c.nodes l).currentTerm) (hk : 0 < k) (hkm : k ≤ m) :
    ∃ e, (c.nodes l).entryAt k = some e ∧ (c.nodes p).entryAt k = some e := by
  have hnl := h.node l
  have hnp := h.node p
  have hlead := (hnl.leader _).mpr ((hv.node l).leading.mp hl)
  have hlog : s.log l = s.leaderLog (c.nodes l).currentTerm := h.inv.matching.leading _ l hlead hnl.term
  have hacked := hnl.matched hl p m hm
  obtain ⟨_,hterm,hlen⟩ := h.inv.matching.acked p (c.nodes l).currentTerm (by omega)
  rw [hnp.term] at hterm
  -- the peer is still in the term in which it acknowledged
  have hpre := h.inv.matching.acked_log p (c.nodes l).currentTerm (by rw [hnp.term]; omega)
  have hkl : k - 1 < ((s.leaderLog (c.nodes l).currentTerm).take (s.acked p (c.nodes l).currentTerm)).length := by
    rw [List.length_take]
    omega
  have he := hpre.getElem hkl
  have hple := hpre.length_le
  refine ⟨(s.leaderLog (c.nodes l).currentTerm)[k - 1],?_,?_⟩
  · rw [hnl.holds.entryAt hk,hlog,List.getElem?_eq_getElem]
  · rw [hnp.holds.entryAt hk,List.getElem?_eq_getElem (by omega),← he,List.getElem_take]

/-- Every stored entry carries the index it is stored at. -/
theorem entry_index (h : Refines cfg c s) {i : Id} {k : ℕ} {e : LogEntry Cmd}
    (he : (c.nodes i).log.getItem k = some e) : e.index = k := by
  have hlt := (RaftLog.getItem_some_le he).1
  rw [(h.node i).holds.log.getItem hlt] at he
  have hok := h.inv.matching.ok_log i (k - 1) e he
  rw [Nat.sub_add_cancel (by omega)] at hok
  exact hok

/-- A call leaves the committed positions alone; above them a new entry is the
entry the call carries for that position. -/
theorem call_keeps_committed (h : Refines cfg c s) {q : ℕ} (hf : c.SnapshotTerms (.handleAppendEntries q)) :
    Cluster.CallKeepsCommitted cfg c q := by
  intro call hc k hk
  have hnode : (c.step cfg (.handleAppendEntries q)).nodes call.peer =
      ((c.nodes call.peer).handleAppendEntries call.args).1 := by
    unfold Cluster.step
    dsimp only
    rw [hc]
    dsimp only
    cases ((c.nodes call.peer).handleAppendEntries call.args).2 with
    | none => exact Cluster.setNode_self _ _ _
    | some reply => exact Cluster.setNode_self _ _ _
  obtain ⟨s',_,hn,hrec,_⟩ := h.received (List.mem_of_getElem? hc) (hf call hc)
  have hh := (h.node call.peer).holds
  have hci := hh.commit_le
  rw [hnode,hn.holds.entryAt hk,hh.entryAt hk]
  constructor
  · intro hle
    have hkl : k - 1 < ((s.log call.peer).take (c.nodes call.peer).commitIndex).length := by
      rw [List.length_take]
      omega
    have he := hrec.committed.getElem hkl
    have hlen := hrec.committed.length_le
    rw [List.getElem_take] at he
    exact ⟨_,List.getElem?_eq_getElem (by omega),by rw [List.getElem?_eq_getElem (by omega),he]⟩
  · rcases hrec.entry (k - 1) with he | ⟨hle,he⟩
    · exact Or.inl he
    · refine Or.inr ⟨by omega,?_⟩
      rw [he]
      congr 1
      omega

end Refines

namespace Cluster

/-- State machine safety: in a guarded run two nodes that applied an entry at one
index applied the same command there. -/
theorem state_machine_safety (M : StateMachine Cmd) (cfg : Config Id) (schedule : List (Action Id Cmd))
    (h : Runs.Along (Cluster.step cfg) Sound (Cluster.init M cfg) schedule) (i j : Id) (k : ℕ) (hk : 0 < k)
    (hi : k ≤ ((Runs.run (Cluster.step cfg) (Cluster.init M cfg) schedule).nodes i).lastApplied)
    (hj : k ≤ ((Runs.run (Cluster.step cfg) (Cluster.init M cfg) schedule).nodes j).lastApplied) :
    ∃ e e', ((Runs.run (Cluster.step cfg) (Cluster.init M cfg) schedule).nodes i).applied k = some e ∧
      ((Runs.run (Cluster.step cfg) (Cluster.init M cfg) schedule).nodes j).applied k = some e' ∧
      e.command = e'.command := by
  obtain ⟨s,_,href,_⟩ := Refines.run h
  obtain ⟨e,hei,hej⟩ := href.applied_eq hk hi hj
  exact ⟨e,e,hei,hej,rfl⟩

/-- Five nodes without snapshots. -/
def fiveNodes : Config ℕ where
  members := [0,1,2,3,4]
  nodup := by decide
  snapshotInterval := fun _ => 1000

/-- Node 0 leads term 1 and replicates one command to node 1. -/
def oneCommand : List (Action ℕ (KeyValueCommand ℕ ℕ)) :=
  [.start 0,.start 1,.start 2,.electionTimeout 0,.handleRequestVote 0,.requestVoteReply 0,
    .submitCommand 0 ⟨.set,some 1,some 10⟩,.sendAppendEntries 0 1,.handleAppendEntries 0,.appendEntriesReply 0,
    .sendAppendEntries 0 1,.handleAppendEntries 1]

/-- Node 0 leads term 1 and replicates two commands to node 1; the reply is late.
Node 2 leads term 2 and overwrites both logs with one command of its own. Node 0
leads again in term 3, appends at index 2, and now counts the late reply. -/
def regainedLeadership : List (Action ℕ (KeyValueCommand ℕ ℕ)) :=
  [.start 0,.start 1,.start 2,.electionTimeout 0,.handleRequestVote 0,.handleRequestVote 1,.requestVoteReply 0,
    .requestVoteReply 1,.submitCommand 0 ⟨.set,some 1,some 1⟩,.submitCommand 0 ⟨.set,some 2,some 2⟩,
    .sendAppendEntries 0 1,.handleAppendEntries 0,
    .electionTimeout 2,.handleRequestVote 6,.handleRequestVote 7,.requestVoteReply 2,.requestVoteReply 3,
    .submitCommand 2 ⟨.set,some 3,some 3⟩,.sendAppendEntries 2 0,.sendAppendEntries 2 1,.handleAppendEntries 1,
    .handleAppendEntries 2,
    .electionTimeout 0,.handleRequestVote 10,.handleRequestVote 11,.requestVoteReply 4,.requestVoteReply 5,
    .submitCommand 0 ⟨.set,some 4,some 4⟩,.appendEntriesReply 0]

theorem state_machine_safety_one_command :
    ∃ e e', ((Runs.run (Cluster.step threeNodes) (Cluster.init (KeyValueStateMachine ℕ ℕ) threeNodes)
        oneCommand).nodes 0).applied 1 = some e ∧
      ((Runs.run (Cluster.step threeNodes) (Cluster.init (KeyValueStateMachine ℕ ℕ) threeNodes)
        oneCommand).nodes 1).applied 1 = some e' ∧ e.command = e'.command :=
  state_machine_safety (KeyValueStateMachine ℕ ℕ) threeNodes oneCommand (by decide) 0 1 1 (by decide) (by decide)
    (by decide)

/-- After the late reply node 0 commits index 2 although only node 3 stored it. Node 1
then wins term 4 without that entry and commits another command at index 2. -/
theorem applied_commands_differ :
    ¬ ∀ (schedule : List (Action ℕ (KeyValueCommand ℕ ℕ))) (i j k : ℕ), 0 < k →
      k ≤ ((Runs.run (Cluster.step fiveNodes) (Cluster.init (KeyValueStateMachine ℕ ℕ) fiveNodes)
        schedule).nodes i).lastApplied →
      k ≤ ((Runs.run (Cluster.step fiveNodes) (Cluster.init (KeyValueStateMachine ℕ ℕ) fiveNodes)
        schedule).nodes j).lastApplied →
      ∃ e e', ((Runs.run (Cluster.step fiveNodes) (Cluster.init (KeyValueStateMachine ℕ ℕ) fiveNodes)
          schedule).nodes i).applied k = some e ∧
        ((Runs.run (Cluster.step fiveNodes) (Cluster.init (KeyValueStateMachine ℕ ℕ) fiveNodes)
          schedule).nodes j).applied k = some e' ∧ e.command = e'.command := by
  intro h
  obtain ⟨e,e',he,he',hcmd⟩ := h (regainedLeadership ++
    [.sendAppendEntries 0 3,.handleAppendEntries 3,.appendEntriesReply 3,.sendAppendEntries 0 3,
      .handleAppendEntries 4,.appendEntriesReply 4,
      .electionTimeout 1,.electionTimeout 1,.handleRequestVote 17,.handleRequestVote 19,.requestVoteReply 6,
      .requestVoteReply 7,.submitCommand 1 ⟨.set,some 5,some 5⟩,.sendAppendEntries 1 2,.handleAppendEntries 5,
      .appendEntriesReply 5,.sendAppendEntries 1 4,.handleAppendEntries 6,.appendEntriesReply 6,
      .sendAppendEntries 1 4,.handleAppendEntries 7,.appendEntriesReply 7]) 0 1 2 (by decide) (by decide +kernel) (by decide +kernel)
  have h0 : some e = some ⟨3,2,⟨.set,some 4,some 4⟩⟩ := he.symm.trans (by decide +kernel)
  have h1 : some e' = some ⟨4,2,⟨.set,some 5,some 5⟩⟩ := he'.symm.trans (by decide +kernel)
  cases h0
  cases h1
  exact absurd hcmd (by decide)

/-- Soundness of match indices: in a guarded run a peer that is not ahead of the
leader's term holds the leader's entries up to its match index. -/
theorem match_index_sound (M : StateMachine Cmd) (cfg : Config Id) (schedule : List (Action Id Cmd))
    (h : Runs.Along (Cluster.step cfg) Sound (Cluster.init M cfg) schedule) (l p : Id) (m : ℕ)
    (hl : ((Runs.run (Cluster.step cfg) (Cluster.init M cfg) schedule).nodes l).state = .leader)
    (hm : ((Runs.run (Cluster.step cfg) (Cluster.init M cfg) schedule).nodes l).matchIndex p = some m)
    (ht : ((Runs.run (Cluster.step cfg) (Cluster.init M cfg) schedule).nodes p).currentTerm ≤
      ((Runs.run (Cluster.step cfg) (Cluster.init M cfg) schedule).nodes l).currentTerm) (k : ℕ) (hk : 0 < k)
    (hkm : k ≤ m) :
    ∃ e, ((Runs.run (Cluster.step cfg) (Cluster.init M cfg) schedule).nodes l).entryAt k = some e ∧
      ((Runs.run (Cluster.step cfg) (Cluster.init M cfg) schedule).nodes p).entryAt k = some e := by
  obtain ⟨s,_,href,hv⟩ := Refines.run h
  exact href.matched_entry hv hl hm ht hk hkm

theorem match_index_sound_one_command :
    ∃ e, ((Runs.run (Cluster.step threeNodes) (Cluster.init (KeyValueStateMachine ℕ ℕ) threeNodes)
        oneCommand).nodes 0).entryAt 1 = some e ∧
      ((Runs.run (Cluster.step threeNodes) (Cluster.init (KeyValueStateMachine ℕ ℕ) threeNodes)
        oneCommand).nodes 1).entryAt 1 = some e :=
  match_index_sound (KeyValueStateMachine ℕ ℕ) threeNodes oneCommand (by decide) 0 1 1 (by decide) (by decide)
    (by decide) 1 (by decide) (by decide)

/-- The late reply makes node 0 believe that node 1 holds index 2. -/
theorem match_index_unsound :
    ¬ ∀ (schedule : List (Action ℕ (KeyValueCommand ℕ ℕ))) (l p m : ℕ),
      ((Runs.run (Cluster.step fiveNodes) (Cluster.init (KeyValueStateMachine ℕ ℕ) fiveNodes)
        schedule).nodes l).state = .leader →
      ((Runs.run (Cluster.step fiveNodes) (Cluster.init (KeyValueStateMachine ℕ ℕ) fiveNodes)
        schedule).nodes l).matchIndex p = some m →
      ((Runs.run (Cluster.step fiveNodes) (Cluster.init (KeyValueStateMachine ℕ ℕ) fiveNodes)
        schedule).nodes p).currentTerm ≤
      ((Runs.run (Cluster.step fiveNodes) (Cluster.init (KeyValueStateMachine ℕ ℕ) fiveNodes)
        schedule).nodes l).currentTerm →
      ∀ k, 0 < k → k ≤ m →
        ∃ e, ((Runs.run (Cluster.step fiveNodes) (Cluster.init (KeyValueStateMachine ℕ ℕ) fiveNodes)
            schedule).nodes l).entryAt k = some e ∧
          ((Runs.run (Cluster.step fiveNodes) (Cluster.init (KeyValueStateMachine ℕ ℕ) fiveNodes)
            schedule).nodes p).entryAt k = some e := by
  intro h
  obtain ⟨e,_,he⟩ := h regainedLeadership 0 1 2 (by decide) (by decide) (by decide) 2 (by decide) (by decide)
  have hnone : (none : Option (LogEntry (KeyValueCommand ℕ ℕ))) = some e := Eq.trans (by decide) he
  cases hnone

/-- Log integrity under compaction: guarded runs keep every entry at its index and
never touch a committed position. -/
theorem log_integrity (M : StateMachine Cmd) (cfg : Config Id) (schedule : List (Action Id Cmd))
    (h : Runs.Along (Cluster.step cfg) Sound (Cluster.init M cfg) schedule) : LogIntegrity M cfg schedule := by
  constructor
  · obtain ⟨s,_,href,_⟩ := Refines.run h
    exact fun i k e he => href.entry_index he
  · rintro before q after rfl
    obtain ⟨hbefore,hstep,_⟩ := h.append
    obtain ⟨s,_,href,_⟩ := Refines.run hbefore
    exact href.call_keeps_committed hstep.2.2

/-- Three nodes that take a snapshot after every second entry. -/
def snapshottingNodes : Config ℕ := { threeNodes with snapshotInterval := fun _ => 2 }

/-- Node 0 appends a command in term 1 and another one in term 3. Both reach node 1 in
one call, are committed and snapshotted. -/
def twoTermSnapshot : List (Action ℕ (KeyValueCommand ℕ ℕ)) :=
  [.start 0,.start 2,.electionTimeout 0,.handleRequestVote 0,.requestVoteReply 0,
    .submitCommand 0 ⟨.set,some 1,some 1⟩,.electionTimeout 2,.electionTimeout 2,.handleRequestVote 4,
    .electionTimeout 0,.handleRequestVote 6,.requestVoteReply 2,.submitCommand 0 ⟨.set,some 2,some 2⟩,
    .sendAppendEntries 0 1,.handleAppendEntries 0,.appendEntriesReply 0,
    .sendAppendEntries 0 1,.handleAppendEntries 1,.appendEntriesReply 1,
    .sendAppendEntries 0 1,.handleAppendEntries 2]

theorem log_integrity_two_terms : LogIntegrity (KeyValueStateMachine ℕ ℕ) snapshottingNodes twoTermSnapshot :=
  log_integrity (KeyValueStateMachine ℕ ℕ) snapshottingNodes twoTermSnapshot (by decide)

/-- The call that carried both entries arrives again: `get_term` answers the snapshot's
term 3 for index 1, so the entry of index 1 is appended at index 3. -/
theorem covered_entry_appended_again :
    ¬ ∀ schedule, LogIntegrity (KeyValueStateMachine ℕ ℕ) snapshottingNodes schedule := by
  intro h
  have he := (h (twoTermSnapshot ++ [.handleAppendEntries 1])).1 1 3 ⟨1,1,⟨.set,some 1,some 1⟩⟩ (by decide)
  exact absurd he (by decide)

end Cluster

end DistributedSystems.Raft
