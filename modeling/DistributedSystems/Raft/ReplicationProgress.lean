import DistributedSystems.Raft.Election
import DistributedSystems.Raft.Method

/-! # How far a leader can still replicate

A leader sends a peer the entries from `next_index` on, and nothing if the entry before them
is inside its snapshot. The mark must therefore stay above `match_index`. A call that got
lost counts as a rejection and lowers the mark, whatever was matched before.
-/
namespace DistributedSystems.Raft
variable {Id Cmd : Type} [DecidableEq Id] {M : StateMachine Cmd}

namespace RaftNode

/-- What decides whether a leader can go on replicating. -/
def window (n : RaftNode Id M) : NodeState × List Id × (Id → Option ℕ) × (Id → Option ℕ) :=
  (n.state,n.peers,n.nextIndex,n.matchIndex)

/-- The next index of every peer is above its match index. -/
def Ahead (n : RaftNode Id M) : Prop :=
  n.state = .leader → ∀ p ∈ n.peers, ∃ m next, n.matchIndex p = some m ∧ n.nextIndex p = some next ∧ m < next

/-- The branch of `_append_entries_worker` that returns without sending. -/
def ReturnsWithoutSending (n : RaftNode Id M) (peer : Id) : Prop :=
  (n.nextIndex peer).getD 1 - 1 < n.log.lastIncludedIndex

/-- The leader is ahead, and sends to every peer that matches its snapshot. -/
structure Replicates (n : RaftNode Id M) : Prop where
  ahead : n.Ahead
  sends : n.state = .leader → ∀ p ∈ n.peers, ∀ m, n.matchIndex p = some m → n.log.lastIncludedIndex ≤ m →
    ¬n.ReturnsWithoutSending p

/-- No failure is handled for a peer whose next index is right behind its match index. -/
def KeepsAhead (n : RaftNode Id M) (peer : Id) (replyTerm : ℕ) (success : Bool) : Prop :=
  n.running = true → replyTerm ≤ n.currentTerm → n.state = .leader → success = false → peer ∈ n.peers →
    ∀ m, n.matchIndex peer = some m → 0 < m → n.nextIndex peer ≠ some (m + 1)

omit [DecidableEq Id] in
theorem Ahead.replicates {n : RaftNode Id M} (h : n.Ahead) : n.Replicates := by
  refine ⟨h,fun hl p hp m hm hle => ?_⟩
  obtain ⟨m',next,hm',hnext,hlt⟩ := h hl p hp
  obtain rfl : m = m' := Option.some_injective _ (hm.symm.trans hm')
  rw [ReturnsWithoutSending,hnext,Option.getD_some]
  omega

omit [DecidableEq Id] in
/-- Only the window of a leader matters. -/
theorem Ahead.of_window {n n' : RaftNode Id M} (h : n.Ahead) (hw : n'.state = .leader → n'.window = n.window) :
    n'.Ahead := by
  intro hl
  have hw := hw hl
  simp only [window,Prod.mk.injEq] at hw
  obtain ⟨hstate,hpeers,hnext,hmatch⟩ := hw
  rw [hpeers,hnext,hmatch]
  exact h (hstate ▸ hl)

omit [DecidableEq Id] in
theorem window_applyCommittedEntries (n : RaftNode Id M) : n.applyCommittedEntries.1.window = n.window :=
  frame_applyLoop (fun _ _ _ => rfl) (fun _ _ => rfl) (fun _ _ _ _ => rfl) _ n

omit [DecidableEq Id] in
theorem window_updateCommitIndex (n : RaftNode Id M) : n.updateCommitIndex.window = n.window := by
  rcases n.updateCommitIndex_cases with he | ⟨N,_,_,_,he⟩
  · rw [he]
  · rw [he]
    exact window_applyCommittedEntries _

omit [DecidableEq Id] in
theorem window_storeEntries (n : RaftNode Id M) (args : AppendArgs Id Cmd) :
    (n.storeEntries args).1.window = n.window := by
  unfold storeEntries followLeaderCommit
  split
  · exact window_applyCommittedEntries _
  · rfl

omit [DecidableEq Id] in
/-- Adopting a newer term ends a leadership. -/
theorem window_adoptTerm (n : RaftNode Id M) (t : ℕ) (h : (n.adoptTerm t).state = .leader) :
    (n.adoptTerm t).window = n.window := by
  unfold adoptTerm at h ⊢
  split at h
  · cases h
  · rename_i hle
    rw [if_neg hle]

theorem Ahead.becomeLeader (n : RaftNode Id M) : n.becomeLeader.Ahead := by
  intro _ p hp
  exact ⟨0,n.log.len + 1,if_pos hp,if_pos hp,Nat.succ_pos _⟩

omit [DecidableEq Id] in
theorem Ahead.handleAppendEntries {n : RaftNode Id M} (h : n.Ahead) (args : AppendArgs Id Cmd) :
    (n.handleAppendEntries args).1.Ahead := by
  rcases n.handleAppendEntries_cases args with he | ⟨_,he⟩ | ⟨_,_,reply,he⟩
  · rw [he]
    exact h
  · rw [he]
    exact h.of_window (n.window_adoptTerm args.term)
  · have hw := window_storeEntries (n.adoptTerm args.term) args
    rw [he]
    refine h.of_window fun hl => ?_
    rw [hw]
    exact n.window_adoptTerm args.term ((congrArg Prod.fst hw).symm.trans hl)

/-- A failure lowers the next index by one: the leader stays ahead unless this meets the
match index. -/
theorem ahead_lower_iff {n : RaftNode Id M} (h : n.Ahead) (hl : n.state = .leader) {peer : Id} {next : ℕ}
    (hnext : n.nextIndex peer = some next) :
    Ahead { n with nextIndex := Function.update n.nextIndex peer (some (max 1 (next - 1))) } ↔
      (peer ∈ n.peers → ∀ m, n.matchIndex peer = some m → 0 < m → n.nextIndex peer ≠ some (m + 1)) := by
  constructor
  · intro hnew hp m hm hpos heq
    obtain ⟨m',next',hm',hnext',hlt⟩ := hnew hl peer hp
    obtain rfl : m = m' := Option.some_injective _ (hm.symm.trans hm')
    obtain rfl : next = m + 1 := Option.some_injective _ (hnext.symm.trans heq)
    simp only [Function.update_self,Option.some.injEq] at hnext'
    omega
  · intro hkeep _ p hp
    obtain ⟨m,next',hm,hnext',hlt⟩ := h hl p hp
    by_cases hpeer : p = peer
    · subst p
      obtain rfl : next = next' := Option.some_injective _ (hnext.symm.trans hnext')
      refine ⟨m,max 1 (next - 1),hm,by simp,?_⟩
      have hne := hkeep hp m hm
      rw [hnext] at hne
      by_cases hpos : 0 < m
      · have hne' : next ≠ m + 1 := fun heq => hne hpos (congrArg some heq)
        omega
      · omega
    · exact ⟨m,next',hm,by simpa [hpeer] using hnext',hlt⟩

theorem ahead_appendEntriesReply_iff {n : RaftNode Id M} (h : n.Ahead) (peer : Id) (args : AppendArgs Id Cmd)
    (replyTerm : ℕ) (success : Bool) :
    (n.appendEntriesReply peer args replyTerm success).Ahead ↔ n.KeepsAhead peer replyTerm success := by
  unfold appendEntriesReply KeepsAhead
  by_cases hrun : n.running = false
  · simp [hrun,h]
  rw [if_neg hrun]
  by_cases hterm : replyTerm > n.currentTerm
  · rw [if_pos hterm]
    refine iff_of_true (h.of_window fun hl => by cases hl) ?_
    intro _ hle
    exact absurd hterm (not_lt.mpr hle)
  rw [if_neg hterm]
  by_cases hl : n.state = .leader
  · rw [if_neg (not_not.mpr hl)]
    cases success with
    | true =>
      refine iff_of_true ?_ (by simp)
      rw [if_pos rfl]
      split
      · -- the peer matches what it was sent, and the next index is right behind
        have hset : Ahead { n with
            matchIndex := Function.update n.matchIndex peer (some (args.prevLogIndex + args.entries.length))
            nextIndex := Function.update n.nextIndex peer (some (args.prevLogIndex + args.entries.length + 1)) } := by
          intro _ p hp
          by_cases hpeer : p = peer
          · subst p
            exact ⟨_,_,Function.update_self _ _ _,Function.update_self _ _ _,Nat.lt_succ_self _⟩
          · obtain ⟨m,next,hm,hnext,hlt⟩ := h hl p hp
            exact ⟨m,next,by simpa [hpeer] using hm,by simpa [hpeer] using hnext,hlt⟩
        exact hset.of_window fun _ => window_updateCommitIndex _
      · exact h
    | false =>
      rw [if_neg (by simp)]
      have hrun : n.running = true := by simpa using hrun
      have hterm : replyTerm ≤ n.currentTerm := not_lt.mp hterm
      cases hnext : n.nextIndex peer with
      | none => exact iff_of_true h (by simp)
      | some next =>
        refine (ahead_lower_iff h hl hnext).trans ?_
        rw [hnext]
        simp [hrun,hterm,hl]
  · rw [if_pos hl]
    exact iff_of_true h fun _ _ hl' => absurd hl' hl

/-- Every other method keeps the leader ahead. -/
theorem Ahead.call {n : RaftNode Id M} (h : n.Ahead) : ∀ m : Method Id Cmd,
    (∀ peer args t s, m ≠ .appendEntriesReply peer args t s) → (n.call m).Ahead
  | .start,_ => h
  | .stop,_ => h
  | .electionTimeout,_ => by
    change n.electionTimeoutHandler.1.Ahead
    rcases n.electionTimeoutHandler_cases with he | ⟨-,-,he⟩
    · rw [he]
      exact h
    · rw [he]
      exact h.of_window fun hl => by cases hl
  | .handleRequestVote args,_ => by
    change (n.handleRequestVote args).1.Ahead
    rcases n.handleRequestVote_cases args with he | ⟨-,he⟩ | ⟨-,-,-,he⟩
    · rw [he]
      exact h
    · rw [he]
      exact h.of_window (n.window_adoptTerm args.term)
    · rw [he]
      exact h.of_window (n.window_adoptTerm args.term)
  | .requestVoteReply peer term replyTerm granted,_ => by
    change (n.requestVoteReply peer term replyTerm granted).Ahead
    rcases n.requestVoteReply_cases peer term replyTerm granted with he | ⟨-,he⟩ | ⟨-,-,-,-,he | ⟨-,he⟩⟩
    · rw [he]
      exact h
    · rw [he]
      exact h.of_window fun hl => by cases hl
    · rw [he]
      exact h
    · rw [he]
      exact Ahead.becomeLeader _
  | .handleAppendEntries args,_ => h.handleAppendEntries args
  | .appendEntriesReply peer args t s,hne => absurd rfl (hne peer args t s)
  | .submitCommand command,_ => by
    change (n.submitCommand command).1.Ahead
    unfold submitCommand
    split
    · exact h
    · exact h

/-- A snapshot at any moment, whatever the interval. -/
def compactNow (n : RaftNode Id M) : RaftNode Id M :=
  match n.log.getTerm n.lastApplied with
  | none => n
  | some lastTerm => { n with log := n.log.compact n.lastApplied lastTerm (M.snapshot n.stateMachine) }

omit [DecidableEq Id] in
theorem Ahead.compactNow {n : RaftNode Id M} (h : n.Ahead) : n.compactNow.Ahead := by
  unfold RaftNode.compactNow
  cases n.log.getTerm n.lastApplied with
  | none => exact h
  | some t => exact h

end RaftNode

/-- A step of the cluster, or a node that compacts its log. -/
inductive CompactingAction (Id Cmd : Type)
  | cluster (a : Action Id Cmd)
  | compact (i : Id)

namespace Cluster

def compactingStep (cfg : Config Id) (c : Cluster Id M) : CompactingAction Id Cmd → Cluster Id M
  | .cluster a => c.step cfg a
  | .compact i => c.setNode i (c.nodes i).compactNow

def Replicates (c : Cluster Id M) : Prop := ∀ i, (c.nodes i).Replicates

/-- A failed AppendEntries is not handled for a peer right behind its match index. -/
def KeepsAhead (c : Cluster Id M) : CompactingAction Id Cmd → Prop
  | .cluster (.appendEntriesReply k) => ∀ r, c.appendReplies[k]? = some r →
      (c.nodes r.call.args.leaderId).KeepsAhead r.call.peer r.replyTerm r.success
  | _ => True

omit [DecidableEq Id] in
theorem replicates_of_forall {c : Cluster Id M} (h : ∀ i, (c.nodes i).Ahead) : c.Replicates := fun i => (h i).replicates

/-- One node changed. -/
theorem replicates_setNode_iff {c : Cluster Id M} (h : c.Replicates) (i : Id) (n : RaftNode Id M) :
    (c.setNode i n).Replicates ↔ n.Ahead := by
  constructor
  · intro hnew
    have hself := (hnew i).ahead
    rwa [setNode_self] at hself
  · intro hnew
    refine replicates_of_forall fun j => ?_
    by_cases hj : j = i
    · subst j
      rw [setNode_self]
      exact hnew
    · rw [setNode_ne c _ hj]
      exact (h j).ahead

theorem replicates_reply_iff {cfg : Config Id} {c : Cluster Id M} (h : c.Replicates) (k : ℕ) :
    (c.compactingStep cfg (.cluster (.appendEntriesReply k))).Replicates ↔
      c.KeepsAhead (.cluster (.appendEntriesReply k)) := by
  cases hr : c.appendReplies[k]? with
  | none => simp [compactingStep,step,KeepsAhead,hr,h]
  | some r =>
    have hiff := RaftNode.ahead_appendEntriesReply_iff (h r.call.args.leaderId).ahead r.call.peer r.call.args
      r.replyTerm r.success
    simp only [compactingStep,step,KeepsAhead,hr,replicates_setNode_iff h,hiff]
    simp

theorem replicates_step_iff {cfg : Config Id} {c : Cluster Id M} (h : c.Replicates) (a : CompactingAction Id Cmd) :
    (c.compactingStep cfg a).Replicates ↔ c.KeepsAhead a := by
  cases a with
  | compact i => exact iff_of_true ((replicates_setNode_iff h i _).mpr (h i).ahead.compactNow) trivial
  | cluster a =>
    by_cases ha : ∃ k, a = .appendEntriesReply k
    · obtain ⟨k,rfl⟩ := ha
      exact replicates_reply_iff h k
    · refine iff_of_true ?_ ?_
      · refine replicates_of_forall (forall_nodes_step (fun i => (h i).ahead) fun i m hm hi => hi.call m ?_)
        rintro peer args t s rfl
        cases a <;> simp [method] at hm ha
      · cases a <;> first | trivial | exact absurd ⟨_,rfl⟩ ha

theorem replicates_init (M : StateMachine Cmd) (cfg : Config Id) : (init M cfg).Replicates :=
  replicates_of_forall fun i hl => by cases hl

/-- In a run the leaders can replicate in every state exactly if every failure is handled
while the next index of the peer is not right behind its match index. -/
theorem replicates_along_iff (M : StateMachine Cmd) (cfg : Config Id) (schedule : List (CompactingAction Id Cmd)) :
    (init M cfg).Replicates ∧
    (Runs.Along (compactingStep cfg) (fun c a => (c.compactingStep cfg a).Replicates) (init M cfg) schedule ↔
      Runs.Along (compactingStep cfg) KeepsAhead (init M cfg) schedule) :=
  ⟨replicates_init M cfg,Runs.along_kept_iff (Q := Replicates) (fun _ a h => replicates_step_iff h a) (replicates_init M cfg)⟩

/-- Node 0 replicates a command to node 1, and the next heartbeat gets lost. -/
def lostHeartbeat : List (CompactingAction ℕ (KeyValueCommand ℕ ℕ)) :=
  [.start 0,.start 1,.electionTimeout 0,.handleRequestVote 0,.requestVoteReply 0,
    .submitCommand 0 ⟨.set,some 1,some 10⟩,.sendAppendEntries 0 1,.handleAppendEntries 0,.appendEntriesReply 0,
    .sendAppendEntries 0 1,.failAppendEntries 1,.appendEntriesReply 1].map .cluster ++ [.compact 0]

/-- The next index falls back to the match index. Once the leader compacts its log it sends
nothing more to node 1, which has every entry. -/
theorem lost_heartbeat_stops_replication :
    ¬∀ schedule, (Runs.run (compactingStep threeNodes) (init (KeyValueStateMachine ℕ ℕ) threeNodes) schedule).Replicates := by
  intro h
  refine (h lostHeartbeat 0).sends (by decide) 1 (by decide) 1 (by decide) (by decide) ?_
  unfold RaftNode.ReturnsWithoutSending
  decide

end Cluster
end DistributedSystems.Raft
