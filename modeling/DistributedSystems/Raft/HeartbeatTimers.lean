import DistributedSystems.Protocol.Runs
import DistributedSystems.Raft.Ballot
import DistributedSystems.Raft.Method

/-! # Heartbeat timers

Every round of heartbeats starts a timer for the next round. Rounds are started by a timer,
by a won election and by every submitted command. An election or a command holds the lock of
the node throughout; the thread of a timer takes no lock, so a method may run between any two
of its accesses to the fields of the node. Timers are numbered in the order of their creation.
-/
namespace DistributedSystems.Raft
variable {Id Cmd : Type} [DecidableEq Id] {M : StateMachine Cmd}

/-- A thread in `_send_heartbeats`, before its next access to a field: the two checks there,
the two of `_schedule_next_heartbeat`, the assignment of the new timer and its start. -/
inductive Phase
  | sendState | sendRunning | scheduleState | scheduleRunning | create | start
deriving DecidableEq

/-- Who runs `_send_heartbeats`: the method that holds the lock, or the thread of a timer. -/
inductive Sender
  | lockHolder
  | timer (k : ℕ)
deriving DecidableEq

/-- `finished` are the timers that fired or were cancelled. -/
structure TimedNode (Id : Type) {Cmd : Type} (M : StateMachine Cmd) where
  node : RaftNode Id M
  heartbeatTimer : Option ℕ
  created : ℕ
  started : Finset ℕ
  finished : Finset ℕ
  phase : Sender → Option Phase

/-- A node that runs and leads sends heartbeats. -/
def RaftNode.Beats (n : RaftNode Id M) : Prop := n.state = .leader ∧ n.running = true

instance (n : RaftNode Id M) : Decidable n.Beats := inferInstanceAs (Decidable (_ ∧ _))

/-- What a method does to the heartbeat timers. -/
inductive TimerEffect
  | keep | cancel | sendHeartbeats

/-- `_update_term` and `stop` cancel, `_become_leader` and `submit_command` send. -/
def RaftNode.timerEffect (n : RaftNode Id M) : Method Id Cmd → TimerEffect
  | .start => .keep
  | .stop => .cancel
  | .electionTimeout => .keep
  | .handleRequestVote args => if args.term > n.currentTerm then .cancel else .keep
  | .requestVoteReply peer term replyTerm voteGranted =>
    if n.running = false ∨ n.state ≠ .candidate then .keep
    else if replyTerm > n.currentTerm then .cancel
    else if (n.requestVoteReply peer term replyTerm voteGranted).state = .leader then .sendHeartbeats
    else .keep
  | .handleAppendEntries args => if args.term > n.currentTerm then .cancel else .keep
  | .appendEntriesReply _ _ replyTerm _ =>
    if n.running = false then .keep else if replyTerm > n.currentTerm then .cancel else .keep
  | .submitCommand _ => if n.state ≠ .leader then .keep else .sendHeartbeats

namespace TimedNode

def init (M : StateMachine Cmd) (nodeId : Id) (peers : List Id) (snapshotInterval : ℕ)
    (storage : Storage Id Cmd M.Snapshot) : TimedNode Id M :=
  ⟨.init nodeId peers snapshotInterval storage,none,0,∅,∅,fun _ => none⟩

/-- The timers that were started, and neither fired nor were cancelled. -/
def pending (t : TimedNode Id M) : Finset ℕ := t.started \ t.finished

def moveTo (t : TimedNode Id M) (who : Sender) (phase : Option Phase) : TimedNode Id M :=
  { t with phase := Function.update t.phase who phase }

/-- The next access of a thread in `_send_heartbeats`. The workers started for the peers take
their steps at any time; a timer that was started before cannot be started again. -/
def resume (t : TimedNode Id M) (who : Sender) : TimedNode Id M :=
  match t.phase who with
  | none => t
  | some .sendState => t.moveTo who (if t.node.state ≠ .leader then none else some .sendRunning)
  | some .sendRunning => t.moveTo who (if t.node.running = false then none else some .scheduleState)
  | some .scheduleState => t.moveTo who (if t.node.state ≠ .leader then none else some .scheduleRunning)
  | some .scheduleRunning => t.moveTo who (if t.node.running = false then none else some .create)
  | some .create => { t.moveTo who (some .start) with heartbeatTimer := some t.created, created := t.created + 1 }
  | some .start =>
    match t.heartbeatTimer with
    | none => t.moveTo who none
    | some k => { t.moveTo who none with started := insert k t.started }

def cancelHeartbeat (t : TimedNode Id M) : TimedNode Id M :=
  match t.heartbeatTimer with
  | none => t
  | some k => { t with finished := insert k t.finished }

def apply (t : TimedNode Id M) : TimerEffect → TimedNode Id M
  | .keep => t
  | .cancel => t.cancelHeartbeat
  | .sendHeartbeats => t.moveTo .lockHolder (some .sendState)

/-- A method runs, a pending timer fires, or a thread goes on with `_send_heartbeats`. -/
inductive Action (Id Cmd : Type)
  | call (m : Method Id Cmd)
  | fire (timer : ℕ)
  | resume (who : Sender)

/-- No method runs while another one holds the lock. -/
def step (t : TimedNode Id M) : Action Id Cmd → TimedNode Id M
  | .call m => if t.phase .lockHolder ≠ none then t else apply { t with node := t.node.call m } (t.node.timerEffect m)
  | .fire k =>
    if k ∈ t.pending then { t.moveTo (.timer k) (some .sendState) with finished := insert k t.finished } else t
  | .resume who => t.resume who

/-- There is one pending timer at most, and none on a node that has stepped down or stopped. -/
structure OneChain (t : TimedNode Id M) : Prop where
  one : t.pending.card ≤ 1
  idle : ¬t.node.Beats → t.pending = ∅

/-- The stored timer is started only on a node that still runs and leads and has no pending
timer, and a step-down or a stop finds no other timer pending than the stored one. -/
def InOrder (t : TimedNode Id M) : Action Id Cmd → Prop
  | .call m => t.phase .lockHolder = none → t.node.timerEffect m = .cancel → ∀ k ∈ t.pending, t.heartbeatTimer = some k
  | .fire _ => True
  | .resume who => t.phase who = some .start → ∀ k, t.heartbeatTimer = some k → k ∉ t.started → k ∉ t.finished →
    t.node.Beats ∧ t.pending = ∅

/-- While a thread is in `_send_heartbeats` nobody steps down, stops, wins an election or
submits a command, and no command is submitted while a timer is pending. -/
def Undisturbed (t : TimedNode Id M) : Action Id Cmd → Prop
  | .call m => t.node.timerEffect m ≠ .keep →
    (∀ who, t.phase who = none) ∧ ∀ command, m = .submitCommand command → t.pending = ∅
  | .fire _ => True
  | .resume _ => True

omit [DecidableEq Id] in
theorem state_of_ballot {n n' : RaftNode Id M} (h : n'.ballot = n.ballot) :
    n'.state = n.state ∧ n'.running = n.running := ⟨congrArg Ballot.state h,congrArg Ballot.running h⟩

/-- A method that leaves the timers alone keeps a leader, and does not stop it. -/
theorem leads_call {n : RaftNode Id M} {m : Method Id Cmd} (hm : n.timerEffect m = .keep) (h : n.state = .leader) :
    (n.call m).state = .leader ∧ (n.running = true → (n.call m).running = true) := by
  have hballot : ∀ {n' : RaftNode Id M}, n'.ballot = n.ballot →
      n'.state = .leader ∧ (n.running = true → n'.running = true) := fun hn' =>
    ⟨(state_of_ballot hn').1.trans h,fun hr => (state_of_ballot hn').2.trans hr⟩
  cases m with
  | start => exact ⟨h,fun _ => rfl⟩
  | stop => cases hm
  | electionTimeout =>
    rw [RaftNode.call,RaftNode.electionTimeoutHandler,if_pos (Or.inr h)]
    exact ⟨h,id⟩
  | handleRequestVote args =>
    have hle : ¬args.term > n.currentTerm := fun hgt => by simp [RaftNode.timerEffect,hgt] at hm
    rw [RaftNode.call,RaftNode.handleRequestVote,RaftNode.adoptTerm,if_neg hle]
    split
    · exact ⟨h,id⟩
    · dsimp only
      split
      · exact ⟨h,id⟩
      · exact ⟨h,id⟩
  | requestVoteReply peer term replyTerm voteGranted =>
    rw [RaftNode.call,RaftNode.requestVoteReply,if_pos (Or.inr (by rw [h]; decide))]
    exact ⟨h,id⟩
  | handleAppendEntries args =>
    have hle : ¬n.currentTerm < args.term := fun hgt => by simp [RaftNode.timerEffect,hgt] at hm
    exact hballot ((n.ballot_handleAppendEntries args).resolve_right fun hr => hle hr.1)
  | appendEntriesReply peer args replyTerm success =>
    by_cases hrunning : n.running = false
    · rw [RaftNode.call,RaftNode.appendEntriesReply,if_pos hrunning]
      exact ⟨h,id⟩
    · have hle : ¬n.currentTerm < replyTerm := fun hgt => by simp [RaftNode.timerEffect,hrunning,hgt] at hm
      exact hballot ((n.ballot_appendEntriesReply peer args replyTerm success).resolve_right fun hr => hle hr.1)
  | submitCommand command => simp [RaftNode.timerEffect,h] at hm

theorem beats_call {n : RaftNode Id M} {m : Method Id Cmd} (hm : n.timerEffect m = .keep) (h : n.Beats) :
    (n.call m).Beats :=
  ⟨(leads_call hm h.1).1,(leads_call hm h.1).2 h.2⟩

/-- Whoever has its timer cancelled leads no more, or has stopped. -/
theorem not_beats_of_cancel {n : RaftNode Id M} {m : Method Id Cmd} (hm : n.timerEffect m = .cancel) :
    ¬(n.call m).Beats := by
  have hfollower : ∀ {n' : RaftNode Id M} {term : ℕ}, n'.ballot = n.ballot.observe term → ¬n'.Beats := by
    intro n' term hn' hbeats
    cases hbeats.1.symm.trans (congrArg Ballot.state hn')
  cases m with
  | start => cases hm
  | stop => exact fun hbeats => Bool.false_ne_true hbeats.2
  | electionTimeout => cases hm
  | handleRequestVote args =>
    have hgt : args.term > n.currentTerm := by
      by_contra hle
      simp [RaftNode.timerEffect,hle] at hm
    have hstate : (n.call (.handleRequestVote args)).state = .follower := by
      rw [RaftNode.call,RaftNode.handleRequestVote,if_neg (Nat.not_lt.mpr (Nat.le_of_lt hgt)),RaftNode.adoptTerm,if_pos hgt]
      dsimp only
      split <;> rfl
    exact fun hbeats => by cases hbeats.1.symm.trans hstate
  | requestVoteReply peer term replyTerm voteGranted =>
    simp only [RaftNode.timerEffect] at hm
    split_ifs at hm with hidle hgt
    rw [RaftNode.call,RaftNode.requestVoteReply,if_neg hidle,if_pos hgt]
    exact hfollower (n.ballot_updateTerm replyTerm)
  | handleAppendEntries args =>
    have hgt : args.term > n.currentTerm := by
      by_contra hle
      simp [RaftNode.timerEffect,hle] at hm
    rw [RaftNode.call,RaftNode.handleAppendEntries,if_neg (Nat.not_lt.mpr (Nat.le_of_lt hgt)),RaftNode.adoptTerm,if_pos hgt]
    dsimp only
    split
    · exact hfollower (n.ballot_updateTerm args.term)
    · exact hfollower ((RaftNode.ballot_storeEntries _ args).trans (n.ballot_updateTerm args.term))
  | appendEntriesReply peer args replyTerm success =>
    simp only [RaftNode.timerEffect] at hm
    split_ifs at hm with hidle hgt
    rw [RaftNode.call,RaftNode.appendEntriesReply,if_neg hidle,if_pos hgt]
    exact hfollower (n.ballot_updateTerm replyTerm)
  | submitCommand command =>
    simp only [RaftNode.timerEffect] at hm
    split_ifs at hm

/-- Heartbeats are sent by a node that has just been elected, or by a leader for a command. -/
theorem leads_of_sendHeartbeats {n : RaftNode Id M} {m : Method Id Cmd} (hm : n.timerEffect m = .sendHeartbeats) :
    (n.call m).state = .leader ∧
      ((¬n.Beats ∧ (n.call m).Beats) ∨
        ((∃ command, m = .submitCommand command) ∧ ((n.call m).Beats ↔ n.Beats))) := by
  cases m with
  | start => cases hm
  | stop => cases hm
  | electionTimeout => cases hm
  | handleRequestVote args =>
    simp only [RaftNode.timerEffect] at hm
    split_ifs at hm
  | requestVoteReply peer term replyTerm voteGranted =>
    simp only [RaftNode.timerEffect] at hm
    split_ifs at hm with hidle hgt hleader
    rw [not_or,not_not,Bool.not_eq_false] at hidle
    have hrunning : (n.requestVoteReply peer term replyTerm voteGranted).running = n.running := by
      rcases n.requestVoteReply_cases peer term replyTerm voteGranted with he | ⟨_,he⟩ | ⟨_,_,_,_,he | ⟨_,he⟩⟩ <;>
        rw [he] <;> rfl
    refine ⟨hleader,Or.inl ⟨fun hbeats => ?_,hleader,hrunning.trans hidle.1⟩⟩
    cases hbeats.1.symm.trans hidle.2
  | handleAppendEntries args =>
    simp only [RaftNode.timerEffect] at hm
    split_ifs at hm
  | appendEntriesReply peer args replyTerm success =>
    simp only [RaftNode.timerEffect] at hm
    split_ifs at hm
  | submitCommand command =>
    simp only [RaftNode.timerEffect] at hm
    split_ifs at hm with hleader
    have hsame := state_of_ballot (n.ballot_submitCommand command)
    refine ⟨hsame.1.trans (not_not.mp hleader),Or.inr ⟨⟨command,rfl⟩,?_⟩⟩
    unfold RaftNode.Beats RaftNode.call
    rw [hsame.1,hsame.2]

omit [DecidableEq Id] in
@[simp] theorem phase_moveTo_self (t : TimedNode Id M) (who : Sender) (phase : Option Phase) :
    (t.moveTo who phase).phase who = phase := Function.update_self ..

omit [DecidableEq Id] in
theorem phase_moveTo_of_ne {who who' : Sender} (h : who' ≠ who) (t : TimedNode Id M) (phase : Option Phase) :
    (t.moveTo who phase).phase who' = t.phase who' := Function.update_of_ne h ..

section Resume
variable {t : TimedNode Id M} {who : Sender}

omit [DecidableEq Id] in
theorem resume_of_none (h : t.phase who = none) : t.resume who = t := by
  unfold resume
  rw [h]

omit [DecidableEq Id] in
@[simp] theorem node_resume (t : TimedNode Id M) (who : Sender) : (t.resume who).node = t.node := by
  unfold resume
  split
  · rfl
  · rfl
  · rfl
  · rfl
  · rfl
  · rfl
  · split <;> rfl

omit [DecidableEq Id] in
theorem pending_resume_of_ne (h : t.phase who ≠ some .start) : (t.resume who).pending = t.pending := by
  unfold resume
  split
  · rfl
  · rfl
  · rfl
  · rfl
  · rfl
  · rfl
  · exact absurd ‹_› h

omit [DecidableEq Id] in
theorem heartbeatTimer_resume_start (h : t.phase who = some .start) : (t.resume who).heartbeatTimer = t.heartbeatTimer := by
  unfold resume
  rw [h]
  dsimp only
  split <;> rfl

omit [DecidableEq Id] in
/-- A timer that was started or cancelled before does not become pending. -/
theorem pending_resume_start (h : t.phase who = some .start) :
    ((∀ k, t.heartbeatTimer = some k → k ∉ t.started → k ∈ t.finished) ∧ (t.resume who).pending = t.pending) ∨
    ∃ k, t.heartbeatTimer = some k ∧ k ∉ t.started ∧ k ∉ t.finished ∧
      (t.resume who).pending = insert k t.pending := by
  unfold resume pending
  rw [h]
  dsimp only
  cases hk : t.heartbeatTimer with
  | none => exact Or.inl ⟨by simp,rfl⟩
  | some k =>
    by_cases hstarted : k ∈ t.started
    · exact Or.inl ⟨by simp [hstarted],by simp [moveTo,hstarted]⟩
    · by_cases hfinished : k ∈ t.finished
      · exact Or.inl ⟨by simp [hfinished],Finset.insert_sdiff_of_mem _ hfinished⟩
      · exact Or.inr ⟨k,rfl,hstarted,hfinished,Finset.insert_sdiff_of_notMem _ hfinished⟩

end Resume

omit [DecidableEq Id] in
@[simp] theorem node_cancelHeartbeat (t : TimedNode Id M) : t.cancelHeartbeat.node = t.node := by
  unfold cancelHeartbeat
  split <;> rfl

omit [DecidableEq Id] in
@[simp] theorem phase_cancelHeartbeat (t : TimedNode Id M) : t.cancelHeartbeat.phase = t.phase := by
  unfold cancelHeartbeat
  split <;> rfl

omit [DecidableEq Id] in
theorem pending_cancelHeartbeat (t : TimedNode Id M) :
    t.cancelHeartbeat.pending = ∅ ↔ ∀ k ∈ t.pending, t.heartbeatTimer = some k := by
  unfold cancelHeartbeat
  split
  · rename_i hnone
    rw [Finset.eq_empty_iff_forall_notMem]
    refine forall_congr' fun k => imp_congr_right fun _ => ?_
    simp [hnone]
  · rename_i j hj
    have herase : pending { t with finished := insert j t.finished } = t.pending.erase j := by
      unfold pending
      rw [Finset.sdiff_insert]
    rw [herase,hj,Finset.eq_empty_iff_forall_notMem]
    refine forall_congr' fun k => ?_
    rw [Finset.mem_erase,Option.some.injEq]
    grind

/-- What a call leaves pending. -/
theorem oneChain_call_iff {t : TimedNode Id M} (h : OneChain t) (m : Method Id Cmd) :
    OneChain (t.step (.call m)) ↔ t.InOrder (.call m) := by
  unfold step InOrder
  dsimp only
  by_cases hlock : t.phase .lockHolder = none
  · rw [if_neg (not_not.mpr hlock),imp_iff_right hlock]
    cases hm : t.node.timerEffect m with
    | keep =>
      refine iff_of_true ⟨h.one,fun hn => h.idle fun hb => hn (beats_call hm hb)⟩ fun he => ?_
      cases he
    | cancel =>
      rw [imp_iff_right rfl]
      refine Iff.trans ?_ (pending_cancelHeartbeat { t with node := t.node.call m })
      refine ⟨fun hone => hone.idle ?_,fun he => ⟨?_,fun _ => he⟩⟩
      · rw [apply,node_cancelHeartbeat]
        exact not_beats_of_cancel hm
      · rw [apply,he]
        exact Nat.zero_le 1
    | sendHeartbeats =>
      refine iff_of_true ⟨h.one,fun hn => h.idle fun hb => hn ?_⟩ fun he => ?_
      · rcases (leads_of_sendHeartbeats hm).2 with ⟨-,hafter⟩ | ⟨-,hsame⟩
        · exact hafter
        · exact hsame.mpr hb
      · cases he
  · rw [if_pos hlock]
    exact iff_of_true h fun hnone => absurd hnone hlock

theorem oneChain_step_iff {t : TimedNode Id M} (h : OneChain t) (a : Action Id Cmd) :
    OneChain (t.step a) ↔ t.InOrder a := by
  cases a with
  | call m => exact oneChain_call_iff h m
  | fire k =>
    refine iff_of_true ?_ trivial
    unfold step
    dsimp only
    split
    · have hsub : pending { t.moveTo (.timer k) (some .sendState) with finished := insert k t.finished } ⊆ t.pending :=
        Finset.sdiff_subset_sdiff (Finset.Subset.refl _) (Finset.subset_insert k _)
      exact ⟨(Finset.card_le_card hsub).trans h.one,fun hn => Finset.subset_empty.mp (h.idle hn ▸ hsub)⟩
    · exact h
  | resume who =>
    by_cases hstart : t.phase who = some .start
    · rcases pending_resume_start hstart with ⟨hold,hsame⟩ | ⟨k,hk,hstarted,hfinished,hnew⟩
      · refine iff_of_true ⟨?_,fun hn => ?_⟩ fun _ k hk hns hnf => absurd (hold k hk hns) hnf
        · rw [step,hsame]
          exact h.one
        · rw [step,node_resume] at hn
          rw [step,hsame]
          exact h.idle hn
      · have hnotMem : k ∉ t.pending := fun hmem => hstarted (Finset.mem_sdiff.mp hmem).1
        constructor
        · intro hone
          have hcard := hone.one
          rw [step,hnew,Finset.card_insert_of_notMem hnotMem] at hcard
          refine fun _ _ _ _ _ => ⟨?_,Finset.card_eq_zero.mp (by omega)⟩
          by_contra hn
          have hempty := hone.idle (by rwa [step,node_resume])
          rw [step,hnew] at hempty
          exact Finset.insert_ne_empty _ _ hempty
        · intro horder
          obtain ⟨hbeats,hempty⟩ := horder hstart k hk hstarted hfinished
          refine ⟨?_,fun hn => absurd hbeats ?_⟩
          · rw [step,hnew,hempty]
            exact (Finset.card_singleton k).le
          · rwa [step,node_resume] at hn
    · refine iff_of_true ?_ fun hs => absurd hs hstart
      refine ⟨?_,fun hn => ?_⟩
      · rw [step,pending_resume_of_ne hstart]
        exact h.one
      · rw [step,node_resume] at hn
        rw [step,pending_resume_of_ne hstart]
        exact h.idle hn

/-- What a thread in this phase has seen of the node. -/
def Seen (n : RaftNode Id M) : Phase → Prop
  | .sendState => True
  | .sendRunning => n.state = .leader
  | .scheduleState | .scheduleRunning | .create | .start => n.Beats

/-- A thread in `_send_heartbeats` is alone and what it has seen still holds; otherwise the
only timer that may be pending is the stored one. -/
structure SingleChain (t : TimedNode Id M) : Prop where
  alone : ∀ who, t.phase who ≠ none → t.pending = ∅ ∧ ∀ who', t.phase who' ≠ none → who' = who
  seen : ∀ who p, t.phase who = some p → Seen t.node p
  stored : ∀ k ∈ t.pending, t.heartbeatTimer = some k
  idle : ¬t.node.Beats → t.pending = ∅

theorem seen_call {n : RaftNode Id M} {m : Method Id Cmd} (hm : n.timerEffect m = .keep) {p : Phase} (h : Seen n p) :
    Seen (n.call m) p := by
  cases p with
  | sendState => trivial
  | sendRunning => exact (leads_call hm h).1
  | scheduleState => exact beats_call hm h
  | scheduleRunning => exact beats_call hm h
  | create => exact beats_call hm h
  | start => exact beats_call hm h

omit [DecidableEq Id] in
/-- A thread goes on only with what it has seen. -/
theorem phase_resume {t : TimedNode Id M} {who : Sender} {p : Phase} (hp : t.phase who = some p) (hseen : Seen t.node p) :
    ∃ next, (t.resume who).phase = Function.update t.phase who next ∧ (p = .start → next = none) ∧
      ∀ q, next = some q → Seen t.node q := by
  have hcheck : ∀ {failed : Prop} [Decidable failed] {q : Phase}, (¬failed → Seen t.node q) →
      ∀ q', (if failed then none else some q) = some q' → Seen t.node q' := by
    intro failed _ q hq q' hq'
    split at hq'
    · cases hq'
    · rename_i hfailed
      cases hq'
      exact hq hfailed
  unfold resume
  rw [hp]
  cases p with
  | sendState => exact ⟨_,rfl,fun he => (by cases he),hcheck not_not.mp⟩
  | sendRunning => exact ⟨_,rfl,fun he => (by cases he),hcheck fun hr => ⟨hseen,Bool.eq_true_of_not_eq_false hr⟩⟩
  | scheduleState => exact ⟨_,rfl,fun he => (by cases he),hcheck fun _ => hseen⟩
  | scheduleRunning => exact ⟨_,rfl,fun he => (by cases he),hcheck fun _ => hseen⟩
  | create => exact ⟨_,rfl,fun he => (by cases he),fun q hq => Option.some.inj hq ▸ hseen⟩
  | start =>
    refine ⟨none,?_,fun _ => rfl,fun q hq => by cases hq⟩
    dsimp only
    split <;> rfl

namespace SingleChain
variable {t : TimedNode Id M}

omit [DecidableEq Id] in
theorem oneChain (h : SingleChain t) : OneChain t where
  one := Finset.card_le_one.mpr fun j hj k hk => Option.some.inj ((h.stored j hj).symm.trans (h.stored k hk))
  idle := h.idle

omit [DecidableEq Id] in
theorem of_free (hfree : ∀ who, t.phase who = none) (hstored : ∀ k ∈ t.pending, t.heartbeatTimer = some k)
    (hidle : ¬t.node.Beats → t.pending = ∅) : SingleChain t where
  alone who hwho := absurd (hfree who) hwho
  seen who p hp := by
    rw [hfree who] at hp
    cases hp
  stored := hstored
  idle := hidle

omit [DecidableEq Id] in
theorem of_sender (who : Sender) (hempty : t.pending = ∅) (halone : ∀ who', t.phase who' ≠ none → who' = who)
    (hseen : ∀ p, t.phase who = some p → Seen t.node p) : SingleChain t where
  alone who' hwho' := ⟨hempty,fun w hw => (halone w hw).trans (halone who' hwho').symm⟩
  seen who' p hp := by
    cases halone who' (by rw [hp]; exact Option.some_ne_none p)
    exact hseen p hp
  stored k hk := by
    rw [hempty] at hk
    cases hk
  idle _ := hempty

omit [DecidableEq Id] in
theorem free_of_mem (h : SingleChain t) {k : ℕ} (hk : k ∈ t.pending) (who : Sender) : t.phase who = none := by
  by_contra hwho
  rw [(h.alone who hwho).1] at hk
  cases hk

theorem call (h : SingleChain t) {m : Method Id Cmd} (ha : t.Undisturbed (.call m)) : SingleChain (t.step (.call m)) := by
  unfold TimedNode.step
  dsimp only
  by_cases hlock : t.phase .lockHolder = none
  · rw [if_neg (not_not.mpr hlock)]
    cases hm : t.node.timerEffect m with
    | keep =>
      exact ⟨h.alone,fun who p hp => seen_call hm (h.seen who p hp),h.stored,
        fun hn => h.idle fun hb => hn (beats_call hm hb)⟩
    | cancel =>
      have hfree := (ha (by rw [hm]; exact fun he => by cases he)).1
      have hempty : (cancelHeartbeat { t with node := t.node.call m }).pending = ∅ :=
        (pending_cancelHeartbeat _).mpr h.stored
      refine of_free (fun who => ?_) (fun k hk => ?_) fun _ => hempty
      · rw [apply,phase_cancelHeartbeat]
        exact hfree who
      · rw [apply,hempty] at hk
        cases hk
    | sendHeartbeats =>
      obtain ⟨hfree,hsubmit⟩ := ha (by rw [hm]; exact fun he => by cases he)
      have hempty : t.pending = ∅ := by
        rcases (leads_of_sendHeartbeats hm).2 with ⟨hn,-⟩ | ⟨⟨command,rfl⟩,-⟩
        · exact h.idle hn
        · exact hsubmit command rfl
      refine of_sender .lockHolder hempty (fun who hwho => ?_) fun p hp => ?_
      · by_contra hne
        rw [apply,phase_moveTo_of_ne hne] at hwho
        exact hwho (hfree who)
      · rw [apply,phase_moveTo_self] at hp
        cases hp
        trivial
  · rw [if_pos hlock]
    exact h

theorem fire (h : SingleChain t) (k : ℕ) : SingleChain (t.step (.fire k)) := by
  unfold TimedNode.step
  dsimp only
  split
  · rename_i hk
    refine of_sender (.timer k) ?_ (fun who hwho => ?_) fun p hp => ?_
    · refine Finset.eq_empty_of_forall_notMem fun j hj => ?_
      obtain ⟨hstarted,hfinished⟩ := Finset.mem_sdiff.mp hj
      rw [Finset.mem_insert,not_or] at hfinished
      have hjpending : j ∈ t.pending := Finset.mem_sdiff.mpr ⟨hstarted,hfinished.2⟩
      exact hfinished.1 (Option.some.inj ((h.stored j hjpending).symm.trans (h.stored k hk)))
    · by_contra hne
      exact hwho ((Function.update_of_ne hne _ _).trans (h.free_of_mem hk who))
    · cases (Function.update_self ..).symm.trans hp
      trivial
  · exact h

theorem resume (h : SingleChain t) (who : Sender) : SingleChain (t.step (.resume who)) := by
  rw [TimedNode.step]
  cases hp : t.phase who with
  | none =>
    rw [resume_of_none hp]
    exact h
  | some p =>
    have hsome : t.phase who ≠ none := by
      rw [hp]
      exact Option.some_ne_none p
    obtain ⟨hempty,halone⟩ := h.alone who hsome
    obtain ⟨next,hphase,hend,hseen⟩ := phase_resume hp (h.seen who p hp)
    have hothers : ∀ who', (t.resume who).phase who' ≠ none → who' = who := by
      intro who' hwho'
      by_contra hne
      rw [hphase,Function.update_of_ne hne] at hwho'
      exact hne (halone who' hwho')
    by_cases hstart : p = .start
    · subst hstart
      have hfree : ∀ who', (t.resume who).phase who' = none := by
        intro who'
        by_contra hne
        rw [hothers who' hne,hphase,Function.update_self,hend rfl] at hne
        exact hne rfl
      have hnode : (t.resume who).node.Beats := by
        rw [node_resume]
        exact h.seen who .start hp
      refine of_free hfree (fun k hk => ?_) fun hn => absurd hnode hn
      rw [heartbeatTimer_resume_start hp]
      rcases pending_resume_start hp with ⟨-,hsame⟩ | ⟨j,hj,-,-,hnew⟩
      · rw [hsame,hempty] at hk
        cases hk
      · rw [hnew,hempty] at hk
        rw [Finset.mem_singleton.mp hk,hj]
    · refine of_sender who ?_ hothers fun q hq => ?_
      · rw [pending_resume_of_ne (by rw [hp]; exact fun he => hstart (Option.some.inj he)),hempty]
      · rw [hphase,Function.update_self] at hq
        rw [node_resume]
        exact hseen q hq

theorem step (h : SingleChain t) {a : Action Id Cmd} (ha : t.Undisturbed a) : SingleChain (t.step a) := by
  cases a with
  | call m => exact h.call ha
  | fire k => exact h.fire k
  | resume who => exact h.resume who

end SingleChain

/-- In a run there is at most one pending timer after every step, and none on a node that has
stepped down or stopped, exactly if all its steps are in order; so it is in a run where nothing
disturbs the threads that send heartbeats. -/
theorem oneChain_along_iff (M : StateMachine Cmd) (nodeId : Id) (peers : List Id) (snapshotInterval : ℕ)
    (storage : Storage Id Cmd M.Snapshot) (schedule : List (Action Id Cmd)) :
    OneChain (init M nodeId peers snapshotInterval storage) ∧
    (Runs.Along step (fun t a => OneChain (t.step a)) (init M nodeId peers snapshotInterval storage) schedule ↔
      Runs.Along step InOrder (init M nodeId peers snapshotInterval storage) schedule) ∧
    (Runs.Along step Undisturbed (init M nodeId peers snapshotInterval storage) schedule →
      Runs.Along step (fun t a => OneChain (t.step a)) (init M nodeId peers snapshotInterval storage) schedule) := by
  have hinit : SingleChain (init M nodeId peers snapshotInterval storage) :=
    SingleChain.of_free (fun _ => rfl) (fun k hk => by cases hk) fun _ => rfl
  refine ⟨hinit.oneChain,Runs.along_kept_iff (Q := OneChain) (fun _ a h => oneChain_step_iff h a) hinit.oneChain,?_⟩
  exact Runs.along_of_invariant (I := SingleChain) (fun _ _ h ha => h.step ha) (fun _ _ h ha => (h.step ha).oneChain) hinit

/-- A node of three is elected and starts its first timer. In one run it gets a command before
that timer fires; in the other it is stopped after the timer has fired and its thread has made
the four checks. -/
theorem second_timer_or_late_timer :
    (¬OneChain (Runs.run step (init (KeyValueStateMachine ℕ ℕ) 0 [1,2] 10 Storage.empty)
      ([.call .start,.call .electionTimeout,.call (.requestVoteReply 1 1 1 true)] ++ List.replicate 6 (.resume .lockHolder) ++
        [.call (.submitCommand ⟨.set,some 1,some 10⟩)] ++ List.replicate 6 (.resume .lockHolder)))) ∧
    ¬OneChain (Runs.run step (init (KeyValueStateMachine ℕ ℕ) 0 [1,2] 10 Storage.empty)
      ([.call .start,.call .electionTimeout,.call (.requestVoteReply 1 1 1 true)] ++ List.replicate 6 (.resume .lockHolder) ++
        [.fire 0] ++ List.replicate 4 (.resume (.timer 0)) ++ [.call .stop] ++ List.replicate 2 (.resume (.timer 0)))) :=
  ⟨fun h => absurd h.one (by decide),fun h => absurd (h.idle (by decide)) (by decide)⟩

end TimedNode

end DistributedSystems.Raft
