import DistributedSystems.Election.Bully
import DistributedSystems.Protocol.Runs
import Mathlib.Data.Nat.Basic
import Mathlib.Logic.Function.Basic
import Mathlib.Order.Basic

/-! # Victory by timeout

`_election_timeout_check` looks at two flags. Neither knows which election the timer was set
in, and an OK message changes neither. So a victory is lawful exactly when nothing has
happened since the timer was set that the flags do not show.
-/
namespace DistributedSystems.Election
open Runs

variable {ν T : Type} [LinearOrder ν]

namespace BullyElection

/-- With a higher node every election sets one timer, and without one none does. The last timer
set was set in the last election, and the OK messages handled since come from higher nodes. -/
structure Counted (i : ν) (n : BullyElection ν T) : Prop where
  nodeId : n.nodeId = i
  elections : n.higherNodes ≠ [] → n.elections = n.timersSet
  noTimers : n.higherNodes = [] → n.timers = []
  timers : ∀ t ∈ n.timers, t.election = t.order ∧ t.order ≤ n.timersSet
  oks : ∀ o ∈ n.oks, i < o
  oksHandled : ∀ t ∈ n.timers, t.order = n.timersSet → t.oksHandled + n.oks.length = n.oksHandled

/-- What a node sends in one step: an OK message goes to a lower node only. -/
structure Proper (i : ν) (r : BullyReaction ν T) : Prop where
  node : Counted i r.node
  oks : ∀ p ∈ r.sent, p.message.type = .ok → p.destination < p.message.senderId

variable {i : ν} {n : BullyElection ν T}

theorem counted_init (i : ν) (peers : List ν) (electionTimeout now : T) :
    Counted i (init i peers electionTimeout now) where
  nodeId := rfl
  elections _ := rfl
  noTimers _ := rfl
  timers _ h := absurd h List.not_mem_nil
  oks _ h := absurd h List.not_mem_nil
  oksHandled _ h := absurd h List.not_mem_nil

theorem Proper.silent (h : Counted i n) : Proper i ⟨n,[],[]⟩ := ⟨h,fun _ hp => absurd hp List.not_mem_nil⟩

/-- The flags, the leader and the clock are not counted. -/
theorem Counted.congr (h : Counted i n) {n' : BullyElection ν T} (hid : n'.nodeId = n.nodeId)
    (hpeers : n'.peers = n.peers) (htimers : n'.timers = n.timers) (helections : n'.elections = n.elections)
    (hoks : n'.oks = n.oks) (hset : n'.timersSet = n.timersSet) (hhandled : n'.oksHandled = n.oksHandled) :
    Counted i n' := by
  have hhigher : n'.higherNodes = n.higherNodes := by simp [higherNodes,hid,hpeers]
  constructor
  · rw [hid]
    exact h.nodeId
  · rw [hhigher,helections,hset]
    exact h.elections
  · rw [hhigher,htimers]
    exact h.noTimers
  · rw [htimers,hset]
    exact h.timers
  · rw [hoks]
    exact h.oks
  · rw [htimers,hset,hoks,hhandled]
    exact h.oksHandled

theorem proper_toPeers (h : Counted i n) (m : BullyElection ν T) {message : BullyMessage ν} (hm : message.type ≠ .ok)
    (notified : List (Option ν)) : Proper i ⟨n,m.toPeers message,notified⟩ := by
  refine ⟨h,fun p hp ht => ?_⟩
  obtain ⟨peer,-,rfl⟩ := List.mem_map.mp hp
  exact absurd ht hm

theorem Counted.becomeLeader (h : Counted i n) : Proper i n.becomeLeader := by
  unfold BullyElection.becomeLeader
  dsimp only
  refine proper_toPeers ?_ _ (by simp) _
  exact h.congr rfl rfl rfl rfl rfl rfl rfl

theorem Counted.startElection (h : Counted i n) : Proper i n.startElection := by
  unfold BullyElection.startElection
  split
  · exact Proper.silent h
  dsimp only
  split
  · rename_i hnone
    have hempty := h.noTimers hnone
    refine Counted.becomeLeader ⟨h.nodeId,fun hsome => absurd hnone hsome,fun _ => hempty,h.timers,?_,?_⟩
    · exact fun _ ho => absurd ho List.not_mem_nil
    · exact fun t ht => absurd ht (hempty ▸ List.not_mem_nil)
  · rename_i hsome
    have helections := h.elections hsome
    refine ⟨⟨h.nodeId,fun _ => congrArg (· + 1) helections,fun hnone => absurd hnone hsome,?_,?_,?_⟩,?_⟩
    · intro t ht
      rcases List.mem_append.mp ht with ht | ht
      · exact ⟨(h.timers t ht).1,(h.timers t ht).2.trans (Nat.le_succ _)⟩
      · rw [List.mem_singleton.mp ht]
        exact ⟨congrArg (· + 1) helections,le_refl _⟩
    · exact fun _ ho => absurd ho List.not_mem_nil
    · intro t ht horder
      rcases List.mem_append.mp ht with ht | ht
      · -- An older timer is not the last one.
        have hle := (h.timers t ht).2
        change t.order = n.timersSet + 1 at horder
        omega
      · rw [List.mem_singleton.mp ht]
        rfl
    · intro p hp ht
      obtain ⟨node,-,rfl⟩ := List.mem_map.mp hp
      cases ht

theorem Counted.stepDown (h : Counted i n) : Counted i n.stepDown := by
  unfold BullyElection.stepDown
  split
  · exact h
  · exact h.congr rfl rfl rfl rfl rfl rfl rfl

theorem Counted.start (h : Counted i n) : Proper i n.start := by
  unfold BullyElection.start
  split
  · exact Proper.silent h
  · apply Counted.startElection
    exact h.congr rfl rfl rfl rfl rfl rfl rfl

theorem Counted.stop (h : Counted i n) : Counted i n.stop := by
  have hstopped : Counted i { n with running := false } := h.congr rfl rfl rfl rfl rfl rfl rfl
  unfold BullyElection.stop
  dsimp only
  split
  · exact hstopped.stepDown
  · exact hstopped

theorem Counted.monitorLeader [Sub T] [LinearOrder T] (h : Counted i n) (now : T) : Proper i (n.monitorLeader now) := by
  unfold BullyElection.monitorLeader
  split
  · exact h.startElection
  · exact Proper.silent h

theorem Counted.endHeartbeat (h : Counted i n) : Counted i n.endHeartbeat := by
  unfold BullyElection.endHeartbeat
  split
  · exact h
  · exact h.congr rfl rfl rfl rfl rfl rfl rfl

/-- A timer that has fired is not pending any more. -/
theorem Counted.fire (h : Counted i n) (k : ℕ) : Proper i (n.fire k) := by
  have hsub : ∀ t ∈ n.timers.eraseIdx k, t ∈ n.timers := fun t ht => List.mem_of_mem_eraseIdx ht
  have hrest : Counted i { n with timers := n.timers.eraseIdx k } := by
    refine ⟨h.nodeId,h.elections,fun hnone => ?_,fun t ht => h.timers t (hsub t ht),h.oks,
      fun t ht => h.oksHandled t (hsub t ht)⟩
    simp [h.noTimers hnone]
  unfold BullyElection.fire electionTimeoutCheck
  split
  · exact hrest.becomeLeader
  · exact Proper.silent hrest

theorem Counted.handleElectionMsg (h : Counted i n) (msg : BullyMessage ν) : Proper i (n.handleElectionMsg msg) := by
  unfold BullyElection.handleElectionMsg
  split
  · rename_i hlower
    dsimp only
    split
    · refine ⟨h.startElection.node,fun p hp => ?_⟩
      rcases List.mem_cons.mp hp with rfl | hp
      · exact fun _ => hlower
      · exact h.startElection.oks p hp
    · refine ⟨h,fun p hp _ => ?_⟩
      cases List.mem_singleton.mp hp
      exact hlower
  · exact Proper.silent h

/-- An OK message is counted, and that is all it does. -/
theorem Counted.handleOkMsg (h : Counted i n) {msg : BullyMessage ν} (hmsg : i < msg.senderId) :
    Proper i (n.handleOkMsg msg) := by
  refine Proper.silent ⟨h.nodeId,h.elections,h.noTimers,h.timers,?_,?_⟩
  · intro o ho
    rcases List.mem_append.mp ho with ho | ho
    · exact h.oks o ho
    · rw [List.mem_singleton.mp ho]
      exact hmsg
  · intro t ht horder
    have hcount := h.oksHandled t ht horder
    simp only [List.length_append,List.length_singleton]
    omega

theorem Counted.handleCoordinatorMsg (h : Counted i n) (now : T) (msg : BullyMessage ν) :
    Proper i (n.handleCoordinatorMsg now msg) := by
  unfold BullyElection.handleCoordinatorMsg
  split
  · exact h.startElection
  dsimp only
  refine ⟨?_,fun _ hp => absurd hp List.not_mem_nil⟩
  split
  · exact Counted.stepDown (h.congr rfl rfl rfl rfl rfl rfl rfl)
  · exact h.congr rfl rfl rfl rfl rfl rfl rfl

theorem Counted.handleHeartbeatMsg (h : Counted i n) (now : T) (msg : BullyMessage ν) :
    Proper i (n.handleHeartbeatMsg now msg) := by
  unfold BullyElection.handleHeartbeatMsg
  split
  · refine Proper.silent ?_
    split
    · exact h.congr rfl rfl rfl rfl rfl rfl rfl
    · exact h.congr rfl rfl rfl rfl rfl rfl rfl
  split
  · exact h.handleCoordinatorMsg now msg
  · exact Proper.silent h

theorem Counted.handleMessage (h : Counted i n) (now : T) {msg : BullyMessage ν}
    (hmsg : msg.type = .ok → i < msg.senderId) : Proper i (n.handleMessage now msg) := by
  unfold BullyElection.handleMessage
  cases ht : msg.type with
  | election => exact h.handleElectionMsg msg
  | ok => exact h.handleOkMsg (hmsg ht)
  | coordinator => exact h.handleCoordinatorMsg now msg
  | heartbeat => exact h.handleHeartbeatMsg now msg

/-- A node that does not lead is made leader by any of its timers while it is in an election. -/
theorem fire_isLeaderFlag (hflag : n.isLeaderFlag = false) (k : ℕ) :
    (n.fire k).node.isLeaderFlag = true ↔ n.inElection = true := by
  unfold BullyElection.fire electionTimeoutCheck
  split
  · rename_i hwins
    exact iff_of_true rfl hwins.1
  · rename_i hwins
    refine iff_of_false (by simp [hflag]) fun hin => hwins ⟨hin,by simp [hflag]⟩

/-- The timer belongs to the last election and no higher node has answered since, if and only if
no other timer has been set and no OK message been handled since this one was set. -/
theorem Counted.lawful_iff (h : Counted i n) {t : ElectionTimer} (ht : t ∈ n.timers) :
    (t.election = n.elections ∧ ∀ o ∈ n.oks, ¬i < o) ↔ t.order = n.timersSet ∧ t.oksHandled = n.oksHandled := by
  have hhigher : n.higherNodes ≠ [] := fun hnone => absurd ht (h.noTimers hnone ▸ List.not_mem_nil)
  rw [(h.timers t ht).1,h.elections hhigher]
  refine and_congr_right fun horder => ?_
  have hcount := h.oksHandled t ht horder
  constructor
  · intro hnone
    have hempty : n.oks = [] := List.eq_nil_iff_forall_not_mem.mpr fun o ho => hnone o ho (h.oks o ho)
    simp only [hempty,List.length_nil] at hcount
    omega
  · intro hsame o ho
    have hempty : n.oks.length = 0 := by omega
    rw [List.length_eq_zero_iff.mp hempty] at ho
    cases ho

end BullyElection

namespace BullyCluster
open BullyElection

structure Sound (c : BullyCluster ν T) : Prop where
  nodes : ∀ i, Counted i (c.nodes i)
  oks : ∀ p ∈ c.network, p.message.type = .ok → p.destination < p.message.senderId

theorem sound_init (cfg : BullyConfig ν T) (time : T) : (init cfg time).Sound :=
  ⟨fun i => counted_init i _ _ _,fun _ hp => absurd hp List.not_mem_nil⟩

theorem Sound.react {c : BullyCluster ν T} (h : c.Sound) {i : ν} {r : BullyReaction ν T} (hr : Proper i r) :
    (c.react i r).Sound := by
  refine ⟨(Function.forall_update_iff c.nodes fun j n => Counted j n).mpr ⟨hr.node,fun j _ => h.nodes j⟩,fun p hp => ?_⟩
  rcases List.mem_append.mp hp with hp | hp
  · exact h.oks p hp
  · exact hr.oks p hp

variable [Sub T] [LinearOrder T]

theorem Sound.step {c : BullyCluster ν T} (h : c.Sound) (a : BullyAction ν T) : (c.step a).Sound := by
  unfold BullyCluster.step
  cases a with
  | start i => exact h.react (h.nodes i).start
  | stop i => exact h.react (Proper.silent (h.nodes i).stop)
  | triggerElection i => exact h.react (h.nodes i).startElection
  | monitorLeader i => exact h.react ((h.nodes i).monitorLeader c.time)
  | electionTimeout i k =>
    dsimp only
    split
    · exact h.react ((h.nodes i).fire k)
    · exact h
  | sendHeartbeat i =>
    dsimp only
    split
    · exact h.react (proper_toPeers (h.nodes i) _ (by simp) _)
    · exact h
  | endHeartbeat i => exact h.react (Proper.silent (h.nodes i).endHeartbeat)
  | deliver k =>
    dsimp only
    split
    · rename_i p hp
      exact h.react ((h.nodes p.destination).handleMessage c.time (h.oks p (List.mem_of_getElem? hp)))
    · exact h
  | elapse time =>
    dsimp only
    split
    · exact ⟨h.nodes,h.oks⟩
    · exact h

/-- A node that a timer makes leader is in the election of that timer, and has handled no OK
message from a higher node since that election started. -/
def Lawful (c : BullyCluster ν T) : BullyAction ν T → Prop
  | .electionTimeout i k => ∀ t ∈ (c.nodes i).timers[k]?, (c.nodes i).isLeaderFlag = false →
      ((c.step (.electionTimeout i k)).nodes i).isLeaderFlag = true →
      t.election = (c.nodes i).elections ∧ ∀ o ∈ (c.nodes i).oks, ¬i < o
  | _ => True

/-- A timer that fires while its node is in an election and does not lead is the last one that
the node has set, and the node has handled no OK message since. -/
def Undisturbed (c : BullyCluster ν T) : BullyAction ν T → Prop
  | .electionTimeout i k => ∀ t ∈ (c.nodes i).timers[k]?, (c.nodes i).isLeaderFlag = false →
      (c.nodes i).inElection = true → t.order = (c.nodes i).timersSet ∧ t.oksHandled = (c.nodes i).oksHandled
  | _ => True

theorem Sound.lawful_iff {c : BullyCluster ν T} (h : c.Sound) (a : BullyAction ν T) : c.Lawful a ↔ c.Undisturbed a := by
  cases a with
  | electionTimeout i k =>
    unfold Lawful Undisturbed
    refine forall₂_congr fun t ht => forall_congr' fun hflag => ?_
    have hstep : ((c.step (.electionTimeout i k)).nodes i).isLeaderFlag = true ↔ (c.nodes i).inElection = true := by
      rw [← fire_isLeaderFlag hflag k]
      simp [BullyCluster.step,Option.mem_def.mp ht,BullyCluster.react]
    rw [hstep,(h.nodes i).lawful_iff (List.mem_of_getElem? ht)]
  | _ => exact Iff.rfl

/-- In every run each victory by timeout is lawful if and only if each timer that decides an
election is undisturbed. -/
theorem victory_lawful_iff (cfg : BullyConfig ν T) (time : T) (schedule : List (BullyAction ν T)) :
    Along step Lawful (init cfg time) schedule ↔ Along step Undisturbed (init cfg time) schedule :=
  along_congr (I := Sound) (fun _ a hs => hs.step a) (fun _ a hs => hs.lawful_iff a) (sound_init cfg time)

/-- A COORDINATOR ends the first election of node 1, which starts another, and the timer of the
first decides the second. -/
example :
    let cfg : BullyConfig ℕ ℕ := ⟨fun i => [1,2].filter (· ≠ i),2⟩
    let c := run step (init cfg 0) [.start 1,.start 2,.deliver 1,.triggerElection 1]
    (c.nodes 1).timers[0]? = some ⟨1,1,0⟩ ∧ (c.nodes 1).elections = 2 ∧
      ((c.step (.electionTimeout 1 0)).nodes 1).isLeaderFlag = true := by decide

/-- Node 1 handles the OK of node 2, whose COORDINATOR is delayed, and declares victory. -/
theorem victory_despite_ok : ¬∀ (cfg : BullyConfig ℕ ℕ) (schedule : List (BullyAction ℕ ℕ)),
    Along step Lawful (init cfg 0) schedule := by
  intro h
  have hrun := h ⟨fun i => [1,2].filter (· ≠ i),2⟩ [.start 1,.start 2,.deliver 0,.deliver 2,.electionTimeout 1 0]
  have hlast := hrun.2.2.2.2.1 ⟨1,1,0⟩ (by decide) (by decide) (by decide)
  exact absurd hlast (by decide)

end BullyCluster

end DistributedSystems.Election
