import DistributedSystems.Election.BullyVictory

/-! # Terms of the bully election

An election increments the term and a heartbeat only ever raises it. A COORDINATOR message
overwrites it, and its handler does not look at the term that the node has.
-/
namespace DistributedSystems.Election
open Runs

variable {ν T : Type} [LinearOrder ν]

namespace BullyElection
variable (n : BullyElection ν T)

theorem term_le_startElection : n.term ≤ n.startElection.node.term := by
  unfold startElection
  split
  · exact le_refl _
  · dsimp only
    split
    · exact Nat.le_succ _
    · exact Nat.le_succ _

theorem term_le_start : n.term ≤ n.start.node.term := by
  unfold start
  split
  · exact le_refl _
  · exact term_le_startElection { n with running := true }

omit [LinearOrder ν] in
@[simp] theorem stepDown_term : n.stepDown.term = n.term := by
  unfold stepDown
  split <;> rfl

omit [LinearOrder ν] in
@[simp] theorem stop_term : n.stop.term = n.term := by
  unfold stop
  dsimp only
  split
  · exact stepDown_term _
  · rfl

theorem term_le_monitorLeader [Sub T] [LinearOrder T] (now : T) : n.term ≤ (n.monitorLeader now).node.term := by
  unfold monitorLeader
  split
  · exact n.term_le_startElection
  · exact le_refl _

@[simp] theorem fire_term (k : ℕ) : (n.fire k).node.term = n.term := by
  unfold fire electionTimeoutCheck
  split <;> rfl

omit [LinearOrder ν] in
@[simp] theorem endHeartbeat_term : n.endHeartbeat.term = n.term := by
  unfold endHeartbeat
  split <;> rfl

theorem term_le_handleElectionMsg (msg : BullyMessage ν) : n.term ≤ (n.handleElectionMsg msg).node.term := by
  unfold handleElectionMsg
  split
  · dsimp only
    split
    · exact n.term_le_startElection
    · exact le_refl _
  · exact le_refl _

/-- An announcement of a lower node starts an election, any other one brings its own term. -/
theorem term_le_handleCoordinatorMsg_iff (now : T) (msg : BullyMessage ν) :
    n.term ≤ (n.handleCoordinatorMsg now msg).node.term ↔ (n.nodeId ≤ msg.senderId → n.term ≤ msg.term) := by
  unfold handleCoordinatorMsg
  split
  · rename_i hlower
    exact iff_of_true n.term_le_startElection fun h => absurd hlower (not_lt.mpr h)
  · rename_i hlower
    have hterm : ∀ (leads : Bool) (m : BullyElection ν T), (if leads then m.stepDown else m).term = m.term := by
      intro leads m
      split
      · exact m.stepDown_term
      · rfl
    dsimp only
    rw [hterm]
    exact ⟨fun h _ => h,fun h => h (not_lt.mp hlower)⟩

/-- A heartbeat is treated as an announcement only if its term is higher. -/
theorem term_le_handleHeartbeatMsg (now : T) (msg : BullyMessage ν) :
    n.term ≤ (n.handleHeartbeatMsg now msg).node.term := by
  unfold handleHeartbeatMsg
  split
  · dsimp only
    split
    · rename_i hlt
      exact hlt.le
    · exact le_refl _
  · split
    · rename_i hlt
      exact (n.term_le_handleCoordinatorMsg_iff now msg).mpr fun _ => hlt.le
    · exact le_refl _

theorem term_le_handleMessage_iff (now : T) (msg : BullyMessage ν) :
    n.term ≤ (n.handleMessage now msg).node.term ↔
      (msg.type = .coordinator → n.nodeId ≤ msg.senderId → n.term ≤ msg.term) := by
  unfold handleMessage
  cases ht : msg.type with
  | election => exact iff_of_true (n.term_le_handleElectionMsg msg) nofun
  | ok => exact iff_of_true (le_refl _) nofun
  | coordinator => simpa using n.term_le_handleCoordinatorMsg_iff now msg
  | heartbeat => exact iff_of_true (n.term_le_handleHeartbeatMsg now msg) nofun

end BullyElection

namespace BullyCluster
open BullyElection

/-- No node has a smaller term after the step. -/
def KeepsTerms [Sub T] [LinearOrder T] (c : BullyCluster ν T) (a : BullyAction ν T) : Prop :=
  ∀ i, (c.nodes i).term ≤ ((c.step a).nodes i).term

/-- A COORDINATOR message that is delivered comes from a lower node, or carries at least the term
that the receiver has. -/
def AnnouncesLaterTerm (c : BullyCluster ν T) : BullyAction ν T → Prop
  | .deliver k => ∀ p ∈ c.network[k]?, p.message.type = .coordinator → p.destination ≤ p.message.senderId →
      (c.nodes p.destination).term ≤ p.message.term
  | _ => True

/-- Only the node that moves can change its term. -/
theorem term_le_react_iff (c : BullyCluster ν T) (i : ν) (r : BullyReaction ν T) :
    (∀ j, (c.nodes j).term ≤ ((c.react i r).nodes j).term) ↔ (c.nodes i).term ≤ r.node.term := by
  constructor
  · intro h
    simpa [BullyCluster.react] using h i
  · intro h
    refine (Function.forall_update_iff c.nodes fun j n => (c.nodes j).term ≤ n.term).mpr ⟨h,fun j _ => le_refl _⟩

variable [Sub T] [LinearOrder T]

theorem Sound.keepsTerms_iff {c : BullyCluster ν T} (h : c.Sound) (a : BullyAction ν T) :
    c.KeepsTerms a ↔ c.AnnouncesLaterTerm a := by
  unfold KeepsTerms BullyCluster.step AnnouncesLaterTerm
  cases a with
  | start i => exact iff_of_true ((c.term_le_react_iff i _).mpr (term_le_start _)) trivial
  | stop i => exact iff_of_true ((c.term_le_react_iff i _).mpr (stop_term _).ge) trivial
  | triggerElection i => exact iff_of_true ((c.term_le_react_iff i _).mpr (term_le_startElection _)) trivial
  | monitorLeader i => exact iff_of_true ((c.term_le_react_iff i _).mpr (term_le_monitorLeader _ _)) trivial
  | electionTimeout i k =>
    refine iff_of_true ?_ trivial
    dsimp only
    split
    · exact (c.term_le_react_iff i _).mpr (fire_term _ k).ge
    · exact fun _ => le_refl _
  | sendHeartbeat i =>
    refine iff_of_true ?_ trivial
    dsimp only
    split
    · exact (c.term_le_react_iff i _).mpr (le_refl _)
    · exact fun _ => le_refl _
  | endHeartbeat i => exact iff_of_true ((c.term_le_react_iff i _).mpr (endHeartbeat_term _).ge) trivial
  | deliver k =>
    dsimp only
    cases hk : c.network[k]? with
    | none => exact iff_of_true (fun _ => le_refl _) nofun
    | some p =>
      refine (c.term_le_react_iff _ _).trans ((term_le_handleMessage_iff _ _ _).trans ?_)
      rw [(h.nodes p.destination).nodeId]
      simp
  | elapse time =>
    refine iff_of_true ?_ trivial
    dsimp only
    split
    · exact fun _ => le_refl _
    · exact fun _ => le_refl _

/-- In a run no term ever decreases if and only if every COORDINATOR message that a node accepts
carries at least the term of the node. -/
theorem terms_monotone_iff (cfg : BullyConfig ν T) (time : T) (schedule : List (BullyAction ν T)) :
    Along step KeepsTerms (init cfg time) schedule ↔ Along step AnnouncesLaterTerm (init cfg time) schedule :=
  along_congr (I := Sound) (fun _ a hs => hs.step a) (fun _ a hs => hs.keepsTerms_iff a) (sound_init cfg time)

/-- Node 2 announces itself in term 1. When the announcement reaches node 1, that has won an
election in term 1 and started another one in term 2. -/
theorem stale_announcement_lowers_term : ¬∀ (cfg : BullyConfig ℕ ℕ) (schedule : List (BullyAction ℕ ℕ)),
    Along step KeepsTerms (init cfg 0) schedule := by
  intro h
  have hrun := h ⟨fun i => [1,2].filter (· ≠ i),2⟩
    [.start 2,.start 1,.electionTimeout 1 0,.triggerElection 1,.deliver 0]
  have hlast := hrun.2.2.2.2.1 1
  exact absurd hlast (by decide)

end BullyCluster

end DistributedSystems.Election
