import DistributedSystems.Election.LeaseCluster
import Mathlib.Algebra.GroupWithZero.Nat
import Mathlib.Data.List.Count

/-! # Fencing tokens over a cluster

Every node has an election manager of its own. The election algorithm under the managers
is arbitrary: it takes steps, calls the leader-change callbacks of its nodes, and says of
each node whether it is leader.
-/
namespace DistributedSystems.Election
open Runs

variable {T : Type} [Add T] [Zero T] [DecidableEq T]

structure FencingToken (T : Type) where
  nodeId : ℕ
  epoch : ℕ
  expiration : Option T
  deriving DecidableEq

/-- `__lt__` compares the epochs. -/
def FencingToken.lt (token other : FencingToken T) : Prop := token.epoch < other.epoch

instance (token other : FencingToken T) : Decidable (token.lt other) := inferInstanceAs (Decidable (_ < _))

structure FencingTokenManager (T : Type) where
  currentEpoch : ℕ
  currentToken : Option (FencingToken T)

def FencingTokenManager.init (T : Type) : FencingTokenManager T := ⟨0,none⟩

/-- A zero duration counts as none. -/
def FencingTokenManager.issueToken (m : FencingTokenManager T) (now : T) (nodeId : ℕ) (duration : Option T) :
    FencingTokenManager T :=
  let expiration := duration.bind fun d => if d = 0 then none else some (now + d)
  ⟨m.currentEpoch + 1,some ⟨nodeId,m.currentEpoch + 1,expiration⟩⟩

/-- The fields that the fencing token depends on. -/
structure ElectionManager (T : Type) where
  nodeId : ℕ
  fencingManager : FencingTokenManager T

namespace ElectionManager

def init (T : Type) (nodeId : ℕ) : ElectionManager T := ⟨nodeId,.init T⟩

def onInternalLeaderChange (m : ElectionManager T) (now : T) (newLeader : Option ℕ) : ElectionManager T :=
  if newLeader = some m.nodeId then { m with fencingManager := m.fencingManager.issueToken now m.nodeId none } else m

def getFencingToken (m : ElectionManager T) (isLeader : Bool) : Option (FencingToken T) :=
  if ¬isLeader then none else m.fencingManager.currentToken

end ElectionManager

/-- An election algorithm that runs on a cluster: its steps, with the calls of the
leader-change callbacks in order, its leaders, and the clock of each node. -/
structure Implementation (σ α T : Type) where
  step : σ → α → σ × List (ℕ × Option ℕ)
  isLeader : σ → ℕ → Bool
  clock : σ → ℕ → T

/-- A token that a node has got: the step in which the leadership of the node began, and how
often the node had been told so far that it leads. -/
structure Returned (T : Type) where
  node : ℕ
  since : ℕ
  notices : ℕ
  token : FencingToken T
  deriving DecidableEq

/-- A cluster of managers. `calls` are the callbacks so far, `moves` counts the steps of the
algorithm and `since` tells the step in which the last leadership of a node began. -/
structure ManagedCluster (σ T : Type) where
  impl : σ
  managers : ℕ → ElectionManager T
  calls : List (ℕ × Option ℕ)
  moves : ℕ
  since : ℕ → ℕ
  returned : List (Returned T)

inductive ManagerAction (α : Type)
  | election (a : α)
  | getFencingToken (i : ℕ)

namespace ManagedCluster
variable {σ α : Type}

def init (T : Type) (impl : σ) : ManagedCluster σ T where
  impl := impl
  managers i := .init T i
  calls := []
  moves := 0
  since _ := 0
  returned := []

/-- One callback, on the manager of the node. -/
def call (clock : ℕ → T) (managers : ℕ → ElectionManager T) (notice : ℕ × Option ℕ) : ℕ → ElectionManager T :=
  Function.update managers notice.1 ((managers notice.1).onInternalLeaderChange (clock notice.1) notice.2)

/-- How often a node has been told that it leads. -/
def notices (s : ManagedCluster σ T) (i : ℕ) : ℕ := s.calls.count (i,some i)

def step (I : Implementation σ α T) (s : ManagedCluster σ T) : ManagerAction α → ManagedCluster σ T
  | .election a =>
    let (impl,calls) := I.step s.impl a
    { s with
      impl := impl
      managers := calls.foldl (call (I.clock impl)) s.managers
      calls := s.calls ++ calls
      moves := s.moves + 1
      since := fun i => if I.isLeader impl i ∧ ¬I.isLeader s.impl i then s.moves + 1 else s.since i }
  | .getFencingToken i =>
    match (s.managers i).getFencingToken (I.isLeader s.impl i) with
    | none => s
    | some token => { s with returned := s.returned ++ [⟨i,s.since i,s.notices i,token⟩] }

/-- A token of a later leadership is larger than one that another node got for an earlier one. -/
def EpochsGrow (s : ManagedCluster σ T) : Prop :=
  ∀ r ∈ s.returned, ∀ r' ∈ s.returned, r.node ≠ r'.node → r.since < r'.since → r.token.lt r'.token

/-- The epoch of a manager counts the notices of its node. -/
def Counted (calls : List (ℕ × Option ℕ)) (managers : ℕ → ElectionManager T) : Prop :=
  ∀ i, (managers i).nodeId = i ∧ (managers i).fencingManager.currentEpoch = calls.count (i,some i) ∧
    ((managers i).fencingManager.currentToken.isSome ↔ 0 < calls.count (i,some i)) ∧
    ∀ token ∈ (managers i).fencingManager.currentToken, token.epoch = calls.count (i,some i)

theorem counted_call {calls : List (ℕ × Option ℕ)} {managers : ℕ → ElectionManager T} (h : Counted calls managers)
    (clock : ℕ → T) (notice : ℕ × Option ℕ) : Counted (calls ++ [notice]) (call clock managers notice) := by
  obtain ⟨j,leader⟩ := notice
  intro i
  obtain ⟨hid,hepoch,hsome,htoken⟩ := h i
  rw [List.count_append,List.count_singleton]
  unfold call
  by_cases hi : i = j
  · subst j
    rw [Function.update_self]
    unfold ElectionManager.onInternalLeaderChange
    rw [hid]
    split
    · rename_i hl
      obtain rfl : leader = some i := hl
      rw [beq_self_eq_true,if_pos rfl]
      refine ⟨rfl,congrArg (· + 1) hepoch,iff_of_true rfl (Nat.succ_pos _),fun token ht => ?_⟩
      cases ht
      exact congrArg (· + 1) hepoch
    · rename_i hl
      rw [if_neg (by simpa using hl),Nat.add_zero]
      exact ⟨hid,hepoch,hsome,htoken⟩
  · rw [Function.update_of_ne hi,if_neg (by simpa using fun h => absurd h.symm hi),Nat.add_zero]
    exact ⟨hid,hepoch,hsome,htoken⟩

theorem counted_foldl (clock : ℕ → T) (new : List (ℕ × Option ℕ)) {calls : List (ℕ × Option ℕ)}
    {managers : ℕ → ElectionManager T} (h : Counted calls managers) :
    Counted (calls ++ new) (new.foldl (call clock) managers) := by
  induction new generalizing calls managers with
  | nil =>
    rw [List.append_nil]
    exact h
  | cons notice rest ih =>
    rw [List.append_cons]
    exact ih (counted_call h clock notice)

/-- Managers count their notices, and tokens carry the count at the time they were returned. -/
structure Numbered (s : ManagedCluster σ T) : Prop where
  counted : Counted s.calls s.managers
  returned : ∀ r ∈ s.returned, r.token.epoch = r.notices

theorem numbered_init (T : Type) [Add T] [Zero T] [DecidableEq T] (impl : σ) : Numbered (init T impl) where
  counted _ := ⟨rfl,rfl,iff_of_false Bool.false_ne_true (lt_irrefl 0),fun _ h => absurd h (Option.not_mem_none _)⟩
  returned _ h := absurd h List.not_mem_nil

/-- Whoever gets a token has been told more often that it leads than every other node that
got a token for an earlier leadership, and less often than one that got it for a later one. -/
def NoticedInOrder (I : Implementation σ α T) (s : ManagedCluster σ T) : ManagerAction α → Prop
  | .election _ => True
  | .getFencingToken i => I.isLeader s.impl i = true → 0 < s.notices i → ∀ r ∈ s.returned, r.node ≠ i →
      (r.since < s.since i → r.notices < s.notices i) ∧ (s.since i < r.since → s.notices i < r.notices)

/-- A leader gets the token that counts its notices, if there were any; nobody else gets one. -/
theorem step_getFencingToken {I : Implementation σ α T} {s : ManagedCluster σ T} (h : Numbered s) (i : ℕ) :
    (s.step I (.getFencingToken i) = s ∧ ¬(I.isLeader s.impl i = true ∧ 0 < s.notices i)) ∨
    ((I.isLeader s.impl i = true ∧ 0 < s.notices i) ∧ ∃ token : FencingToken T, token.epoch = s.notices i ∧
      s.step I (.getFencingToken i) = { s with returned := s.returned ++ [⟨i,s.since i,s.notices i,token⟩] }) := by
  obtain ⟨-,-,hsome,htoken⟩ := h.counted i
  unfold step
  dsimp only
  cases hl : I.isLeader s.impl i with
  | false => exact Or.inl ⟨rfl,fun hn => by cases hn.1⟩
  | true =>
    have hget : (s.managers i).getFencingToken true = (s.managers i).fencingManager.currentToken := rfl
    rw [hget]
    cases ht : (s.managers i).fencingManager.currentToken with
    | none =>
      rw [ht] at hsome
      exact Or.inl ⟨rfl,fun hn => by cases hsome.mpr hn.2⟩
    | some token =>
      rw [ht] at hsome
      exact Or.inr ⟨⟨rfl,hsome.mp rfl⟩,token,htoken token ht,rfl⟩

theorem Numbered.step {I : Implementation σ α T} {s : ManagedCluster σ T} (a : ManagerAction α) (h : Numbered s) :
    Numbered (s.step I a) := by
  cases a with
  | election a => exact ⟨counted_foldl _ _ h.counted,h.returned⟩
  | getFencingToken i =>
    rcases step_getFencingToken (I := I) h i with ⟨hs,-⟩ | ⟨-,token,htoken,hs⟩
    · rw [hs]
      exact h
    · rw [hs]
      refine ⟨h.counted,fun r hr => ?_⟩
      rcases List.mem_append.mp hr with hr | hr
      · exact h.returned r hr
      · cases List.mem_singleton.mp hr
        exact htoken

omit [Add T] [Zero T] [DecidableEq T] in
/-- One more token keeps the order exactly when it fits between those of other nodes. -/
theorem epochsGrow_append {s : ManagedCluster σ T} {new : Returned T} :
    ({ s with returned := s.returned ++ [new] } : ManagedCluster σ T).EpochsGrow ↔
      s.EpochsGrow ∧ ∀ r ∈ s.returned, r.node ≠ new.node →
        (r.since < new.since → r.token.lt new.token) ∧ (new.since < r.since → new.token.lt r.token) := by
  have hnew : new ∈ s.returned ++ [new] := List.mem_append_right _ List.mem_cons_self
  constructor
  · intro h
    refine ⟨fun r hr r' hr' => h r (List.mem_append_left _ hr) r' (List.mem_append_left _ hr'),fun r hr hne => ?_⟩
    exact ⟨h r (List.mem_append_left _ hr) new hnew hne,h new hnew r (List.mem_append_left _ hr) hne.symm⟩
  · rintro ⟨hold,hfit⟩ r hr r' hr' hne
    rcases List.mem_append.mp hr with hr | hr
    · rcases List.mem_append.mp hr' with hr' | hr'
      · exact hold r hr r' hr' hne
      · cases List.mem_singleton.mp hr'
        exact (hfit r hr hne).1
    · cases List.mem_singleton.mp hr
      rcases List.mem_append.mp hr' with hr' | hr'
      · exact (hfit r' hr' hne.symm).2
      · cases List.mem_singleton.mp hr'
        exact absurd rfl hne

theorem epochsGrow_step {I : Implementation σ α T} {s : ManagedCluster σ T} (a : ManagerAction α) (h : Numbered s) :
    (s.step I a).EpochsGrow ↔ s.EpochsGrow ∧ s.NoticedInOrder I a := by
  cases a with
  | election a => exact ⟨fun h => ⟨h,trivial⟩,And.left⟩
  | getFencingToken i =>
    rcases step_getFencingToken (I := I) h i with ⟨hs,hnone⟩ | ⟨⟨hl,hn⟩,token,htoken,hs⟩
    · rw [hs]
      exact ⟨fun hg => ⟨hg,fun hl hn => absurd ⟨hl,hn⟩ hnone⟩,And.left⟩
    rw [hs,epochsGrow_append]
    apply and_congr_right
    intro _
    have hlt : ∀ r ∈ s.returned, (r.token.lt token ↔ r.notices < s.notices i) ∧
        (token.lt r.token ↔ s.notices i < r.notices) := by
      intro r hr
      unfold FencingToken.lt
      rw [h.returned r hr,htoken]
      exact ⟨Iff.rfl,Iff.rfl⟩
    constructor
    · intro hfit _ _ r hr hne
      rw [← (hlt r hr).1,← (hlt r hr).2]
      exact hfit r hr hne
    · intro horder r hr hne
      rw [(hlt r hr).1,(hlt r hr).2]
      exact horder hl hn r hr hne

/-- For every algorithm and every run, the epochs of different nodes grow with their
leaderships exactly when the nodes have been told of their leadership in that order. -/
theorem epochs_grow_iff (I : Implementation σ α T) (impl : σ) (schedule : List (ManagerAction α)) :
    (run (step I) (init T impl) schedule).EpochsGrow ↔ Along (step I) (NoticedInOrder I) (init T impl) schedule := by
  have hnone : (init T impl : ManagedCluster σ T).EpochsGrow := fun _ hr => absurd hr List.not_mem_nil
  have h : (run (step I) (init T impl) schedule).EpochsGrow ↔
      (init T impl).EpochsGrow ∧ Along (step I) (NoticedInOrder I) (init T impl) schedule :=
    run_iff_along (I := Numbered) (Q := EpochsGrow) (fun _ a hs => hs.step a) (fun _ a hs => epochsGrow_step a hs)
      (numbered_init T impl)
  exact h.trans (and_iff_right hnone)

end ManagedCluster

/-- The lease-based algorithm under the managers. -/
def LeaseCluster.implementation {U : Type} [Add U] [LinearOrder U] (cfg : LeaseConfig U) :
    Implementation (LeaseCluster U) (LeaseAction U) U where
  step c a := (c.step cfg a,
    match c.cause cfg a with
    | some (i,cause) => ((c.nodes i).respond (cfg.clock i c.time) cause).notified.map (i,·)
    | none => [])
  isLeader c i := (c.nodes i).isLeaderFlag
  clock c i := cfg.clock i c.time

/-- Node 0 leads, its lease expires, and node 2 leads. Both have a token of epoch 1. -/
theorem equal_epochs_after_failover :
    ¬ ∀ schedule : List (ManagerAction (LeaseAction ℕ)),
      (run (ManagedCluster.step (LeaseCluster.implementation LeaseConfig.threeNodes))
        (ManagedCluster.init ℕ (LeaseCluster.init LeaseConfig.threeNodes 0)) schedule).EpochsGrow := by
  intro h
  let first : List (LeaseAction ℕ) :=
    [.move 0 .start,.move 1 .start,.move 2 .start,.move 0 .attemptAcquireLease,.deliver 0,.deliver 2,.deliver 1]
  let second : List (LeaseAction ℕ) :=
    [.elapse 10,.move 0 .monitorCheck,.move 0 .monitorLease,.move 2 .attemptAcquireLease,.deliver 5,.deliver 6]
  have hrun := h (first.map .election ++ [.getFencingToken 0] ++ second.map .election ++ [.getFencingToken 2])
  have hlt := hrun ⟨0,6,1,⟨0,1,none⟩⟩ (by decide +kernel) ⟨2,13,1,⟨2,1,none⟩⟩ (by decide +kernel) (by decide)
    (by decide)
  exact absurd hlt (by decide)

end DistributedSystems.Election
