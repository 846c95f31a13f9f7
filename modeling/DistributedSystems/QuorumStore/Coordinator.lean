import Mathlib.Data.List.MinMax
import Mathlib.Data.List.Basic

/-! # The quorum coordinator

A coordinator talks to the replicas of a list by their positions, and a replica that is
named twice is written and read twice. What a replica does with a call is an input.
-/
namespace DistributedSystems.QuorumStore

inductive ConsistencyLevel
  | one
  | two
  | three
  | quorum
  | all
  | localOne
  deriving DecidableEq

/-- A configuration that passes `_validate`. -/
structure QuorumConfig where
  N : ℤ
  W : ℤ
  R : ℤ
  one_le : 1 ≤ N
  W_le : W ≤ N
  R_le : R ≤ N

/-- The checks of `_validate`, in order. -/
def QuorumConfig.create (N W R : ℤ) : Except String QuorumConfig :=
  if hN : N < 1 then .error "N must be at least 1"
  else if hW : N < W then .error s!"W ({W}) cannot exceed N ({N})"
  else if hR : N < R then .error s!"R ({R}) cannot exceed N ({N})"
  else .ok ⟨N,W,R,not_lt.mp hN,not_lt.mp hW,not_lt.mp hR⟩

def QuorumConfig.isStronglyConsistent (config : QuorumConfig) : Prop := config.N < config.W + config.R

instance (config : QuorumConfig) : Decidable config.isStronglyConsistent := inferInstanceAs (Decidable (_ < _))

/-- How the call of `_write_to_replica` at one position ends. A call that raises or times out
may still store the value, before the next operation. -/
inductive WriteOutcome
  | stored
  | refused
  | raised (stores : Bool)
  | timedOut (stores : Bool)
  deriving DecidableEq

/-- Whether the call stores the value. -/
def WriteOutcome.stores : WriteOutcome → Bool
  | .stored => true
  | .refused => false
  | .raised stores => stores
  | .timedOut stores => stores

/-- Whether the coordinator takes the replica for failed. -/
def WriteOutcome.fails : WriteOutcome → Bool
  | .stored => false
  | .refused => false
  | .raised _ => true
  | .timedOut _ => true

/-- A hint, without its expiry. -/
structure Hint (κ V : Type) where
  key : κ
  value : Option V
  tempNode : ℕ

structure Stats where
  reads : ℕ
  writes : ℕ
  quorumFailures : ℕ
  timeouts : ℕ

inductive ReadError
  | quorumNotMet (message : String)
  | emptySequence

structure QuorumNotMetError where
  message : String

/-- A replica stores a value, `none` for `None`, and a version under a key. -/
structure QuorumCoordinator (ρ κ V : Type) where
  replicas : List ρ
  config : QuorumConfig
  size : config.N = replicas.length
  storage : ρ → κ → Option (Option V × ℕ)
  hints : ℕ → List (Hint κ V)
  stats : Stats

namespace QuorumCoordinator
variable {ρ κ V : Type} [DecidableEq ρ] [DecidableEq κ]

/-- `__init__`. Missing quorums are majorities. -/
def init (replicas : List ρ) (writeQuorum readQuorum : Option ℤ) : Except String (QuorumCoordinator ρ κ V) :=
  let w := writeQuorum.getD (replicas.length / 2 + 1)
  let r := readQuorum.getD (replicas.length / 2 + 1)
  match h : QuorumConfig.create replicas.length w r with
  | .error e => .error e
  | .ok config => .ok ⟨replicas,config,by
      unfold QuorumConfig.create at h
      split at h
      · cases h
      split at h
      · cases h
      split at h
      · cases h
      · cases h
        rfl,fun _ _ => none,fun _ => [],⟨0,0,0,0⟩⟩

def getConsistencyCounts (c : QuorumCoordinator ρ κ V) (consistency : ConsistencyLevel) (isWrite : Bool) : ℤ :=
  match consistency with
  | .one => 1
  | .localOne => 1
  | .two => min 2 c.replicas.length
  | .three => min 3 c.replicas.length
  | .all => c.replicas.length
  | .quorum => if isWrite then c.config.W else c.config.R

/-- `_write_to_replica`, where it stores. -/
def store (storage : ρ → κ → Option (Option V × ℕ)) (replica : ρ) (key : κ) (value : Option V) (version : ℕ) :
    ρ → κ → Option (Option V × ℕ) :=
  Function.update storage replica (Function.update (storage replica) key (some (value,version)))

/-- `_map_replicas_to_ids`: the first position of each name. -/
def mapReplicasToIds (c : QuorumCoordinator ρ κ V) (names : List ρ) : List ℕ :=
  (names.filter (· ∈ c.replicas)).map (c.replicas.idxOf ·)

def writeHint (hints : ℕ → List (Hint κ V)) (key : κ) (value : Option V) (intendedReplica temporaryReplica : ℕ) :
    ℕ → List (Hint κ V) :=
  Function.update hints intendedReplica (hints intendedReplica ++ [⟨key,value,temporaryReplica⟩])

/-- `outcomes` tells how the call at each position ends. -/
def write (c : QuorumCoordinator ρ κ V) (key : κ) (value : Option V) (consistency : ConsistencyLevel) (version : ℕ)
    (outcomes : ℕ → WriteOutcome) : QuorumCoordinator ρ κ V × Except QuorumNotMetError Bool :=
  let required := c.getConsistencyCounts consistency true
  let c := { c with
    stats.writes := c.stats.writes + 1
    storage := c.replicas.zipIdx.foldl
      (fun storage (call : ρ × ℕ) =>
        if (outcomes call.2).stores then store storage call.1 key value version else storage)
      c.storage }
  let successCount := c.replicas.zipIdx.countP fun (call : ρ × ℕ) => outcomes call.2 = .stored
  let failedReplicas := (c.replicas.zipIdx.filter fun (call : ρ × ℕ) => (outcomes call.2).fails).map Prod.fst
  if required ≤ successCount then
    let hints := (c.mapReplicasToIds failedReplicas).foldl
      (fun hints failedNodeId => writeHint hints key value failedNodeId 0) c.hints
    ({ c with hints := hints },.ok true)
  else
    ({ c with stats.quorumFailures := c.stats.quorumFailures + 1 },
      .error ⟨s!"Write quorum {required} not met. Got {successCount}."⟩)

/-- The answers that count: a value that is not `None`, with its version and replica.
`answers` tells at which positions `_read_from_replica` gives the stored pair; a failed call
gives nothing or `None`. -/
def responses (c : QuorumCoordinator ρ κ V) (key : κ) (answers : ℕ → Bool) : List (V × ℕ × ρ) :=
  c.replicas.zipIdx.filterMap fun (call : ρ × ℕ) =>
    if answers call.2 then (c.storage call.1 key).bind fun entry => entry.1.map fun value => (value,entry.2,call.1)
    else none

/-- Read repair only logs. -/
def read (c : QuorumCoordinator ρ κ V) (key : κ) (consistency : ConsistencyLevel) (answers : ℕ → Bool) :
    QuorumCoordinator ρ κ V × Except ReadError V :=
  let c := { c with stats.reads := c.stats.reads + 1 }
  let required := c.getConsistencyCounts consistency false
  let responses := c.responses key answers
  let got := responses.length
  if got < required then
    ({ c with stats.quorumFailures := c.stats.quorumFailures + 1 },
      .error (.quorumNotMet s!"Read quorum {required} not met. Got {got}."))
  else
    match responses.argmax fun response => response.2.1 with
    | some latest => (c,.ok latest.1)
    | none => (c,.error .emptySequence)

theorem foldl_store (calls : List (ρ × ℕ)) (storage : ρ → κ → Option (Option V × ℕ)) (key : κ) (value : Option V)
    (version : ℕ) (outcomes : ℕ → WriteOutcome) (r : ρ) (k : κ) :
    calls.foldl (fun storage (call : ρ × ℕ) =>
        if (outcomes call.2).stores then store storage call.1 key value version else storage) storage r k =
      if k = key ∧ ∃ call ∈ calls, call.1 = r ∧ (outcomes call.2).stores = true then some (value,version)
      else storage r k := by
  induction calls generalizing storage with
  | nil => simp
  | cons call rest ih =>
    rw [List.foldl_cons,ih]
    by_cases hrest : k = key ∧ ∃ call ∈ rest, call.1 = r ∧ (outcomes call.2).stores = true
    · obtain ⟨hk,call',hmem,hcall⟩ := hrest
      rw [if_pos ⟨hk,call',hmem,hcall⟩,if_pos ⟨hk,call',List.mem_cons_of_mem _ hmem,hcall⟩]
    rw [if_neg hrest]
    by_cases hhead : k = key ∧ call.1 = r ∧ (outcomes call.2).stores = true
    · obtain ⟨rfl,rfl,hs⟩ := hhead
      rw [if_pos hs,if_pos ⟨rfl,call,List.mem_cons_self,rfl,hs⟩]
      simp [store]
    · rw [if_neg (c := k = key ∧ ∃ call' ∈ call :: rest, call'.1 = r ∧ (outcomes call'.2).stores = true) (by
        rintro ⟨hk,call',hmem,hcall⟩
        rcases List.mem_cons.mp hmem with rfl | hmem
        · exact hhead ⟨hk,hcall⟩
        · exact hrest ⟨hk,call',hmem,hcall⟩)]
      split
      · rename_i hs
        unfold store
        by_cases hr : call.1 = r
        · subst r
          rw [Function.update_self,Function.update_of_ne fun hk => hhead ⟨hk,rfl,hs⟩]
        · rw [Function.update_of_ne fun h => hr h.symm]
      · rfl

section Write
variable (c : QuorumCoordinator ρ κ V) (key : κ) (value : Option V) (consistency : ConsistencyLevel) (version : ℕ)
  (outcomes : ℕ → WriteOutcome)

@[simp] theorem write_replicas : (c.write key value consistency version outcomes).1.replicas = c.replicas := by
  unfold write
  dsimp only
  split <;> rfl

@[simp] theorem write_config : (c.write key value consistency version outcomes).1.config = c.config := by
  unfold write
  dsimp only
  split <;> rfl

/-- A write reaches the replicas that store it, whether it returns or raises. -/
theorem write_storage (r : ρ) (k : κ) : (c.write key value consistency version outcomes).1.storage r k =
    if k = key ∧ ∃ call ∈ c.replicas.zipIdx, call.1 = r ∧ (outcomes call.2).stores = true then some (value,version)
    else c.storage r k := by
  rw [← foldl_store]
  unfold write
  dsimp only
  split <;> rfl

theorem write_eq_ok : (c.write key value consistency version outcomes).2 = .ok true ↔
    c.getConsistencyCounts consistency true ≤ c.replicas.zipIdx.countP fun call => outcomes call.2 = .stored := by
  unfold write
  dsimp only
  split
  · rename_i h
    exact iff_of_true rfl h
  · rename_i h
    exact iff_of_false nofun h

end Write

/-- The read calls that come back with a value. -/
def holders (c : QuorumCoordinator ρ κ V) (key : κ) (answers : ℕ → Bool) : ℕ :=
  c.replicas.zipIdx.countP fun call => answers call.2 && ((c.storage call.1 key).bind Prod.fst).isSome

omit [DecidableEq ρ] [DecidableEq κ] in
theorem length_responses (c : QuorumCoordinator ρ κ V) (key : κ) (answers : ℕ → Bool) :
    (c.responses key answers).length = c.holders key answers := by
  unfold responses holders
  rw [List.length_filterMap_eq_countP]
  apply List.countP_congr
  intro call _
  cases answers call.2 with
  | false => simp
  | true => cases c.storage call.1 key <;> simp

omit [DecidableEq ρ] [DecidableEq κ] in
theorem mem_responses {c : QuorumCoordinator ρ κ V} {key : κ} {answers : ℕ → Bool} {response : V × ℕ × ρ} :
    response ∈ c.responses key answers ↔ ∃ call ∈ c.replicas.zipIdx, answers call.2 = true ∧
      c.storage call.1 key = some (some response.1,response.2.1) ∧ call.1 = response.2.2 := by
  obtain ⟨value,version,replica⟩ := response
  unfold responses
  rw [List.mem_filterMap]
  refine exists_congr fun call => and_congr_right fun _ => ?_
  by_cases ha : answers call.2 = true
  · rw [if_pos ha]
    cases c.storage call.1 key with
    | none => simp [ha]
    | some entry => cases entry.1 <;> simp [ha,Prod.ext_iff,and_assoc]
  · rw [if_neg ha]
    simp [ha]

omit [DecidableEq ρ] [DecidableEq κ] in
/-- A read fails, or returns the newest of the values that came back. -/
theorem read_eq (c : QuorumCoordinator ρ κ V) (key : κ) (consistency : ConsistencyLevel) (answers : ℕ → Bool) :
    (c.holders key answers < c.getConsistencyCounts consistency false ∧
      ∃ e, (c.read key consistency answers).2 = .error e) ∨
    (c.getConsistencyCounts consistency false ≤ c.holders key answers ∧
      ((c.responses key answers = [] ∧ (c.read key consistency answers).2 = .error .emptySequence) ∨
      ∃ latest ∈ c.responses key answers, (∀ response ∈ c.responses key answers, response.2.1 ≤ latest.2.1) ∧
        (c.read key consistency answers).2 = .ok latest.1)) := by
  rw [← length_responses]
  unfold read
  dsimp only
  split
  · rename_i hlt
    exact Or.inl ⟨hlt,_,rfl⟩
  rename_i hge
  refine Or.inr ⟨not_lt.mp hge,?_⟩
  split
  · rename_i latest hlatest
    refine Or.inr ⟨latest,List.argmax_mem hlatest,fun response hr => ?_,rfl⟩
    exact List.le_of_mem_argmax (f := fun response : V × ℕ × ρ => response.2.1) hr hlatest
  · rename_i hnone
    exact Or.inl ⟨List.argmax_eq_none.mp hnone,rfl⟩

end QuorumCoordinator

end DistributedSystems.QuorumStore
