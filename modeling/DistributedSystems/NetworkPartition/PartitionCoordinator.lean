import DistributedSystems.Protocol.Dict
import DistributedSystems.Protocol.Runs
import Mathlib.Algebra.Order.Ring.Rat
import Mathlib.Data.List.Dedup

/-! # The partition coordinator

A connectivity matrix between the nodes of a cluster, kept up to date as partitions come and
go and nodes crash and recover. Each call holds the lock from its start to its end.
-/

namespace DistributedSystems.NetworkPartition
open Runs

structure ValueError where
  message : String

inductive PartitionState
  | active
  | healed
deriving DecidableEq

structure Partition where
  id : String
  groups : List (List String)
  createdAt : ℚ
  duration : Option ℚ
  autoHeal : Bool
  state : PartitionState

namespace Partition

def isActive (p : Partition) : Bool := p.state = .active

def heal (p : Partition) : Partition := { p with state := .healed }

/-- A duration of 0 counts as none. -/
def shouldHeal (p : Partition) (now : ℚ) : Bool :=
  if p.state ≠ .active then false
  else
    match p.duration with
    | none => false
    | some duration =>
      if !p.autoHeal || decide (duration = 0) then false
      else decide (now - p.createdAt ≥ duration)

end Partition

abbrev Connectivity := Dict (String × String) Bool

/-- The same value written for several pairs of nodes. -/
def write (connectivity : Connectivity) (value : Bool) (pairs : List (String × String)) : Connectivity :=
  pairs.foldl (fun c pair => c.insert pair value) connectivity

/-- The pairs of two different nodes. -/
def allPairs (nodes : List String) : List (String × String) :=
  nodes.flatMap fun nodeA => (nodes.filter fun nodeB => nodeA ≠ nodeB).map fun nodeB => (nodeA,nodeB)

/-- The pairs of a node with every other one, in both directions. -/
def pairsOf (nodes : List String) (node : String) : List (String × String) :=
  (nodes.filter fun other => other ≠ node).flatMap fun other => [(node,other),(other,node)]

/-- The pairs of nodes of two different groups, in both directions. -/
def crossPairs (groups : List (List String)) : List (String × String) :=
  groups.zipIdx.flatMap fun (groupA,i) => groups.zipIdx.flatMap fun (groupB,j) =>
    if i ≠ j then groupA.flatMap fun nodeA => groupB.flatMap fun nodeB => [(nodeA,nodeB),(nodeB,nodeA)] else []

def applyPartition (connectivity : Connectivity) (groups : List (List String)) : Connectivity :=
  write connectivity false (crossPairs groups)

/-- The loop that applies the active partitions again. -/
def applyActive (connectivity : Connectivity) (partitions : Dict String Partition) : Connectivity :=
  partitions.entries.foldl (fun c e => if e.2.isActive then applyPartition c e.2.groups else c) connectivity

/-- The checks of `create_partition` on the nodes of all groups, in order. -/
def validateGroups (nodes : List String) : List String → List String → Except ValueError Unit
  | _, [] => .ok ()
  | allNodes, node :: rest =>
    if node ∉ nodes then .error ⟨s!"Unknown node: {node}"⟩
    else if node ∈ allNodes then .error ⟨s!"Node {node} in multiple groups"⟩
    else validateGroups nodes (node :: allNodes) rest

structure PartitionCoordinator where
  nodes : List String
  partitions : Dict String Partition
  crashedNodes : List String
  partitionCounter : ℕ
  connectivity : Connectivity

namespace PartitionCoordinator

def initializeConnectivity (connectivity : Connectivity) (nodes : List String) : Connectivity :=
  write connectivity true (allPairs nodes)

def init (nodes : List String) : PartitionCoordinator where
  nodes := nodes.dedup
  partitions := Dict.empty
  crashedNodes := []
  partitionCounter := 0
  connectivity := initializeConnectivity Dict.empty nodes.dedup

def createPartition (s : PartitionCoordinator) (groups : List (List String)) (duration : Option ℚ) (autoHeal : Bool)
    (now : ℚ) : Except ValueError (String × PartitionCoordinator) := do
  validateGroups s.nodes [] groups.flatten
  let partitionCounter := s.partitionCounter + 1
  let partitionId := s!"partition_{partitionCounter}"
  let partition : Partition := ⟨partitionId,groups,now,duration,autoHeal,.active⟩
  return (partitionId,
    { s with
      partitionCounter := partitionCounter
      partitions := s.partitions.insert partitionId partition
      connectivity := applyPartition s.connectivity groups })

/-- What `heal_partition` does once the partitions are marked as healed. -/
def rebuild (s : PartitionCoordinator) : PartitionCoordinator :=
  let connectivity := initializeConnectivity s.connectivity s.nodes
  let connectivity := applyActive connectivity s.partitions
  { s with connectivity := s.crashedNodes.foldl (fun c node => write c false (pairsOf s.nodes node)) connectivity }

/-- No identifier, or an empty one, heals all partitions. -/
def healPartition (s : PartitionCoordinator) (partitionId : Option String) : Except ValueError PartitionCoordinator :=
  match partitionId.filter (· ≠ "") with
  | some partitionId =>
    match s.partitions.get? partitionId with
    | none => .error ⟨s!"Unknown partition: {partitionId}"⟩
    | some partition => .ok (rebuild { s with partitions := s.partitions.insert partitionId partition.heal })
  | none => .ok (rebuild { s with partitions := s.partitions.mapValues Partition.heal })

def crashNode (s : PartitionCoordinator) (nodeId : String) : Except ValueError PartitionCoordinator :=
  if nodeId ∉ s.nodes then .error ⟨s!"Unknown node: {nodeId}"⟩
  else .ok
    { s with
      crashedNodes := s.crashedNodes.insert nodeId
      connectivity := write s.connectivity false (pairsOf s.nodes nodeId) }

def recoverNode (s : PartitionCoordinator) (nodeId : String) : PartitionCoordinator :=
  if nodeId ∉ s.crashedNodes then s
  else
    { s with
      crashedNodes := s.crashedNodes.filter (· ≠ nodeId)
      connectivity := applyActive (write s.connectivity true (pairsOf s.nodes nodeId)) s.partitions }

def canCommunicate (s : PartitionCoordinator) (fromNode toNode : String) : Bool :=
  if fromNode ∈ s.crashedNodes ∨ toNode ∈ s.crashedNodes then false
  else (s.connectivity.get? (fromNode,toNode)).getD false

/-- One pass of the loop of the background thread; `now` is the time at each partition. -/
def autoHeal (s : PartitionCoordinator) (now : String → ℚ) : PartitionCoordinator :=
  s.partitions.keys.foldl
    (fun s partitionId =>
      match s.partitions.get? partitionId with
      | some partition =>
        if partition.shouldHeal (now partitionId) then
          match s.healPartition (some partition.id) with
          | .ok s' => s'
          | .error _ => s
        else s
      | none => s) s

end PartitionCoordinator

inductive Action
  | createPartition (groups : List (List String)) (duration : Option ℚ) (autoHeal : Bool) (now : ℚ)
  | healPartition (partitionId : Option String)
  | crashNode (nodeId : String)
  | recoverNode (nodeId : String)
  | autoHeal (now : String → ℚ)

/-- A call that raises leaves the coordinator as it was. -/
def step (s : PartitionCoordinator) : Action → PartitionCoordinator
  | .createPartition groups duration autoHeal now =>
    match s.createPartition groups duration autoHeal now with
    | .ok (_,s') => s'
    | .error _ => s
  | .healPartition partitionId =>
    match s.healPartition partitionId with
    | .ok s' => s'
    | .error _ => s
  | .crashNode nodeId =>
    match s.crashNode nodeId with
    | .ok s' => s'
    | .error _ => s
  | .recoverNode nodeId => s.recoverNode nodeId
  | .autoHeal now => s.autoHeal now

/-- The partition puts the two nodes in different groups. -/
def Separates (groups : List (List String)) (a b : String) : Prop :=
  ∃ (i j : ℕ) (groupA groupB : List String), i ≠ j ∧ groups[i]? = some groupA ∧ groups[j]? = some groupB ∧ a ∈ groupA ∧ b ∈ groupB

/-- No active partition separates the two nodes. -/
def Joined (partitions : Dict String Partition) (a b : String) : Prop :=
  ∀ e ∈ partitions.entries, e.2.isActive = true → ¬Separates e.2.groups a b

section Matrix

/-- The entry of a pair, no connection if there is none. -/
def Connectivity.connected (c : Connectivity) (a b : String) : Bool := (c.get? (a,b)).getD false

theorem get?_write (c : Connectivity) (value : Bool) (pairs : List (String × String)) (pair : String × String) :
    (write c value pairs).get? pair = if pair ∈ pairs then some value else c.get? pair := by
  unfold write
  induction pairs generalizing c with
  | nil => rfl
  | cons p rest ih =>
    rw [List.foldl_cons,ih,Dict.get?_insert]
    by_cases hp : pair = p
    · simp [hp]
    · simp [hp]

theorem connected_write_true {c : Connectivity} {pairs : List (String × String)} {a b : String} :
    (write c true pairs).connected a b = true ↔ (a,b) ∈ pairs ∨ c.connected a b = true := by
  unfold Connectivity.connected
  rw [get?_write]
  by_cases h : (a,b) ∈ pairs
  · simp [h]
  · simp [h]

theorem connected_write_false {c : Connectivity} {pairs : List (String × String)} {a b : String} :
    (write c false pairs).connected a b = true ↔ (a,b) ∉ pairs ∧ c.connected a b = true := by
  unfold Connectivity.connected
  rw [get?_write]
  by_cases h : (a,b) ∈ pairs
  · simp [h]
  · simp [h]

theorem mem_allPairs {nodes : List String} {a b : String} : (a,b) ∈ allPairs nodes ↔ a ∈ nodes ∧ b ∈ nodes ∧ a ≠ b := by
  simp [allPairs]

theorem mem_pairsOf {nodes : List String} {node a b : String} (ha : a ∈ nodes) (hb : b ∈ nodes) (hab : a ≠ b) :
    (a,b) ∈ pairsOf nodes node ↔ a = node ∨ b = node := by
  simp only [pairsOf,List.mem_flatMap,List.mem_filter,List.mem_cons,List.not_mem_nil,or_false,Prod.mk.injEq,
    decide_eq_true_eq]
  constructor
  · rintro ⟨other,-,⟨rfl,-⟩ | ⟨-,rfl⟩⟩
    · exact Or.inl rfl
    · exact Or.inr rfl
  · rintro (rfl | rfl)
    · exact ⟨b,⟨hb,hab.symm⟩,Or.inl ⟨rfl,rfl⟩⟩
    · exact ⟨a,⟨ha,hab⟩,Or.inr ⟨rfl,rfl⟩⟩

theorem mem_crossPairs {groups : List (List String)} {a b : String} :
    (a,b) ∈ crossPairs groups ↔ Separates groups a b := by
  simp only [crossPairs,List.mem_flatMap,Prod.exists,List.mem_zipIdx_iff_getElem?]
  constructor
  · rintro ⟨groupA,i,hA,groupB,j,hB,hmem⟩
    split at hmem
    · rename_i hij
      simp only [List.mem_flatMap,List.mem_cons,List.not_mem_nil,or_false,Prod.mk.injEq] at hmem
      obtain ⟨nodeA,hnodeA,nodeB,hnodeB,⟨rfl,rfl⟩ | ⟨rfl,rfl⟩⟩ := hmem
      · exact ⟨i,j,groupA,groupB,hij,hA,hB,hnodeA,hnodeB⟩
      · exact ⟨j,i,groupB,groupA,hij.symm,hB,hA,hnodeB,hnodeA⟩
    · cases hmem
  · rintro ⟨i,j,groupA,groupB,hij,hA,hB,ha,hb⟩
    refine ⟨groupA,i,hA,groupB,j,hB,?_⟩
    rw [if_pos hij]
    simp only [List.mem_flatMap,List.mem_cons,List.not_mem_nil,or_false,Prod.mk.injEq]
    exact ⟨a,ha,b,hb,Or.inl ⟨rfl,rfl⟩⟩

theorem connected_applyPartition {c : Connectivity} {groups : List (List String)} {a b : String} :
    (applyPartition c groups).connected a b = true ↔ ¬Separates groups a b ∧ c.connected a b = true := by
  rw [applyPartition,connected_write_false,mem_crossPairs]

theorem connected_applyActive {c : Connectivity} {partitions : Dict String Partition} {a b : String} :
    (applyActive c partitions).connected a b = true ↔ Joined partitions a b ∧ c.connected a b = true := by
  unfold applyActive Joined
  induction partitions.entries generalizing c with
  | nil => simp
  | cons e rest ih =>
    rw [List.foldl_cons,ih,List.forall_mem_cons]
    by_cases he : e.2.isActive = true
    · rw [if_pos he,connected_applyPartition]
      tauto
    · rw [if_neg he]
      tauto

end Matrix

theorem joined_iff {partitions : Dict String Partition} {a b : String} : Joined partitions a b ↔
    ∀ id p, partitions.get? id = some p → p.isActive = true → ¬Separates p.groups a b := by
  constructor
  · intro h id p hp
    exact h (id,p) (Dict.mem_entries_iff.mpr hp)
  · intro h e he
    exact h e.1 e.2 (Dict.get?_of_mem he)

/-- A new identifier replaces no partition. -/
theorem joined_insert {partitions : Dict String Partition} {id : String} {p : Partition} (hp : p.isActive = true)
    (hid : id ∉ partitions.keys) {a b : String} :
    Joined (partitions.insert id p) a b ↔ ¬Separates p.groups a b ∧ Joined partitions a b := by
  rw [joined_iff,joined_iff]
  constructor
  · intro h
    refine ⟨h id p (by rw [Dict.get?_insert,if_pos rfl]) hp,fun id' p' hp' => h id' p' ?_⟩
    have hne : id' ≠ id := by
      rintro rfl
      exact hid (Dict.mem_keys_iff.mpr ⟨p',hp'⟩)
    rw [Dict.get?_insert,if_neg hne,hp']
  · rintro ⟨hnew,hold⟩ id' p' hp'
    rw [Dict.get?_insert] at hp'
    split at hp'
    · cases hp'
      exact fun _ => hnew
    · exact hold id' p' hp'

theorem partitionId_injective {m n : ℕ} (h : s!"partition_{m}" = s!"partition_{n}") : m = n := by
  have hdigits : Nat.toDigits 10 m = Nat.toDigits 10 n := by simpa using congrArg String.toList h
  rw [← Nat.ofDigitChars_ten_toDigits (n := m),hdigits,Nat.ofDigitChars_ten_toDigits]

/-- The matrix is right between nodes that are up; partitions are numbered. -/
structure Exact (nodes : List String) (s : PartitionCoordinator) : Prop where
  same : s.nodes = nodes
  ids : ∀ id ∈ s.partitions.keys, ∃ k ≤ s.partitionCounter, id = s!"partition_{k}"
  matrix : ∀ a ∈ nodes, ∀ b ∈ nodes, a ≠ b → a ∉ s.crashedNodes → b ∉ s.crashedNodes →
    (s.connectivity.connected a b = true ↔ Joined s.partitions a b)

namespace Exact
variable {nodes : List String} {s : PartitionCoordinator}

theorem init (nodes : List String) : Exact nodes.dedup (PartitionCoordinator.init nodes) where
  same := rfl
  ids := by simp [PartitionCoordinator.init]
  matrix a ha b hb hab _ _ := by
    have hjoined : Joined Dict.empty a b := by simp [Joined,Dict.empty]
    refine iff_of_true ?_ hjoined
    exact connected_write_true.mpr (Or.inl (mem_allPairs.mpr ⟨ha,hb,hab⟩))

/-- Rebuilding makes the matrix right, whatever it was. -/
theorem rebuild (hnodes : s.nodes = nodes)
    (hids : ∀ id ∈ s.partitions.keys, ∃ k ≤ s.partitionCounter, id = s!"partition_{k}") : Exact nodes s.rebuild where
  same := hnodes
  ids := hids
  matrix a ha b hb hab hca hcb := by
    have hcrashed : ∀ (crashed : List String) (c : Connectivity), a ∉ crashed → b ∉ crashed →
        ((crashed.foldl (fun c node => write c false (pairsOf s.nodes node)) c).connected a b = true ↔
          c.connected a b = true) := by
      intro crashed
      induction crashed with
      | nil => exact fun c _ _ => Iff.rfl
      | cons node rest ih =>
        intro c hca hcb
        rw [List.mem_cons,not_or] at hca hcb
        rw [List.foldl_cons,ih _ hca.2 hcb.2,connected_write_false,hnodes,mem_pairsOf ha hb hab]
        tauto
    refine (hcrashed s.crashedNodes _ hca hcb).trans ?_
    rw [connected_applyActive]
    refine and_iff_left (connected_write_true.mpr (Or.inl ?_))
    rw [hnodes]
    exact mem_allPairs.mpr ⟨ha,hb,hab⟩

theorem createPartition (h : Exact nodes s) {groups : List (List String)} {duration : Option ℚ} {autoHeal : Bool} {now : ℚ}
    {id : String} {s' : PartitionCoordinator} (hs : s.createPartition groups duration autoHeal now = .ok (id,s')) :
    Exact nodes s' := by
  unfold PartitionCoordinator.createPartition at hs
  cases hvalid : validateGroups s.nodes [] groups.flatten with
  | error e =>
    rw [hvalid] at hs
    cases hs
  | ok u =>
    rw [hvalid] at hs
    cases hs
    have hnew : s!"partition_{s.partitionCounter + 1}" ∉ s.partitions.keys := by
      intro hmem
      obtain ⟨k,hk,heq⟩ := h.ids _ hmem
      have := partitionId_injective heq
      omega
    refine ⟨h.same,?_,?_⟩
    · intro id hid
      rcases Dict.mem_keys_insert.mp hid with rfl | hid
      · exact ⟨s.partitionCounter + 1,le_rfl,rfl⟩
      · obtain ⟨k,hk,heq⟩ := h.ids id hid
        exact ⟨k,Nat.le_succ_of_le hk,heq⟩
    · intro a ha b hb hab hca hcb
      rw [connected_applyPartition,joined_insert rfl hnew,h.matrix a ha b hb hab hca hcb]

theorem healPartition (h : Exact nodes s) {partitionId : Option String} {s' : PartitionCoordinator}
    (hs : s.healPartition partitionId = .ok s') : Exact nodes s' := by
  unfold PartitionCoordinator.healPartition at hs
  split at hs
  · rename_i id _
    split at hs
    · cases hs
    · rename_i p hp
      cases hs
      refine rebuild h.same fun id' hid' => ?_
      rcases Dict.mem_keys_insert.mp hid' with rfl | hid'
      · exact h.ids _ (Dict.mem_keys_iff.mpr ⟨p,hp⟩)
      · exact h.ids id' hid'
  · cases hs
    refine rebuild h.same fun id hid => ?_
    rw [Dict.keys_mapValues] at hid
    exact h.ids id hid

theorem crashNode (h : Exact nodes s) {nodeId : String} {s' : PartitionCoordinator} (hs : s.crashNode nodeId = .ok s') :
    Exact nodes s' := by
  unfold PartitionCoordinator.crashNode at hs
  split at hs
  · cases hs
  · cases hs
    refine ⟨h.same,h.ids,fun a ha b hb hab hca hcb => ?_⟩
    dsimp only at hca hcb ⊢
    rw [List.mem_insert_iff,not_or] at hca hcb
    rw [connected_write_false,h.same,mem_pairsOf ha hb hab,h.matrix a ha b hb hab hca.2 hcb.2]
    exact and_iff_right fun hor => hor.elim hca.1 hcb.1

theorem recoverNode (h : Exact nodes s) (nodeId : String) : Exact nodes (s.recoverNode nodeId) := by
  unfold PartitionCoordinator.recoverNode
  split
  · exact h
  · refine ⟨h.same,h.ids,fun a ha b hb hab hca hcb => ?_⟩
    dsimp only at hca hcb ⊢
    rw [connected_applyActive,connected_write_true,h.same,mem_pairsOf ha hb hab]
    refine and_iff_left_of_imp fun hjoined => ?_
    by_cases hor : a = nodeId ∨ b = nodeId
    · exact Or.inl hor
    · rw [not_or] at hor
      refine Or.inr ((h.matrix a ha b hb hab ?_ ?_).mpr hjoined)
      · exact fun hmem => hca (List.mem_filter.mpr ⟨hmem,by simpa using hor.1⟩)
      · exact fun hmem => hcb (List.mem_filter.mpr ⟨hmem,by simpa using hor.2⟩)

theorem autoHeal (h : Exact nodes s) (now : String → ℚ) : Exact nodes (s.autoHeal now) := by
  refine run_invariant_of_step (I := Exact nodes) (fun s id hs => ?_) h s.partitions.keys
  split
  · rename_i p _
    split
    · split
      · rename_i s' hs'
        exact hs.healPartition hs'
      · exact hs
    · exact hs
  · exact hs

theorem step (h : Exact nodes s) (a : Action) : Exact nodes (step s a) := by
  cases a with
  | createPartition groups duration autoHeal now =>
    simp only [NetworkPartition.step]
    split
    · rename_i s' hs
      exact h.createPartition hs
    · exact h
  | healPartition id =>
    simp only [NetworkPartition.step]
    split
    · rename_i s' hs
      exact h.healPartition hs
    · exact h
  | crashNode nodeId =>
    simp only [NetworkPartition.step]
    split
    · rename_i s' hs
      exact h.crashNode hs
    · exact h
  | recoverNode nodeId => exact h.recoverNode nodeId
  | autoHeal now => exact h.autoHeal now

theorem canCommunicate_iff (h : Exact nodes s) {a b : String} (ha : a ∈ nodes) (hb : b ∈ nodes) (hab : a ≠ b) :
    s.canCommunicate a b = true ↔ a ∉ s.crashedNodes ∧ b ∉ s.crashedNodes ∧ Joined s.partitions a b := by
  unfold PartitionCoordinator.canCommunicate
  by_cases hc : a ∈ s.crashedNodes ∨ b ∈ s.crashedNodes
  · rw [if_pos hc]
    tauto
  · rw [if_neg hc]
    rw [not_or] at hc
    have hmatrix := h.matrix a ha b hb hab hc.1 hc.2
    unfold Connectivity.connected at hmatrix
    rw [hmatrix]
    tauto

end Exact

end DistributedSystems.NetworkPartition
