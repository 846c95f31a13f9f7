import DistributedSystems.Protocol.CircularScan
import DistributedSystems.Protocol.Dict
import DistributedSystems.Protocol.Runs
import Mathlib.Algebra.Ring.Int.Defs
import Mathlib.Data.Finset.Card
import Mathlib.Data.Prod.Lex
import Mathlib.Data.String.Basic

/-! # The consistent hash ring

Each node has virtual nodes on a sorted ring, and a key prefers the nodes in the order in
which a scan from its hash meets them. A change of one node moves no other one.
-/
namespace DistributedSystems.Hashing
open CircularScan Runs

/-- Entries are ordered by hash, equal hashes by node. -/
abbrev Entry := ℤ ×ₗ String

def Entry.node (e : Entry) : String := (ofLex e).2

structure ConsistentHashRing where
  virtualNodesPerNode : ℤ
  hashFunction : String → ℤ
  weights : Dict String ℤ
  ring : List Entry
  nodes : Finset String

namespace ConsistentHashRing

def getVirtualNodeCount (s : ConsistentHashRing) (node : String) : ℕ :=
  (s.virtualNodesPerNode * (s.weights.get? node).getD 1).toNat

/-- The loop of `add_node` over the virtual nodes. -/
def addVirtualNodes (hashFunction : String → ℤ) (node : String) (ring : List Entry) (virtualCount : ℕ) : List Entry :=
  (List.range virtualCount).foldl (fun ring i => insort ring (toLex (hashFunction s!"{node}:{i}",node))) ring

def addNode (s : ConsistentHashRing) (node : String) : ConsistentHashRing :=
  if node ∈ s.nodes then s
  else
    { s with
      nodes := insert node s.nodes
      ring := addVirtualNodes s.hashFunction node s.ring (s.getVirtualNodeCount node) }

def removeNode (s : ConsistentHashRing) (node : String) : ConsistentHashRing :=
  if node ∉ s.nodes then s
  else { s with nodes := s.nodes.erase node, ring := s.ring.filter fun e => e.node ≠ node }

def init (nodes : List String) (virtualNodes : ℤ) (hashFunction : String → ℤ) (weights : Dict String ℤ) :
    ConsistentHashRing :=
  nodes.foldl addNode ⟨virtualNodes,hashFunction,weights,[],∅⟩

/-- Where the search for the hash of a key ends. -/
def start (s : ConsistentHashRing) (key : String) : ℕ := bisectRight s.ring (toLex (s.hashFunction key,""))

def getNode (s : ConsistentHashRing) (key : String) : Option String :=
  if s.ring = [] then none
  else
    let idx := s.start key
    let idx := if idx = s.ring.length then 0 else idx
    s.ring[idx]?.map Entry.node

/-- The loop of `get_nodes` over the nodes that it meets; `seen` has the nodes of `result`. -/
def collect (count : ℤ) : List String → List String → List String
  | [], result => result
  | node :: rest, result =>
    if node ∈ result then collect count rest result
    else if (result ++ [node]).length = count then result ++ [node]
    else collect count rest (result ++ [node])

def getNodes (s : ConsistentHashRing) (key : String) (count : ℤ) : List String :=
  if s.ring = [] ∨ count ≤ 0 then []
  else
    let idx := s.start key
    let ringLen := s.ring.length
    collect count ((List.range ringLen).filterMap fun i => s.ring[(idx + i) % ringLen]?.map Entry.node) []

/-- All nodes in the order in which a key prefers them. -/
def preference (s : ConsistentHashRing) (key : String) : List String := s.getNodes key s.nodes.card

end ConsistentHashRing

inductive Action
  | addNode (node : String)
  | removeNode (node : String)

def step (s : ConsistentHashRing) : Action → ConsistentHashRing
  | .addNode node => s.addNode node
  | .removeNode node => s.removeNode node

namespace ConsistentHashRing

/-- The loop keeps the first places, up to the count. -/
theorem collect_eq {count : ℕ} (nodes result : List String) (h : result.length < count) :
    collect count nodes result = (result ++ (nodes.filter fun n => n ∉ result).eraseDups).take count := by
  induction nodes generalizing result with
  | nil =>
    rw [collect,List.filter_nil,List.eraseDups_nil,List.append_nil,List.take_of_length_le h.le]
  | cons node rest ih =>
    rw [collect]
    by_cases hmem : node ∈ result
    · rw [if_pos hmem,ih result h,List.filter_cons_of_neg (by simpa using hmem)]
    · have hfilter : (rest.filter fun n => n ∉ result).filter (fun b => !b == node) =
          rest.filter fun n => n ∉ result ++ [node] := by
        rw [List.filter_filter]
        refine List.filter_congr fun n _ => ?_
        by_cases hn : n = node
        · simp [hn]
        · simp [hn]
      rw [if_neg hmem,List.filter_cons_of_pos (by simpa using hmem),List.eraseDups_cons,hfilter,
        List.append_cons result node (List.eraseDups _)]
      by_cases hlen : (result ++ [node]).length = count
      · rw [if_pos (by exact_mod_cast hlen),List.take_append_of_le_length hlen.ge,List.take_of_length_le hlen.le]
      · rw [if_neg (by exact_mod_cast hlen)]
        refine ih _ (lt_of_le_of_ne ?_ hlen)
        rw [List.length_append,List.length_singleton]
        exact h

/-- The positions of the loop go round the ring once. -/
theorem positions_eq (ring : List Entry) (k : ℕ) :
    ((List.range ring.length).filterMap fun i => ring[(k + i) % ring.length]?.map Entry.node) =
      (ring.rotate k).map Entry.node := by
  have hmap : ((List.range ring.length).map fun i => ring[(k + i) % ring.length]?) = (ring.rotate k).map some := by
    refine List.ext_getElem (by simp) fun i hi hi' => ?_
    have hi : i < ring.length := by simpa using hi
    simp [List.getElem_rotate,Nat.add_comm i k,Nat.mod_lt (k + i) (Nat.zero_lt_of_lt hi)]
  have hfilterMap := congrArg (List.filterMap fun e => e.map Entry.node) hmap
  rw [List.filterMap_map,List.filterMap_map] at hfilterMap
  refine hfilterMap.trans ?_
  rw [← List.filterMap_eq_map]
  rfl

/-- The nodes that the ring has for a key, in the order of a scan from its hash. -/
theorem getNodes_eq (s : ConsistentHashRing) (key : String) (count : ℤ) :
    s.getNodes key count = (labelsFrom Entry.node s.ring (toLex (s.hashFunction key,""))).take count.toNat := by
  unfold getNodes
  by_cases hempty : s.ring = []
  · simp [hempty,labelsFrom,entriesFrom]
  by_cases hcount : count ≤ 0
  · rw [if_pos (Or.inr hcount),Int.toNat_of_nonpos hcount,List.take_zero]
  · obtain ⟨n,rfl⟩ : ∃ n : ℕ, count = n := ⟨count.toNat,(Int.toNat_of_nonneg (by omega)).symm⟩
    have hpos : 0 < n := by omega
    rw [if_neg (by simp [hempty,hpos.ne'])]
    dsimp only
    rw [positions_eq,collect_eq _ _ (by simpa using hpos)]
    simp [labelsFrom,entriesFrom,start]

/-- The ring is sorted and has entries of its nodes only. -/
structure WellFormed (s : ConsistentHashRing) : Prop where
  sorted : s.ring.Pairwise (· ≤ ·)
  owned : ∀ e ∈ s.ring, e.node ∈ s.nodes

theorem addVirtualNodes_induction {P : List Entry → Prop} {hashFunction : String → ℤ} {node : String} {ring : List Entry}
    (h : P ring) (hstep : ∀ ring (i : ℕ), P ring → P (insort ring (toLex (hashFunction s!"{node}:{i}",node)))) (virtualCount : ℕ) :
    P (addVirtualNodes hashFunction node ring virtualCount) := by
  unfold addVirtualNodes
  induction virtualCount with
  | zero => exact h
  | succ n ih =>
    rw [List.range_succ,List.foldl_append]
    exact hstep _ n ih

theorem mem_addVirtualNodes {hashFunction : String → ℤ} {node : String} {ring : List Entry} {virtualCount : ℕ} {e : Entry}
    (he : e ∈ addVirtualNodes hashFunction node ring virtualCount) : e.node = node ∨ e ∈ ring := by
  refine addVirtualNodes_induction (P := fun r => e ∈ r → e.node = node ∨ e ∈ ring) Or.inr (fun r i ih he => ?_) _ he
  rcases mem_insort.mp he with rfl | he
  · exact Or.inl rfl
  · exact ih he

theorem exists_mem_addVirtualNodes (hashFunction : String → ℤ) (node : String) (ring : List Entry) {virtualCount : ℕ}
    (h : 0 < virtualCount) : ∃ e ∈ addVirtualNodes hashFunction node ring virtualCount, e.node = node := by
  obtain ⟨n,rfl⟩ := Nat.exists_eq_succ_of_ne_zero h.ne'
  unfold addVirtualNodes
  rw [Nat.succ_eq_add_one,List.range_succ,List.foldl_append]
  exact ⟨_,mem_insort.mpr (Or.inl rfl),rfl⟩

/-- Without the new entries the ring is the one before. -/
theorem filter_addVirtualNodes (hashFunction : String → ℤ) (node : String) (ring : List Entry) (virtualCount : ℕ) :
    (addVirtualNodes hashFunction node ring virtualCount).filter (fun e => e.node ≠ node) =
      ring.filter fun e => e.node ≠ node := by
  refine addVirtualNodes_induction
    (P := fun r => r.filter (fun e : Entry => e.node ≠ node) = ring.filter fun e => e.node ≠ node) rfl (fun r i ih => ?_) _
  rw [filter_insort,ih]
  simp [Entry.node]

theorem WellFormed.addNode {s : ConsistentHashRing} (h : s.WellFormed) (node : String) : (s.addNode node).WellFormed := by
  unfold ConsistentHashRing.addNode
  split
  · exact h
  · constructor
    · exact addVirtualNodes_induction (P := fun r => r.Pairwise (· ≤ ·)) h.sorted (fun _ _ ih => sorted_insort ih _) _
    · intro e he
      rcases mem_addVirtualNodes he with heq | he
      · rw [heq]
        exact Finset.mem_insert_self _ _
      · exact Finset.mem_insert_of_mem (h.owned e he)

theorem WellFormed.removeNode {s : ConsistentHashRing} (h : s.WellFormed) (node : String) :
    (s.removeNode node).WellFormed := by
  unfold ConsistentHashRing.removeNode
  split
  · exact h
  · refine ⟨h.sorted.filter _,fun e he => ?_⟩
    simp only [List.mem_filter,decide_eq_true_eq] at he
    exact Finset.mem_erase.mpr ⟨he.2,h.owned e he.1⟩

theorem WellFormed.init (nodes : List String) (virtualNodes : ℤ) (hashFunction : String → ℤ) (weights : Dict String ℤ) :
    (init nodes virtualNodes hashFunction weights).WellFormed := by
  have hstep : ∀ (s : ConsistentHashRing) (node : String), s.WellFormed → (s.addNode node).WellFormed :=
    fun _ node h => h.addNode node
  exact run_invariant_of_step hstep ⟨List.Pairwise.nil,fun _ he => absurd he List.not_mem_nil⟩ nodes

theorem WellFormed.run {s : ConsistentHashRing} (h : s.WellFormed) (schedule : List Action) :
    (run step s schedule).WellFormed := by
  refine run_invariant_of_step (fun s a hs => ?_) h schedule
  cases a with
  | addNode node => exact hs.addNode node
  | removeNode node => exact hs.removeNode node

/-- A key prefers all nodes on the ring: there are no more of them than nodes. -/
theorem WellFormed.preference_eq {s : ConsistentHashRing} (h : s.WellFormed) (key : String) :
    s.preference key = labelsFrom Entry.node s.ring (toLex (s.hashFunction key,"")) := by
  rw [preference,getNodes_eq,Int.toNat_natCast]
  refine List.take_of_length_le ?_
  rw [← List.toFinset_card_of_nodup (nodup_labelsFrom _ _ _)]
  refine Finset.card_le_card fun node hnode => ?_
  obtain ⟨e,he,rfl⟩ := mem_labelsFrom.mp (List.mem_toFinset.mp hnode)
  exact h.owned e he

theorem WellFormed.preference_removeNode {s : ConsistentHashRing} (h : s.WellFormed) {x : String} (hx : x ∈ s.nodes)
    (key : String) : (s.removeNode x).preference key = (s.preference key).filter fun n => n ≠ x := by
  rw [(h.removeNode x).preference_eq,h.preference_eq,← labelsFrom_filter h.sorted]
  simp [ConsistentHashRing.removeNode,hx]

/-- A node that is not on the ring is inserted at one place, if it has virtual nodes. -/
theorem WellFormed.preference_addNode {s : ConsistentHashRing} (h : s.WellFormed) {x : String} (hx : x ∉ s.nodes)
    (key : String) : ∃ before after, s.preference key = before ++ after ∧ (s.addNode x).preference key =
      before ++ (if 0 < s.getVirtualNodeCount x then [x] else []) ++ after := by
  have hfilter : ((s.addNode x).preference key).filter (fun n => n ≠ x) = s.preference key := by
    have hold : s.ring.filter (fun e => e.node ≠ x) = s.ring := by
      refine List.filter_eq_self.mpr fun e he => decide_eq_true fun heq => hx ?_
      exact heq ▸ h.owned e he
    rw [(h.addNode x).preference_eq,h.preference_eq,← labelsFrom_filter (h.addNode x).sorted]
    simp only [ConsistentHashRing.addNode,if_neg hx,filter_addVirtualNodes,hold]
  have hmem : x ∈ (s.addNode x).preference key ↔ 0 < s.getVirtualNodeCount x := by
    rw [(h.addNode x).preference_eq,mem_labelsFrom]
    simp only [ConsistentHashRing.addNode,if_neg hx]
    constructor
    · rintro ⟨e,he,hnode⟩
      by_contra hzero
      rw [Nat.eq_zero_of_not_pos hzero] at he
      exact hx (hnode ▸ h.owned e he)
    · exact exists_mem_addVirtualNodes _ _ _
  have hnodup : ((s.addNode x).preference key).Nodup := by
    rw [(h.addNode x).preference_eq]
    exact nodup_labelsFrom _ _ _
  obtain ⟨before,after,hold,hnew⟩ := exists_split_of_nodup hnodup x
  rw [hfilter] at hold
  refine ⟨before,after,hold,?_⟩
  simp only [hmem] at hnew
  exact hnew

theorem WellFormed.getNode_eq {s : ConsistentHashRing} (h : s.WellFormed) (key : String) :
    s.getNode key = (s.preference key).head? := by
  rw [h.preference_eq,head?_labelsFrom]
  unfold getNode
  by_cases hempty : s.ring = []
  · simp [hempty]
  · rw [if_neg hempty]
    rfl

/-- A change of one node moves no other one, and all lookups of the key follow one order of
preference. -/
structure StablePreference (s : ConsistentHashRing) (key x : String) : Prop where
  remove : x ∈ s.nodes → (s.removeNode x).preference key = (s.preference key).filter fun n => n ≠ x
  add : x ∉ s.nodes → ∃ before after, s.preference key = before ++ after ∧ (s.addNode x).preference key =
    before ++ (if 0 < s.getVirtualNodeCount x then [x] else []) ++ after
  replicas : ∀ count : ℤ, s.getNodes key count = (s.preference key).take count.toNat
  distinct : (s.preference key).Nodup
  first : s.getNode key = (s.preference key).head?

/-- Every ring that nodes join and leave has stable preferences. -/
theorem stablePreference_of_run (initial : List String) (virtualNodes : ℤ) (hashFunction : String → ℤ)
    (weights : Dict String ℤ) (schedule : List Action) (key x : String) :
    StablePreference (run step (init initial virtualNodes hashFunction weights) schedule) key x := by
  have h := (WellFormed.init initial virtualNodes hashFunction weights).run schedule
  constructor
  · exact fun hx => h.preference_removeNode hx key
  · exact fun hx => h.preference_addNode hx key
  · intro count
    rw [h.preference_eq,getNodes_eq]
  · rw [h.preference_eq]
    exact nodup_labelsFrom _ _ _
  · exact h.getNode_eq key

end ConsistentHashRing
end DistributedSystems.Hashing
