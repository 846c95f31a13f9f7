import Mathlib.Order.ConditionallyCompleteLattice.Basic
import DistributedSystems.Hashing.ConsistentHashRing
import Mathlib.Algebra.BigOperators.Group.Finset.Basic
import Mathlib.Data.Int.ConditionallyCompleteOrder
import Mathlib.Data.Multiset.Sort

/-! # The ring forgets its history

The ring is the sorted list of the entries of its nodes, equal hashes included, so it depends
on the nodes and not on how they came and went. The table of the hashes is kept beside it.
-/
namespace DistributedSystems.Hashing
open CircularScan Runs

def Entry.hash (e : Entry) : ℤ := (ofLex e).1

/-- The ring with the table `hash_to_node`. -/
structure MappedRing extends ConsistentHashRing where
  hashToNode : Dict ℤ String

namespace MappedRing

def addNode (s : MappedRing) (node : String) : MappedRing :=
  if node ∈ s.nodes then s
  else
    { s.toConsistentHashRing.addNode node with
      hashToNode := (List.range (s.getVirtualNodeCount node)).foldl
        (fun hashToNode i => hashToNode.insert (s.hashFunction s!"{node}:{i}") node) s.hashToNode }

def removeNode (s : MappedRing) (node : String) : MappedRing :=
  if node ∉ s.nodes then s
  else
    let removed := s.toConsistentHashRing.removeNode node
    { removed with hashToNode := Dict.ofEntries (removed.ring.map fun e => (e.hash,e.node)) }

def init (nodes : List String) (virtualNodes : ℤ) (hashFunction : String → ℤ) (weights : Dict String ℤ) :
    MappedRing :=
  nodes.foldl addNode ⟨⟨virtualNodes,hashFunction,weights,[],∅⟩,Dict.empty⟩

def step (s : MappedRing) : Action → MappedRing
  | .addNode node => s.addNode node
  | .removeNode node => s.removeNode node

end MappedRing

section Insort
variable {α : Type*} [LinearOrder α]

theorem coe_insort (l : List α) (x : α) : (insort l x : Multiset α) = x ::ₘ (l : Multiset α) := by
  rw [Multiset.cons_coe,Multiset.coe_eq_coe,insort]
  refine List.perm_middle.trans ?_
  rw [List.takeWhile_append_dropWhile]

theorem coe_foldl_insort (l xs : List α) :
    ((xs.foldl insort l : List α) : Multiset α) = (xs : Multiset α) + (l : Multiset α) := by
  induction xs generalizing l with
  | nil => simp
  | cons x rest ih =>
    rw [List.foldl_cons,ih,coe_insort,Multiset.add_cons,← Multiset.cons_add,Multiset.cons_coe]

end Insort

namespace ConsistentHashRing

/-- The entries of a node. -/
def virtualEntries (s : ConsistentHashRing) (node : String) : List Entry :=
  (List.range (s.getVirtualNodeCount node)).map fun i => toLex (s.hashFunction s!"{node}:{i}",node)

/-- All entries of these nodes, equal ones as often as they occur. -/
def entriesOf (s : ConsistentHashRing) (nodes : Finset String) : Multiset Entry :=
  ∑ node ∈ nodes, (s.virtualEntries node : Multiset Entry)

variable {s : ConsistentHashRing} {node : String}

theorem addVirtualNodes_eq (s : ConsistentHashRing) (node : String) (ring : List Entry) :
    addVirtualNodes s.hashFunction node ring (s.getVirtualNodeCount node) =
      (s.virtualEntries node).foldl insort ring := by
  rw [addVirtualNodes,virtualEntries,List.foldl_map]

theorem node_of_mem_virtualEntries {e : Entry} (he : e ∈ s.virtualEntries node) : e.node = node := by
  obtain ⟨i,-,rfl⟩ := List.mem_map.mp he
  rfl

/-- The parameters of a ring stay. -/
theorem entriesOf_addNode (s : ConsistentHashRing) (node : String) (nodes : Finset String) :
    (s.addNode node).entriesOf nodes = s.entriesOf nodes := by
  unfold addNode
  split <;> rfl

theorem entriesOf_removeNode (s : ConsistentHashRing) (node : String) (nodes : Finset String) :
    (s.removeNode node).entriesOf nodes = s.entriesOf nodes := by
  unfold removeNode
  split <;> rfl

/-- The entries of a node are dropped from a sum over nodes by their name. -/
theorem filter_entriesOf (s : ConsistentHashRing) (node : String) (nodes : Finset String) :
    (s.entriesOf nodes).filter (fun e => e.node ≠ node) = s.entriesOf (nodes.erase node) := by
  have hentries : ∀ other, (s.virtualEntries other : Multiset Entry).filter (fun e => e.node ≠ node) =
      if other = node then 0 else (s.virtualEntries other : Multiset Entry) := by
    intro other
    split
    · rename_i heq
      exact Multiset.filter_eq_nil.mpr fun e he hne => hne ((node_of_mem_virtualEntries he).trans heq)
    · rename_i hne
      exact Multiset.filter_eq_self.mpr fun e he heq => hne ((node_of_mem_virtualEntries he).symm.trans heq)
  induction nodes using Finset.induction_on with
  | empty => simp [entriesOf]
  | insert other nodes hnew ih =>
    unfold entriesOf at ih ⊢
    rw [Finset.sum_insert hnew,Multiset.filter_add,ih,hentries]
    by_cases heq : other = node
    · subst other
      rw [if_pos rfl,zero_add,Finset.erase_insert hnew,Finset.erase_eq_of_notMem hnew]
    · rw [if_neg heq,Finset.erase_insert_of_ne heq,Finset.sum_insert fun hmem => hnew (Finset.mem_of_mem_erase hmem)]

/-- The ring has the entries of its nodes. -/
def HasEntries (s : ConsistentHashRing) : Prop := (s.ring : Multiset Entry) = s.entriesOf s.nodes

theorem HasEntries.addNode (h : s.HasEntries) (node : String) : (s.addNode node).HasEntries := by
  unfold HasEntries
  rw [entriesOf_addNode]
  unfold ConsistentHashRing.addNode
  split
  · exact h
  · rename_i hnew
    change (addVirtualNodes s.hashFunction node s.ring (s.getVirtualNodeCount node) : Multiset Entry) =
      s.entriesOf (insert node s.nodes)
    rw [addVirtualNodes_eq,coe_foldl_insort,h,entriesOf,entriesOf,Finset.sum_insert hnew]

theorem HasEntries.removeNode (h : s.HasEntries) (node : String) : (s.removeNode node).HasEntries := by
  unfold HasEntries
  rw [entriesOf_removeNode]
  unfold ConsistentHashRing.removeNode
  split
  · exact h
  · have hfilter := congrArg (Multiset.filter fun e : Entry => e.node ≠ node) h
    rw [filter_entriesOf,Multiset.filter_coe] at hfilter
    exact hfilter

/-- A sorted ring with the entries of its nodes is determined by them. -/
theorem HasEntries.ring_eq (h : s.HasEntries) (hs : s.WellFormed) : s.ring = (s.entriesOf s.nodes).sort := by
  refine List.Perm.eq_of_pairwise' hs.sorted (Multiset.pairwise_sort _ _) (Multiset.coe_eq_coe.mp ?_)
  rw [Multiset.sort_eq]
  exact h

end ConsistentHashRing

namespace MappedRing
variable {s : MappedRing}

theorem addNode_toConsistentHashRing (s : MappedRing) (node : String) :
    (s.addNode node).toConsistentHashRing = s.toConsistentHashRing.addNode node := by
  unfold addNode
  split
  · rename_i hmem
    exact (if_pos hmem).symm
  · rfl

theorem removeNode_toConsistentHashRing (s : MappedRing) (node : String) :
    (s.removeNode node).toConsistentHashRing = s.toConsistentHashRing.removeNode node := by
  unfold removeNode
  split
  · rename_i hnot
    exact (if_pos hnot).symm
  · rfl

/-- Without its table the ring is the one that was modelled before. -/
theorem step_toConsistentHashRing (s : MappedRing) (a : Action) :
    (s.step a).toConsistentHashRing = Hashing.step s.toConsistentHashRing a := by
  cases a with
  | addNode node => exact s.addNode_toConsistentHashRing node
  | removeNode node => exact s.removeNode_toConsistentHashRing node

theorem init_toConsistentHashRing (nodes : List String) (virtualNodes : ℤ) (hashFunction : String → ℤ)
    (weights : Dict String ℤ) : (init nodes virtualNodes hashFunction weights).toConsistentHashRing =
      ConsistentHashRing.init nodes virtualNodes hashFunction weights := by
  have hstep : ∀ (s : MappedRing) (node : String), (s.addNode node).toConsistentHashRing =
      s.toConsistentHashRing.addNode (id node) := addNode_toConsistentHashRing
  have hmap := run_map MappedRing.toConsistentHashRing id hstep
    ⟨⟨virtualNodes,hashFunction,weights,[],∅⟩,Dict.empty⟩ nodes
  rwa [List.map_id] at hmap

/-- The table has the hashes of the ring, each with a node that has an entry there. -/
structure Mapped (s : MappedRing) : Prop where
  keys : ∀ h, h ∈ s.hashToNode.keys ↔ ∃ e ∈ s.ring, e.hash = h
  owner : ∀ h node, s.hashToNode.get? h = some node → toLex (h,node) ∈ s.ring

theorem mem_ring_addNode {s : ConsistentHashRing} {node : String} (hnew : node ∉ s.nodes) {e : Entry} :
    e ∈ (s.addNode node).ring ↔ e ∈ s.virtualEntries node ∨ e ∈ s.ring := by
  unfold ConsistentHashRing.addNode
  rw [if_neg hnew]
  dsimp only
  rw [ConsistentHashRing.addVirtualNodes_eq,← Multiset.mem_coe,coe_foldl_insort,Multiset.mem_add,Multiset.mem_coe,
    Multiset.mem_coe]

theorem Mapped.addNode (h : s.Mapped) (node : String) : (s.addNode node).Mapped := by
  unfold MappedRing.addNode
  split
  · exact h
  · rename_i hnew
    have hfold : ∀ table : Dict ℤ String, (List.range (s.getVirtualNodeCount node)).foldl
        (fun hashToNode i => hashToNode.insert (s.hashFunction s!"{node}:{i}") node) table =
          ((s.virtualEntries node).map fun e => (e.hash,e.node)).foldl (fun d e => d.insert e.1 e.2) table := by
      intro table
      rw [ConsistentHashRing.virtualEntries,List.map_map,List.foldl_map]
      rfl
    constructor
    · intro hash
      simp only [mem_ring_addNode hnew,hfold]
      rw [Dict.mem_keys_foldl_combine (fun _ v => v),h.keys,List.map_map,List.mem_map]
      constructor
      · rintro (⟨e,he,rfl⟩ | ⟨e,he,rfl⟩)
        · exact ⟨e,Or.inl he,rfl⟩
        · exact ⟨e,Or.inr he,rfl⟩
      · rintro ⟨e,he | he,rfl⟩
        · exact Or.inl ⟨e,he,rfl⟩
        · exact Or.inr ⟨e,he,rfl⟩
    · intro hash owner howner
      simp only [hfold] at howner
      rw [mem_ring_addNode hnew]
      rcases Dict.mem_foldl_insert (Dict.mem_entries_iff.mpr howner) with hmem | hmem
      · obtain ⟨e,he,heq⟩ := List.mem_map.mp hmem
        obtain ⟨rfl,rfl⟩ := Prod.mk.inj heq
        exact Or.inl he
      · exact Or.inr (h.owner hash owner (Dict.mem_entries_iff.mp hmem))

/-- A removal makes the table anew. -/
theorem Mapped.removeNode (h : s.Mapped) (node : String) : (s.removeNode node).Mapped := by
  unfold MappedRing.removeNode
  split
  · exact h
  · constructor
    · intro hash
      dsimp only
      rw [Dict.mem_keys_ofEntries,List.map_map,List.mem_map]
      exact Iff.rfl
    · intro hash owner howner
      obtain ⟨e,he,heq⟩ := List.mem_map.mp (Dict.mem_ofEntries (Dict.mem_entries_iff.mpr howner))
      obtain ⟨rfl,rfl⟩ := Prod.mk.inj heq
      exact he

/-- What every history keeps. -/
structure Canonical (s : MappedRing) : Prop where
  wellFormed : s.WellFormed
  entries : s.HasEntries
  mapped : s.Mapped

theorem Canonical.addNode (h : s.Canonical) (node : String) : (s.addNode node).Canonical where
  wellFormed := s.addNode_toConsistentHashRing node ▸ h.wellFormed.addNode node
  entries := s.addNode_toConsistentHashRing node ▸ h.entries.addNode node
  mapped := h.mapped.addNode node

theorem Canonical.step (h : s.Canonical) (a : Action) : (s.step a).Canonical := by
  cases a with
  | addNode node => exact h.addNode node
  | removeNode node =>
    exact ⟨s.removeNode_toConsistentHashRing node ▸ h.wellFormed.removeNode node,
      s.removeNode_toConsistentHashRing node ▸ h.entries.removeNode node,h.mapped.removeNode node⟩

theorem canonical_init (nodes : List String) (virtualNodes : ℤ) (hashFunction : String → ℤ) (weights : Dict String ℤ) :
    (init nodes virtualNodes hashFunction weights).Canonical := by
  have hstep : ∀ (s : MappedRing) (node : String), s.Canonical → (s.addNode node).Canonical :=
    fun _ node h => h.addNode node
  refine run_invariant_of_step hstep ?_ nodes
  refine ⟨⟨List.Pairwise.nil,fun _ he => absurd he List.not_mem_nil⟩,rfl,fun hash => ?_,fun _ _ h => nomatch h⟩
  simp

/-- The parameters that all states of a ring share. -/
structure SameParameters (s s' : MappedRing) : Prop where
  virtualNodesPerNode : s.virtualNodesPerNode = s'.virtualNodesPerNode
  hashFunction : s.hashFunction = s'.hashFunction
  weights : s.weights = s'.weights

theorem SameParameters.symm {s s' : MappedRing} (h : SameParameters s s') : SameParameters s' s :=
  ⟨h.virtualNodesPerNode.symm,h.hashFunction.symm,h.weights.symm⟩

theorem SameParameters.trans {s s' s'' : MappedRing} (h : SameParameters s s') (h' : SameParameters s' s'') :
    SameParameters s s'' :=
  ⟨h.virtualNodesPerNode.trans h'.virtualNodesPerNode,h.hashFunction.trans h'.hashFunction,h.weights.trans h'.weights⟩

theorem sameParameters_addNode (s : MappedRing) (node : String) : SameParameters s (s.addNode node) := by
  unfold addNode ConsistentHashRing.addNode
  split
  · exact ⟨rfl,rfl,rfl⟩
  · exact ⟨rfl,rfl,rfl⟩

theorem sameParameters_step (s : MappedRing) (a : Action) : SameParameters s (s.step a) := by
  cases a with
  | addNode node => exact s.sameParameters_addNode node
  | removeNode node =>
    change SameParameters s (s.removeNode node)
    unfold removeNode ConsistentHashRing.removeNode
    split
    · exact ⟨rfl,rfl,rfl⟩
    · exact ⟨rfl,rfl,rfl⟩

theorem sameParameters_run (nodes : List String) (virtualNodes : ℤ) (hashFunction : String → ℤ)
    (weights : Dict String ℤ) (schedule : List Action) : SameParameters
      ⟨⟨virtualNodes,hashFunction,weights,[],∅⟩,Dict.empty⟩
      (run step (init nodes virtualNodes hashFunction weights) schedule) := by
  have hadd : ∀ (t : MappedRing) (node : String),
      SameParameters ⟨⟨virtualNodes,hashFunction,weights,[],∅⟩,Dict.empty⟩ t →
      SameParameters ⟨⟨virtualNodes,hashFunction,weights,[],∅⟩,Dict.empty⟩ (t.addNode node) :=
    fun t node h => h.trans (t.sameParameters_addNode node)
  have hstep : ∀ (t : MappedRing) (a : Action),
      SameParameters ⟨⟨virtualNodes,hashFunction,weights,[],∅⟩,Dict.empty⟩ t →
      SameParameters ⟨⟨virtualNodes,hashFunction,weights,[],∅⟩,Dict.empty⟩ (t.step a) :=
    fun t a h => h.trans (t.sameParameters_step a)
  exact run_invariant_of_step hstep (run_invariant_of_step hadd ⟨rfl,rfl,rfl⟩ nodes) schedule

/-- Rings of the same nodes are the same. -/
theorem Canonical.ring_eq_of_nodes_eq {s s' : MappedRing} (h : s.Canonical) (h' : s'.Canonical)
    (hsame : SameParameters s s') (hnodes : s.nodes = s'.nodes) : s.ring = s'.ring := by
  rw [h.entries.ring_eq h.wellFormed,h'.entries.ring_eq h'.wellFormed,hnodes]
  have hentries : ∀ node, s.virtualEntries node = s'.virtualEntries node := by
    intro node
    simp only [ConsistentHashRing.virtualEntries,ConsistentHashRing.getVirtualNodeCount,hsame.virtualNodesPerNode,
      hsame.hashFunction,hsame.weights]
  simp only [ConsistentHashRing.entriesOf,hentries]

/-- The node that a call is about. -/
def node : Action → String
  | .addNode node => node
  | .removeNode node => node

/-- The last of the calls about the node added it. The constructor adds the nodes of its list. -/
def Present (initial : List String) (schedule : List Action) (x : String) : Prop :=
  ((initial.map Action.addNode ++ schedule).filter fun a => node a = x).getLast? = some (.addNode x)

theorem mem_nodes_step (s : MappedRing) (a : Action) (x : String) :
    x ∈ (s.step a).nodes ↔ if node a = x then a = .addNode x else x ∈ s.nodes := by
  cases a with
  | addNode y =>
    change x ∈ (s.addNode y).toConsistentHashRing.nodes ↔ _
    rw [addNode_toConsistentHashRing,node,ConsistentHashRing.addNode]
    by_cases hmem : y ∈ s.nodes
    · rw [if_pos hmem]
      by_cases hxy : y = x
      · subst hxy
        simp [hmem]
      · simp [hxy]
    · rw [if_neg hmem]
      by_cases hxy : y = x
      · simp [hxy]
      · simp [hxy,Ne.symm hxy]
  | removeNode y =>
    change x ∈ (s.removeNode y).toConsistentHashRing.nodes ↔ _
    rw [removeNode_toConsistentHashRing,node,ConsistentHashRing.removeNode]
    by_cases hmem : y ∉ s.nodes
    · rw [if_pos hmem]
      by_cases hxy : y = x
      · subst hxy
        simp [hmem]
      · simp [hxy]
    · rw [if_neg hmem]
      by_cases hxy : y = x
      · simp [hxy]
      · simp [hxy,Ne.symm hxy]

/-- By induction on the calls from the last one on. -/
theorem mem_nodes_run (s : MappedRing) (hempty : s.nodes = ∅) (calls : List Action) (x : String) :
    x ∈ (run step s calls).nodes ↔ (calls.filter fun a => node a = x).getLast? = some (.addNode x) := by
  induction calls using List.reverseRecOn with
  | nil => simp [hempty]
  | append_singleton calls a ih =>
    rw [run_append,run_cons,run_nil,mem_nodes_step,List.filter_append]
    by_cases hax : node a = x
    · rw [if_pos hax,List.filter_cons_of_pos (by simpa using hax),List.filter_nil,List.getLast?_concat,Option.some_inj]
    · rw [if_neg hax,List.filter_cons_of_neg (by simpa using hax),List.filter_nil,List.append_nil]
      exact ih

theorem mem_nodes_iff_present (virtualNodes : ℤ) (hashFunction : String → ℤ) (weights : Dict String ℤ)
    (initial : List String) (schedule : List Action) (x : String) :
    x ∈ (run step (init initial virtualNodes hashFunction weights) schedule).nodes ↔ Present initial schedule x := by
  set empty : MappedRing := ⟨⟨virtualNodes,hashFunction,weights,[],∅⟩,Dict.empty⟩ with hempty
  have hinit : run step empty (initial.map Action.addNode) = init initial virtualNodes hashFunction weights :=
    List.foldl_map
  rw [← hinit,← run_append]
  exact mem_nodes_run empty rfl _ x

/-- After any history the nodes are those last added and not removed since, the ring is the sorted list
of their entries, the table has its hashes with their owners, and every other history to the same
nodes routes alike. -/
theorem history_independent (virtualNodes : ℤ) (hashFunction : String → ℤ) (weights : Dict String ℤ)
    (initial : List String) (schedule : List Action) :
    let s := run step (init initial virtualNodes hashFunction weights) schedule
    (∀ x, x ∈ s.nodes ↔ Present initial schedule x) ∧
    s.ring = (∑ node ∈ s.nodes, ((List.range (virtualNodes * (weights.get? node).getD 1).toNat).map fun i =>
      (toLex (hashFunction s!"{node}:{i}",node) : Entry) : Multiset Entry)).sort ∧
    (∀ h, h ∈ s.hashToNode.keys ↔ ∃ e ∈ s.ring, e.hash = h) ∧
    (∀ h node, s.hashToNode.get? h = some node → toLex (h,node) ∈ s.ring) ∧
    ∀ initial' schedule', let s' := run step (init initial' virtualNodes hashFunction weights) schedule'
      s.nodes = s'.nodes → ∀ key, s.getNode key = s'.getNode key ∧
        ∀ count, s.getNodes key count = s'.getNodes key count := by
  dsimp only
  have hstep : ∀ (s : MappedRing) (a : Action), s.Canonical → (s.step a).Canonical := fun _ a h => h.step a
  have hcanonical := fun initial schedule =>
    run_invariant_of_step hstep (canonical_init initial virtualNodes hashFunction weights) schedule
  have hparameters := fun initial schedule => sameParameters_run initial virtualNodes hashFunction weights schedule
  have h := hcanonical initial schedule
  have hp := hparameters initial schedule
  refine ⟨mem_nodes_iff_present virtualNodes hashFunction weights initial schedule,?_,h.mapped.keys,h.mapped.owner,
    fun initial' schedule' hnodes key => ?_⟩
  · rw [h.entries.ring_eq h.wellFormed]
    simp only [ConsistentHashRing.entriesOf,ConsistentHashRing.virtualEntries,ConsistentHashRing.getVirtualNodeCount,
      ← hp.virtualNodesPerNode,← hp.hashFunction,← hp.weights]
  · have hsame := hp.symm.trans (hparameters initial' schedule')
    have hring := h.ring_eq_of_nodes_eq (hcanonical initial' schedule') hsame hnodes
    have hhash := hsame.hashFunction
    refine ⟨?_,fun count => ?_⟩
    · simp only [ConsistentHashRing.getNode,ConsistentHashRing.start,hring,hhash]
      rfl
    · simp only [ConsistentHashRing.getNodes,ConsistentHashRing.start,hring,hhash]

end MappedRing
end DistributedSystems.Hashing
