import DistributedSystems.NetworkPartition.PartitionCoordinator

/-! # What the calls simulate

The partitions that the calls describe, each one active until it heals, and the nodes that
are down. The coordinator keeps exactly these, and its matrix shows them.
-/
namespace DistributedSystems.NetworkPartition
open Runs

/-- The partitions created so far, oldest first, and the nodes that are down. -/
structure Scenario where
  partitions : List Partition
  down : Finset String

namespace Scenario

def start : Scenario := ⟨[],∅⟩

def healWhere (s : Scenario) (which : Partition → Bool) : Scenario :=
  { s with partitions := s.partitions.map fun p => if which p then p.heal else p }

/-- What a call asks for. A partition is accepted if its groups name nodes of the cluster
only, each one once; other partitions, and crashes of unknown nodes, are refused. -/
def step (nodes : List String) (s : Scenario) : Action → Scenario
  | .createPartition groups duration autoHeal now =>
    if (∀ node ∈ groups.flatten, node ∈ nodes) ∧ groups.flatten.Nodup then
      { s with
        partitions := s.partitions ++ [⟨s!"partition_{s.partitions.length + 1}",groups,now,duration,autoHeal,.active⟩] }
    else s
  | .healPartition partitionId => s.healWhere fun p => partitionId = none ∨ partitionId = some "" ∨ partitionId = some p.id
  | .crashNode nodeId => if nodeId ∈ nodes then { s with down := insert nodeId s.down } else s
  | .recoverNode nodeId => { s with down := s.down.erase nodeId }
  | .autoHeal now => s.healWhere fun p => p.shouldHeal (now p.id)

end Scenario

theorem validateGroups_ok_iff {nodes seen groups : List String} : validateGroups nodes seen groups = .ok () ↔
    (∀ node ∈ groups, node ∈ nodes) ∧ (∀ node ∈ groups, node ∉ seen) ∧ groups.Nodup := by
  induction groups generalizing seen with
  | nil => simp [validateGroups]
  | cons node rest ih =>
    unfold validateGroups
    by_cases hnode : node ∈ nodes
    · by_cases hseen : node ∈ seen
      · simp [hnode,hseen]
      · rw [if_neg (not_not.mpr hnode),if_neg hseen,ih]
        simp only [List.nodup_cons,List.mem_cons,not_or]
        grind
    · simp [hnode]

@[simp] theorem Partition.heal_id (p : Partition) : p.heal.id = p.id := rfl

theorem Partition.shouldHeal_heal (p : Partition) (now : ℚ) : p.heal.shouldHeal now = false := rfl

/-- The coordinator keeps the partitions under their identifiers and the nodes that are down. -/
structure Follows (s : PartitionCoordinator) (scenario : Scenario) : Prop where
  partitions : s.partitions.entries = scenario.partitions.map fun p => (p.id,p)
  counter : s.partitionCounter = scenario.partitions.length
  down : ∀ node, node ∈ s.crashedNodes ↔ node ∈ scenario.down

namespace Follows
variable {nodes : List String} {s : PartitionCoordinator} {scenario : Scenario}

theorem keys (h : Follows s scenario) : s.partitions.keys = scenario.partitions.map Partition.id := by
  rw [Dict.keys,h.partitions,List.map_map]
  rfl

theorem get? (h : Follows s scenario) {id : String} {p : Partition} :
    s.partitions.get? id = some p ↔ p ∈ scenario.partitions ∧ p.id = id := by
  rw [← Dict.mem_entries_iff,h.partitions,List.mem_map]
  constructor
  · rintro ⟨q,hq,heq⟩
    cases heq
    exact ⟨hq,rfl⟩
  · rintro ⟨hp,rfl⟩
    exact ⟨p,hp,rfl⟩

theorem healWhere_congr {which which' : Partition → Bool} (h : ∀ p ∈ scenario.partitions, which p = which' p) :
    scenario.healWhere which = scenario.healWhere which' := by
  unfold Scenario.healWhere
  rw [List.map_congr_left fun p hp => by rw [h p hp]]

theorem healWhere_eq_self {which : Partition → Bool} (h : ∀ p ∈ scenario.partitions, which p = false) :
    scenario.healWhere which = scenario := by
  have hnone : scenario.healWhere which = scenario.healWhere fun _ => false := healWhere_congr h
  rw [hnone,Scenario.healWhere]
  simp

theorem createPartition (h : Follows s scenario) (he : Exact nodes s) (groups : List (List String)) (duration : Option ℚ)
    (autoHeal : Bool) (now : ℚ) : Follows (step s (.createPartition groups duration autoHeal now))
      (scenario.step nodes (.createPartition groups duration autoHeal now)) := by
  simp only [NetworkPartition.step,Scenario.step,PartitionCoordinator.createPartition]
  cases hvalid : validateGroups s.nodes [] groups.flatten with
  | error e =>
    have hrefused : ¬((∀ node ∈ groups.flatten, node ∈ nodes) ∧ groups.flatten.Nodup) := by
      rintro ⟨hknown,hnodup⟩
      rw [← he.same] at hknown
      have hok := validateGroups_ok_iff.mpr ⟨hknown,fun _ _ => List.not_mem_nil,hnodup⟩
      rw [hvalid] at hok
      cases hok
    rw [if_neg hrefused]
    exact h
  | ok u =>
    obtain ⟨hknown,-,hnodup⟩ := validateGroups_ok_iff.mp hvalid
    rw [he.same] at hknown
    rw [if_pos ⟨hknown,hnodup⟩]
    have hnew : s!"partition_{s.partitionCounter + 1}" ∉ s.partitions.keys := by
      intro hmem
      obtain ⟨k,hk,heq⟩ := he.ids _ hmem
      have := partitionId_injective heq
      omega
    refine ⟨?_,?_,h.down⟩
    · refine (putEntry_of_notMem hnew).trans ?_
      rw [h.partitions,List.map_append,h.counter]
      rfl
    · change s.partitionCounter + 1 = _
      rw [h.counter,List.length_append]
      rfl

/-- Healing one partition. -/
theorem insert_heal (h : Follows s scenario) {id : String} {p : Partition} (hp : s.partitions.get? id = some p) :
    (s.partitions.insert id p.heal).entries =
      (scenario.healWhere fun q => q.id = id).partitions.map fun q => (q.id,q) := by
  refine (putEntry_of_mem s.partitions.nodup (Dict.mem_keys_iff.mpr ⟨p,hp⟩)).trans ?_
  rw [h.partitions,Scenario.healWhere,List.map_map,List.map_map]
  refine List.map_congr_left fun q hq => ?_
  simp only [Function.comp_apply,decide_eq_true_eq]
  by_cases hid : q.id = id
  · have hqp : some q = some p := (h.get?.mpr ⟨hq,hid⟩).symm.trans hp
    cases hqp
    rw [if_pos hid,if_pos hid,Partition.heal_id,hid]
  · rw [if_neg hid,if_neg hid]

theorem healOne (h : Follows s scenario) {id : String} (hid : id ≠ "") :
    Follows (step s (.healPartition (some id))) (scenario.healWhere fun q => q.id = id) := by
  have hfilter : (some id).filter (· ≠ "") = some id := by simp [hid]
  cases hp : s.partitions.get? id with
  | none =>
    have hnone : (scenario.healWhere fun q => q.id = id) = scenario := by
      refine healWhere_eq_self fun q hq => decide_eq_false fun heq => ?_
      rw [h.get?.mpr ⟨hq,heq⟩] at hp
      cases hp
    simp only [NetworkPartition.step,PartitionCoordinator.healPartition,hfilter,hp]
    rw [hnone]
    exact h
  | some p =>
    simp only [NetworkPartition.step,PartitionCoordinator.healPartition,hfilter,hp]
    exact ⟨h.insert_heal hp,h.counter.trans (List.length_map ..).symm,h.down⟩

theorem healAll (h : Follows s scenario) {partitionId : Option String} (hid : partitionId.filter (· ≠ "") = none) :
    Follows (step s (.healPartition partitionId)) (scenario.healWhere fun _ => true) := by
  simp only [NetworkPartition.step,PartitionCoordinator.healPartition,hid]
  refine ⟨?_,h.counter.trans (List.length_map ..).symm,h.down⟩
  change s.partitions.entries.map _ = _
  rw [h.partitions,Scenario.healWhere,List.map_map,List.map_map]
  rfl

theorem healPartition (h : Follows s scenario) (partitionId : Option String) :
    Follows (step s (.healPartition partitionId)) (scenario.step nodes (.healPartition partitionId)) := by
  have hwhere : ∀ {which : Partition → Bool}, Follows (NetworkPartition.step s (.healPartition partitionId))
      (scenario.healWhere which) →
      (∀ p, which p = true ↔ partitionId = none ∨ partitionId = some "" ∨ partitionId = some p.id) →
      Follows (NetworkPartition.step s (.healPartition partitionId)) (scenario.step nodes (.healPartition partitionId)) := by
    intro which hf hiff
    rwa [healWhere_congr fun p _ => Bool.eq_iff_iff.mpr ((hiff p).trans (decide_eq_true_iff).symm)] at hf
  cases partitionId with
  | none => exact hwhere (h.healAll rfl) (by simp)
  | some id =>
    by_cases hid : id = ""
    · subst hid
      exact hwhere (h.healAll rfl) (by simp)
    · exact hwhere (h.healOne hid) (by simp [hid,eq_comm])

theorem healWhere_healWhere (which which' : Partition → Bool) (hwhich : ∀ p : Partition, which' p.heal = false) :
    (scenario.healWhere which).healWhere which' = scenario.healWhere fun p => which p || which' p := by
  unfold Scenario.healWhere
  dsimp only
  rw [List.map_map]
  refine congrArg (Scenario.mk · _) (List.map_congr_left fun p _ => ?_)
  rw [Function.comp_apply]
  by_cases hp : which p = true
  · simp [hp,hwhich]
  · simp [hp]

/-- Induction over the identifiers still to come; a partition that has healed is due no more. -/
theorem foldl_heal {f : PartitionCoordinator → String → PartitionCoordinator} {now : String → ℚ}
    (hf : ∀ s scenario id, Follows s scenario → id ≠ "" →
      Follows (f s id) (scenario.healWhere fun p => p.id = id ∧ p.shouldHeal (now id)))
    {ids : List String} (hids : ∀ id ∈ ids, id ≠ "") (h : Follows s scenario) :
    Follows (ids.foldl f s) (scenario.healWhere fun p => p.id ∈ ids ∧ p.shouldHeal (now p.id)) := by
  induction ids generalizing s scenario with
  | nil =>
    rw [healWhere_eq_self fun p _ => by simp]
    exact h
  | cons id rest ih =>
    rw [List.forall_mem_cons] at hids
    have hrest := ih hids.2 (hf s scenario id h hids.1)
    rw [healWhere_healWhere _ _ fun p => by simp [Partition.shouldHeal_heal]] at hrest
    rwa [healWhere_congr fun p _ => Bool.eq_iff_iff.mpr ?_]
    simp only [decide_eq_true_eq,Bool.or_eq_true,List.mem_cons]
    constructor
    · rintro ⟨rfl | hmem,hdue⟩
      · exact Or.inl ⟨rfl,hdue⟩
      · exact Or.inr ⟨hmem,hdue⟩
    · rintro (⟨rfl,hdue⟩ | ⟨hmem,hdue⟩)
      · exact ⟨Or.inl rfl,hdue⟩
      · exact ⟨Or.inr hmem,hdue⟩

/-- One pass of the background thread heals the partitions that are due. -/
theorem autoHeal (h : Follows s scenario) (he : Exact nodes s) (now : String → ℚ) :
    Follows (step s (.autoHeal now)) (scenario.step nodes (.autoHeal now)) := by
  have hids : ∀ id ∈ s.partitions.keys, id ≠ "" := by
    intro id hid
    obtain ⟨k,-,rfl⟩ := he.ids id hid
    simp
  have hpass : Follows (s.autoHeal now)
      (scenario.healWhere fun p => p.id ∈ s.partitions.keys ∧ p.shouldHeal (now p.id)) := by
    refine foldl_heal (fun s scenario id h hid => ?_) hids h
    split
    · rename_i p hp
      obtain ⟨hmem,rfl⟩ := h.get?.mp hp
      have honly : ∀ q ∈ scenario.partitions, q.id = p.id → q = p := fun q hq hqp =>
        Option.some.inj ((h.get?.mpr ⟨hq,hqp⟩).symm.trans hp)
      split
      · rename_i hdue
        have hone := h.healOne hid
        rwa [healWhere_congr fun q hq => Bool.eq_iff_iff.mpr ?_] at hone
        simp only [decide_eq_true_eq]
        exact ⟨fun hqp => ⟨hqp,by rw [honly q hq hqp]; exact hdue⟩,And.left⟩
      · rename_i hdue
        rwa [healWhere_eq_self fun q hq => decide_eq_false ?_]
        rintro ⟨hqp,hq'⟩
        rw [honly q hq hqp] at hq'
        exact hdue hq'
    · rename_i hp
      rwa [healWhere_eq_self fun q hq => decide_eq_false ?_]
      rintro ⟨hqp,-⟩
      rw [h.get?.mpr ⟨hq,hqp⟩] at hp
      cases hp
  rw [h.keys] at hpass
  rwa [healWhere_congr fun p hp => Bool.eq_iff_iff.mpr ?_] at hpass
  rw [decide_eq_true_eq]
  exact and_iff_right (List.mem_map_of_mem hp)

theorem crashNode (h : Follows s scenario) (he : Exact nodes s) (nodeId : String) :
    Follows (step s (.crashNode nodeId)) (scenario.step nodes (.crashNode nodeId)) := by
  simp only [NetworkPartition.step,PartitionCoordinator.crashNode,Scenario.step,he.same]
  by_cases hnode : nodeId ∈ nodes
  · rw [if_neg (not_not.mpr hnode),if_pos hnode]
    refine ⟨h.partitions,h.counter,fun node => ?_⟩
    dsimp only
    rw [List.mem_insert_iff,Finset.mem_insert,h.down]
  · rw [if_pos hnode,if_neg hnode]
    exact h

theorem recoverNode (h : Follows s scenario) (nodeId : String) :
    Follows (step s (.recoverNode nodeId)) (scenario.step nodes (.recoverNode nodeId)) := by
  simp only [NetworkPartition.step,PartitionCoordinator.recoverNode,Scenario.step]
  by_cases hnode : nodeId ∈ s.crashedNodes
  · rw [if_neg (not_not.mpr hnode)]
    refine ⟨h.partitions,h.counter,fun node => ?_⟩
    dsimp only
    rw [List.mem_filter,Finset.mem_erase,h.down,decide_eq_true_eq,and_comm]
  · rw [if_pos hnode]
    refine ⟨h.partitions,h.counter,fun node => ?_⟩
    rw [Finset.mem_erase,h.down]
    refine (and_iff_right_of_imp ?_).symm
    rintro hdown rfl
    exact hnode ((h.down node).mpr hdown)

theorem step (h : Follows s scenario) (he : Exact nodes s) (a : Action) :
    Follows (step s a) (scenario.step nodes a) := by
  cases a with
  | createPartition groups duration autoHeal now => exact h.createPartition he groups duration autoHeal now
  | healPartition partitionId => exact h.healPartition partitionId
  | crashNode nodeId => exact h.crashNode he nodeId
  | recoverNode nodeId => exact h.recoverNode nodeId
  | autoHeal now => exact h.autoHeal he now

theorem run (h : Follows s scenario) (he : Exact nodes s) (schedule : List Action) :
    Follows (run NetworkPartition.step s schedule) (Runs.run (Scenario.step nodes) scenario schedule) := by
  induction schedule generalizing s scenario with
  | nil => exact h
  | cons a rest ih => exact ih (h.step he a) (he.step a)

end Follows

theorem Scenario.step_dedup (nodes : List String) : Scenario.step nodes.dedup = Scenario.step nodes := by
  funext s a
  cases a <;> simp only [Scenario.step,List.mem_dedup]

/-- The coordinator keeps the partitions and crashes that the calls ask for, and two nodes
can communicate exactly if both are up and no active partition separates them. -/
theorem canCommunicate_iff_of_run (nodes : List String) (schedule : List Action) {a b : String} (ha : a ∈ nodes)
    (hb : b ∈ nodes) (hab : a ≠ b) :
    let s := run step (PartitionCoordinator.init nodes) schedule
    let scenario := run (Scenario.step nodes) Scenario.start schedule
    (s.canCommunicate a b = true ↔
      a ∉ s.crashedNodes ∧ b ∉ s.crashedNodes ∧
      ∀ e ∈ s.partitions.entries, e.2.isActive = true → ¬Separates e.2.groups a b) ∧
    (∀ node, node ∈ s.crashedNodes ↔ node ∈ scenario.down) ∧
    s.partitions.entries = scenario.partitions.map fun p => (p.id,p) := by
  have hexact : ∀ schedule, Exact nodes.dedup (run step (PartitionCoordinator.init nodes) schedule) := fun schedule =>
    run_invariant_of_step (fun _ a h => h.step a) (Exact.init nodes) schedule
  have hstart : Follows (PartitionCoordinator.init nodes) Scenario.start :=
    ⟨rfl,rfl,by simp [PartitionCoordinator.init,Scenario.start]⟩
  have hfollows := hstart.run (Exact.init nodes) schedule
  rw [Scenario.step_dedup] at hfollows
  exact ⟨(hexact schedule).canCommunicate_iff (List.mem_dedup.mpr ha) (List.mem_dedup.mpr hb) hab,hfollows.down,
    hfollows.partitions⟩

/-- Two partitions separate the nodes; one of them heals by itself, a third names an unknown
node, and a third node crashes. The other partition still separates the nodes. -/
theorem canCommunicate_iff_two_partitions :
    let s := run step (PartitionCoordinator.init ["a","b","c"])
      [.createPartition [["a"],["b"]] (some 5) true 0,.createPartition [["a","c"],["b"]] none false 1,
        .autoHeal fun _ => 6,.createPartition [["a"],["d"]] none false 7,.crashNode "c"]
    s.canCommunicate "a" "b" = false ∧ (∀ node, node ∈ s.crashedNodes ↔ node = "c") ∧
    s.partitions.entries =
      [("partition_1",⟨"partition_1",[["a"],["b"]],0,some 5,true,.healed⟩),
        ("partition_2",⟨"partition_2",[["a","c"],["b"]],1,none,false,.active⟩)] := by
  have hscenario : run (Scenario.step ["a","b","c"]) Scenario.start
      [.createPartition [["a"],["b"]] (some 5) true 0,.createPartition [["a","c"],["b"]] none false 1,
        .autoHeal fun _ => 6,.createPartition [["a"],["d"]] none false 7,.crashNode "c"] =
      ⟨[⟨"partition_1",[["a"],["b"]],0,some 5,true,.healed⟩,
        ⟨"partition_2",[["a","c"],["b"]],1,none,false,.active⟩],{"c"}⟩ := by
    have hdue : (5 : ℚ) ≤ 6 := by decide
    simp [Scenario.step,Scenario.start,Scenario.healWhere,Partition.shouldHeal,Partition.heal,hdue]
    exact ⟨rfl,rfl⟩
  have hseparates : Separates [["a","c"],["b"]] "a" "b" :=
    ⟨0,1,["a","c"],["b"],Nat.zero_ne_one,rfl,rfl,List.mem_cons_self,List.mem_cons_self⟩
  obtain ⟨hiff,hdown,hentries⟩ := canCommunicate_iff_of_run ["a","b","c"]
      [.createPartition [["a"],["b"]] (some 5) true 0,.createPartition [["a","c"],["b"]] none false 1,
        .autoHeal fun _ => 6,.createPartition [["a"],["d"]] none false 7,.crashNode "c"]
      (a := "a") (b := "b") (by decide) (by decide) (by decide)
  rw [hscenario] at hdown hentries
  refine ⟨Bool.eq_false_iff.mpr fun hconnected => ?_,fun node => (hdown node).trans Finset.mem_singleton,hentries⟩
  have hmem : ("partition_2",(⟨"partition_2",[["a","c"],["b"]],1,none,false,.active⟩ : Partition)) ∈
      [⟨"partition_1",[["a"],["b"]],0,some 5,true,.healed⟩,⟨"partition_2",[["a","c"],["b"]],1,none,false,.active⟩].map
        fun p : Partition => (p.id,p) := List.mem_cons_of_mem _ List.mem_cons_self
  rw [← hentries] at hmem
  exact (hiff.mp hconnected).2.2 _ hmem rfl hseparates

end DistributedSystems.NetworkPartition
