import DistributedSystems.Protocol.Dict
import DistributedSystems.Protocol.HappenedBefore
import Mathlib.Algebra.GroupWithZero.Nat
import Mathlib.Order.Lattice

/-! # Vector clocks

A vector clock counts for each node the events it knows of. The events of a run compare by
their vectors exactly as they are ordered by messages and by the nodes.
-/
namespace DistributedSystems.Clocks
open HappenedBefore Runs

variable {ι : Type} [DecidableEq ι]

/-- The component of a node, 0 if there is none. -/
def component (vector : Dict ι ℕ) (node : ι) : ℕ := (vector.get? node).getD 0

theorem component_insert (vector : Dict ι ℕ) (node j : ι) (n : ℕ) :
    component (vector.insert node n) j = if j = node then n else component vector j := by
  simp only [component,Dict.get?_insert]
  split
  · rfl
  · rfl

/-- A vector clock always has a component of its own. -/
structure VectorClock (ι : Type) [DecidableEq ι] where
  nodeId : ι
  vector : Dict ι ℕ
  own : nodeId ∈ vector.keys

namespace VectorClock

def init (nodeId : ι) (peers : List ι) : VectorClock ι where
  nodeId := nodeId
  vector := Dict.ofEntries ((nodeId :: peers).map fun node => (node,0))
  own := by simp [Dict.mem_keys_ofEntries]

def getVector (c : VectorClock ι) : Dict ι ℕ := c.vector

/-- `self.vector[self.node_id] += 1` -/
def increment (c : VectorClock ι) : VectorClock ι :=
  { c with
    vector := c.vector.insert c.nodeId (component c.vector c.nodeId + 1)
    own := Dict.mem_keys_insert.mpr (Or.inl rfl) }

def tick (c : VectorClock ι) : VectorClock ι := c.increment

def send (c : VectorClock ι) : VectorClock ι := c.increment

def receive (c : VectorClock ι) (_senderId : ι) (messageVector : Dict ι ℕ) : VectorClock ι :=
  increment
    { c with
      vector := c.vector.mapEntries fun nodeId n => (messageVector.get? nodeId).elim n (max n)
      own := by simpa using c.own }

/-- The loop of `happened_before` over the entries of the own vector. -/
def happenedBeforeLoop (otherVector : Dict ι ℕ) : List (ι × ℕ) → Bool → Bool
  | [], atLeastOneLess => atLeastOneLess
  | (nodeId,n) :: rest, atLeastOneLess =>
    match otherVector.get? nodeId with
    | none => happenedBeforeLoop otherVector rest atLeastOneLess
    | some m =>
      if n > m then false
      else if n < m then happenedBeforeLoop otherVector rest true
      else happenedBeforeLoop otherVector rest atLeastOneLess

def happenedBefore (c : VectorClock ι) (otherVector : Dict ι ℕ) : Bool :=
  happenedBeforeLoop otherVector c.vector.entries false

def otherHappenedBeforeLoop (otherVector : Dict ι ℕ) : List (ι × ℕ) → Bool → Bool
  | [], atLeastOneLess => atLeastOneLess
  | (nodeId,n) :: rest, atLeastOneLess =>
    match otherVector.get? nodeId with
    | none => otherHappenedBeforeLoop otherVector rest atLeastOneLess
    | some m =>
      if m > n then otherHappenedBeforeLoop otherVector rest true
      else if m < n then false
      else otherHappenedBeforeLoop otherVector rest atLeastOneLess

def otherHappenedBefore (c : VectorClock ι) (otherVector : Dict ι ℕ) : Bool :=
  otherHappenedBeforeLoop otherVector c.vector.entries false

def concurrentWith (c : VectorClock ι) (otherVector : Dict ι ℕ) : Bool :=
  !c.happenedBefore otherVector && !c.otherHappenedBefore otherVector

theorem component_init (nodeId : ι) (peers : List ι) (j : ι) : component (init nodeId peers).vector j = 0 := by
  unfold component
  cases h : (init nodeId peers).vector.get? j with
  | none => rfl
  | some n =>
    obtain ⟨node,-,heq⟩ := List.mem_map.mp (Dict.mem_ofEntries (Dict.mem_entries_iff.mpr h))
    cases heq
    rfl

theorem component_increment (c : VectorClock ι) (j : ι) :
    component c.increment.vector j = component c.vector j + if j = c.nodeId then 1 else 0 := by
  rw [increment,component_insert]
  by_cases hj : j = c.nodeId
  · simp [hj]
  · simp [hj]

/-- A receiving event takes the larger component of every node the clock has, then counts
itself. -/
theorem component_receive {c : VectorClock ι} {j : ι} (hj : j ∈ c.vector.keys) (senderId : ι) (messageVector : Dict ι ℕ) :
    component (c.receive senderId messageVector).vector j =
      max (component c.vector j) (component messageVector j) + if j = c.nodeId then 1 else 0 := by
  obtain ⟨n,hn⟩ := Dict.mem_keys_iff.mp hj
  rw [receive,component_increment]
  congr 1
  simp only [component,Dict.get?_mapEntries,hn]
  cases messageVector.get? j with
  | none => simp
  | some m => simp

/-- A vector with a component for every node. -/
def Full (vector : Dict ι ℕ) : Prop := ∀ j, j ∈ vector.keys

theorem full_init {nodeId : ι} {peers : List ι} (h : ∀ j, j ≠ nodeId → j ∈ peers) : Full (init nodeId peers).vector := by
  intro j
  refine Dict.mem_keys_ofEntries.mpr ?_
  by_cases hj : j = nodeId
  · simp [hj]
  · simp [hj,h j hj]

theorem full_increment {c : VectorClock ι} (h : Full c.vector) : Full c.increment.vector :=
  fun j => Dict.mem_keys_insert.mpr (Or.inr (h j))

theorem full_receive {c : VectorClock ι} (h : Full c.vector) (senderId : ι) (messageVector : Dict ι ℕ) :
    Full (c.receive senderId messageVector).vector := by
  refine full_increment fun j => ?_
  simpa using h j

theorem get?_of_full {vector : Dict ι ℕ} (h : Full vector) (j : ι) : vector.get? j = some (component vector j) := by
  obtain ⟨n,hn⟩ := Dict.mem_keys_iff.mp (h j)
  simp [component,hn]

section Comparison
variable {vector otherVector : Dict ι ℕ}

theorem happenedBeforeLoop_iff (h : Full otherVector) (entries : List (ι × ℕ)) (atLeastOneLess : Bool) :
    happenedBeforeLoop otherVector entries atLeastOneLess = true ↔
      (∀ e ∈ entries, e.2 ≤ component otherVector e.1) ∧
        (atLeastOneLess = true ∨ ∃ e ∈ entries, e.2 < component otherVector e.1) := by
  induction entries generalizing atLeastOneLess with
  | nil => simp [happenedBeforeLoop]
  | cons e rest ih =>
    simp only [happenedBeforeLoop,get?_of_full h e.1,List.forall_mem_cons,List.exists_mem_cons_iff]
    rcases lt_trichotomy e.2 (component otherVector e.1) with hlt | heq | hgt
    · simp [ih,hlt,hlt.le,hlt.not_gt]
    · simp [ih,heq]
    · simp [hgt,hgt.not_ge]

/-- With full vectors the test is the strict order of the vectors, component by component. -/
theorem happenedBefore_iff {c : VectorClock ι} (hc : Full c.vector) (h : Full otherVector) :
    c.happenedBefore otherVector = true ↔ component c.vector < component otherVector := by
  have hentry : ∀ j, (j,component c.vector j) ∈ c.vector.entries := fun j =>
    Dict.mem_entries_iff.mpr (get?_of_full hc j)
  have hvalue : ∀ e ∈ c.vector.entries, e.2 = component c.vector e.1 := by
    intro e he
    simp [component,Dict.get?_of_mem he]
  rw [happenedBefore,happenedBeforeLoop_iff h,Pi.lt_def]
  constructor
  · rintro ⟨hle,hlt⟩
    obtain ⟨e,he,hlt⟩ := hlt.resolve_left (by simp)
    exact ⟨fun j => hle _ (hentry j),e.1,by rwa [← hvalue e he]⟩
  · rintro ⟨hle,j,hlt⟩
    refine ⟨fun e he => ?_,Or.inr ⟨_,hentry j,hlt⟩⟩
    rw [hvalue e he]
    exact hle e.1

/-- The loop meant for the other direction makes the same comparisons. -/
theorem otherHappenedBeforeLoop_eq (entries : List (ι × ℕ)) (atLeastOneLess : Bool) :
    otherHappenedBeforeLoop otherVector entries atLeastOneLess =
      happenedBeforeLoop otherVector entries atLeastOneLess := by
  induction entries generalizing atLeastOneLess with
  | nil => rfl
  | cons e rest ih =>
    simp only [otherHappenedBeforeLoop,happenedBeforeLoop]
    cases otherVector.get? e.1 with
    | none => exact ih atLeastOneLess
    | some m =>
      rcases lt_trichotomy e.2 m with hlt | heq | hgt
      · simp [ih,hlt,hlt.not_gt]
      · simp [ih,heq]
      · simp [hgt,hgt.not_gt]

theorem concurrentWith_eq (c : VectorClock ι) (otherVector : Dict ι ℕ) :
    c.concurrentWith otherVector = !c.happenedBefore otherVector := by
  simp [concurrentWith,otherHappenedBefore,otherHappenedBeforeLoop_eq,happenedBefore]

end Comparison

/-- The clocks of a set of nodes that all know each other. -/
def clock (peers : ι → List ι) : Clock ι Unit (VectorClock ι) (Dict ι ℕ) where
  init i := init i (peers i)
  tick c _ := c.tick
  send c _ := c.send
  receive c senderId messageVector _ := c.receive senderId messageVector
  stamp := getVector

section Counts
variable {peers : ι → List ι}

/-- The components count the known events of each node. -/
structure Counts (events : List (Event ι Unit (Dict ι ℕ))) (i : ι) (K : Finset ℕ) (c : VectorClock ι) : Prop where
  nodeId : c.nodeId = i
  full : Full c.vector
  count : ∀ j, component c.vector j = (ofNode events K j).card

theorem Counts.increment {events : List (Event ι Unit (Dict ι ℕ))} {i : ι} {K : Finset ℕ} {c : VectorClock ι}
    (h : Counts events i K c) (hK : Closed events K) {f : Event ι Unit (Dict ι ℕ)} (hf : f.node = i) :
    Counts (events ++ [f]) i (insert events.length K) c.increment where
  nodeId := h.nodeId
  full := full_increment h.full
  count j := by
    subst hf
    rw [component_increment,card_ofNode_insert hK.recorded,h.count,h.nodeId]

theorem keeps_counts (hpeers : ∀ i j, j ≠ i → j ∈ peers i) : (clock peers).Keeps Counts where
  init i := ⟨rfl,full_init (hpeers i),fun j => by simp [clock,component_init,ofNode]⟩
  append events f i K c hK h := ⟨h.nodeId,h.full,fun j => by rw [ofNode_append hK.recorded,h.count]⟩
  tick events i K c _ _ hK h := h.increment hK rfl
  send events i K c _ _ hK h := h.increment hK rfl
  receive events i j k K K' c c' _ hK hK' h h' := by
    refine ⟨h.nodeId,full_receive h.full j _,fun o => ?_⟩
    have hrecorded : ∀ m ∈ K ∪ K', m < events.length := by
      intro m hm
      rcases Finset.mem_union.mp hm with hm | hm
      · exact hK.recorded m hm
      · exact hK'.recorded m hm
    rw [card_ofNode_insert hrecorded,hK.card_ofNode_union hK',← h.count,← h'.count]
    refine (component_receive (h.full o) j c'.vector).trans ?_
    rw [h.nodeId]

/-- The vectors of a run: each is full and counts the past of its event. -/
theorem stamp_of_run (hpeers : ∀ i j, j ≠ i → j ∈ peers i) (schedule : List (Action ι Unit)) {k : ℕ}
    {e : Event ι Unit (Dict ι ℕ)} (he : ((clock peers).history schedule)[k]? = some e) :
    Full e.stamp ∧ ∀ j, component e.stamp j =
      (ofNode ((clock peers).history schedule) (past ((clock peers).history schedule) k) j).card := by
  obtain ⟨c,hc,hstamp⟩ := (System.holds_run (keeps_counts hpeers) schedule).events k e he
  rw [← hstamp]
  exact ⟨hc.full,hc.count⟩

/-- Two events of a run compare by their vectors as by happened-before. -/
theorem precedes_iff_component_lt (hpeers : ∀ i j, j ≠ i → j ∈ peers i) (schedule : List (Action ι Unit)) {k l : ℕ}
    {e f : Event ι Unit (Dict ι ℕ)} (he : ((clock peers).history schedule)[k]? = some e)
    (hf : ((clock peers).history schedule)[l]? = some f) :
    Precedes ((clock peers).history schedule) k l ↔ component e.stamp < component f.stamp := by
  obtain ⟨-,hke⟩ := stamp_of_run hpeers schedule he
  obtain ⟨-,hlf⟩ := stamp_of_run hpeers schedule hf
  rw [precedes_iff,lt_iff_le_not_ge,inPast_iff_card_le he (lt_of_getElem? hf),
    inPast_iff_card_le hf (lt_of_getElem? he)]
  simp only [Pi.le_def,hke,hlf]

end Counts

end VectorClock
end DistributedSystems.Clocks
