import DistributedSystems.Clocks.HybridClock
import DistributedSystems.Clocks.VectorClock

/-! # The causality analyzer

Events are recorded by identifier with a timestamp of one of three kinds. Timestamps of
different kinds are never ordered.
-/
namespace DistributedSystems.Clocks
open HappenedBefore Runs

variable {ι : Type} [DecidableEq ι]

inductive Timestamp (ι : Type) [DecidableEq ι]
  | lamport (t : ℤ)
  | vector (v : Dict ι ℕ)
  | hybrid (t : HLCTimestamp)

structure ValueError where
  message : String

structure CausalityAnalyzer (ι : Type) [DecidableEq ι] where
  timestamps : Dict String (Timestamp ι)

namespace CausalityAnalyzer

def addEvent (a : CausalityAnalyzer ι) (eventId : String) (timestamp : Timestamp ι) : CausalityAnalyzer ι :=
  ⟨a.timestamps.insert eventId timestamp⟩

/-- A component that a vector lacks counts as 0. -/
def vectorHappensBefore (vc1 vc2 : Dict ι ℕ) : Bool :=
  let keys := vc1.keys ++ vc2.keys
  let le := keys.all fun k => component vc1 k ≤ component vc2 k
  let lt := keys.any fun k => component vc1 k < component vc2 k
  le && lt

def happensBefore (a : CausalityAnalyzer ι) (eventA eventB : String) : Except ValueError Bool :=
  match a.timestamps.get? eventA,a.timestamps.get? eventB with
  | some tsA,some tsB =>
    match tsA,tsB with
    | .lamport s,.lamport t => .ok (decide (s < t))
    | .vector v,.vector w => .ok (vectorHappensBefore v w)
    | .hybrid s,.hybrid t => .ok (s.lt t)
    | _,_ => .ok false
  | _,_ => .error ⟨"Event ID not found"⟩

/-- The second test is made only if the first one fails. -/
def concurrent (a : CausalityAnalyzer ι) (eventA eventB : String) : Except ValueError Bool := do
  if ← a.happensBefore eventA eventB then return false
  return !(← a.happensBefore eventB eventA)

/-- The test is the strict order of the components, over every node that has one. -/
theorem vectorHappensBefore_iff (vc1 vc2 : Dict ι ℕ) :
    vectorHappensBefore vc1 vc2 = true ↔ component vc1 < component vc2 := by
  have hzero : ∀ (d : Dict ι ℕ) (k : ι), k ∉ d.keys → component d k = 0 := by
    intro d k hk
    unfold component
    cases h : d.get? k with
    | none => rfl
    | some n => exact absurd (Dict.mem_keys_iff.mpr ⟨n,h⟩) hk
  have hout : ∀ k, k ∉ vc1.keys ++ vc2.keys → component vc1 k = 0 ∧ component vc2 k = 0 := by
    intro k hk
    rw [List.mem_append,not_or] at hk
    exact ⟨hzero vc1 k hk.1,hzero vc2 k hk.2⟩
  simp only [vectorHappensBefore,Bool.and_eq_true,List.all_eq_true,List.any_eq_true,decide_eq_true_eq,Pi.lt_def]
  constructor
  · rintro ⟨hle,k,-,hlt⟩
    refine ⟨fun j => ?_,k,hlt⟩
    by_cases hj : j ∈ vc1.keys ++ vc2.keys
    · exact hle j hj
    · rw [(hout j hj).1]
      exact Nat.zero_le _
  · rintro ⟨hle,k,hlt⟩
    refine ⟨fun j _ => hle j,k,?_,hlt⟩
    by_contra hk
    rw [(hout k hk).1,(hout k hk).2] at hlt
    exact lt_irrefl _ hlt

/-- The two comparisons of full vectors, one a loop and one over a set of keys, agree. -/
theorem vectorHappensBefore_eq {c : VectorClock ι} (hc : VectorClock.Full c.vector) {v : Dict ι ℕ}
    (hv : VectorClock.Full v) : vectorHappensBefore c.vector v = c.happenedBefore v := by
  rw [Bool.eq_iff_iff,vectorHappensBefore_iff,VectorClock.happenedBefore_iff hc hv]

end CausalityAnalyzer

namespace VectorClock
variable {peers : ι → List ι}

/-- Every comparison of the vectors of two events says how happened-before orders them. -/
def Characterises (events : List (Event ι Unit (Dict ι ℕ))) (k l : ℕ) (c : VectorClock ι) (v : Dict ι ℕ) : Prop :=
  (Precedes events k l ↔ c.happenedBefore v = true) ∧
  CausalityAnalyzer.vectorHappensBefore c.vector v = c.happenedBefore v ∧
  (c.concurrentWith v = true ↔ ¬Precedes events k l ∧ ¬Precedes events l k)

/-- `concurrent_with` misses that the other event came first; all else is right. -/
theorem characterises_iff (hpeers : ∀ i j, j ≠ i → j ∈ peers i) (schedule : List (Action ι Unit)) {k l : ℕ}
    {e f : Event ι Unit (Dict ι ℕ)} (he : ((clock peers).history schedule)[k]? = some e)
    (hf : ((clock peers).history schedule)[l]? = some f) {c : VectorClock ι} (hc : c.vector = e.stamp) :
    Characterises ((clock peers).history schedule) k l c f.stamp ↔
      ¬Precedes ((clock peers).history schedule) l k := by
  have hfull : Full c.vector := hc ▸ (stamp_of_run hpeers schedule he).1
  have hfull' : Full f.stamp := (stamp_of_run hpeers schedule hf).1
  have hbefore : Precedes ((clock peers).history schedule) k l ↔ c.happenedBefore f.stamp = true := by
    rw [happenedBefore_iff hfull hfull',hc]
    exact precedes_iff_component_lt hpeers schedule he hf
  have hconcurrent : c.concurrentWith f.stamp = true ↔ ¬Precedes ((clock peers).history schedule) k l := by
    rw [concurrentWith_eq,hbefore]
    simp
  unfold Characterises
  rw [hconcurrent]
  constructor
  · rintro ⟨-,-,h⟩ hlk
    have hkl' : ¬Precedes ((clock peers).history schedule) k l := fun h' => absurd h'.lt (not_lt.mpr hlk.lt.le)
    exact (h.mp hkl').2 hlk
  · intro hlk
    exact ⟨hbefore,CausalityAnalyzer.vectorHappensBefore_eq hfull hfull',fun h => ⟨h,hlk⟩,And.left⟩

/-- A node ticks and sends, another one receives its message after a third one has ticked: the
vector of the sending comes before that of the receipt, that of the third node is concurrent to it. -/
theorem characterises_receipt :
    let peers : Fin 3 → List (Fin 3) := fun i => [i + 1,i + 2]
    let schedule : List (HappenedBefore.Action (Fin 3) Unit) := [.tick 0 (),.send 0 (),.tick 2 (),.receive 1 1 ()]
    let receipt := ((init 1 (peers 1)).receive 0 (init 0 (peers 0)).tick.send.vector).vector
    Characterises ((clock peers).history schedule) 1 3 (init 0 (peers 0)).tick.send receipt ∧
      Characterises ((clock peers).history schedule) 2 3 (init 2 (peers 2)).tick receipt := by
  intro peers schedule receipt
  have hpeers : ∀ i j, j ≠ i → j ∈ peers i := by decide
  constructor
  · exact (@characterises_iff (Fin 3) _ peers hpeers schedule 1 3 _ _ rfl rfl _ rfl).mpr fun h => absurd h.lt (by decide)
  · exact (@characterises_iff (Fin 3) _ peers hpeers schedule 2 3 _ _ rfl rfl _ rfl).mpr fun h => absurd h.lt (by decide)

/-- The later of two events of a node is said to be concurrent with the earlier one. -/
theorem not_forall_characterises : ¬∀ (peers : Bool → List Bool) (schedule : List (HappenedBefore.Action Bool Unit)) (k l : ℕ)
    (e f : Event Bool Unit (Dict Bool ℕ)) (c : VectorClock Bool), (∀ i j, j ≠ i → j ∈ peers i) → k ≠ l →
    ((clock peers).history schedule)[k]? = some e → ((clock peers).history schedule)[l]? = some f →
    c.vector = e.stamp → Characterises ((clock peers).history schedule) k l c f.stamp := by
  intro h
  obtain ⟨-,-,hconcurrent⟩ := h (fun i => [!i]) [.tick false (),.tick false ()] 1 0 _ _ (init false [true]).tick.tick
    (by decide) (by decide) rfl rfl rfl
  refine (hconcurrent.mp rfl).2 (Relation.TransGen.single ⟨by decide,_,_,rfl,rfl,Or.inl rfl⟩)

end VectorClock

/-- The analyzer asks about both directions: its answers about the events of a run are right. -/
theorem CausalityAnalyzer.happensBefore_of_run {peers : ι → List ι} (hpeers : ∀ i j, j ≠ i → j ∈ peers i)
    (schedule : List (Action ι Unit)) {k l : ℕ} {e f : Event ι Unit (Dict ι ℕ)}
    (he : ((VectorClock.clock peers).history schedule)[k]? = some e)
    (hf : ((VectorClock.clock peers).history schedule)[l]? = some f) {a : CausalityAnalyzer ι} {eventA eventB : String}
    (hA : a.timestamps.get? eventA = some (.vector e.stamp)) (hB : a.timestamps.get? eventB = some (.vector f.stamp)) :
    (∃ b, a.happensBefore eventA eventB = .ok b ∧ (b = true ↔ Precedes ((VectorClock.clock peers).history schedule) k l)) ∧
    ∃ b, a.concurrent eventA eventB = .ok b ∧ (b = true ↔
      ¬Precedes ((VectorClock.clock peers).history schedule) k l ∧
      ¬Precedes ((VectorClock.clock peers).history schedule) l k) := by
  have hAB : a.happensBefore eventA eventB = .ok (vectorHappensBefore e.stamp f.stamp) := by
    simp [happensBefore,hA,hB]
  have hBA : a.happensBefore eventB eventA = .ok (vectorHappensBefore f.stamp e.stamp) := by
    simp [happensBefore,hA,hB]
  have hconcurrent : a.concurrent eventA eventB =
      .ok (!vectorHappensBefore e.stamp f.stamp && !vectorHappensBefore f.stamp e.stamp) := by
    cases h : vectorHappensBefore e.stamp f.stamp with
    | true => simp [concurrent,hAB,h,bind,Except.bind,pure,Except.pure]
    | false => simp [concurrent,hAB,hBA,h,bind,Except.bind,pure,Except.pure]
  rw [VectorClock.precedes_iff_component_lt hpeers schedule he hf,
    VectorClock.precedes_iff_component_lt hpeers schedule hf he,← vectorHappensBefore_iff,← vectorHappensBefore_iff]
  exact ⟨⟨_,hAB,Iff.rfl⟩,_,hconcurrent,by simp⟩

end DistributedSystems.Clocks
