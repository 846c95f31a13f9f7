import Mathlib.Order.ConditionallyCompleteLattice.Basic
import DistributedSystems.Protocol.HappenedBefore
import Mathlib.Algebra.Ring.Int.Defs
import Mathlib.Data.Int.ConditionallyCompleteOrder
import Mathlib.Data.Prod.Lex
import Mathlib.Order.Bounds.Basic
import Mathlib.Order.Lattice

/-! # Hybrid logical clocks

A timestamp has a physical time and a logical counter. The physical time of an event is the
largest reading in its causal past, however the readings of the nodes drift or jump back.
-/
namespace DistributedSystems.Clocks
open HappenedBefore Runs

structure HLCTimestamp where
  physical : ℤ
  logical : ℤ
deriving DecidableEq

namespace HLCTimestamp

def lt (t other : HLCTimestamp) : Bool :=
  if t.physical ≠ other.physical then decide (t.physical < other.physical) else decide (t.logical < other.logical)

/-- Physical time first, then the counter. -/
def key (t : HLCTimestamp) : ℤ ×ₗ ℤ := toLex (t.physical,t.logical)

theorem lt_iff (t other : HLCTimestamp) : t.lt other = true ↔ t.key < other.key := by
  rw [key,key,Prod.Lex.toLex_lt_toLex]
  unfold lt
  by_cases h : t.physical = other.physical
  · simp [h]
  · simp [h]

end HLCTimestamp

structure HybridLogicalClock (ι : Type) where
  nodeId : ι
  physical : ℤ
  logical : ℤ

namespace HybridLogicalClock
variable {ι : Type}

def init (nodeId : ι) : HybridLogicalClock ι := ⟨nodeId,0,0⟩

def getTimestamp (c : HybridLogicalClock ι) : HLCTimestamp := ⟨c.physical,c.logical⟩

/-- `pt` is what `_physical_time` reads. -/
def now (c : HybridLogicalClock ι) (pt : ℤ) : HybridLogicalClock ι :=
  if pt > c.physical then { c with physical := pt, logical := 0 } else { c with logical := c.logical + 1 }

def tick (c : HybridLogicalClock ι) (pt : ℤ) : HybridLogicalClock ι := c.now pt

def send (c : HybridLogicalClock ι) (pt : ℤ) : HybridLogicalClock ι := c.now pt

def receive (c : HybridLogicalClock ι) (messageTimestamp : HLCTimestamp) (pt : ℤ) : HybridLogicalClock ι :=
  let maxPhysical := max (max c.physical messageTimestamp.physical) pt
  if maxPhysical = c.physical ∧ maxPhysical = messageTimestamp.physical then
    { c with logical := max c.logical messageTimestamp.logical + 1 }
  else if maxPhysical = c.physical then { c with logical := c.logical + 1 }
  else if maxPhysical = messageTimestamp.physical then
    { c with physical := messageTimestamp.physical, logical := messageTimestamp.logical + 1 }
  else { c with physical := pt, logical := 0 }

theorem physical_now (c : HybridLogicalClock ι) (pt : ℤ) : (c.now pt).physical = max c.physical pt := by
  unfold now
  split
  · rename_i h
    exact (max_eq_right h.le).symm
  · rename_i h
    exact (max_eq_left (not_lt.mp h)).symm

theorem physical_receive (c : HybridLogicalClock ι) (m : HLCTimestamp) (pt : ℤ) :
    (c.receive m pt).physical = max (max c.physical m.physical) pt := by
  simp only [receive]
  split_ifs with h h' h''
  · exact h.1.symm
  · exact h'.symm
  · exact h''.symm
  · -- neither the clock nor the message has the maximum
    dsimp only
    omega

theorem now_increases (c : HybridLogicalClock ι) (pt : ℤ) : c.getTimestamp.key < (c.now pt).getTimestamp.key := by
  rw [HLCTimestamp.key,HLCTimestamp.key,Prod.Lex.toLex_lt_toLex]
  unfold now
  split
  · rename_i h
    exact Or.inl h
  · exact Or.inr ⟨rfl,Int.lt_succ _⟩

theorem receive_increases (c : HybridLogicalClock ι) (m : HLCTimestamp) (pt : ℤ) :
    c.getTimestamp.key < (c.receive m pt).getTimestamp.key ∧ m.key < (c.receive m pt).getTimestamp.key := by
  simp only [HLCTimestamp.key,Prod.Lex.toLex_lt_toLex,getTimestamp,receive]
  split_ifs with h h' h''
  · obtain ⟨hc,hm⟩ := h
    dsimp only
    constructor
    · exact Or.inr ⟨rfl,by omega⟩
    · exact Or.inr ⟨hm.symm.trans hc,by omega⟩
  · dsimp only
    constructor
    · exact Or.inr ⟨rfl,by omega⟩
    · exact Or.inl (by omega)
  · dsimp only
    constructor
    · exact Or.inl (by omega)
    · exact Or.inr ⟨rfl,by omega⟩
  · dsimp only
    constructor
    · exact Or.inl (by omega)
    · exact Or.inl (by omega)

/-- The clocks of all nodes, with arbitrary readings. -/
def clock (ι : Type) : Clock ι ℤ (HybridLogicalClock ι) HLCTimestamp where
  init := init
  tick := tick
  send := send
  receive c _ messageTimestamp pt := c.receive messageTimestamp pt
  stamp := getTimestamp

theorem clock_increasing : (clock ι).Increasing (fun _ _ => True) HLCTimestamp.key where
  tick _ c r _ := now_increases c r
  send _ c r _ := now_increases c r
  receive _ _ c c' r _ _ := receive_increases c c'.getTimestamp r

/-- 0 and the readings taken at some events. -/
def readings (events : List (Event ι ℤ HLCTimestamp)) (K : Set ℕ) : Set ℤ :=
  insert 0 {r | ∃ k ∈ K, ∃ e, events[k]? = some e ∧ e.reading = r}

section Readings
variable {events : List (Event ι ℤ HLCTimestamp)} {f : Event ι ℤ HLCTimestamp} {K K' : Set ℕ}

theorem readings_append (h : ∀ k ∈ K, k < events.length) : readings (events ++ [f]) K = readings events K := by
  refine congrArg (insert 0) (Set.ext fun r => exists_congr fun k => and_congr_right fun hk => ?_)
  rw [List.getElem?_append_left (h k hk)]

theorem readings_insert (h : ∀ k ∈ K, k < events.length) :
    readings (events ++ [f]) (insert events.length K) = insert f.reading (readings events K) := by
  rw [← readings_append h (f := f)]
  ext r
  simp only [readings,Set.mem_insert_iff,Set.mem_ofPred_eq,exists_eq_or_imp,List.getElem?_concat_length,
    Option.some.injEq,exists_eq_left']
  tauto

theorem readings_union : readings events (K ∪ K') = readings events K ∪ readings events K' := by
  unfold readings
  rw [← Set.insert_union_distrib]
  refine congrArg (insert 0) (Set.ext fun r => ?_)
  simp only [Set.mem_union,Set.mem_ofPred_eq,or_and_right,exists_or]

end Readings

/-- The physical time of a clock is the largest known reading. -/
def Tracks (events : List (Event ι ℤ HLCTimestamp)) (_ : ι) (K : Finset ℕ) (c : HybridLogicalClock ι) : Prop :=
  IsGreatest (readings events K) c.physical

theorem Tracks.now {events : List (Event ι ℤ HLCTimestamp)} {i : ι} {K : Finset ℕ} {c : HybridLogicalClock ι}
    (h : Tracks events i K c) (hK : Closed events K) {f : Event ι ℤ HLCTimestamp} :
    Tracks (events ++ [f]) i (insert events.length K) (c.now f.reading) := by
  rw [Tracks,Finset.coe_insert,readings_insert hK.recorded,physical_now,max_comm]
  exact h.insert f.reading

theorem keeps_tracks : (clock ι).Keeps Tracks where
  init i := by simp [Tracks,readings,clock,init]
  append events f i K c hK h := by
    rw [Tracks,readings_append hK.recorded]
    exact h
  tick events i K c _ r hK h := h.now hK
  send events i K c _ r hK h := h.now hK
  receive events i j k K K' c c' r hK hK' h h' := by
    have hrecorded : ∀ m ∈ (K : Set ℕ) ∪ K', m < events.length := by
      rintro m (hm | hm)
      · exact hK.recorded m hm
      · exact hK'.recorded m hm
    have hphysical := physical_receive c c'.getTimestamp r
    rw [max_comm] at hphysical
    rw [Tracks,Finset.coe_insert,Finset.coe_union,readings_insert hrecorded,readings_union]
    refine hphysical ▸ IsGreatest.insert r (h.union h')

/-- An event that precedes another has the smaller timestamp, and the physical time of an
event is the largest reading in its past, or 0. -/
theorem lt_and_isGreatest_of_run [DecidableEq ι] (schedule : List (Action ι ℤ)) :
    (∀ k l e f, Precedes ((clock ι).history schedule) k l → ((clock ι).history schedule)[k]? = some e →
      ((clock ι).history schedule)[l]? = some f → e.stamp.lt f.stamp = true) ∧
    ∀ l f, ((clock ι).history schedule)[l]? = some f →
      IsGreatest (readings ((clock ι).history schedule) {k | InPast ((clock ι).history schedule) k l})
        f.stamp.physical := by
  have htrue : (clock ι).Keeps fun _ _ _ _ => True :=
    Clock.Keeps.of_forall (I := fun _ _ => True) (fun _ => trivial) (fun _ _ _ _ => trivial) (fun _ _ _ _ => trivial)
      (fun _ _ _ _ _ _ _ => trivial)
  constructor
  · intro k l e f hkl he hf
    exact (HLCTimestamp.lt_iff _ _).mpr (System.clock_condition htrue clock_increasing schedule hkl he hf)
  · intro l f hf
    obtain ⟨c,hc,hstamp⟩ := (System.holds_run keeps_tracks schedule).events l f hf
    have hpast : {k | InPast ((clock ι).history schedule) k l} = ↑(past ((clock ι).history schedule) l) :=
      Set.ext fun k => (mem_past (lt_of_getElem? hf)).symm
    rw [hpast,← hstamp]
    exact hc

/-- A node whose clock is behind receives a message and takes an event of its own. -/
theorem stamps_after_message : HLCTimestamp.lt ⟨5,0⟩ ⟨5,2⟩ = true ∧
    IsGreatest (readings ((clock Bool).history [.send false 5,.receive true 0 3,.tick true 1])
      {k | InPast ((clock Bool).history [.send false 5,.receive true 0 3,.tick true 1]) k 2}) 5 := by
  have hrun := lt_and_isGreatest_of_run [.send false 5,.receive true 0 3,.tick true 1]
  have hmessage : Direct ((clock Bool).history [.send false 5,.receive true 0 3,.tick true 1]) 0 1 :=
    ⟨by decide,_,_,rfl,rfl,Or.inr rfl⟩
  have hnode : Direct ((clock Bool).history [.send false 5,.receive true 0 3,.tick true 1]) 1 2 :=
    ⟨by decide,_,_,rfl,rfl,Or.inl rfl⟩
  exact ⟨hrun.1 0 2 _ _ (Relation.TransGen.tail (.single hmessage) hnode) rfl rfl,hrun.2 2 _ rfl⟩

end HybridLogicalClock
end DistributedSystems.Clocks
