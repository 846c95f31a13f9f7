import Mathlib.Order.ConditionallyCompleteLattice.Basic
import DistributedSystems.Protocol.CausalChains
import DistributedSystems.Protocol.HappenedBefore
import Mathlib.Algebra.Ring.Int.Defs
import Mathlib.Data.Int.ConditionallyCompleteOrder
import Mathlib.Data.Prod.Lex
import Mathlib.Data.String.Basic
import Mathlib.Order.RelIso.Basic

/-! # Lamport clocks

A clock is one number that every event moves on, a receiving event beyond the number of the
message. The number of an event counts the events of the longest causal chain up to it.
-/
namespace DistributedSystems.Clocks.Lamport
open Runs HappenedBefore CausalChains

structure LamportClock (ν : Type) where
  nodeId : ν
  time : ℤ

namespace LamportClock
variable {ν : Type}

def init (nodeId : ν) (initialTime : ℤ) : LamportClock ν := ⟨nodeId,initialTime⟩

/-- The clock after a local event, and what is returned. -/
def tick (c : LamportClock ν) : LamportClock ν × ℤ :=
  let time := c.time + 1
  ({ c with time := time },time)

def send (c : LamportClock ν) : LamportClock ν × ℤ :=
  let time := c.time + 1
  ({ c with time := time },time)

def receive (c : LamportClock ν) (messageTimestamp : ℤ) : LamportClock ν × ℤ :=
  let time := max c.time messageTimestamp + 1
  ({ c with time := time },time)

end LamportClock

structure LamportTimestamp (ν : Type) where
  time : ℤ
  nodeId : ν
deriving DecidableEq

namespace LamportTimestamp
variable {ν : Type}

def lt [LT ν] [DecidableLT ν] (a b : LamportTimestamp ν) : Bool :=
  if a.time ≠ b.time then decide (a.time < b.time) else decide (a.nodeId < b.nodeId)

/-- Time first, then the node. -/
def key (a : LamportTimestamp ν) : ℤ ×ₗ ν := toLex (a.time,a.nodeId)

theorem key_injective : Function.Injective (key (ν := ν)) := by
  rintro ⟨time,nodeId⟩ ⟨time',nodeId'⟩ h
  obtain ⟨htime,hnode⟩ := Prod.ext_iff.mp (toLex.injective h)
  cases htime
  cases hnode
  rfl

theorem lt_iff [LinearOrder ν] (a b : LamportTimestamp ν) : a.lt b = true ↔ a.key < b.key := by
  rw [key,key,Prod.Lex.toLex_lt_toLex]
  unfold lt
  by_cases h : a.time = b.time
  · simp [h]
  · simp [h]

end LamportTimestamp

/-- The clocks of nodes with these identifiers; messages carry what `send` returns. -/
def clock {ι ν : Type} (nodeId : ι → ν) (initialTime : ℤ) : Clock ι Unit (LamportClock ν) ℤ where
  init i := .init (nodeId i) initialTime
  tick c _ := c.tick.1
  send c _ := c.send.1
  receive c _ messageTimestamp _ := (c.receive messageTimestamp).1
  stamp := LamportClock.time

section Events
variable {ι ν : Type} {nodeId : ι → ν} {initialTime : ℤ}

/-- Events are stamped with what the calls return. -/
theorem stamp_eq_returned (c : LamportClock ν) (j : ι) (messageTimestamp : ℤ) :
    (clock nodeId initialTime).stamp ((clock nodeId initialTime).tick c ()) = c.tick.2 ∧
    (clock nodeId initialTime).stamp ((clock nodeId initialTime).send c ()) = c.send.2 ∧
    (clock nodeId initialTime).stamp ((clock nodeId initialTime).receive c j messageTimestamp ()) =
      (c.receive messageTimestamp).2 :=
  ⟨rfl,rfl,rfl⟩

theorem clock_increasing : (clock nodeId initialTime).Increasing (fun _ _ => True) (id : ℤ → ℤ) where
  tick _ c _ _ := Int.lt_succ c.time
  send _ c _ _ := Int.lt_succ c.time
  receive _ _ c c' _ _ _ :=
    ⟨(le_max_left c.time c'.time).trans_lt (Int.lt_succ _),(le_max_right c.time c'.time).trans_lt (Int.lt_succ _)⟩

/-- Each clock shows the last event of its node, and each event is one beyond an event just
before it, or the first. -/
structure Heights (initialTime : ℤ) (s : System ι Unit (LamportClock ν) ℤ) : Prop where
  clocks : ∀ i, (s.clocks i).time = initialTime ∨
    ∃ (k : ℕ) (e : Event ι Unit ℤ), s.events[k]? = some e ∧ e.node = i ∧ e.stamp = (s.clocks i).time
  events : ∀ (l : ℕ) (f : Event ι Unit ℤ), s.events[l]? = some f → initialTime < f.stamp ∧ (f.stamp = initialTime + 1 ∨
    ∃ (k : ℕ) (e : Event ι Unit ℤ), Direct s.events k l ∧ s.events[k]? = some e ∧ f.stamp = e.stamp + 1)

theorem heights_init : Heights initialTime (System.init (clock nodeId initialTime)) :=
  ⟨fun _ => Or.inl rfl,fun _ _ h => absurd h (by simp [System.init])⟩

variable [DecidableEq ι]

theorem stamp_lt_of_precedes (schedule : List (Action ι Unit)) {k l : ℕ} {e f : Event ι Unit ℤ}
    (hkl : Precedes ((clock nodeId initialTime).history schedule) k l)
    (he : ((clock nodeId initialTime).history schedule)[k]? = some e)
    (hf : ((clock nodeId initialTime).history schedule)[l]? = some f) : e.stamp < f.stamp := by
  have hkeeps : (clock nodeId initialTime).Keeps fun _ _ _ _ => True :=
    Clock.Keeps.of_forall (fun _ => trivial) (fun _ _ _ _ => trivial) (fun _ _ _ _ => trivial)
      (fun _ _ _ _ _ _ _ => trivial)
  exact System.clock_condition hkeeps clock_increasing schedule hkl he hf

theorem Heights.record {s : System ι Unit (LamportClock ν) ℤ} (h : Heights initialTime s) {i : ι} {sent : Bool}
    {received : Option ℕ} {c : LamportClock ν} {t : ℤ} (hc : c.time = t + 1)
    (ht : t = initialTime ∨ ∃ (k : ℕ) (e : Event ι Unit ℤ),
      s.events[k]? = some e ∧ (e.node = i ∨ received = some k) ∧ e.stamp = t) :
    Heights initialTime (s.record (clock nodeId initialTime) i sent received () c) := by
  constructor
  · intro j
    by_cases hj : j = i
    · subst j
      rw [System.record_clocks_self]
      exact Or.inr ⟨s.events.length,_,List.getElem?_concat_length,rfl,rfl⟩
    · rw [System.record_clocks_ne _ s sent received () c hj]
      rcases h.clocks j with hinit | ⟨k,e,he,hnode,hstamp⟩
      · exact Or.inl hinit
      · exact Or.inr ⟨k,e,eventAt_append.mpr (Or.inl he),hnode,hstamp⟩
  · intro l f hf
    rcases eventAt_append.mp hf with hf | ⟨rfl,rfl⟩
    · obtain ⟨hlt,hfirst | ⟨k,e,hkl,he,hstamp⟩⟩ := h.events l f hf
      · exact ⟨hlt,Or.inl hfirst⟩
      · have hl := lt_of_getElem? hf
        exact ⟨hlt,Or.inr ⟨k,e,(direct_append hl).mpr hkl,eventAt_append.mpr (Or.inl he),hstamp⟩⟩
    · change initialTime < c.time ∧ (c.time = initialTime + 1 ∨ _)
      rw [hc]
      rcases ht with rfl | ⟨k,e,he,hor,rfl⟩
      · exact ⟨Int.lt_succ _,Or.inl rfl⟩
      · have hlt := (h.events k e he).1
        exact ⟨hlt.trans (Int.lt_succ _),
          Or.inr ⟨k,e,direct_last.mpr ⟨e,he,hor⟩,eventAt_append.mpr (Or.inl he),hc⟩⟩

theorem Heights.step {s : System ι Unit (LamportClock ν) ℤ} (h : Heights initialTime s) (a : Action ι Unit) :
    Heights initialTime (s.step (clock nodeId initialTime) a) := by
  have hshown : ∀ (i : ι) (received : Option ℕ), (s.clocks i).time = initialTime ∨
      ∃ (k : ℕ) (e : Event ι Unit ℤ),
        s.events[k]? = some e ∧ (e.node = i ∨ received = some k) ∧ e.stamp = (s.clocks i).time := by
    intro i received
    rcases h.clocks i with hinit | ⟨k,e,he,hnode,hstamp⟩
    · exact Or.inl hinit
    · exact Or.inr ⟨k,e,he,Or.inl hnode,hstamp⟩
  rcases s.step_cases (clock nodeId initialTime) a with hs | ⟨i,sent,r,c,hc,hs⟩ | ⟨i,k,e,r,he,hs⟩
  · rw [hs]
    exact h
  · rw [hs]
    have htime : c.time = (s.clocks i).time + 1 := by
      rcases hc with rfl | rfl
      · rfl
      · rfl
    exact h.record htime (hshown i none)
  · rw [hs]
    -- the larger of the two numbers belongs to an event just before this one, or is the initial time
    rcases le_total e.stamp (s.clocks i).time with hle | hle
    · exact h.record (congrArg (· + 1) (max_eq_left hle)) (hshown i (some k))
    · exact h.record (congrArg (· + 1) (max_eq_right hle)) (Or.inr ⟨k,e,he,Or.inr rfl,rfl⟩)

theorem heights (schedule : List (Action ι Unit)) :
    Heights initialTime
      (run (System.step (clock nodeId initialTime)) (System.init (clock nodeId initialTime)) schedule) :=
  run_invariant_of_step (I := Heights initialTime) (fun _ a h => h.step a) heights_init schedule

/-- An event is as far above the initial time as some event is high. -/
def AtHeight (initialTime : ℤ) (events : List (Event ι Unit ℤ)) (l n : ℕ) : Prop :=
  ∃ e, events[l]? = some e ∧ e.stamp = initialTime + n

theorem height (schedule : List (Action ι Unit)) :
    Height (Precedes ((clock nodeId initialTime).history schedule))
      (Direct ((clock nodeId initialTime).history schedule))
      (AtHeight initialTime ((clock nodeId initialTime).history schedule)) := by
  have h : Heights initialTime (run (System.step (clock nodeId initialTime)) _ schedule) := heights schedule
  constructor
  · rintro l n ⟨e,he,hn⟩
    have hlt := (h.events l e he).1
    omega
  · rintro k l m n hkl ⟨e,he,hm⟩ ⟨f,hf,hn⟩
    have hlt := stamp_lt_of_precedes schedule hkl he hf
    omega
  · intro k l hkl
    obtain ⟨j,⟨_,e,_,he,_,_⟩,_⟩ := Relation.TransGen.head'_iff.mp hkl
    obtain ⟨m,hm⟩ := Int.le.dest (h.events k e he).1.le
    exact ⟨m,e,he,hm.symm⟩
  · exact fun k l hkl => Relation.TransGen.single hkl
  · rintro l n ⟨f,hf,hn⟩
    rcases (h.events l f hf).2 with hfirst | ⟨k,e,hkl,he,hstamp⟩
    · exact Or.inl (by omega)
    · obtain ⟨m,hm⟩ := Int.le.dest (h.events k e he).1.le
      exact Or.inr ⟨k,m,hkl,⟨e,he,hm.symm⟩,by omega⟩

theorem exists_atHeight (schedule : List (Action ι Unit)) {l : ℕ} {e : Event ι Unit ℤ}
    (he : ((clock nodeId initialTime).history schedule)[l]? = some e) :
    ∃ n, AtHeight initialTime ((clock nodeId initialTime).history schedule) l n := by
  have h : Heights initialTime (run (System.step (clock nodeId initialTime)) _ schedule) := heights schedule
  obtain ⟨n,hn⟩ := Int.le.dest (h.events l e he).1.le
  exact ⟨n,e,he,hn.symm⟩

end Events

section Ordering
variable {ι ν : Type} [DecidableEq ι] {initialTime : ℤ}

/-- The timestamp of an event, with the identifier of its node. -/
def timestamp (nodeId : ι → ν) (e : Event ι Unit ℤ) : LamportTimestamp ν := ⟨e.stamp,nodeId e.node⟩

/-- No two events have the same time and the same node. -/
theorem timestamp_injective {nodeId : ι → ν} (hid : Function.Injective nodeId) (schedule : List (Action ι Unit)) :
    Function.Injective fun k : Fin ((clock nodeId initialTime).history schedule).length =>
      timestamp nodeId ((clock nodeId initialTime).history schedule)[k] := by
  intro k l h
  obtain ⟨hstamp,hnode⟩ := (LamportTimestamp.mk.injEq ..).mp h
  have he := List.getElem?_eq_getElem k.isLt
  have hf := List.getElem?_eq_getElem l.isLt
  -- of two events of one node the later one has the larger time
  rcases lt_trichotomy k.val l.val with hkl | hkl | hlk
  · have hdirect : Direct _ k l := ⟨hkl,_,_,he,hf,Or.inl (hid hnode)⟩
    exact absurd hstamp (stamp_lt_of_precedes schedule (.single hdirect) he hf).ne
  · exact Fin.ext hkl
  · have hdirect : Direct _ l k := ⟨hlk,_,_,hf,he,Or.inl (hid hnode).symm⟩
    exact absurd hstamp.symm (stamp_lt_of_precedes schedule (.single hdirect) hf he).ne

theorem timestamp_order [LinearOrder ν] {nodeId : ι → ν} (hid : Function.Injective nodeId)
    (schedule : List (Action ι Unit)) :
    IsStrictTotalOrder (Fin ((clock nodeId initialTime).history schedule).length) fun k l =>
      (timestamp nodeId ((clock nodeId initialTime).history schedule)[k]).lt
        (timestamp nodeId ((clock nodeId initialTime).history schedule)[l]) = true :=
  RelEmbedding.isStrictTotalOrder (s := ((· < ·) : ℤ ×ₗ ν → ℤ ×ₗ ν → Prop))
    ⟨⟨_,LamportTimestamp.key_injective.comp (timestamp_injective hid schedule)⟩,
      fun {_ _} => (LamportTimestamp.lt_iff _ _).symm⟩

/-- Times grow along causality, timestamps order all events and extend it, and a time counts
the events of the longest causal chain. -/
theorem lamport_clock_condition [LinearOrder ν] {nodeId : ι → ν} (hid : Function.Injective nodeId)
    (schedule : List (Action ι Unit)) :
    let events := (clock nodeId initialTime).history schedule
    (∀ k l : Fin events.length, Precedes events k l → events[k].stamp < events[l].stamp) ∧
    (Function.Injective fun k : Fin events.length => timestamp nodeId events[k]) ∧
    IsStrictTotalOrder (Fin events.length)
      (fun k l => (timestamp nodeId events[k]).lt (timestamp nodeId events[l]) = true) ∧
    (∀ k l : Fin events.length, Precedes events k l →
      (timestamp nodeId events[k]).lt (timestamp nodeId events[l]) = true) ∧
    ∀ l : Fin events.length, ∃ n, IsGreatest {n | ChainTo (Precedes events) n l} n ∧
      events[l].stamp = initialTime + n := by
  intro events
  have hlt : ∀ k l : Fin events.length, Precedes events k l → events[k].stamp < events[l].stamp := fun k l hkl =>
    stamp_lt_of_precedes schedule hkl (List.getElem?_eq_getElem k.isLt) (List.getElem?_eq_getElem l.isLt)
  refine ⟨hlt,timestamp_injective hid schedule,timestamp_order hid schedule,fun k l hkl => ?_,fun l => ?_⟩
  · rw [LamportTimestamp.lt_iff,LamportTimestamp.key,LamportTimestamp.key,Prod.Lex.toLex_lt_toLex]
    exact Or.inl (hlt k l hkl)
  · have hl : events[l.val]? = some events[l] := List.getElem?_eq_getElem l.isLt
    obtain ⟨n,hn⟩ := exists_atHeight schedule hl
    obtain ⟨e,he,hstamp⟩ := hn
    rw [hl] at he
    cases he
    exact ⟨n,(height schedule).isGreatest ⟨_,hl,hstamp⟩,hstamp⟩

/-- A message from one node to another, received twice, the second time after a local event. -/
theorem lamport_clock_condition_two_nodes :
    ((clock (fun b : Bool => if b then "B" else "A") 5).history
      [.send true (),.receive false 0 (),.tick false (),.receive false 0 ()]).map Event.stamp = [6,7,8,9] ∧
    Function.Injective fun k : Fin ((clock (fun b : Bool => if b then "B" else "A") 5).history
        [.send true (),.receive false 0 (),.tick false (),.receive false 0 ()]).length =>
      timestamp (fun b : Bool => if b then "B" else "A")
        ((clock (fun b : Bool => if b then "B" else "A") 5).history
          [.send true (),.receive false 0 (),.tick false (),.receive false 0 ()])[k] :=
  ⟨by decide,(lamport_clock_condition (fun i j h => by revert i j; decide) _).2.1⟩

end Ordering
end DistributedSystems.Clocks.Lamport
