import DistributedSystems.Protocol.Runs
import DistributedSystems.Protocol.SetsByKey

/-! # The books of the deadlock detector

`held_by` and `holding` record one relation from its two sides. Recording a lock overwrites the
holder of the resource, but leaves the resource with the process that held it before.
-/
namespace DistributedSystems.Locks
open Runs

/-- Who waits for what and who holds what. -/
structure DeadlockDetector (P R : Type) where
  waitingFor : Dict P (Finset R)
  heldBy : Dict R P
  holding : Dict P (Finset R)

/-- A call of `acquire_with_timeout` looks at the resource again and again; each look is an
action of its own. -/
inductive DetectorAction (P R : Type)
  | recordLockOrder (process : P) (resource : R)
  | recordWait (process : P) (resource : R)
  | releaseLock (process : P) (resource : R)
  | acquireWithTimeout (process : P) (resource : R)

namespace DeadlockDetector
variable {P R : Type} [DecidableEq P] [DecidableEq R]

omit [DecidableEq P] [DecidableEq R] in
def init : DeadlockDetector P R := ⟨Dict.empty,Dict.empty,Dict.empty⟩

def recordLockOrder (d : DeadlockDetector P R) (process : P) (resource : R) : DeadlockDetector P R where
  heldBy := d.heldBy.insert resource process
  holding := d.holding.addTo process resource
  waitingFor := d.waitingFor.removeFrom process resource

def recordWait (d : DeadlockDetector P R) (process : P) (resource : R) : DeadlockDetector P R :=
  { d with waitingFor := d.waitingFor.addTo process resource }

def releaseLock (d : DeadlockDetector P R) (process : P) (resource : R) : DeadlockDetector P R :=
  { d with
    heldBy := if d.heldBy.get? resource = some process then d.heldBy.erase resource else d.heldBy
    holding := d.holding.removeFrom process resource }

/-- One look of `acquire_with_timeout`, which succeeds if nobody holds the resource. -/
def acquireWithTimeout (d : DeadlockDetector P R) (process : P) (resource : R) : DeadlockDetector P R × Bool :=
  if d.heldBy.get? resource = none then (d.recordLockOrder process resource,true) else (d,false)

def step (d : DeadlockDetector P R) : DetectorAction P R → DeadlockDetector P R
  | .recordLockOrder process resource => d.recordLockOrder process resource
  | .recordWait process resource => d.recordWait process resource
  | .releaseLock process resource => d.releaseLock process resource
  | .acquireWithTimeout process resource => (d.acquireWithTimeout process resource).1

/-- Both sides of the relation agree, and no set is empty. -/
structure Consistent (d : DeadlockDetector P R) : Prop where
  agree : ∀ p r, d.heldBy.get? r = some p ↔ d.holding.Has p r
  holding : d.holding.NoneEmpty
  waiting : d.waitingFor.NoneEmpty

/-- Nobody else holds the resource. -/
def Available (d : DeadlockDetector P R) (process : P) (resource : R) : Prop :=
  ∀ holder ∈ d.heldBy.get? resource, holder = process

/-- A lock is recorded for a process only while no other process holds it. -/
def Guarded (d : DeadlockDetector P R) : DetectorAction P R → Prop
  | .recordLockOrder process resource => d.Available process resource
  | _ => True

variable {d : DeadlockDetector P R} {process : P} {resource : R}

theorem consistent_init : (init : DeadlockDetector P R).Consistent :=
  ⟨fun p r => ⟨fun h => (nomatch h),fun h => absurd h (Dict.not_has_empty p r)⟩,Dict.noneEmpty_empty,
    Dict.noneEmpty_empty⟩

/-- A resource is in the set of one process at most. -/
theorem Consistent.holder_unique (h : d.Consistent) {p q : P} {r : R} (hp : d.holding.Has p r)
    (hq : d.holding.Has q r) : p = q :=
  Option.some.inj (((h.agree p r).mpr hp).symm.trans ((h.agree q r).mpr hq))

/-- The former holder would keep the resource in its set. -/
theorem consistent_recordLockOrder (h : d.Consistent) :
    (d.recordLockOrder process resource).Consistent ↔ d.Available process resource := by
  constructor
  · intro h' holder hholder
    have hadded : (d.recordLockOrder process resource).holding.Has process resource :=
      (Dict.has_addTo ..).mpr (Or.inl ⟨rfl,rfl⟩)
    have hkept : (d.recordLockOrder process resource).holding.Has holder resource :=
      (Dict.has_addTo ..).mpr (Or.inr ((h.agree holder resource).mp hholder))
    exact h'.holder_unique hkept hadded
  · intro havailable
    refine ⟨fun p r => ?_,h.holding.addTo _ _,h.waiting.removeFrom _ _⟩
    change (d.heldBy.insert resource process).get? r = some p ↔ (d.holding.addTo process resource).Has p r
    rw [Dict.get?_insert,Dict.has_addTo,← h.agree]
    by_cases hr : r = resource
    · subst r
      rw [if_pos rfl,Option.some_inj]
      constructor
      · rintro rfl
        exact Or.inl ⟨rfl,rfl⟩
      · rintro (⟨rfl,-⟩ | hp)
        · rfl
        · exact (havailable p hp).symm
    · simp [hr]

theorem Consistent.recordWait (h : d.Consistent) : (d.recordWait process resource).Consistent :=
  ⟨h.agree,h.holding,h.waiting.addTo _ _⟩

/-- Both sides lose the resource, or neither does. -/
theorem Consistent.releaseLock (h : d.Consistent) : (d.releaseLock process resource).Consistent := by
  refine ⟨fun p r => ?_,h.holding.removeFrom _ _,h.waiting⟩
  change (if d.heldBy.get? resource = some process then d.heldBy.erase resource else d.heldBy).get? r = some p ↔
    (d.holding.removeFrom process resource).Has p r
  rw [Dict.has_removeFrom,← h.agree]
  by_cases hholds : d.heldBy.get? resource = some process
  · rw [if_pos hholds,Dict.get?_erase]
    by_cases hr : r = resource
    · subst r
      simp [hholds,eq_comm]
    · simp [hr]
  · rw [if_neg hholds]
    refine ⟨fun hp => ⟨?_,hp⟩,And.right⟩
    rintro ⟨rfl,rfl⟩
    exact hholds hp

theorem Consistent.acquireWithTimeout (h : d.Consistent) : (d.acquireWithTimeout process resource).1.Consistent := by
  unfold DeadlockDetector.acquireWithTimeout
  split
  · rename_i hfree
    refine (consistent_recordLockOrder h).mpr fun holder hholder => ?_
    rw [hfree] at hholder
    cases hholder
  · exact h

/-- What each action keeps. -/
theorem consistent_step (h : d.Consistent) (a : DetectorAction P R) : (d.step a).Consistent ↔ d.Guarded a := by
  cases a with
  | recordLockOrder process resource => exact consistent_recordLockOrder h
  | recordWait process resource => exact iff_of_true h.recordWait trivial
  | releaseLock process resource => exact iff_of_true h.releaseLock trivial
  | acquireWithTimeout process resource => exact iff_of_true h.acquireWithTimeout trivial

/-- The books are right after every step exactly when no lock is recorded for a process while
another one holds it. -/
theorem consistent_iff (schedule : List (DetectorAction P R)) :
    Along step (fun d a => (d.step a).Consistent) init schedule ↔ Along step Guarded init schedule :=
  along_kept_iff (Q := Consistent) (fun _ a h => consistent_step h a) consistent_init

/-- The second process takes over the resource and the first one keeps it. -/
theorem taken_over_inconsistent :
    ¬∀ schedule : List (DetectorAction String String), (run step init schedule).Consistent := by
  intro h
  have hconsistent := h [.recordLockOrder "A" "resource1",.recordLockOrder "B" "resource1"]
  have hagree := (hconsistent.agree "A" "resource1").mpr (by decide)
  revert hagree
  decide

end DeadlockDetector

end DistributedSystems.Locks
