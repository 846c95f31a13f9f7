import DistributedSystems.Locks.DistributedLock
import DistributedSystems.Protocol.Runs
import Mathlib.Algebra.GroupWithZero.Nat
import Mathlib.Data.Nat.Basic

/-! # Locks by name

`acquire_lock` acquires and reads the token in two steps, and `release_lock` hands on
whatever value it is given. Clients pass to it what their own calls returned, which is no
token if the call gave up or its hold has expired before the token is read.
-/
namespace DistributedSystems.Locks
open Runs

/-- What a call of `acquire_lock` does next. -/
inductive AcquireStage (T : Type)
  | acquire (call : Acquire T)
  | getToken

structure PendingLock (T : Type) where
  client : ℕ
  resource : ℕ
  stage : AcquireStage T

/-- What a call of `acquire_lock` has returned. -/
structure LockResult where
  client : ℕ
  resource : ℕ
  value : Option Uuid
  deriving DecidableEq

/-- The manager and its clients. The lock of a resource is there from the start instead of
from the first call of `get_lock`. -/
structure LockManager (T : Type) where
  locks : ℕ → DistributedLock T
  calls : List (PendingLock T)
  returned : List LockResult
  drawn : ℕ
  time : T

/-- A call of `release_lock` takes its value from an earlier return; `get_locks_held` calls
`get_owner` of one lock after the other. -/
inductive ManagerAction (T : Type)
  | acquireLock (client resource : ℕ) (named : Bool) (timeoutSec : T)
  | advance (k : ℕ)
  | releaseLock (k : ℕ)
  | getOwner (resource : ℕ)
  | elapse (time : T)

variable {T : Type} [Add T] [Sub T] [Zero T] [LinearOrder T]

namespace LockManager

def init (ttlSec timeoutSec time : T) : LockManager T := ⟨fun _ => .init ttlSec timeoutSec,[],[],0,time⟩

def setLock (s : LockManager T) (resource : ℕ) (l : DistributedLock T) : LockManager T :=
  { s with locks := Function.update s.locks resource l }

def acquireLock (s : LockManager T) (client resource : ℕ) (named : Bool) (timeoutSec : T) : LockManager T :=
  let owner := if named then .named client else .drawn ⟨client,s.drawn⟩
  let call := (s.locks resource).acquire (some owner) (some timeoutSec) true none ⟨client,s.drawn⟩ s.time
  { s with calls := s.calls ++ [⟨client,resource,.acquire call⟩], drawn := s.drawn + 1 }

/-- The pending call at position `k` returns a value. -/
def finish (s : LockManager T) (k : ℕ) (p : PendingLock T) (value : Option Uuid) : LockManager T :=
  { s with calls := s.calls.eraseIdx k, returned := s.returned ++ [⟨p.client,p.resource,value⟩] }

def advance (s : LockManager T) (k : ℕ) (p : PendingLock T) : LockManager T :=
  match p.stage with
  | .acquire call =>
    let r := call.advance (s.locks p.resource) ⟨p.client,s.drawn⟩ s.time
    let s := { s.setLock p.resource r.1 with drawn := s.drawn + 1 }
    match r.2 with
    | .waits call => { s with calls := s.calls.set k { p with stage := .acquire call } }
    | .returns true => { s with calls := s.calls.set k { p with stage := .getToken } }
    | .returns false => s.finish k p none
  | .getToken =>
    let r := (s.locks p.resource).getToken s.time
    (s.setLock p.resource r.1).finish k p r.2

/-- An error of `release` is swallowed. -/
def releaseLock (s : LockManager T) (resource : ℕ) (token : Option Uuid) : LockManager T :=
  s.setLock resource ((s.locks resource).released none token)

def step (s : LockManager T) : ManagerAction T → LockManager T
  | .acquireLock client resource named timeoutSec => s.acquireLock client resource named timeoutSec
  | .advance k =>
    match s.calls[k]? with
    | some p => s.advance k p
    | none => s
  | .releaseLock k =>
    match s.returned[k]? with
    | some x => s.releaseLock x.resource x.value
    | none => s
  | .getOwner resource => s.setLock resource ((s.locks resource).getOwner s.time).1
  | .elapse time => if s.time ≤ time then { s with time := time } else s

/-- No other client than this one has an unexpired hold on the lock of a resource. -/
def Spares (s : LockManager T) (client resource : ℕ) : Prop :=
  ∀ t ∈ (s.locks resource).token, s.time < (s.locks resource).expiryTime → t.client = client

instance (s : LockManager T) (client resource : ℕ) : Decidable (s.Spares client resource) :=
  inferInstanceAs (Decidable (∀ t ∈ (s.locks resource).token, _))

/-- The token that a call reads is not that of another client, and nobody passes `None` to
`release_lock` while another client holds the lock. -/
def Careful (s : LockManager T) : ManagerAction T → Prop
  | .advance k => ∀ p ∈ s.calls[k]?, (p.stage matches .getToken) → s.Spares p.client p.resource
  | .releaseLock k => ∀ x ∈ s.returned[k]?, x.value = none → s.Spares x.client x.resource
  | _ => True

instance (s : LockManager T) : ∀ a, Decidable (s.Careful a)
  | .advance k => inferInstanceAs (Decidable (∀ p ∈ s.calls[k]?, _ → s.Spares p.client p.resource))
  | .releaseLock k => inferInstanceAs (Decidable (∀ x ∈ s.returned[k]?, x.value = none → s.Spares x.client x.resource))
  | .acquireLock .. | .getOwner _ | .elapse _ => isTrue trivial

/-- The client of an action releases the lock of a resource. -/
def Releases (s : LockManager T) (client resource : ℕ) : ManagerAction T → Prop
  | .releaseLock k => ∃ x ∈ s.returned[k]?, x.client = client ∧ x.resource = resource
  | _ => False

/-- An unexpired hold outlives a step, unless its own client releases it. -/
def EndsOwn (s : LockManager T) (a : ManagerAction T) : Prop :=
  ∀ resource t, (s.locks resource).Holds s.time t →
    ((s.step a).locks resource).token = some t ∨ s.Releases t.client resource a

/-- Returned tokens are those of the client's own holds. -/
structure Tracked (s : LockManager T) : Prop where
  paired : ∀ resource, (s.locks resource).Paired
  returned : ∀ x ∈ s.returned, ∀ t ∈ x.value, t.client = x.client

omit [Add T] [Sub T] [LinearOrder T] in
theorem tracked_init (ttlSec timeoutSec time : T) : (init ttlSec timeoutSec time).Tracked :=
  ⟨fun _ _ => rfl,fun _ h => absurd h List.not_mem_nil⟩

omit [Add T] [Sub T] [Zero T] [LinearOrder T] in
theorem Tracked.setLock {s : LockManager T} (h : s.Tracked) (resource : ℕ) {l : DistributedLock T} (hl : l.Paired) :
    (s.setLock resource l).Tracked :=
  ⟨(Function.forall_update_iff s.locks fun _ l => l.Paired).mpr ⟨hl,fun r _ => h.paired r⟩,h.returned⟩

omit [Add T] [Sub T] [Zero T] [LinearOrder T] in
theorem Tracked.finish {s : LockManager T} (h : s.Tracked) (k : ℕ) {p : PendingLock T} {value : Option Uuid}
    (hvalue : ∀ t ∈ value, t.client = p.client) : (s.finish k p value).Tracked := by
  refine ⟨h.paired,?_⟩
  intro x hx
  rcases List.mem_append.mp hx with hx | hx
  · exact h.returned x hx
  · cases List.mem_singleton.mp hx
    exact hvalue

omit [Zero T] in
theorem Tracked.advance {s : LockManager T} (h : s.Tracked) {k : ℕ} {p : PendingLock T}
    (hguard : (p.stage matches .getToken) → s.Spares p.client p.resource) : (s.advance k p).Tracked := by
  have hpaired := h.paired p.resource
  unfold LockManager.advance
  split
  · rename_i call hstage
    have hl := h.setLock p.resource (hpaired.advances (call.advance_advances _ ⟨p.client,s.drawn⟩ s.time))
    dsimp only
    split
    · exact ⟨hl.paired,hl.returned⟩
    · exact ⟨hl.paired,hl.returned⟩
    · refine Tracked.finish ?_ k fun _ ht => absurd ht (Option.not_mem_none _)
      exact ⟨hl.paired,hl.returned⟩
  · rename_i hstage
    refine (h.setLock p.resource hpaired.expire).finish k fun t ht => ?_
    obtain ⟨htoken,hlive⟩ := hpaired.holds_of_expire ht
    exact hguard (by rw [hstage]) t htoken hlive

theorem Tracked.step {s : LockManager T} (h : s.Tracked) {a : ManagerAction T} (hguard : s.Careful a) :
    (s.step a).Tracked := by
  cases a with
  | acquireLock client resource named timeoutSec => exact ⟨h.paired,h.returned⟩
  | advance k =>
    unfold LockManager.step
    dsimp only
    split
    · rename_i p hp
      exact h.advance (hguard p hp)
    · exact h
  | releaseLock k =>
    unfold LockManager.step
    dsimp only
    split
    · rename_i x hx
      exact h.setLock x.resource ((h.paired x.resource).released none x.value)
    · exact h
  | getOwner resource => exact h.setLock resource (h.paired resource).expire
  | elapse time =>
    unfold LockManager.step
    dsimp only
    split
    · exact ⟨h.paired,h.returned⟩
    · exact h

omit [Add T] [Sub T] [Zero T] [LinearOrder T] in
theorem token_setLock {s : LockManager T} {resource r : ℕ} {l : DistributedLock T} {t : Uuid}
    (h : (s.locks r).token = some t) (hl : resource = r → l.token = some t) :
    ((s.setLock resource l).locks r).token = some t := by
  unfold setLock
  by_cases hr : r = resource
  · subst r
    simpa using hl rfl
  · simpa [hr] using h

omit [Zero T] in
/-- No step of `acquire_lock` ends an unexpired hold. -/
theorem Tracked.token_advance {s : LockManager T} (h : s.Tracked) (k : ℕ) (p : PendingLock T) {r : ℕ} {t : Uuid}
    (ht : (s.locks r).Holds s.time t) : ((s.advance k p).locks r).token = some t := by
  unfold LockManager.advance
  split
  · rename_i call _
    have hadvance := call.advance_advances (s.locks p.resource) ⟨p.client,s.drawn⟩ s.time
    have hlock : ((s.setLock p.resource (call.advance (s.locks p.resource) ⟨p.client,s.drawn⟩ s.time).1).locks r).token =
        some t := by
      refine token_setLock ht.1 ?_
      rintro rfl
      exact (h.paired p.resource).token_advances hadvance ht
    dsimp only
    split <;> exact hlock
  · refine token_setLock ht.1 ?_
    rintro rfl
    change ((s.locks p.resource).expire s.time).token = some t
    rw [DistributedLock.expire_of_lt ht.2]
    exact ht.1

theorem Tracked.endsOwn {s : LockManager T} (h : s.Tracked) {a : ManagerAction T} (hguard : s.Careful a) :
    s.EndsOwn a := by
  intro r t ht
  cases a with
  | acquireLock client resource named timeoutSec => exact Or.inl ht.1
  | advance k =>
    unfold LockManager.step
    dsimp only
    split
    · rename_i p _
      exact Or.inl (h.token_advance k p ht)
    · exact Or.inl ht.1
  | releaseLock k =>
    unfold LockManager.step
    dsimp only
    cases hx : s.returned[k]? with
    | none => exact Or.inl ht.1
    | some x =>
      by_cases hown : x.client = t.client ∧ x.resource = r
      · exact Or.inr ⟨x,hx,hown⟩
      -- The value is not the token of the hold: it is another one, or it is `None` and the hold is spared.
      left
      refine token_setLock ht.1 ?_
      rintro rfl
      rcases (s.locks x.resource).released_cases none x.value with hr | ⟨-,htoken,-⟩
      · rw [hr]
        exact ht.1
      · refine absurd ⟨?_,rfl⟩ hown
        cases hvalue : x.value with
        | none => exact (hguard x hx hvalue t ht.1 ht.2).symm
        | some t' =>
          have heq : t' = t := Option.some.inj ((htoken t' hvalue).symm.trans ht.1)
          rw [← heq]
          exact (h.returned x (List.mem_of_getElem? hx) t' hvalue).symm
  | getOwner resource =>
    refine Or.inl (token_setLock ht.1 ?_)
    rintro rfl
    change ((s.locks resource).expire s.time).token = some t
    rw [DistributedLock.expire_of_lt ht.2]
    exact ht.1
  | elapse time =>
    unfold LockManager.step
    dsimp only
    split
    · exact Or.inl ht.1
    · exact Or.inl ht.1

/-- Where no call reads the token of another client and nobody passes `None` to `release_lock`
while another client holds the lock, only the client of an unexpired hold ends it. -/
theorem holds_end_by_owner (ttlSec timeoutSec time : T) {schedule : List (ManagerAction T)}
    (hguard : Along step Careful (init ttlSec timeoutSec time) schedule) :
    Along step EndsOwn (init ttlSec timeoutSec time) schedule :=
  along_of_invariant (I := Tracked) (fun _ _ hs ha => hs.step ha) (fun _ _ hs ha => hs.endsOwn ha)
    (tracked_init ttlSec timeoutSec time) hguard

/-- Client 1 takes over an expired hold, which client 0 then releases in vain. -/
theorem holds_end_by_owner_expired :
    Along step EndsOwn (init 10 5 0 : LockManager ℕ) [.acquireLock 0 7 true 10,.advance 0,.advance 0,.elapse 10,
      .acquireLock 1 7 true 10,.advance 0,.advance 0,.releaseLock 0,.releaseLock 1] :=
  holds_end_by_owner 10 5 0 (by decide)

/-- A call that has given up returns `None`, and `release_lock` of it frees the lock of client 0. -/
theorem none_releases_other :
    ¬∀ schedule : List (ManagerAction ℕ), Along step EndsOwn (init 10 5 0) schedule := by
  intro h
  have hrun := h [.acquireLock 0 7 true 10,.advance 0,.acquireLock 1 7 true 0,.advance 1,.advance 1,.releaseLock 0]
  have hlast := hrun.2.2.2.2.2.1 7 ⟨0,1⟩ ⟨by decide,by decide⟩
  rcases hlast with htoken | ⟨x,hx,hclient,-⟩
  · exact absurd htoken (by decide)
  · have heq : (⟨1,7,none⟩ : LockResult) = x := Option.some.inj hx
    rw [← heq] at hclient
    exact absurd hclient (by decide)

end LockManager

end DistributedSystems.Locks
