import Mathlib.Data.List.Basic
import Mathlib.Order.Lattice

/-! # A lock that expires

What `DistributedLock` does under its mutex is one step and reads the clock once. A call
of `acquire` takes such a step in every round of its loop, and another one, outside the
mutex, to compare the time with its timeout.
-/
namespace DistributedSystems.Locks

/-- A value of `uuid4`: known by who drew it, and drawn once. -/
structure Uuid where
  client : ℕ
  serial : ℕ
  deriving DecidableEq

/-- The id that a client passes as owner, or the one that its call draws. -/
inductive Owner
  | named (client : ℕ)
  | drawn (uuid : Uuid)
  deriving DecidableEq

def Owner.client : Owner → ℕ
  | .named client => client
  | .drawn uuid => uuid.client

inductive LockAcquisitionError
  | cannotRelease (owner requester : Owner)
  | invalidToken

structure DistributedLock (T : Type) where
  ttlSec : T
  timeoutSec : T
  owner : Option Owner
  token : Option Uuid
  expiryTime : T

/-- A call of `acquire` between two of its steps; `failed` when the next step is to check
the timeout. -/
structure Acquire (T : Type) where
  owner : Owner
  timeoutSec : T
  effectiveTtl : T
  startTime : T
  failed : Bool

inductive Progress (T : Type)
  | waits (call : Acquire T)
  | returns (acquired : Bool)

variable {T : Type} [Add T] [Sub T] [Zero T] [LinearOrder T]

namespace DistributedLock

def init (ttlSec timeoutSec : T) : DistributedLock T := ⟨ttlSec,timeoutSec,none,none,0⟩

/-- The lazy clean-up that `acquire` and `get_owner` share. -/
def expire (l : DistributedLock T) (now : T) : DistributedLock T :=
  if l.owner.isSome ∧ l.expiryTime ≤ now then { l with owner := none, token := none } else l

/-- The part of `acquire` before its loop; `uuid` is drawn if no owner is given. -/
def acquire (l : DistributedLock T) (owner : Option Owner) (timeoutSec : Option T) (blocking : Bool)
    (ttlSec : Option T) (uuid : Uuid) (now : T) : Acquire T where
  owner := owner.getD (.drawn uuid)
  timeoutSec := if blocking then timeoutSec.getD l.timeoutSec else 0
  effectiveTtl := ttlSec.getD l.ttlSec
  startTime := now
  failed := false

/-- One round of the loop of `acquire`, under the mutex. -/
def tryAcquire (l : DistributedLock T) (owner : Owner) (effectiveTtl : T) (uuid : Uuid) (now : T) :
    DistributedLock T × Bool :=
  let l := l.expire now
  if l.owner = some owner then ({ l with expiryTime := now + effectiveTtl },true)
  else if l.owner = none then
    ({ l with owner := some owner, token := some uuid, expiryTime := now + effectiveTtl },true)
  else (l,false)

def release (l : DistributedLock T) (owner : Option Owner) (token : Option Uuid) :
    Except LockAcquisitionError (DistributedLock T) :=
  match l.owner with
  | none => .ok l
  | some held =>
    -- Without an owner there is nobody to compare with the holder.
    if owner.getD held ≠ held then .error (.cannotRelease held (owner.getD held))
    else if token.isSome ∧ l.token ≠ token then .error .invalidToken
    else .ok { l with owner := none, token := none, expiryTime := 0 }

/-- The lock after a call of `release`, whether it raised or not. -/
def released (l : DistributedLock T) (owner : Option Owner) (token : Option Uuid) : DistributedLock T :=
  match l.release owner token with
  | .ok l => l
  | .error _ => l

/-- `renew` does not ask whether the lock has expired. -/
def renew (l : DistributedLock T) (owner : Option Owner) (ttlSec : Option T) (now : T) : DistributedLock T × Bool :=
  match l.owner with
  | none => (l,false)
  | some held =>
    if owner.isSome ∧ owner ≠ some held then (l,false)
    else ({ l with expiryTime := now + ttlSec.getD l.ttlSec },true)

def getOwner (l : DistributedLock T) (now : T) : DistributedLock T × Option Owner :=
  (l.expire now,(l.expire now).owner)

def getToken (l : DistributedLock T) (now : T) : DistributedLock T × Option Uuid :=
  ((l.getOwner now).1,(l.getOwner now).1.token)

/-- The hold that a token names has not expired. -/
def Holds (l : DistributedLock T) (now : T) (token : Uuid) : Prop := l.token = some token ∧ now < l.expiryTime

instance (l : DistributedLock T) (now : T) (token : Uuid) : Decidable (l.Holds now token) :=
  inferInstanceAs (Decidable (_ ∧ _))

/-- A lock without an owner has no token. -/
def Paired (l : DistributedLock T) : Prop := l.owner = none → l.token = none

end DistributedLock

def Acquire.givesUp (call : Acquire T) (now : T) : Prop := call.failed ∧ call.timeoutSec ≤ now - call.startTime

instance (call : Acquire T) (now : T) : Decidable (call.givesUp now) := inferInstanceAs (Decidable (_ ∧ _))

/-- The next step of a call of `acquire`. -/
def Acquire.advance (call : Acquire T) (l : DistributedLock T) (uuid : Uuid) (now : T) : DistributedLock T × Progress T :=
  if call.failed then
    if call.timeoutSec ≤ now - call.startTime then (l,.returns false) else (l,.waits { call with failed := false })
  else
    let attempt := l.tryAcquire call.owner call.effectiveTtl uuid now
    (attempt.1,if attempt.2 then .returns true else .waits { call with failed := true })

namespace DistributedLock
variable {l : DistributedLock T} {now : T} {owner : Owner} {ttl : T} {uuid : Uuid}

omit [Add T] [Sub T] [Zero T] in
/-- A lock that has not expired is not cleaned up. -/
theorem expire_of_lt (h : now < l.expiryTime) : l.expire now = l := by simp [expire,not_le.mpr h]

omit [Add T] [Sub T] [Zero T] in
/-- A lock that is held after the clean-up has not expired. -/
theorem expire_cases (l : DistributedLock T) (now : T) : l.expire now = l ∧ (l.owner.isSome → now < l.expiryTime) ∨
    l.expiryTime ≤ now ∧ l.expire now = { l with owner := none, token := none } := by
  unfold expire
  split
  · rename_i h
    exact Or.inr ⟨h.2,rfl⟩
  · rename_i h
    exact Or.inl ⟨rfl,fun hs => not_le.mp fun hle => h ⟨hs,hle⟩⟩

omit [Add T] [Sub T] [Zero T] in
theorem Paired.expire (h : l.Paired) : (l.expire now).Paired := by
  rcases l.expire_cases now with ⟨he,-⟩ | ⟨-,he⟩
  · rw [he]
    exact h
  · rw [he]
    exact fun _ => rfl

omit [Add T] [Sub T] [Zero T] in
/-- After the clean-up only an unexpired hold is left. -/
theorem Paired.holds_of_expire (h : l.Paired) {t : Uuid} (ht : (l.expire now).token = some t) : l.Holds now t := by
  rcases l.expire_cases now with ⟨he,hlive⟩ | ⟨-,he⟩
  · rw [he] at ht
    refine ⟨ht,hlive (Option.isSome_iff_ne_none.mpr fun hnone => ?_)⟩
    rw [h hnone] at ht
    cases ht
  · rw [he] at ht
    cases ht

omit [Sub T] [Zero T] in
/-- A round of the loop finds an owner that is not its own, extends its own hold, or takes a
lock that nobody holds. -/
theorem tryAcquire_cases (l : DistributedLock T) (owner : Owner) (ttl : T) (uuid : Uuid) (now : T) :
    l.tryAcquire owner ttl uuid now = (l,false) ∨
    (l.owner = some owner ∧ now < l.expiryTime ∧
      l.tryAcquire owner ttl uuid now = ({ l with expiryTime := now + ttl },true)) ∨
    ((l.owner = none ∨ l.expiryTime ≤ now) ∧ l.tryAcquire owner ttl uuid now =
      ({ l with owner := some owner, token := some uuid, expiryTime := now + ttl },true)) := by
  unfold tryAcquire
  rcases l.expire_cases now with ⟨he,hlive⟩ | ⟨hle,he⟩
  · rw [he]
    dsimp only
    split
    · rename_i ho
      exact Or.inr (Or.inl ⟨ho,hlive (by simp [ho]),rfl⟩)
    split
    · rename_i ho
      exact Or.inr (Or.inr ⟨Or.inl ho,rfl⟩)
    · exact Or.inl rfl
  · rw [he]
    exact Or.inr (Or.inr ⟨Or.inr hle,by simp⟩)

omit [Add T] [Sub T] [LinearOrder T] in
/-- A release does nothing, or clears the lock of the owner and of the token that it gives. -/
theorem released_cases (l : DistributedLock T) (owner : Option Owner) (token : Option Uuid) :
    l.released owner token = l ∨
    ((∀ o ∈ owner, l.owner = some o) ∧ (∀ t ∈ token, l.token = some t) ∧
      l.released owner token = { l with owner := none, token := none, expiryTime := 0 }) := by
  unfold released release
  cases ho : l.owner with
  | none => exact Or.inl rfl
  | some held =>
    by_cases hne : owner.getD held ≠ held
    · left
      simp [hne]
    by_cases ht : token.isSome ∧ l.token ≠ token
    · left
      simp [hne,ht]
    · right
      refine ⟨?_,?_,by simp [hne,ht]⟩
      · rintro o rfl
        simpa using (not_not.mp hne).symm
      · rintro t rfl
        by_contra h
        exact ht ⟨rfl,h⟩

omit [Sub T] [Zero T] [LinearOrder T] in
/-- A renewal fails, or extends the hold of the owner that it gives, expired or not. -/
theorem renew_cases (l : DistributedLock T) (owner : Option Owner) (ttlSec : Option T) (now : T) :
    l.renew owner ttlSec now = (l,false) ∨
    (l.owner.isSome ∧ (∀ o ∈ owner, l.owner = some o) ∧
      l.renew owner ttlSec now = ({ l with expiryTime := now + ttlSec.getD l.ttlSec },true)) := by
  unfold renew
  cases ho : l.owner with
  | none => exact Or.inl rfl
  | some held =>
    by_cases h : owner.isSome ∧ owner ≠ some held
    · left
      simp [h]
    · right
      refine ⟨rfl,?_,by simp [h]⟩
      rintro o rfl
      by_contra hne
      exact h ⟨rfl,fun heq => hne heq.symm⟩

end DistributedLock

/-- What a step of a call of `acquire` can do. -/
inductive Acquire.Advances (call : Acquire T) (l : DistributedLock T) (uuid : Uuid) (now : T) :
    DistributedLock T × Progress T → Prop
  | waits (failed : Bool) : Advances call l uuid now (l,.waits { call with failed := failed })
  | gaveUp (h : call.givesUp now) : Advances call l uuid now (l,.returns false)
  | extended (ho : l.owner = some call.owner) (h : now < l.expiryTime) :
      Advances call l uuid now ({ l with expiryTime := now + call.effectiveTtl },.returns true)
  | taken (h : l.owner = none ∨ l.expiryTime ≤ now) :
      Advances call l uuid now
        ({ l with owner := some call.owner, token := some uuid, expiryTime := now + call.effectiveTtl },.returns true)

namespace DistributedLock
variable {l : DistributedLock T}

omit [Zero T] in
theorem Paired.advances (h : l.Paired) {call : Acquire T} {uuid : Uuid} {now : T}
    {r : DistributedLock T × Progress T} (hr : call.Advances l uuid now r) : r.1.Paired := by
  cases hr with
  | waits => exact h
  | gaveUp => exact h
  | extended => exact h
  | taken => exact fun hnone => nomatch hnone

omit [Add T] [Sub T] [LinearOrder T] in
theorem Paired.released (h : l.Paired) (owner : Option Owner) (token : Option Uuid) : (l.released owner token).Paired := by
  rcases l.released_cases owner token with hr | ⟨-,-,hr⟩
  · rw [hr]
    exact h
  · rw [hr]
    exact fun _ => rfl

omit [Zero T] in
/-- No call of `acquire` ends an unexpired hold. -/
theorem Paired.token_advances (h : l.Paired) {call : Acquire T} {uuid : Uuid} {now : T}
    {r : DistributedLock T × Progress T} (hr : call.Advances l uuid now r) {t : Uuid} (ht : l.Holds now t) :
    r.1.token = some t := by
  cases hr with
  | waits => exact ht.1
  | gaveUp => exact ht.1
  | extended => exact ht.1
  | taken hfree =>
    rcases hfree with hnone | hle
    · have htoken := h hnone
      rw [ht.1] at htoken
      cases htoken
    · exact absurd ht.2 (not_lt.mpr hle)

end DistributedLock

omit [Zero T] in
theorem Acquire.advance_advances (call : Acquire T) (l : DistributedLock T) (uuid : Uuid) (now : T) :
    call.Advances l uuid now (call.advance l uuid now) := by
  unfold advance
  split
  · rename_i hfailed
    split
    · rename_i htimeout
      exact .gaveUp ⟨hfailed,htimeout⟩
    · exact .waits false
  · rcases l.tryAcquire_cases call.owner call.effectiveTtl uuid now with h | ⟨ho,hlt,h⟩ | ⟨hfree,h⟩
    · simp only [h]
      exact .waits true
    · simp only [h]
      exact .extended ho hlt
    · simp only [h]
      exact .taken hfree

end DistributedSystems.Locks
