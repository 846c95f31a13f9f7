import DistributedSystems.Locks.DistributedLock
import DistributedSystems.Protocol.Runs
import Mathlib.Algebra.GroupWithZero.Nat
import Mathlib.Data.Nat.Basic
import Mathlib.Order.Basic

/-! # Mutual exclusion under one lock

Clients enter their critical sections when `acquire` or `acquire_with_token` succeeds, and
through `with lock:`, which ignores what `acquire` returns. Sections and their ends are
history. A client believes that it owns the lock until its last time to live has passed,
and for as long as it is inside if it entered without one.
-/
namespace DistributedSystems.Locks
open Runs

/-- By which call a client enters: `acquire`, `acquire_with_token` or `__enter__`. -/
inductive Entry
  | plain
  | fenced
  | block
  deriving DecidableEq

structure PendingEntry (T : Type) where
  client : ℕ
  entry : Entry
  call : Acquire T

/-- A critical section: the hold it was entered with, and when that ends for all its
client knows. -/
structure CriticalSection (T : Type) where
  client : ℕ
  entry : Entry
  owner : Owner
  hold : Option Uuid
  endTime : T

structure LockClients (T : Type) where
  lock : DistributedLock T
  calls : List (PendingEntry T)
  sections : List (CriticalSection T)
  drawn : ℕ
  time : T

/-- `named` says whether the client passes its id as owner. -/
inductive LockAction (T : Type)
  | acquire (client : ℕ) (fenced named : Bool) (timeoutSec : Option T) (blocking : Bool) (ttlSec : Option T)
  | enter (client : ℕ)
  | advance (k : ℕ)
  | renew (client : ℕ) (ttlSec : Option T)
  | release (client : ℕ)
  | exit (k : ℕ)
  | fencedRelease (client : ℕ)
  | elapse (time : T)

variable {T : Type} [Add T] [Sub T] [Zero T] [LinearOrder T]

def CriticalSection.believes (x : CriticalSection T) (now : T) : Prop := x.hold = none ∨ now < x.endTime

instance (x : CriticalSection T) (now : T) : Decidable (x.believes now) := inferInstanceAs (Decidable (_ ∨ _))

namespace LockClients

def init (ttlSec timeoutSec time : T) : LockClients T := ⟨.init ttlSec timeoutSec,[],[],0,time⟩

/-- A client calls `acquire`. -/
def call (s : LockClients T) (client : ℕ) (entry : Entry) (owner : Option Owner) (timeoutSec : Option T)
    (blocking : Bool) (ttlSec : Option T) : LockClients T :=
  { s with
    calls := s.calls ++ [⟨client,entry,s.lock.acquire owner timeoutSec blocking ttlSec ⟨client,s.drawn⟩ s.time⟩]
    drawn := s.drawn + 1 }

/-- The client of the hold learns its new end. -/
def extend (s : LockClients T) : LockClients T :=
  { s with sections := s.sections.map fun x =>
      if x.hold = s.lock.token then { x with endTime := s.lock.expiryTime } else x }

/-- `acquire` has returned. `__enter__` goes on in any case. -/
def finish (s : LockClients T) (p : PendingEntry T) (acquired : Bool) : LockClients T :=
  if acquired then
    { s.extend with
      sections := s.extend.sections ++ [⟨p.client,p.entry,p.call.owner,s.lock.token,s.lock.expiryTime⟩] }
  else if p.entry = .block then
    { s with sections := s.sections ++ [⟨p.client,p.entry,p.call.owner,none,s.time⟩] }
  else s

/-- The pending call at position `k` has taken a step. -/
def proceed (s : LockClients T) (k : ℕ) (p : PendingEntry T) (r : DistributedLock T × Progress T) : LockClients T :=
  let s := { s with lock := r.1, drawn := s.drawn + 1 }
  match r.2 with
  | .waits call => { s with calls := s.calls.set k { p with call := call } }
  | .returns acquired => ({ s with calls := s.calls.eraseIdx k } : LockClients T).finish p acquired

/-- `lock.release()` by a client, which with it gives up its own hold on the lock and
leaves the sections that `left` selects. -/
def releaseLock (s : LockClients T) (client : ℕ) (left : List (CriticalSection T)) : LockClients T :=
  { s with
    lock := s.lock.released none none
    sections := left.filter fun x => ¬(x.client = client ∧ x.hold = s.lock.token) }

def step (s : LockClients T) : LockAction T → LockClients T
  | .acquire client fenced named timeoutSec blocking ttlSec =>
    s.call client (if fenced then .fenced else .plain) (if named then some (.named client) else none) timeoutSec
      blocking ttlSec
  | .enter client => s.call client .block none none true none
  | .advance k =>
    match s.calls[k]? with
    | some p => s.proceed k p (p.call.advance s.lock ⟨p.client,s.drawn⟩ s.time)
    | none => s
  | .renew client ttlSec =>
    let r := s.lock.renew (some (.named client)) ttlSec s.time
    if r.2 then ({ s with lock := r.1 } : LockClients T).extend else s
  | .release client =>
    { s with
      lock := s.lock.released (some (.named client)) none
      sections := s.sections.filter (·.owner ≠ .named client) }
  | .exit k =>
    match s.sections[k]? with
    | some x => if x.entry = .block then s.releaseLock x.client (s.sections.eraseIdx k) else s
    | none => s
  | .fencedRelease client =>
    s.releaseLock client (s.sections.filter fun x => ¬(x.client = client ∧ x.entry = .fenced))
  | .elapse time => if s.time ≤ time then { s with time := time } else s

/-- No other client than this one has an unexpired hold on the lock. -/
def Spares (s : LockClients T) (client : ℕ) : Prop :=
  ∀ o ∈ s.lock.owner, s.time < s.lock.expiryTime → o.client = client

instance (s : LockClients T) (client : ℕ) : Decidable (s.Spares client) :=
  inferInstanceAs (Decidable (∀ o ∈ s.lock.owner, _))

/-- No `with` block is entered after its `acquire` has given up, and nobody calls
`lock.release()` while another client holds the lock. -/
def Careful (s : LockClients T) : LockAction T → Prop
  | .advance k => ∀ p ∈ s.calls[k]?, p.entry = .block → ¬p.call.givesUp s.time
  | .exit k => ∀ x ∈ s.sections[k]?, x.entry = .block → s.Spares x.client
  | .fencedRelease client => s.Spares client
  | _ => True

instance (s : LockClients T) : ∀ a, Decidable (s.Careful a)
  | .advance k => inferInstanceAs (Decidable (∀ p ∈ s.calls[k]?, p.entry = .block → ¬p.call.givesUp s.time))
  | .exit k => inferInstanceAs (Decidable (∀ x ∈ s.sections[k]?, x.entry = .block → s.Spares x.client))
  | .fencedRelease client => inferInstanceAs (Decidable (s.Spares client))
  | .acquire .. | .enter _ | .renew .. | .release _ | .elapse _ => isTrue trivial

/-- The lock still knows an unexpired hold that its client has not released, and nobody else
is in a section that it believes to own. -/
def Excludes (s : LockClients T) (x : CriticalSection T) : Prop :=
  (s.lock.token = x.hold ∧ s.lock.owner = some x.owner ∧ s.lock.expiryTime = x.endTime) ∧
  ∀ y ∈ s.sections, y.client ≠ x.client → ¬y.believes s.time

instance (s : LockClients T) (x : CriticalSection T) : Decidable (s.Excludes x) := inferInstanceAs (Decidable (_ ∧ _))

def Exclusive (s : LockClients T) : Prop :=
  ∀ x ∈ s.sections, x.hold ≠ none → s.time < x.endTime → s.Excludes x

instance (s : LockClients T) : Decidable s.Exclusive :=
  inferInstanceAs (Decidable (∀ x ∈ s.sections, x.hold ≠ none → s.time < x.endTime → s.Excludes x))

/-- A section and the lock agree on the hold that they share, if they share one; a section
whose hold has not expired does. -/
structure Kept (s : LockClients T) (x : CriticalSection T) : Prop where
  client : x.owner.client = x.client
  hold : ∃ t, x.hold = some t ∧ t.serial < s.drawn
  current : s.time < x.endTime → x.hold = s.lock.token
  agrees : x.hold = s.lock.token → s.lock.owner = some x.owner ∧ s.lock.expiryTime = x.endTime

structure Coherent (s : LockClients T) : Prop where
  token : s.lock.owner.isSome → ∃ t, s.lock.token = some t ∧ t.serial < s.drawn
  calls : ∀ p ∈ s.calls, p.call.owner.client = p.client
  sections : ∀ x ∈ s.sections, s.Kept x

omit [Add T] [Sub T] in
theorem coherent_init (ttlSec timeoutSec time : T) : (init ttlSec timeoutSec time).Coherent :=
  ⟨fun h => by simp [init,DistributedLock.init] at h,fun _ h => absurd h List.not_mem_nil,
    fun _ h => absurd h List.not_mem_nil⟩

omit [Add T] [Sub T] [Zero T] in
/-- Sections that know their hold exclude each other. -/
theorem Coherent.exclusive {s : LockClients T} (h : s.Coherent) : s.Exclusive := by
  intro x hx _ hlive
  have hkept := h.sections x hx
  have htoken := hkept.current hlive
  obtain ⟨howner,hexpiry⟩ := hkept.agrees htoken
  refine ⟨⟨htoken.symm,howner,hexpiry⟩,?_⟩
  intro y hy hne hbelieves
  have hykept := h.sections y hy
  obtain ⟨t,ht,-⟩ := hykept.hold
  rcases hbelieves with hnone | hlive'
  · simp [ht] at hnone
  · obtain ⟨howner',-⟩ := hykept.agrees (hykept.current hlive')
    have heq : x.owner = y.owner := Option.some.inj (howner.symm.trans howner')
    exact hne (by rw [← hykept.client,← heq,hkept.client])

omit [Add T] [Sub T] [Zero T] in
/-- A hold that has expired and that the lock has forgotten stays so. -/
theorem Kept.expired {s s' : LockClients T} {x : CriticalSection T} (h : s.Kept x) (hdrawn : s.drawn ≤ s'.drawn)
    (hend : x.endTime ≤ s'.time) (hne : x.hold ≠ s'.lock.token) : s'.Kept x := by
  obtain ⟨t,ht,hlt⟩ := h.hold
  exact ⟨h.client,⟨t,ht,hlt.trans_le hdrawn⟩,fun hlive => absurd hend (not_le.mpr hlive),fun heq => absurd heq hne⟩

omit [Add T] [Sub T] [Zero T] in
/-- Sections keep their place beside a lock that has not changed. -/
theorem Kept.mono {s s' : LockClients T} {x : CriticalSection T} (h : s.Kept x) (hlock : s'.lock = s.lock)
    (hdrawn : s.drawn ≤ s'.drawn) (htime : s.time ≤ s'.time) : s'.Kept x := by
  obtain ⟨t,ht,hlt⟩ := h.hold
  refine ⟨h.client,⟨t,ht,hlt.trans_le hdrawn⟩,?_,?_⟩
  · intro hlive
    rw [hlock]
    exact h.current (htime.trans_lt hlive)
  · rw [hlock]
    exact h.agrees

omit [Add T] [Sub T] [Zero T] in
theorem Coherent.mono {s s' : LockClients T} (h : s.Coherent) (hlock : s'.lock = s.lock) (hdrawn : s.drawn ≤ s'.drawn)
    (htime : s.time ≤ s'.time) (hcalls : ∀ p ∈ s'.calls, p.call.owner.client = p.client)
    (hsections : ∀ x ∈ s'.sections, x ∈ s.sections) : s'.Coherent := by
  refine ⟨?_,hcalls,fun x hx => (h.sections x (hsections x hx)).mono hlock hdrawn htime⟩
  rw [hlock]
  intro howner
  obtain ⟨t,ht,hlt⟩ := h.token howner
  exact ⟨t,ht,hlt.trans_le hdrawn⟩

omit [Add T] [Sub T] [Zero T] in
/-- Extending the hold that the lock is in extends its sections with it. -/
theorem Coherent.extend {s : LockClients T} (h : s.Coherent) (expiry : T) (howner : s.lock.owner.isSome) :
    ({ s with lock := { s.lock with expiryTime := expiry } } : LockClients T).extend.Coherent := by
  refine ⟨fun _ => h.token howner,h.calls,?_⟩
  intro y hy
  obtain ⟨x,hx,rfl⟩ := List.mem_map.mp hy
  have hkept := h.sections x hx
  by_cases hhold : x.hold = s.lock.token
  · have hlocked := hkept.hold
    rw [hhold] at hlocked
    simp only [hhold,if_true]
    exact ⟨hkept.client,hlocked,fun _ => rfl,fun _ => ⟨(hkept.agrees hhold).1,rfl⟩⟩
  · simp only [hhold,if_false]
    exact ⟨hkept.client,hkept.hold,fun hlive => absurd (hkept.current hlive) hhold,fun heq => absurd heq hhold⟩

omit [Add T] [Sub T] [Zero T] in
/-- The section of a call that has got the lock. -/
theorem Coherent.enter {s : LockClients T} (h : s.Coherent) {p : PendingEntry T} (hp : p.call.owner.client = p.client)
    (howner : s.lock.owner = some p.call.owner) :
    ({ s with sections := s.sections ++ [⟨p.client,p.entry,p.call.owner,s.lock.token,s.lock.expiryTime⟩] } :
      LockClients T).Coherent := by
  refine ⟨h.token,h.calls,?_⟩
  intro x hx
  rcases List.mem_append.mp hx with hx | hx
  · exact (h.sections x hx).mono rfl (le_refl _) (le_refl _)
  · cases List.mem_singleton.mp hx
    exact ⟨hp,h.token (by simp [howner]),fun _ => rfl,fun _ => ⟨howner,rfl⟩⟩

omit [Add T] [Sub T] [Zero T] in
/-- A new hold begins when all old ones have expired. -/
theorem Coherent.take {s : LockClients T} (h : s.Coherent) (owner : Owner) (client : ℕ) (expiry : T)
    (hfree : s.lock.owner = none ∨ s.lock.expiryTime ≤ s.time) :
    ({ s with
        lock := { s.lock with owner := some owner, token := some ⟨client,s.drawn⟩, expiryTime := expiry }
        drawn := s.drawn + 1 } : LockClients T).Coherent := by
  refine ⟨fun _ => ⟨_,rfl,Nat.lt_succ_self _⟩,h.calls,?_⟩
  intro x hx
  have hkept := h.sections x hx
  refine hkept.expired (Nat.le_succ _) ?_ ?_
  · by_contra hlive
    obtain ⟨howner,hexpiry⟩ := hkept.agrees (hkept.current (not_le.mp hlive))
    rcases hfree with hnone | hle
    · simp [hnone] at howner
    · exact hlive (hexpiry ▸ hle)
  · obtain ⟨t,ht,hlt⟩ := hkept.hold
    intro heq
    rw [ht] at heq
    cases heq
    exact absurd hlt (lt_irrefl _)

omit [Add T] [Sub T] [Zero T] in
/-- The lock is cleared when the sections that are left know no unexpired hold. -/
theorem Coherent.clear {s : LockClients T} (h : s.Coherent) {expiry : T} {left : List (CriticalSection T)}
    (hsub : ∀ x ∈ left, x ∈ s.sections ∧ x.endTime ≤ s.time) :
    ({ s with lock := { s.lock with owner := none, token := none, expiryTime := expiry }, sections := left } :
      LockClients T).Coherent := by
  refine ⟨fun howner => by simp at howner,h.calls,?_⟩
  intro x hx
  obtain ⟨hmem,hend⟩ := hsub x hx
  have hkept := h.sections x hmem
  refine hkept.expired (le_refl _) hend ?_
  obtain ⟨t,ht,-⟩ := hkept.hold
  simp [ht]

omit [Add T] [Sub T] in
theorem Coherent.call {s : LockClients T} (h : s.Coherent) {client : ℕ} {entry : Entry} {owner : Option Owner}
    (hclient : ∀ o ∈ owner, o.client = client) (timeoutSec : Option T) (blocking : Bool) (ttlSec : Option T) :
    (s.call client entry owner timeoutSec blocking ttlSec).Coherent := by
  refine h.mono rfl (Nat.le_succ _) (le_refl _) ?_ fun _ hx => hx
  intro p hp
  rcases List.mem_append.mp hp with hp | hp
  · exact h.calls p hp
  · cases List.mem_singleton.mp hp
    cases owner with
    | none => rfl
    | some o => exact hclient o rfl

omit [Zero T] in
/-- A call that gets the lock extends its hold or begins a new one, and enters. -/
theorem Coherent.proceed {s : LockClients T} (h : s.Coherent) {k : ℕ} {p : PendingEntry T} (hp : s.calls[k]? = some p)
    (hguard : p.entry = .block → ¬p.call.givesUp s.time) {r : DistributedLock T × Progress T}
    (hr : p.call.Advances s.lock ⟨p.client,s.drawn⟩ s.time r) : (s.proceed k p r).Coherent := by
  have hclient := h.calls p (List.mem_of_getElem? hp)
  have hrest : ∀ q ∈ s.calls.eraseIdx k, q.call.owner.client = q.client :=
    fun q hq => h.calls q (List.mem_of_mem_eraseIdx hq)
  cases hr with
  | waits failed =>
    refine h.mono rfl (Nat.le_succ _) (le_refl _) ?_ fun _ hx => hx
    intro q hq
    rcases List.mem_or_eq_of_mem_set hq with hq | rfl
    · exact h.calls q hq
    · exact hclient
  | gaveUp hgaveUp =>
    have hentry : p.entry ≠ .block := fun hb => hguard hb hgaveUp
    have hfinish : s.proceed k p (s.lock,.returns false) =
        { s with calls := s.calls.eraseIdx k, drawn := s.drawn + 1 } := by
      simp [LockClients.proceed,finish,hentry]
    rw [hfinish]
    exact h.mono rfl (Nat.le_succ _) (le_refl _) hrest fun _ hx => hx
  | extended howner _ =>
    have hkept : ({ s with calls := s.calls.eraseIdx k, drawn := s.drawn + 1 } : LockClients T).Coherent :=
      h.mono rfl (Nat.le_succ _) (le_refl _) hrest fun _ hx => hx
    exact (hkept.extend (s.time + p.call.effectiveTtl) (by simp [howner])).enter hclient howner
  | taken hfree =>
    have hkept : ({ s with calls := s.calls.eraseIdx k } : LockClients T).Coherent :=
      h.mono rfl (le_refl _) (le_refl _) hrest fun _ hx => hx
    exact ((hkept.take p.call.owner p.client (s.time + p.call.effectiveTtl) hfree).extend _ rfl).enter hclient rfl

omit [Add T] [Sub T] in
/-- A client that ends no hold but its own leaves the others as they were. -/
theorem Coherent.releaseLock {s : LockClients T} (h : s.Coherent) {client : ℕ} {left : List (CriticalSection T)}
    (hsub : ∀ x ∈ left, x ∈ s.sections) (hspares : s.Spares client) : (s.releaseLock client left).Coherent := by
  unfold LockClients.releaseLock
  rcases s.lock.released_cases none none with hlock | ⟨-,-,hlock⟩
  · rw [hlock]
    refine h.mono rfl (le_refl _) (le_refl _) h.calls ?_
    exact fun x hx => hsub x (List.mem_of_mem_filter hx)
  rw [hlock]
  apply h.clear
  intro x hx
  obtain ⟨hleft,hkeeps⟩ := List.mem_filter.mp hx
  refine ⟨hsub x hleft,not_lt.mp fun hlive => ?_⟩
  have hkept := h.sections x (hsub x hleft)
  have htoken := hkept.current hlive
  obtain ⟨howner,hexpiry⟩ := hkept.agrees htoken
  have hown := hspares x.owner howner (hexpiry ▸ hlive)
  rw [hkept.client] at hown
  simp [hown,htoken] at hkeeps

theorem Coherent.step {s : LockClients T} (h : s.Coherent) {a : LockAction T} (hguard : s.Careful a) :
    (s.step a).Coherent := by
  cases a with
  | acquire client fenced named timeoutSec blocking ttlSec =>
    refine h.call ?_ timeoutSec blocking ttlSec
    intro o ho
    split at ho
    · cases ho
      rfl
    · cases ho
  | enter client => exact h.call (fun o ho => absurd ho (Option.not_mem_none o)) none true none
  | advance k =>
    unfold LockClients.step
    dsimp only
    split
    · rename_i p hp
      exact h.proceed hp (hguard p hp) (p.call.advance_advances ..)
    · exact h
  | renew client ttlSec =>
    unfold LockClients.step
    rcases s.lock.renew_cases (some (.named client)) ttlSec s.time with hr | ⟨howner,-,hr⟩
    · simpa [hr] using h
    · simpa [hr] using h.extend _ howner
  | release client =>
    unfold LockClients.step
    dsimp only
    rcases s.lock.released_cases (some (.named client)) none with hlock | ⟨howner,-,hlock⟩
    · rw [hlock]
      exact h.mono rfl (le_refl _) (le_refl _) h.calls fun _ hx => List.mem_of_mem_filter hx
    rw [hlock]
    apply h.clear
    intro x hx
    obtain ⟨hmem,hne⟩ := List.mem_filter.mp hx
    refine ⟨hmem,not_lt.mp fun hlive => ?_⟩
    have hkept := h.sections x hmem
    have hown := howner _ rfl
    rw [(hkept.agrees (hkept.current hlive)).1] at hown
    exact of_decide_eq_true hne (Option.some.inj hown)
  | exit k =>
    unfold LockClients.step
    dsimp only
    split
    · rename_i x hx
      split
      · rename_i hblock
        exact h.releaseLock (fun _ hy => List.mem_of_mem_eraseIdx hy) (hguard x hx hblock)
      · exact h
    · exact h
  | fencedRelease client => exact h.releaseLock (fun _ hx => List.mem_of_mem_filter hx) hguard
  | elapse time =>
    unfold LockClients.step
    dsimp only
    split
    · rename_i hle
      exact h.mono rfl (le_refl _) hle h.calls fun _ hx => hx
    · exact h

/-- Where no `with` block is entered without the lock and nobody calls `lock.release()`
while another client holds it, an unexpired hold is exclusive and stays until its client
releases it. -/
theorem lock_exclusive (ttlSec timeoutSec time : T) {schedule : List (LockAction T)}
    (hguard : Along step Careful (init ttlSec timeoutSec time) schedule) :
    (run step (init ttlSec timeoutSec time) schedule).Exclusive :=
  (run_invariant (I := Coherent) (fun _ _ hs ha => hs.step ha) (coherent_init ttlSec timeoutSec time) hguard).exclusive

/-- Client 0 overruns its time in a `with` block, client 1 takes over, and client 0 leaves
only after client 1 has released the lock. -/
theorem lock_exclusive_overrun :
    (run step (init 10 5 0) [.enter 0,.advance 0,.elapse 10,.acquire 1 false true none true none,.advance 0,
      .renew 1 (some 7),.elapse 12] : LockClients ℕ).Exclusive ∧
    (run step (init 10 5 0) [.enter 0,.advance 0,.elapse 10,.acquire 1 false true none true none,.advance 0,
      .renew 1 (some 7),.elapse 12,.release 1,.exit 0] : LockClients ℕ).Exclusive :=
  ⟨lock_exclusive 10 5 0 (by decide),lock_exclusive 10 5 0 (by decide)⟩

/-- Client 1 waits for client 0 in a `with` statement, gives up and enters. -/
theorem gives_up_and_enters :
    ¬∀ schedule : List (LockAction ℕ), (run step (init 10 5 0) schedule).Exclusive := by
  intro h
  exact absurd (h [.acquire 0 false true none true none,.advance 0,.enter 1,.advance 0,.elapse 5,.advance 0]) (by decide)

/-- Nobody gives up, but the exit of client 0, which has overrun its time, frees the lock of client 1. -/
example : ¬(run step (init 10 5 0) [.enter 0,.advance 0,.elapse 10,.acquire 1 false true none true none,.advance 0,
    .exit 0] : LockClients ℕ).Exclusive := by decide

end LockClients

end DistributedSystems.Locks
