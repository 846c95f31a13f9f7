import DistributedSystems.Locks.Redlock
import Mathlib.Algebra.Order.Ring.Defs
import Mathlib.Data.List.Count
import Mathlib.Data.List.Range

/-! # The attempts of one call of Redlock

One call of `acquire` among servers that fail, or answer late, and other clients that come and
go. The attempts share the token, and the cleanup after the first of them takes it away: a later
attempt raises at every server, and so does its cleanup.
-/
namespace DistributedSystems.Locks

/-- `SET resource token NX PX ttl`. -/
def setNx (token : Uuid) (key : Option Uuid) : Option Uuid × Bool := if key = none then (some token,true) else (key,false)

def unlockScript (token : Uuid) (key : Option Uuid) : Option Uuid × Bool :=
  if key = some token then (none,true) else (key,false)

inductive Command
  | set (token : Uuid)
  | delete (token : Uuid)

/-- The key after a command, and the reply. -/
def Command.run : Command → Option Uuid → Option Uuid × Bool
  | .set token => setNx token
  | .delete token => unlockScript token

/-- The key of the resource at a server, and the requests of the call that the client has given
up and the server has not executed yet. -/
structure KeyStore where
  key : Option Uuid
  late : List Command

/-- What happens at a server between two requests of the call: the key expires or is deleted,
another client sets a token of its own, or a late request of the call is executed. -/
inductive KeyEvent (token : Uuid)
  | drop
  | hold (other : {t : Uuid // t ≠ token})
  | arrive (j : ℕ)

def KeyStore.happen {token : Uuid} (s : KeyStore) : KeyEvent token → KeyStore
  | .drop => { s with key := none }
  | .hold other => { s with key := some other.1 }
  | .arrive j =>
    match s.late[j]? with
    | none => s
    | some c => ⟨(c.run s.key).1,s.late.eraseIdx j⟩

/-- A request of the call, and whether its reply says yes; only an answer does not raise. A
`None` in the place of the token raises before anything is sent. -/
def KeyStore.request (s : KeyStore) (c : Option Command) (outcome : Outcome) : KeyStore × Bool :=
  match c with
  | none => (s,false)
  | some c =>
    match outcome with
    | .answered => ({ s with key := (c.run s.key).1 },(c.run s.key).2)
    | .replyLost => ({ s with key := (c.run s.key).1 },false)
    | .failed => (s,false)
    | .late => ({ s with late := s.late ++ [c] },false)

/-- Everything that happens around a call, by attempt and server, and the token of the call before.
No other call draws the same token. -/
structure RetryPattern (token : Uuid) where
  tokenBefore : Option Uuid
  initially : ℕ → Option {t : Uuid // t ≠ token}
  beforeSet : ℕ → ℕ → List (KeyEvent token)
  set : ℕ → ℕ → Outcome
  beforeDelete : ℕ → ℕ → List (KeyEvent token)
  delete : ℕ → ℕ → Outcome
  duringSleep : ℕ → ℕ → List (KeyEvent token)
  elapsed : ℕ → ℤ

/-- `self.token`, and the servers. -/
structure RedlockCall where
  token : Option Uuid
  stores : ℕ → KeyStore

section Cluster
variable {T : Type} [Ring T] [LinearOrder T] (cfg : RedlockConfig T) (s : RedlockCluster T)
  (server : ℕ) (token : Option Uuid) (outcome : Outcome) (late : List Command)

/-- What a client of the cluster sees of its `SET`. -/
theorem request_set_read (hlive : s.time < s.time + cfg.ttl) :
    let r := s.request cfg (token.map (.set server)) outcome
    let r' := KeyStore.request ⟨s.stores.read s.time server,late⟩ (token.map .set) outcome
    (r.1.stores.read s.time server,r.2) = (r'.1.key,r'.2) := by
  cases token with
  | none => rfl
  | some token =>
    have hset : ((s.stores.setIfFree s.time (s.time + cfg.ttl) server token).1.read s.time server,
        (s.stores.setIfFree s.time (s.time + cfg.ttl) server token).2) =
          setNx token (s.stores.read s.time server) := by
      unfold ExpiringCells.setIfFree setNx
      split
      · simp [ExpiringCells.read,hlive]
      · rfl
    cases outcome with
    | answered => exact hset
    | replyLost => exact congrArg (fun r => (r.1,false)) hset
    | failed => rfl
    | late => rfl

/-- What it sees of its script. -/
theorem request_delete_read :
    (s.request cfg (token.map (.delete server)) outcome).1.stores.read s.time server =
      (KeyStore.request ⟨s.stores.read s.time server,late⟩ (token.map .delete) outcome).1.key := by
  cases token with
  | none => rfl
  | some token =>
    have hdelete : (s.stores.deleteIf s.time server token).read s.time server =
        (unlockScript token (s.stores.read s.time server)).1 := by
      unfold ExpiringCells.deleteIf unlockScript
      split
      · simp [ExpiringCells.read]
      · rfl
    cases outcome with
    | answered => exact hdelete
    | replyLost => exact hdelete
    | failed => rfl
    | late => rfl

end Cluster

section Ask
variable {token : Uuid} (events : ℕ → List (KeyEvent token)) (command : Uuid → Command) (outcome : ℕ → Outcome)

/-- A request to one server. -/
def RedlockCall.ask (s : RedlockCall) (server : ℕ) : KeyStore × Bool :=
  ((events server).foldl KeyStore.happen (s.stores server)).request (s.token.map command) (outcome server)

/-- One loop over the servers, with the number of replies that say yes. -/
def RedlockCall.askAll (servers : ℕ) (s : RedlockCall) : RedlockCall × ℕ :=
  (List.range servers).foldl (fun r server =>
    let reply := r.1.ask events command outcome server
    ({ r.1 with stores := Function.update r.1.stores server reply.1 },if reply.2 then r.2 + 1 else r.2)) (s,0)

/-- Each server is asked once. -/
theorem RedlockCall.askAll_eq (servers : ℕ) (s : RedlockCall) : s.askAll events command outcome servers =
    (⟨s.token,fun server => if server < servers then (s.ask events command outcome server).1 else s.stores server⟩,
      (List.range servers).countP fun server => (s.ask events command outcome server).2) := by
  induction servers with
  | zero => rfl
  | succ k ih =>
    unfold askAll at ih ⊢
    rw [List.range_succ,List.foldl_append,ih,List.foldl_cons,List.foldl_nil,List.countP_append]
    have hask : RedlockCall.ask events command outcome
        ⟨s.token,fun server => if server < k then (s.ask events command outcome server).1 else s.stores server⟩ k =
          s.ask events command outcome k := by
      simp [ask]
    dsimp only
    rw [hask]
    refine Prod.ext ?_ ?_
    · refine congrArg (RedlockCall.mk s.token) (funext fun server => ?_)
      by_cases hk : server = k
      · subst server
        simp
      · have hlt : server < k + 1 ↔ server < k := by omega
        simp [hk,hlt]
    · cases h : (s.ask events command outcome k).2 <;> simp [h]

end Ask

/-- What changes a key. -/
inductive KeyChange (token : Uuid)
  | drop
  | hold (other : {t : Uuid // t ≠ token})
  | execute (c : Command)

namespace KeyChange
variable {token : Uuid}

def apply : KeyChange token → Option Uuid → Option Uuid
  | .drop, _ => none
  | .hold other, _ => some other.1
  | .execute c, key => (c.run key).1

/-- The key after some changes. -/
def applyAll (changes : List (KeyChange token)) (key : Option Uuid) : Option Uuid :=
  changes.foldl (fun key change => change.apply key) key

theorem applyAll_append (xs ys : List (KeyChange token)) (key : Option Uuid) :
    applyAll (xs ++ ys) key = applyAll ys (applyAll xs key) := List.foldl_append

/-- Only a `SET` of the call puts its token into a key. -/
theorem apply_eq_token {change : KeyChange token} {key : Option Uuid} (hkey : key ≠ some token) :
    change.apply key = some token ↔ key = none ∧ change = .execute (.set token) := by
  cases change with
  | drop => simp [apply]
  | hold other => simp [apply,other.2]
  | execute c =>
    cases c with
    | set t => cases key <;> simp_all [apply,Command.run,setNx]
    | delete t =>
      by_cases ht : key = some t
      · simp [apply,Command.run,unlockScript,ht]
      · simp [apply,Command.run,unlockScript,ht,hkey]

/-- The token is in the key if the call set it there and no later change took it out. -/
theorem applyAll_eq_token {changes : List (KeyChange token)} {key : Option Uuid} (hkey : key ≠ some token) :
    applyAll changes key = some token ↔ ∃ before after, changes = before ++ .execute (.set token) :: after ∧
      applyAll before key = none ∧ ∀ change ∈ after, change.apply (some token) = some token := by
  constructor
  · -- induction on the last change
    intro h
    induction changes using List.reverseRecOn with
    | nil => exact absurd h hkey
    | append_singleton changes change ih =>
      rw [applyAll_append] at h
      by_cases hbefore : applyAll changes key = some token
      · obtain ⟨before,after,rfl,hfree,hafter⟩ := ih hbefore
        refine ⟨before,after ++ [change],by simp,hfree,fun c hc => ?_⟩
        rcases List.mem_append.mp hc with hc | hc
        · exact hafter c hc
        · rw [List.mem_singleton.mp hc,← hbefore]
          exact h.trans hbefore.symm
      · obtain ⟨hfree,rfl⟩ := (apply_eq_token hbefore).mp h
        exact ⟨changes,[],rfl,hfree,fun c hc => absurd hc List.not_mem_nil⟩
  · rintro ⟨before,after,rfl,hfree,hafter⟩
    rw [applyAll_append,hfree]
    have hkept : ∀ after : List (KeyChange token), (∀ change ∈ after, change.apply (some token) = some token) →
        applyAll after (some token) = some token := by
      intro after
      induction after with
      | nil => exact fun _ => rfl
      | cons change rest ih =>
        intro hall
        rw [List.forall_mem_cons] at hall
        exact (congrArg (applyAll rest) hall.1).trans (ih hall.2)
    exact hkept after hafter

end KeyChange

section Changes
variable {token : Uuid}

/-- What an event changes, and the requests under way after it. -/
def KeyEvent.changes (late : List Command) : KeyEvent token → List (KeyChange token) × List Command
  | .drop => ([.drop],late)
  | .hold other => ([.hold other],late)
  | .arrive j =>
    match late[j]? with
    | none => ([],late)
    | some c => ([.execute c],late.eraseIdx j)

def changesOf : List Command → List (KeyEvent token) → List (KeyChange token) × List Command
  | late, [] => ([],late)
  | late, event :: rest =>
    let r := event.changes late
    let rest := changesOf r.2 rest
    (r.1 ++ rest.1,rest.2)

def Outcome.changes (c : Command) (late : List Command) : Outcome → List (KeyChange token) × List Command
  | .answered => ([.execute c],late)
  | .replyLost => ([.execute c],late)
  | .failed => ([],late)
  | .late => ([],late ++ [c])

/-- The store after some changes. -/
def KeyStore.after (s : KeyStore) (r : List (KeyChange token) × List Command) : KeyStore :=
  ⟨KeyChange.applyAll r.1 s.key,r.2⟩

theorem foldl_happen (events : List (KeyEvent token)) (s : KeyStore) :
    events.foldl KeyStore.happen s = s.after (changesOf s.late events) := by
  induction events generalizing s with
  | nil => rfl
  | cons event rest ih =>
    have hhappen : s.happen event = s.after (event.changes s.late) := by
      cases event with
      | drop => rfl
      | hold other => rfl
      | arrive j =>
        unfold KeyStore.happen KeyEvent.changes
        dsimp only
        cases s.late[j]? <;> rfl
    rw [List.foldl_cons,ih,hhappen,changesOf,KeyStore.after,KeyStore.after,KeyStore.after]
    dsimp only
    rw [KeyChange.applyAll_append]

variable (token) in
theorem request_fst (s : KeyStore) (c : Command) (outcome : Outcome) :
    (s.request (some c) outcome).1 = s.after ((outcome.changes c s.late : List (KeyChange token) × List Command)) := by
  cases outcome <;> rfl

end Changes

namespace RetryPattern
variable {token : Uuid} (p : RetryPattern token) (servers retryCount : ℕ) (ttl : ℤ)

/-- The first loop of an attempt, with `n_acquired`. -/
def setAll (attempt : ℕ) (s : RedlockCall) : RedlockCall × ℕ :=
  s.askAll (p.beforeSet attempt) .set (p.set attempt) servers

def release (attempt : ℕ) (s : RedlockCall) : RedlockCall :=
  { (s.askAll (p.beforeDelete attempt) .delete (p.delete attempt) servers).1 with token := none }

/-- `time.sleep` after an attempt. -/
def sleep (attempt : ℕ) (s : RedlockCall) : RedlockCall :=
  { s with stores := fun server => (p.duringSleep attempt server).foldl KeyStore.happen (s.stores server) }

/-- The loop of `acquire`, with the attempts that are left. -/
def acquireLoop : ℕ → ℕ → RedlockCall → Bool × RedlockCall
  | 0, _, s => (false,s)
  | left + 1, attempt, s =>
    let r := p.setAll servers attempt s
    let validity := ttl - p.elapsed attempt - 200
    if servers / 2 + 1 ≤ r.2 ∧ 0 < validity then (true,r.1)
    else acquireLoop left (attempt + 1) (p.sleep attempt (p.release servers attempt r.1))

def start : RedlockCall := ⟨some token,fun server => ⟨(p.initially server).map Subtype.val,[]⟩⟩

def acquire : Bool × RedlockCall :=
  if servers = 0 then (false,⟨p.tokenBefore,p.start.stores⟩) else p.acquireLoop servers ttl retryCount 0 p.start

/-- The state before an attempt, if none before it succeeds. -/
def before : ℕ → RedlockCall
  | 0 => p.start
  | attempt + 1 => p.sleep attempt (p.release servers attempt (p.setAll servers attempt (before attempt)).1)

/-- The key of the resource is free at the server, and the server answers. -/
def FreeAndAnswering (attempt server : ℕ) : Prop :=
  ((p.beforeSet attempt server).foldl KeyStore.happen ((p.before servers attempt).stores server)).key = none ∧
    p.set attempt server = .answered

instance (attempt server : ℕ) : Decidable (p.FreeAndAnswering servers attempt server) :=
  inferInstanceAs (Decidable (_ ∧ _))

/-- A quorum is free and answers, in time. -/
def Good (attempt : ℕ) : Prop :=
  servers / 2 + 1 ≤ (List.range servers).countP (p.FreeAndAnswering servers attempt ·) ∧
    0 < ttl - p.elapsed attempt - 200

instance (attempt : ℕ) : Decidable (p.Good servers ttl attempt) := inferInstanceAs (Decidable (_ ∧ _))

/-- The call succeeds when one of its attempts can, and leaves no key at the servers that answer
the last cleanup when it fails. -/
def RetriesAreReal : Prop :=
  ((p.acquire servers retryCount ttl).1 = true ↔ ∃ attempt < retryCount, p.Good servers ttl attempt) ∧
  ((p.acquire servers retryCount ttl).1 = false → ∀ server < servers, p.delete (retryCount - 1) server = .answered →
    ((p.acquire servers retryCount ttl).2.stores server).key ≠ some token)

/-- What happens at a server in an attempt that sends nothing. -/
def during (server attempt : ℕ) : List (KeyEvent token) :=
  p.beforeSet attempt server ++ p.beforeDelete attempt server ++ p.duringSleep attempt server

/-- All that changes the key at a server in a call whose first attempt fails: only that attempt
sends its two requests. -/
def changes (server : ℕ) : List (KeyChange token) :=
  let beforeSet := changesOf [] (p.beforeSet 0 server)
  let set := (p.set 0 server).changes (.set token) beforeSet.2
  let beforeDelete := changesOf set.2 (p.beforeDelete 0 server)
  let delete := (p.delete 0 server).changes (.delete token) beforeDelete.2
  let after := changesOf delete.2 (p.duringSleep 0 server ++ (List.range' 1 (retryCount - 1)).flatMap (p.during server))
  beforeSet.1 ++ set.1 ++ beforeDelete.1 ++ delete.1 ++ after.1

/-- The `SET` of the call is executed on a free key, in time or late, and nothing that is executed
after it takes the key out. -/
def Stuck (server : ℕ) : Prop :=
  ∃ before after, p.changes retryCount server = before ++ .execute (.set token) :: after ∧
    KeyChange.applyAll before ((p.initially server).map Subtype.val) = none ∧
    ∀ change ∈ after, change.apply (some token) = some token

variable {p} {servers retryCount} {ttl}

/-- A reply says yes if the key was free and the server answered. -/
theorem request_set_snd {s : KeyStore} {outcome : Outcome} :
    (s.request (some (.set token)) outcome).2 = true ↔ s.key = none ∧ outcome = .answered := by
  cases outcome <;> by_cases hkey : s.key = none <;> simp [KeyStore.request,Command.run,setNx,hkey]

variable (p servers) in
/-- Without a token an attempt leaves the servers to the others. -/
theorem attempt_without_token (attempt : ℕ) {s : RedlockCall} (hs : s.token = none) :
    (p.setAll servers attempt s).2 = 0 ∧
      (p.sleep attempt (p.release servers attempt (p.setAll servers attempt s).1)).token = none ∧
      ∀ server < servers, (p.sleep attempt (p.release servers attempt (p.setAll servers attempt s).1)).stores server =
        (p.during server attempt).foldl KeyStore.happen (s.stores server) := by
  simp only [setAll,release,sleep,RedlockCall.askAll_eq,RedlockCall.ask,hs,Option.map_none,KeyStore.request]
  refine ⟨by simp,trivial,fun server hserver => ?_⟩
  rw [if_pos hserver,if_pos hserver,during,List.foldl_append,List.foldl_append]

variable (p servers ttl) in
/-- Attempts without a token come to nothing. -/
theorem acquireLoop_without_token (left attempt : ℕ) {s : RedlockCall} (hs : s.token = none) :
    (p.acquireLoop servers ttl left attempt s).1 = false ∧ ∀ server < servers,
      (p.acquireLoop servers ttl left attempt s).2.stores server =
        ((List.range' attempt left).flatMap (p.during server)).foldl KeyStore.happen (s.stores server) := by
  induction left generalizing attempt s with
  | zero => exact ⟨rfl,fun _ _ => rfl⟩
  | succ left ih =>
    obtain ⟨hnone,htoken,hstores⟩ := attempt_without_token p servers attempt hs
    unfold acquireLoop
    dsimp only
    rw [hnone,if_neg (fun h => Nat.not_succ_le_zero _ h.1)]
    obtain ⟨hfalse,hlater⟩ := ih (attempt + 1) htoken
    refine ⟨hfalse,fun server hserver => ?_⟩
    rw [hlater server hserver,hstores server hserver,List.range'_succ,List.flatMap_cons,List.foldl_append]

/-- The first attempt counts the servers that are free and answer. -/
theorem setAll_start_snd : (p.setAll servers 0 p.start).2 =
    (List.range servers).countP (p.FreeAndAnswering servers 0 ·) := by
  rw [setAll,RedlockCall.askAll_eq]
  refine List.countP_congr fun server _ => ?_
  rw [RedlockCall.ask,start,Option.map_some,request_set_snd,decide_eq_true_iff]
  exact Iff.rfl

/-- The key at a server after the first attempt and what comes later. -/
theorem key_after_first {server : ℕ} (hserver : server < servers) :
    (((List.range' 1 (retryCount - 1)).flatMap (p.during server)).foldl KeyStore.happen
      ((p.before servers 1).stores server)).key =
        KeyChange.applyAll (p.changes retryCount server) ((p.initially server).map Subtype.val) := by
  have hstore : (p.before servers 1).stores server = (p.duringSleep 0 server).foldl KeyStore.happen
      (((p.beforeDelete 0 server).foldl KeyStore.happen (((p.beforeSet 0 server).foldl KeyStore.happen
        ⟨(p.initially server).map Subtype.val,[]⟩).request (some (.set token)) (p.set 0 server)).1).request
          (some (.delete token)) (p.delete 0 server)).1 := by
    simp only [before,sleep,release,setAll,RedlockCall.askAll_eq,RedlockCall.ask,start,if_pos hserver,Option.map_some]
  rw [hstore,← List.foldl_append,changes]
  simp only [foldl_happen,request_fst token,KeyStore.after,KeyChange.applyAll_append]

theorem initially_ne (server : ℕ) : (p.initially server).map Subtype.val ≠ some token := by
  intro hkey
  obtain ⟨t,-,ht⟩ := Option.map_eq_some_iff.mp hkey
  exact t.2 ht

variable (p servers ttl) in
/-- A call succeeds in its first attempt or not at all. -/
theorem acquire_eq (hretry : 0 < retryCount) : ((p.acquire servers retryCount ttl).1 = true ↔ p.Good servers ttl 0) ∧
    ((p.acquire servers retryCount ttl).1 = false → ∀ server < servers,
      (((p.acquire servers retryCount ttl).2.stores server).key = some token ↔ p.Stuck retryCount server)) := by
  obtain ⟨left,rfl⟩ : ∃ left, retryCount = left + 1 := ⟨retryCount - 1,by omega⟩
  unfold acquire
  by_cases hservers : servers = 0
  · subst servers
    rw [if_pos rfl]
    refine ⟨iff_of_false nofun fun h => Nat.not_succ_le_zero _ h.1,fun _ server hserver => ?_⟩
    exact absurd hserver server.not_lt_zero
  rw [if_neg hservers]
  unfold acquireLoop
  dsimp only
  rw [setAll_start_snd]
  by_cases hgood : p.Good servers ttl 0
  · have h := hgood
    unfold Good at h
    rw [if_pos h]
    exact ⟨iff_of_true rfl hgood,nofun⟩
  · have h := hgood
    unfold Good at h
    rw [if_neg h]
    have hnone : (p.before servers 1).token = none := rfl
    obtain ⟨hfalse,hstores⟩ := acquireLoop_without_token p servers ttl left 1 hnone
    refine ⟨iff_of_false (fun htrue => ?_) hgood,fun _ server hserver => ?_⟩
    · exact Bool.false_ne_true (hfalse.symm.trans htrue)
    · have hkey : _ = KeyChange.applyAll (p.changes (left + 1) server) _ := key_after_first hserver
      rw [Nat.add_sub_cancel,← hstores server hserver] at hkey
      exact (Eq.congr_left hkey).trans (KeyChange.applyAll_eq_token (initially_ne server))

/-- Retries are real exactly when the first attempt is the only one that counts: if any attempt
finds a free quorum in time then the first one does, and if that fails, no key that the call set and
nothing took out is left at a server that answers the last cleanup. -/
theorem retriesAreReal_iff (hretry : 0 < retryCount) : p.RetriesAreReal servers retryCount ttl ↔
    (∀ attempt < retryCount, p.Good servers ttl attempt → p.Good servers ttl 0) ∧
    (p.Good servers ttl 0 ∨ ∀ server < servers, p.Stuck retryCount server →
      p.delete (retryCount - 1) server ≠ .answered) := by
  obtain ⟨htrue,hfalse⟩ := acquire_eq p servers ttl hretry
  unfold RetriesAreReal
  rw [htrue]
  refine and_congr
    ⟨fun h attempt hlt hgood => h.mpr ⟨attempt,hlt,hgood⟩,fun h => ⟨fun hgood => ⟨0,hretry,hgood⟩,?_⟩⟩ ?_
  · rintro ⟨attempt,hlt,hgood⟩
    exact h attempt hlt hgood
  by_cases hgood : p.Good servers ttl 0
  · have hret := htrue.mpr hgood
    rw [hret]
    exact iff_of_true nofun (Or.inl hgood)
  · have hret : (p.acquire servers retryCount ttl).1 = false := by
      rw [← Bool.not_eq_true,htrue]
      exact hgood
    rw [or_iff_right hgood,forall_prop_of_true hret]
    refine forall₂_congr fun server hserver => ?_
    rw [Ne,hfalse hret server hserver]
    exact ⟨fun h hstuck hanswered => h hanswered hstuck,fun h hanswered hstuck => h hstuck hanswered⟩

/-- Free servers that answer in the first attempt and in all later ones as given; late requests
are executed while the client sleeps. -/
def freeServers (token : Uuid) (first later : ℕ → Outcome) : RetryPattern token where
  tokenBefore := none
  initially _ := none
  beforeSet _ _ := []
  set attempt server := if attempt = 0 then first server else later server
  beforeDelete _ _ := []
  delete _ _ := .answered
  duringSleep _ _ := [.arrive 0]
  elapsed _ := 0

/-- The retries of the call raise at a server that is free and answers; and a `SET` that is
executed after the cleanup stays. -/
theorem retry_without_token :
    ¬(freeServers ⟨0,0⟩ (fun _ => .failed) fun _ => .answered).RetriesAreReal 1 3 10000 ∧
    ¬(freeServers ⟨0,0⟩ (fun _ => .late) fun _ => .failed).RetriesAreReal 1 3 10000 := by
  constructor
  · intro h
    have hsucceeds := h.1.mpr ⟨1,by decide,by decide⟩
    revert hsucceeds
    decide
  · intro h
    have hleft := h.2 (by decide) 0 (by decide) rfl
    revert hleft
    decide

/-- Two of three servers answer the first attempt in time. -/
theorem first_attempt_real :
    (freeServers ⟨0,0⟩ (fun server => if server = 0 then .late else .answered) fun _ => .failed).RetriesAreReal 3 3 10000 :=
  (retriesAreReal_iff (by decide)).mpr ⟨fun _ _ _ => by decide,Or.inl (by decide)⟩

end RetryPattern

end DistributedSystems.Locks
