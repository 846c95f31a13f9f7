import DistributedSystems.Locks.DistributedLock
import DistributedSystems.Protocol.ExpiringCells
import Mathlib.Algebra.Order.Floor.Defs

/-! # Redlock

Clients with one list of servers and one time to live, in milliseconds. Every request to a
server and every reading of a clock is a step of its own. The clocks of the clients run at
the rate of the time and show different times; a server counts `PX` from the moment at
which it executes the command. Python's `int` of a clock reading, which is never negative,
is its floor.
-/
namespace DistributedSystems.Locks

/-- What a call does next. `granted` are the positions of the servers that have been counted
in `n_acquired`, `retry` is the attempt that a release inside `acquire` cleans up after. -/
inductive RedlockPhase
  | idle
  | setting (attempt : ℕ) (startTime : ℤ) (granted : List ℕ) (k : ℕ)
  | releasing (retry : Option ℕ) (k : ℕ)
  | sleeping (attempt : ℕ)
  deriving DecidableEq

structure Redlock where
  token : Option Uuid
  phase : RedlockPhase

structure RedlockConfig (T : Type) where
  servers : List ℕ
  ttl : ℤ
  retryCount : ℕ → ℕ
  offset : ℕ → T

/-- `SET resource token NX PX ttl`, and the script that deletes the key if it has this token. -/
inductive RedlockRequest
  | set (server : ℕ) (token : Uuid)
  | delete (server : ℕ) (token : Uuid)
  deriving DecidableEq

/-- What becomes of a request: the last three raise at the client. A late one is executed
after the client has given it up. -/
inductive Outcome
  | answered
  | replyLost
  | failed
  | late
  deriving DecidableEq

/-- A call of `acquire` that has returned `True`. -/
structure RedlockWin (T : Type) where
  client : ℕ
  token : Option Uuid
  startTime : ℤ
  returnTime : T

/-- The clients, the key of the resource at each server and requests under way. The wins of
clients that have not called `release` since and the tokens that a release was started for
are histories. -/
structure RedlockCluster (T : Type) where
  clients : ℕ → Redlock
  stores : ExpiringCells ℕ Uuid T
  late : List RedlockRequest
  wins : List (RedlockWin T)
  revoked : List Uuid
  drawn : ℕ
  time : T

inductive RedlockAction (T : Type)
  | acquire (client : ℕ)
  | advance (client : ℕ) (outcome : Outcome)
  | release (client : ℕ)
  | arrive (j : ℕ)
  | elapse (time : T)

def RedlockConfig.quorum {T : Type} (cfg : RedlockConfig T) : ℕ := cfg.servers.length / 2 + 1

namespace RedlockCluster
variable {T : Type} [Ring T] [LinearOrder T] [FloorRing T]

def init (time : T) : RedlockCluster T := ⟨fun _ => ⟨none,.idle⟩,fun _ => none,[],[],[],0,time⟩

/-- `int(time.time() * 1000)` at a client. -/
def clock (cfg : RedlockConfig T) (s : RedlockCluster T) (client : ℕ) : ℤ := ⌊s.time + cfg.offset client⌋

def setClient (s : RedlockCluster T) (client : ℕ) (l : Redlock) : RedlockCluster T :=
  { s with clients := Function.update s.clients client l }

def setPhase (s : RedlockCluster T) (client : ℕ) (phase : RedlockPhase) : RedlockCluster T :=
  s.setClient client { s.clients client with phase := phase }

/-- A server executes a request; the result is the reply to `SET`. -/
def execute (cfg : RedlockConfig T) (s : RedlockCluster T) : RedlockRequest → RedlockCluster T × Bool
  | .set server token =>
    let r := s.stores.setIfFree s.time (s.time + cfg.ttl) server token
    ({ s with stores := r.1 },r.2)
  | .delete server token => ({ s with stores := s.stores.deleteIf s.time server token },false)

/-- A request with its outcome, and whether the client counts it. A `None` in the place of the
token raises before anything is sent. -/
def request (cfg : RedlockConfig T) (s : RedlockCluster T) (r : Option RedlockRequest) (outcome : Outcome) :
    RedlockCluster T × Bool :=
  match r with
  | none => (s,false)
  | some r =>
    match outcome with
    | .answered => s.execute cfg r
    | .replyLost => ((s.execute cfg r).1,false)
    | .failed => (s,false)
    | .late => ({ s with late := s.late ++ [r] },false)

def startAttempt (cfg : RedlockConfig T) (s : RedlockCluster T) (client attempt : ℕ) : RedlockCluster T :=
  s.setPhase client (.setting attempt (s.clock cfg client) [] 0)

/-- The part of `acquire` before its loop. A client makes one call at a time. -/
def acquire (cfg : RedlockConfig T) (s : RedlockCluster T) (client : ℕ) : RedlockCluster T :=
  if (s.clients client).phase ≠ .idle ∨ cfg.servers = [] then s
  else
    let s := { s.setClient client ⟨some ⟨client,s.drawn⟩,.idle⟩ with drawn := s.drawn + 1 }
    if 0 < cfg.retryCount client then s.startAttempt cfg client 0 else s

def beginRelease (s : RedlockCluster T) (client : ℕ) (retry : Option ℕ) : RedlockCluster T :=
  { s.setPhase client (.releasing retry 0) with revoked := s.revoked ++ (s.clients client).token.toList }

/-- `self.token = None`, and back to the loop of `acquire` or to the caller. -/
def endRelease (s : RedlockCluster T) (client : ℕ) (retry : Option ℕ) : RedlockCluster T :=
  s.setClient client ⟨none,match retry with
    | some attempt => .sleeping attempt
    | none => .idle⟩

/-- The end of an attempt. -/
def finishAttempt (cfg : RedlockConfig T) (s : RedlockCluster T) (client attempt : ℕ) (startTime : ℤ)
    (granted : List ℕ) : RedlockCluster T :=
  let elapsed := s.clock cfg client - startTime
  let validity := cfg.ttl - elapsed - 200
  if cfg.quorum ≤ granted.length ∧ 0 < validity then
    { s.setPhase client .idle with
      wins := s.wins ++ [⟨client,(s.clients client).token,startTime,s.time⟩] }
  else s.beginRelease client (some attempt)

/-- The next step of a client in a call. -/
def advance (cfg : RedlockConfig T) (s : RedlockCluster T) (client : ℕ) (outcome : Outcome) : RedlockCluster T :=
  let l := s.clients client
  match l.phase with
  | .idle => s
  | .setting attempt startTime granted k =>
    match cfg.servers[k]? with
    | some server =>
      let r := s.request cfg (l.token.map (.set server)) outcome
      r.1.setPhase client (.setting attempt startTime (if r.2 then granted ++ [k] else granted) (k + 1))
    | none => s.finishAttempt cfg client attempt startTime granted
  | .releasing retry k =>
    match cfg.servers[k]? with
    | some server => (s.request cfg (l.token.map (.delete server)) outcome).1.setPhase client (.releasing retry (k + 1))
    | none => s.endRelease client retry
  | .sleeping attempt =>
    if attempt + 1 < cfg.retryCount client then s.startAttempt cfg client (attempt + 1) else s.setPhase client .idle

/-- A call of `release` by a client. -/
def release (s : RedlockCluster T) (client : ℕ) : RedlockCluster T :=
  if (s.clients client).phase ≠ .idle then s
  else ({ s with wins := s.wins.filter (·.client ≠ client) } : RedlockCluster T).beginRelease client none

def step (cfg : RedlockConfig T) (s : RedlockCluster T) : RedlockAction T → RedlockCluster T
  | .acquire client => s.acquire cfg client
  | .advance client outcome => s.advance cfg client outcome
  | .release client => s.release client
  | .arrive j =>
    match s.late[j]? with
    | some r => (({ s with late := s.late.eraseIdx j } : RedlockCluster T).execute cfg r).1
    | none => s
  | .elapse time => if s.time ≤ time then { s with time := time } else s

end RedlockCluster

/-- The end of the time to live that is counted from the start of an attempt, as a time and
not as the client's reading. -/
def RedlockConfig.finish {T : Type} [Ring T] (cfg : RedlockConfig T) (client : ℕ) (startTime : ℤ) : T :=
  startTime - cfg.offset client + cfg.ttl

/-- The interval from the return of `acquire` to the end of the time to live. -/
def RedlockWin.Covers {T : Type} [Ring T] [LinearOrder T] (w : RedlockWin T) (cfg : RedlockConfig T) (t : T) : Prop :=
  w.returnTime ≤ t ∧ t < cfg.finish w.client w.startTime

/-- The intervals of different clients do not overlap. -/
def RedlockCluster.Exclusive {T : Type} [Ring T] [LinearOrder T] (cfg : RedlockConfig T) (s : RedlockCluster T) : Prop :=
  ∀ w ∈ s.wins, ∀ w' ∈ s.wins, w.client ≠ w'.client → ∀ t, ¬(w.Covers cfg t ∧ w'.Covers cfg t)

end DistributedSystems.Locks
