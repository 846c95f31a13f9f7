import DistributedSystems.Protocol.Runs
import DistributedSystems.Transactions.Participant

/-! # Concurrent executions of transactions

Executions of `execute_transaction` over the same participants. They take turns after
every call of a participant.
-/
namespace DistributedSystems.Transactions
variable {P A U : Type} [DecidableEq P]

/-- Where an execution is: with the participants still to be asked, those still to be
told, in any order, or at its end. -/
inductive Phase (P A : Type)
  | preparing (rest : List (P × Operation P A))
  | committing (rest : Finset P) (allCommitted : Bool)
  | aborting (rest : Finset P)
  | returned (result : Bool)

/-- `sawExpiry` is a history. -/
structure Execution (P A : Type) where
  ctx : TransactionContext P A
  phase : Phase P A
  sawExpiry : Bool

/-- The next stretch of an execution, up to its next call of a participant. -/
inductive Event (P U : Type)
  | prepare (expired : Bool) (r : Preparation U)
  | endPrepare (expired : Bool)
  | commit (pid : P) (shouldFailCommit : Bool)
  | abort (pid : P) (shouldFailAbort : Bool) (call : U → Except String Unit)
  | endLoop

namespace Execution

def startAbort (x : Execution P A) : Execution P A :=
  if x.ctx.state = .committed then { x with phase := .returned false }
  else { x with ctx := x.ctx.setState .aborting, phase := .aborting x.ctx.involvedParticipants }

def startCommit (x : Execution P A) : Execution P A :=
  if x.ctx.canCommit x.ctx.involvedParticipants.card then
    { x with ctx := x.ctx.setState .committing, phase := .committing x.ctx.involvedParticipants true }
  else { x with phase := .returned false }

/-- A participant that is not registered receives no call. -/
def sendPrepare (registered : Finset P) (txnId : ℕ) (participant : P → TwoPhaseParticipant U) (pid : P)
    (r : Preparation U) : (P → TwoPhaseParticipant U) × VoteResponse :=
  if pid ∈ registered then
    let out := (participant pid).prepare txnId r
    (Function.update participant pid out.1,out.2)
  else (participant,.no)

def sendCommit (registered : Finset P) (txnId : ℕ) (participant : P → TwoPhaseParticipant U) (pid : P)
    (shouldFailCommit : Bool) : (P → TwoPhaseParticipant U) × Bool :=
  if pid ∈ registered then
    let out := (participant pid).commit txnId shouldFailCommit
    (Function.update participant pid out.1,out.2)
  else (participant,false)

def sendAbort (registered : Finset P) (txnId : ℕ) (participant : P → TwoPhaseParticipant U) (pid : P)
    (shouldFailAbort : Bool) (call : U → Except String Unit) : P → TwoPhaseParticipant U :=
  if pid ∈ registered then
    Function.update participant pid ((participant pid).abort txnId shouldFailAbort call).1
  else participant

/-- An event that is not the next one does nothing. -/
def step (registered : Finset P) (txnId : ℕ) (x : Execution P A) (participant : P → TwoPhaseParticipant U)
    (event : Event P U) : Execution P A × (P → TwoPhaseParticipant U) :=
  match x.phase,event with
  | .preparing ((pid,op) :: rest),.prepare expired r =>
    if expired then (startAbort { x with sawExpiry := true },participant)
    else
      let out := sendPrepare registered txnId participant pid r
      let x := { x with ctx := x.ctx.recordVote registered pid op out.2 }
      (if out.2 = .no then x.startAbort else { x with phase := .preparing rest },out.1)
  | .preparing [],.endPrepare expired =>
    if x.ctx.canCommit x.ctx.participantOps.size then
      if expired then (startAbort { x with sawExpiry := true },participant)
      else (startCommit { x with ctx := x.ctx.setState .prepared },participant)
    else (x.startAbort,participant)
  | .committing rest allCommitted,.commit pid shouldFailCommit =>
    if pid ∈ rest then
      let out := sendCommit registered txnId participant pid shouldFailCommit
      ({ x with
          ctx := { x.ctx with toldCommit := if pid ∈ registered then insert pid x.ctx.toldCommit else x.ctx.toldCommit }
          phase := .committing (rest.erase pid) (allCommitted && out.2) },out.1)
    else (x,participant)
  | .committing rest allCommitted,.endLoop =>
    if rest = ∅ then
      if allCommitted then ({ x with ctx := x.ctx.setState .committed, phase := .returned true },participant)
      else ({ x with phase := .returned false },participant)
    else (x,participant)
  | .aborting rest,.abort pid shouldFailAbort call =>
    if pid ∈ rest then
      ({ x with
          ctx := { x.ctx with toldAbort := if pid ∈ registered then insert pid x.ctx.toldAbort else x.ctx.toldAbort }
          phase := .aborting (rest.erase pid) },sendAbort registered txnId participant pid shouldFailAbort call)
    else (x,participant)
  | .aborting rest,.endLoop =>
    if rest = ∅ then ({ x with ctx := x.ctx.setState .aborted, phase := .returned false },participant)
    else (x,participant)
  | _,_ => (x,participant)

/-- An event is one that the phase waits for, or does nothing. -/
theorem step_cases (registered : Finset P) (txnId : ℕ) (x : Execution P A) (participant : P → TwoPhaseParticipant U)
    (event : Event P U) : x.step registered txnId participant event = (x,participant) ∨
    (∃ pid op rest expired r, x.phase = .preparing ((pid,op) :: rest) ∧ event = .prepare expired r) ∨
    (∃ expired, x.phase = .preparing [] ∧ event = .endPrepare expired) ∨
    (∃ rest allCommitted pid shouldFailCommit, x.phase = .committing rest allCommitted ∧
      event = .commit pid shouldFailCommit) ∨
    (∃ rest pid shouldFailAbort call, x.phase = .aborting rest ∧ event = .abort pid shouldFailAbort call) ∨
    event = .endLoop := by
  unfold step
  split
  · rename_i hphase
    exact Or.inr (Or.inl ⟨_,_,_,_,_,hphase,rfl⟩)
  · rename_i hphase
    exact Or.inr (Or.inr (Or.inl ⟨_,hphase,rfl⟩))
  · rename_i hphase
    exact Or.inr (Or.inr (Or.inr (Or.inl ⟨_,_,_,_,hphase,rfl⟩)))
  · exact Or.inr (Or.inr (Or.inr (Or.inr (Or.inr rfl))))
  · rename_i hphase
    exact Or.inr (Or.inr (Or.inr (Or.inr (Or.inl ⟨_,_,_,_,hphase,rfl⟩))))
  · exact Or.inr (Or.inr (Or.inr (Or.inr (Or.inr rfl))))
  · exact Or.inl rfl

end Execution

/-- The executions are numbered as they start; the number stands for the new UUID. -/
structure Executions (P A U : Type) where
  registered : Finset P
  participant : P → TwoPhaseParticipant U
  executions : List (Execution P A)

inductive Turn (P A U : Type)
  | executeTransaction (operations : List (Operation P A))
  | advance (txnId : ℕ) (event : Event P U)

namespace Executions

def init (A U : Type) (registered : Finset P) : Executions P A U where
  registered := registered
  participant _ := .init U
  executions := []

/-- With an unknown participant no transaction is begun. -/
def start (registered : Finset P) (operations : List (Operation P A)) : Execution P A :=
  if ∀ op ∈ operations, op.participant ∈ registered then
    let ctx := (TransactionContext.begin operations).setState .preparing
    ⟨ctx,.preparing ctx.participantOps.entries,false⟩
  else ⟨.begin operations,.returned false,false⟩

def step (s : Executions P A U) : Turn P A U → Executions P A U
  | .executeTransaction operations => { s with executions := s.executions ++ [start s.registered operations] }
  | .advance txnId event =>
    match s.executions[txnId]? with
    | none => s
    | some x =>
      let out := x.step s.registered txnId s.participant event
      { s with participant := out.2, executions := s.executions.set txnId out.1 }

end Executions

end DistributedSystems.Transactions
