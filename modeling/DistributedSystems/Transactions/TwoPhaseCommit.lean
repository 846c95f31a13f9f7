import DistributedSystems.Protocol.Dict

/-! # The two-phase commit coordinator

What happens outside the coordinator during a call, that is the answers of the
participants and of the clock, is a parameter of the call.
-/
namespace DistributedSystems.Transactions

inductive TransactionState
  | init
  | preparing
  | prepared
  | committing
  | committed
  | aborting
  | aborted
  deriving DecidableEq

/-- A transaction that has been decided. -/
def TransactionState.decided (s : TransactionState) : Prop := s = .committed ∨ s = .aborted

instance (s : TransactionState) : Decidable s.decided := inferInstanceAs (Decidable (_ ∨ _))

inductive VoteResponse
  | yes
  | no
  deriving DecidableEq

/-- An operation tuple: the participant it is for, and the rest. -/
structure Operation (P A : Type) where
  participant : P
  action : A
  deriving DecidableEq

variable {P A : Type} [DecidableEq P]

/-- The last four fields are histories: the values of `state` in order, the calls of
`prepare` at participants with their answers, and the participants that were told to
commit and to abort. -/
structure TransactionContext (P A : Type) where
  operations : List (Operation P A)
  state : TransactionState
  votes : Dict P VoteResponse
  states : List TransactionState
  prepareCalls : List (P × Operation P A × VoteResponse)
  toldCommit : Finset P
  toldAbort : Finset P

/-- What a call meets: whether the transaction is seen expired before the vote of a
participant and after the last one, the votes (an exception is a NO), and whether a
participant confirms its commit. -/
structure Responses (P : Type) where
  expired : P → Bool
  vote : P → VoteResponse
  expiredAtEnd : Bool
  commits : P → Bool

namespace TransactionContext

def begin (operations : List (Operation P A)) : TransactionContext P A where
  operations := operations
  state := .init
  votes := .empty
  states := [.init]
  prepareCalls := []
  toldCommit := ∅
  toldAbort := ∅

def setState (ctx : TransactionContext P A) (s : TransactionState) : TransactionContext P A :=
  { ctx with state := s, states := ctx.states ++ [s] }

def canCommit (ctx : TransactionContext P A) (expectedParticipantCount : ℕ) : Prop :=
  ctx.votes.size ≠ 0 ∧ ctx.votes.size = expectedParticipantCount ∧ ∀ e ∈ ctx.votes.entries, e.2 = .yes

instance (ctx : TransactionContext P A) (n : ℕ) : Decidable (ctx.canCommit n) :=
  inferInstanceAs (Decidable (_ ∧ _))

/-- The last operation of each participant. -/
def participantOps (ctx : TransactionContext P A) : Dict P (Operation P A) :=
  .ofEntries (ctx.operations.map fun op => (op.participant,op))

def involvedParticipants (ctx : TransactionContext P A) : Finset P :=
  (ctx.operations.map Operation.participant).toFinset

/-- A vote is recorded; the call is one only if the participant is known. -/
def recordVote (ctx : TransactionContext P A) (participants : Finset P) (pid : P) (op : Operation P A)
    (vote : VoteResponse) : TransactionContext P A :=
  { ctx with
    votes := ctx.votes.insert pid vote
    prepareCalls := if pid ∈ participants then ctx.prepareCalls ++ [(pid,op,vote)] else ctx.prepareCalls }

def sendPrepare (participants : Finset P) (r : Responses P) (pid : P) : VoteResponse :=
  if pid ∈ participants then r.vote pid else .no

/-- The voting loop; false when it returns early. -/
def collectVotes (participants : Finset P) (r : Responses P) (ctx : TransactionContext P A) :
    List (P × Operation P A) → TransactionContext P A × Bool
  | [] => (ctx,true)
  | (pid,op) :: rest =>
    if r.expired pid then (ctx,false)
    else
      let vote := sendPrepare participants r pid
      let ctx := ctx.recordVote participants pid op vote
      if vote = .no then (ctx,false) else collectVotes participants r ctx rest

/-- Two contexts with the same state, operations and histories of decisions. -/
structure Agrees (ctx ctx' : TransactionContext P A) : Prop where
  operations : ctx'.operations = ctx.operations
  state : ctx'.state = ctx.state
  states : ctx'.states = ctx.states
  toldCommit : ctx'.toldCommit = ctx.toldCommit
  toldAbort : ctx'.toldAbort = ctx.toldAbort

/-- The voting loop touches neither the state nor what was told. -/
theorem collectVotes_agrees (participants : Finset P) (r : Responses P) (ctx : TransactionContext P A)
    (entries : List (P × Operation P A)) : Agrees ctx (collectVotes participants r ctx entries).1 := by
  induction entries generalizing ctx with
  | nil => exact ⟨rfl,rfl,rfl,rfl,rfl⟩
  | cons e rest ih =>
    unfold collectVotes
    split
    · exact ⟨rfl,rfl,rfl,rfl,rfl⟩
    dsimp only
    split
    · exact ⟨rfl,rfl,rfl,rfl,rfl⟩
    · have h := ih (ctx.recordVote participants e.1 e.2 (sendPrepare participants r e.1))
      exact ⟨h.operations,h.state,h.states,h.toldCommit,h.toldAbort⟩

def prepare (participants : Finset P) (r : Responses P) (ctx : TransactionContext P A) :
    TransactionContext P A × Bool :=
  let ctx := ctx.setState .preparing
  let voted := collectVotes participants r ctx ctx.participantOps.entries
  if voted.2 then
    if voted.1.canCommit ctx.participantOps.size then
      if r.expiredAtEnd then (voted.1,false) else (voted.1.setState .prepared,true)
    else (voted.1,false)
  else (voted.1,false)

/-- Every involved participant is told, also after one has failed. -/
def commit (participants : Finset P) (r : Responses P) (ctx : TransactionContext P A) :
    TransactionContext P A × Bool :=
  if ctx.canCommit ctx.involvedParticipants.card then
    let ctx := ctx.setState .committing
    let ctx := { ctx with toldCommit := ctx.toldCommit ∪ (ctx.involvedParticipants ∩ participants) }
    if ∀ pid ∈ ctx.involvedParticipants, pid ∈ participants ∧ r.commits pid = true then (ctx.setState .committed,true)
    else (ctx,false)
  else (ctx,false)

def abort (participants : Finset P) (ctx : TransactionContext P A) : TransactionContext P A × Bool :=
  if ctx.state = .committed then (ctx,false)
  else
    let ctx := ctx.setState .aborting
    let ctx := { ctx with toldAbort := ctx.toldAbort ∪ (ctx.involvedParticipants ∩ participants) }
    (ctx.setState .aborted,true)

end TransactionContext

/-- A coordinator. The id of a transaction, in the source a new UUID, is its position. -/
structure TwoPhaseCoordinator (P A : Type) where
  participants : Finset P
  transactions : List (TransactionContext P A)

namespace TwoPhaseCoordinator

def beginTransaction (c : TwoPhaseCoordinator P A) (operations : List (Operation P A)) :
    TwoPhaseCoordinator P A × ℕ :=
  ({ c with transactions := c.transactions ++ [.begin operations] },c.transactions.length)

/-- Runs a phase on the context of a transaction. There is no result if there is none. -/
def onContext (c : TwoPhaseCoordinator P A) (txnId : ℕ)
    (phase : TransactionContext P A → TransactionContext P A × Bool) : TwoPhaseCoordinator P A × Option Bool :=
  match c.transactions[txnId]? with
  | none => (c,none)
  | some ctx => ({ c with transactions := c.transactions.set txnId (phase ctx).1 },some (phase ctx).2)

/-- Without a result the source raises a `ValueError`. -/
def prepare (c : TwoPhaseCoordinator P A) (txnId : ℕ) (r : Responses P) : TwoPhaseCoordinator P A × Option Bool :=
  c.onContext txnId (TransactionContext.prepare c.participants r)

def commit (c : TwoPhaseCoordinator P A) (txnId : ℕ) (r : Responses P) : TwoPhaseCoordinator P A × Option Bool :=
  c.onContext txnId (TransactionContext.commit c.participants r)

/-- An unknown transaction is not aborted. -/
def abort (c : TwoPhaseCoordinator P A) (txnId : ℕ) : TwoPhaseCoordinator P A × Bool :=
  let out := c.onContext txnId (TransactionContext.abort c.participants)
  (out.1,out.2.getD false)

/-- The new transaction is known, so neither phase raises. -/
def executeTransaction (c : TwoPhaseCoordinator P A) (r : Responses P) (operations : List (Operation P A)) :
    TwoPhaseCoordinator P A × Bool :=
  if ∀ op ∈ operations, op.participant ∈ c.participants then
    let (c,txnId) := c.beginTransaction operations
    let prepared := c.prepare txnId r
    if prepared.2 = some true then
      let committed := prepared.1.commit txnId r
      (committed.1,committed.2.getD false)
    else ((prepared.1.abort txnId).1,false)
  else (c,false)

end TwoPhaseCoordinator

end DistributedSystems.Transactions
