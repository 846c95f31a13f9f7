import DistributedSystems.Transactions.TwoPhaseCommit

/-! # The two-phase commit participant

A participant keeps the undo functions of every transaction that it has prepared and
not yet committed or aborted.
-/
namespace DistributedSystems.Transactions
variable {U : Type}

/-- What `prepare` meets: the failure flag, the answer of `_validate_operation`, and the
undo function of `_create_undo`. The hooks have no value when they raise. -/
structure Preparation (U : Type) where
  shouldFailPrepare : Bool
  validated : Option Bool
  undo : Option U

/-- The last two fields are histories: the undo functions appended to the log of a
transaction, and those that were called, in order. -/
structure TwoPhaseParticipant (U : Type) where
  undoLogs : ℕ → Option (List U)
  recorded : ℕ → List U
  undone : ℕ → List U

namespace TwoPhaseParticipant

def init (U : Type) : TwoPhaseParticipant U where
  undoLogs _ := none
  recorded _ := []
  undone _ := []

def record (p : TwoPhaseParticipant U) (txnId : ℕ) (undo : U) : TwoPhaseParticipant U :=
  { p with
    undoLogs := Function.update p.undoLogs txnId (some ((p.undoLogs txnId).getD [] ++ [undo]))
    recorded := Function.update p.recorded txnId (p.recorded txnId ++ [undo]) }

/-- An exception of a hook is a NO, and leaves no log. -/
def prepare (p : TwoPhaseParticipant U) (txnId : ℕ) (r : Preparation U) : TwoPhaseParticipant U × VoteResponse :=
  if r.shouldFailPrepare then (p,.no)
  else
    match r.validated with
    | some true =>
      match r.undo with
      | some undo => (p.record txnId undo,.yes)
      | none => (p,.no)
    | _ => (p,.no)

def dropLog (p : TwoPhaseParticipant U) (txnId : ℕ) : TwoPhaseParticipant U :=
  { p with undoLogs := Function.update p.undoLogs txnId none }

def commit (p : TwoPhaseParticipant U) (txnId : ℕ) (shouldFailCommit : Bool) : TwoPhaseParticipant U × Bool :=
  if shouldFailCommit then (p,false) else (p.dropLog txnId,true)

/-- The undo functions called by the loop of `abort`, given those called before. -/
def callAll (call : U → Except String Unit) (called : List U) : List U → List U
  | [] => called
  | undo :: rest =>
    match call undo with
    | .ok _ => callAll call (called ++ [undo]) rest
    | .error _ => callAll call (called ++ [undo]) rest

def abort (p : TwoPhaseParticipant U) (txnId : ℕ) (shouldFailAbort : Bool) (call : U → Except String Unit) :
    TwoPhaseParticipant U × Bool :=
  if shouldFailAbort then (p,false)
  else
    match p.undoLogs txnId with
    | none => (p,true)
    | some log =>
      ({ p with undone := Function.update p.undone txnId (callAll call (p.undone txnId) log.reverse) }.dropLog txnId,true)

/-- An undo function that raises does not keep the others from being called. -/
theorem callAll_eq (call : U → Except String Unit) (called log : List U) : callAll call called log = called ++ log := by
  induction log generalizing called with
  | nil => exact (List.append_nil _).symm
  | cons undo rest ih =>
    unfold callAll
    split
    · rw [ih,List.append_assoc]
      rfl
    · rw [ih,List.append_assoc]
      rfl

end TwoPhaseParticipant

/-- What a participant knows of one transaction. -/
structure Ledger (U : Type) where
  log : Option (List U)
  recorded : List U
  undone : List U

namespace Ledger

/-- All that was recorded can still be undone. -/
structure Held (l : Ledger U) : Prop where
  log : l.log = if l.recorded = [] then none else some l.recorded
  undone : l.undone = []

/-- Nothing was undone, nor will it be. -/
structure Committed (l : Ledger U) : Prop where
  log : l.log = none
  undone : l.undone = []

/-- All that was recorded has been undone, the latest first. -/
structure RolledBack (l : Ledger U) : Prop where
  log : l.log = none
  undone : l.undone = l.recorded.reverse

theorem Held.committed {l : Ledger U} (h : l.Held) (hr : l.recorded = []) : l.Committed :=
  ⟨by rw [h.log,if_pos hr],h.undone⟩

theorem Held.rolledBack {l : Ledger U} (h : l.Held) (hr : l.recorded = []) : l.RolledBack :=
  ⟨by rw [h.log,if_pos hr],by rw [h.undone,hr]; rfl⟩

end Ledger

namespace TwoPhaseParticipant
variable {p : TwoPhaseParticipant U} {txnId : ℕ}

def ledger (p : TwoPhaseParticipant U) (txnId : ℕ) : Ledger U where
  log := p.undoLogs txnId
  recorded := p.recorded txnId
  undone := p.undone txnId

/-- A YES extends the log, and a NO changes nothing. -/
theorem prepare_held (h : (p.ledger txnId).Held) (r : Preparation U) :
    ((p.prepare txnId r).1.ledger txnId).Held := by
  unfold prepare
  split
  · exact h
  split
  · split
    · rename_i undo _
      refine ⟨?_,h.undone⟩
      change Function.update p.undoLogs txnId _ txnId =
        if Function.update p.recorded txnId _ txnId = [] then none else some (Function.update p.recorded txnId _ txnId)
      rw [Function.update_self,Function.update_self,if_neg (List.append_ne_nil_of_right_ne_nil _ (List.cons_ne_nil _ _))]
      have hlog : (p.undoLogs txnId).getD [] = p.recorded txnId := by
        rw [show p.undoLogs txnId = _ from h.log]
        change (if p.recorded txnId = [] then none else some (p.recorded txnId)).getD [] = _
        split
        · rename_i hr
          exact hr.symm
        · rfl
      rw [hlog]
    · exact h
  · exact h

theorem commit_committed (h : (p.ledger txnId).Held) : ((p.commit txnId false).1.ledger txnId).Committed :=
  ⟨Function.update_self ..,h.undone⟩

theorem abort_rolledBack (h : (p.ledger txnId).Held) (call : U → Except String Unit) :
    ((p.abort txnId false call).1.ledger txnId).RolledBack := by
  have hlog : p.undoLogs txnId = if p.recorded txnId = [] then none else some (p.recorded txnId) := h.log
  have hundone : p.undone txnId = [] := h.undone
  unfold abort
  rw [if_neg Bool.false_ne_true,hlog]
  by_cases hr : p.recorded txnId = []
  · rw [if_pos hr]
    exact h.rolledBack hr
  · rw [if_neg hr]
    refine ⟨Function.update_self ..,?_⟩
    change Function.update p.undone txnId _ txnId = _
    rw [Function.update_self,callAll_eq,hundone]
    rfl

/-- Calls for one transaction leave the others alone. -/
theorem prepare_other {other : ℕ} (h : other ≠ txnId) (r : Preparation U) :
    (p.prepare txnId r).1.ledger other = p.ledger other := by
  unfold prepare
  split
  · rfl
  split
  · split
    · unfold record ledger
      dsimp only
      rw [Function.update_of_ne h,Function.update_of_ne h]
    · rfl
  · rfl

theorem dropLog_other {other : ℕ} (h : other ≠ txnId) : (p.dropLog txnId).ledger other = p.ledger other := by
  unfold dropLog ledger
  dsimp only
  rw [Function.update_of_ne h]

theorem commit_other {other : ℕ} (h : other ≠ txnId) (shouldFailCommit : Bool) :
    (p.commit txnId shouldFailCommit).1.ledger other = p.ledger other := by
  unfold commit
  split
  · rfl
  · exact dropLog_other h

theorem abort_other {other : ℕ} (h : other ≠ txnId) (shouldFailAbort : Bool) (call : U → Except String Unit) :
    (p.abort txnId shouldFailAbort call).1.ledger other = p.ledger other := by
  unfold abort
  split
  · rfl
  split
  · rfl
  · rw [dropLog_other h]
    unfold ledger
    dsimp only
    rw [Function.update_of_ne h]

end TwoPhaseParticipant

end DistributedSystems.Transactions
