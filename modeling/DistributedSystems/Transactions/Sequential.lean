import DistributedSystems.Transactions.Coverage
import DistributedSystems.Transactions.Interleaving

/-! # One execution among others

Whatever happens between two of its calls, an execution decides as if it ran alone and met
the answers that it got. The answers are collected from the end of the run to its start.
-/
namespace DistributedSystems.Transactions
variable {P A U : Type} [DecidableEq P]

namespace TransactionContext

/-- The end of `prepare`, after the voting loop. -/
def endVoting (r : Responses P) (voted : TransactionContext P A × Bool) : TransactionContext P A × Bool :=
  if voted.2 then
    if voted.1.canCommit voted.1.participantOps.size then
      if r.expiredAtEnd then (voted.1,false) else (voted.1.setState .prepared,true)
    else (voted.1,false)
  else (voted.1,false)

/-- What `execute_transaction` does after `prepare`. -/
def conclude (participants : Finset P) (r : Responses P) (prepared : TransactionContext P A × Bool) :
    TransactionContext P A × Bool :=
  if prepared.2 then prepared.1.commit participants r else ((prepared.1.abort participants).1,false)

theorem prepare_eq_endVoting (participants : Finset P) (r : Responses P) (ctx : TransactionContext P A) :
    ctx.prepare participants r = endVoting r (collectVotes participants r (ctx.setState .preparing)
      (ctx.setState .preparing).participantOps.entries) := by
  unfold prepare endVoting
  dsimp only
  have hops : (collectVotes participants r (ctx.setState .preparing)
      (ctx.setState .preparing).participantOps.entries).1.participantOps = (ctx.setState .preparing).participantOps := by
    unfold participantOps
    rw [(collectVotes_agrees participants r _ _).operations]
  rw [hops]

/-- The loop reads the answers of the participants it asks. -/
theorem collectVotes_congr {participants : Finset P} {r r' : Responses P} {ctx : TransactionContext P A}
    {entries : List (P × Operation P A)} (h : ∀ e ∈ entries, r.expired e.1 = r'.expired e.1 ∧ r.vote e.1 = r'.vote e.1) :
    collectVotes participants r ctx entries = collectVotes participants r' ctx entries := by
  induction entries generalizing ctx with
  | nil => rfl
  | cons e rest ih =>
    obtain ⟨hexpired,hvote⟩ := h e List.mem_cons_self
    have hsend : sendPrepare participants r e.1 = sendPrepare participants r' e.1 := by
      unfold sendPrepare
      rw [hvote]
    unfold collectVotes
    rw [hexpired,hsend]
    dsimp only
    rw [ih fun e' he' => h e' (List.mem_cons_of_mem e he')]

end TransactionContext

namespace TwoPhaseCoordinator

/-- The new transaction goes through both phases. -/
theorem executeTransaction_eq {c : TwoPhaseCoordinator P A} (r : Responses P) {operations : List (Operation P A)}
    (hreg : ∀ op ∈ operations, op.participant ∈ c.participants) :
    c.executeTransaction r operations =
      let out := TransactionContext.conclude c.participants r ((TransactionContext.begin operations).prepare c.participants r)
      ({ c with transactions := c.transactions ++ [out.1] },out.2) := by
  unfold executeTransaction
  rw [if_pos hreg]
  unfold beginTransaction prepare commit abort TransactionContext.conclude
  dsimp only
  rw [onContext_last]
  dsimp only
  rw [onContext_last,onContext_last]
  cases ((TransactionContext.begin operations).prepare c.participants r).2 with
  | true => rfl
  | false => rfl

end TwoPhaseCoordinator

namespace Execution
variable {registered : Finset P} {txnId : ℕ} {x : Execution P A} {participant : P → TwoPhaseParticipant U}
open TransactionContext

/-- The participants that are still to be asked are different ones. -/
def Distinct (x : Execution P A) : Prop :=
  match x.phase with
  | .preparing rest => (rest.map Prod.fst).Nodup
  | _ => True

/-- Where an execution gets to on its own with the given answers. -/
def finish (registered : Finset P) (r : Responses P) (x : Execution P A) : TransactionContext P A × Bool :=
  match x.phase with
  | .preparing rest => conclude registered r (endVoting r (collectVotes registered r x.ctx rest))
  | .committing rest allCommitted =>
    let ctx := { x.ctx with toldCommit := x.ctx.toldCommit ∪ (rest ∩ registered) }
    if allCommitted = true ∧ ∀ pid ∈ rest, pid ∈ registered ∧ r.commits pid = true then (ctx.setState .committed,true)
    else (ctx,false)
  | .aborting rest => ({ x.ctx with toldAbort := x.ctx.toldAbort ∪ (rest ∩ registered) }.setState .aborted,false)
  | .returned result => (x.ctx,result)

theorem finish_startAbort (registered : Finset P) (r : Responses P) (x : Execution P A) :
    x.startAbort.finish registered r = ((x.ctx.abort registered).1,false) := by
  unfold startAbort abort
  split
  · rfl
  · rfl

theorem finish_startCommit (registered : Finset P) (r : Responses P) (x : Execution P A) :
    x.startCommit.finish registered r = x.ctx.commit registered r := by
  unfold startCommit commit
  split
  · unfold finish
    dsimp only
    rw [if_congr (and_iff_right rfl) rfl rfl]
    rfl
  · rfl

/-- One participant less to be told is one more that has been told. -/
theorem insert_told {told rest : Finset P} {pid : P} (hpid : pid ∈ rest) :
    (if pid ∈ registered then insert pid told else told) ∪ (rest.erase pid ∩ registered) = told ∪ (rest ∩ registered) := by
  ext p
  by_cases hp : p = pid
  · subst p
    by_cases hreg : pid ∈ registered
    · simp [hreg,hpid]
    · simp [hreg]
  · by_cases hreg : pid ∈ registered
    · simp [hreg,hp]
    · simp [hreg]

theorem Distinct.startAbort : x.startAbort.Distinct := by
  unfold Execution.startAbort
  split
  · trivial
  · trivial

theorem Distinct.startCommit : x.startCommit.Distinct := by
  unfold Execution.startCommit
  split
  · trivial
  · trivial

/-- No event brings a participant back. -/
theorem Distinct.step (h : x.Distinct) (event : Event P U) : (x.step registered txnId participant event).1.Distinct := by
  unfold Execution.step
  split
  · rename_i hphase
    split
    · exact .startAbort
    · dsimp only
      split
      · exact .startAbort
      · unfold Distinct at h
        rw [hphase] at h
        exact (List.nodup_cons.mp h).2
  · split
    · split
      · exact .startAbort
      · exact .startCommit
    · exact .startAbort
  · split
    · trivial
    · exact h
  · split
    · split
      · trivial
      · trivial
    · exact h
  · split
    · trivial
    · exact h
  · split
    · trivial
    · exact h
  · exact h

theorem step_prepare {pid : P} {op : Operation P A} {rest : List (P × Operation P A)}
    (hphase : x.phase = .preparing ((pid,op) :: rest)) (expired : Bool) (prep : Preparation U) :
    (x.step registered txnId participant (.prepare expired prep)).1 =
      if expired then startAbort { x with sawExpiry := true }
      else
        let vote := (sendPrepare registered txnId participant pid prep).2
        let x := { x with ctx := x.ctx.recordVote registered pid op vote }
        if vote = .no then x.startAbort else { x with phase := .preparing rest } := by
  unfold Execution.step
  rw [hphase]
  dsimp only
  cases expired with
  | true => rfl
  | false => rfl

/-- Asking the next participant, with its answer put in front of all later ones. -/
theorem finish_prepare {pid : P} {op : Operation P A} {rest : List (P × Operation P A)} (h : x.Distinct)
    (hphase : x.phase = .preparing ((pid,op) :: rest)) (expired : Bool) (prep : Preparation U) (r : Responses P) :
    ∃ r', x.finish registered r' = (x.step registered txnId participant (.prepare expired prep)).1.finish registered r := by
  let vote := (sendPrepare registered txnId participant pid prep).2
  let r' : Responses P :=
    { r with expired := Function.update r.expired pid expired, vote := Function.update r.vote pid vote }
  refine ⟨r',?_⟩
  have hexpired : r'.expired pid = expired := Function.update_self ..
  have hvote : TransactionContext.sendPrepare registered r' pid = vote := by
    change (if pid ∈ registered then Function.update r.vote pid vote pid else .no) = _
    rw [Function.update_self]
    split
    · rfl
    · rename_i hreg
      change _ = (Execution.sendPrepare registered txnId participant pid prep).2
      unfold Execution.sendPrepare
      rw [if_neg hreg]
  have hrest : ∀ ctx : TransactionContext P A, collectVotes registered r' ctx rest = collectVotes registered r ctx rest := by
    intro ctx
    unfold Distinct at h
    rw [hphase] at h
    refine collectVotes_congr fun e he => ?_
    have hne : e.1 ≠ pid := fun heq => (List.nodup_cons.mp h).1 (List.mem_map.mpr ⟨e,he,heq⟩)
    exact ⟨Function.update_of_ne hne _ _,Function.update_of_ne hne _ _⟩
  have hfinish : x.finish registered r' =
      conclude registered r' (endVoting r' (collectVotes registered r' x.ctx ((pid,op) :: rest))) := by
    unfold finish
    rw [hphase]
  rw [hfinish,step_prepare hphase]
  unfold collectVotes
  rw [hexpired,hvote]
  dsimp only
  cases expired with
  | true =>
    rw [if_pos rfl,if_pos rfl,finish_startAbort]
    rfl
  | false =>
    rw [if_neg Bool.false_ne_true,if_neg Bool.false_ne_true]
    by_cases hno : vote = .no
    · rw [if_pos hno,if_pos hno,finish_startAbort]
      rfl
    · rw [if_neg hno,if_neg hno,hrest]
      rfl

theorem finish_endPrepare (hphase : x.phase = .preparing []) (expired : Bool) (r : Responses P) :
    ∃ r', x.finish registered r' =
      (x.step registered txnId participant (.endPrepare expired : Event P U)).1.finish registered r := by
  refine ⟨{ r with expiredAtEnd := expired },?_⟩
  unfold Execution.step
  have hfinish : x.finish registered { r with expiredAtEnd := expired } =
      conclude registered r (endVoting { r with expiredAtEnd := expired } (x.ctx,true)) := by
    unfold finish
    rw [hphase]
    rfl
  rw [hfinish,hphase]
  unfold endVoting
  dsimp only
  rw [if_pos rfl]
  split
  · cases expired with
    | true =>
      rw [if_pos rfl,if_pos rfl,finish_startAbort]
      rfl
    | false =>
      rw [if_neg Bool.false_ne_true,if_neg Bool.false_ne_true,finish_startCommit]
      rfl
  · rw [finish_startAbort]
    rfl

theorem finish_commit {rest : Finset P} {allCommitted : Bool} (hphase : x.phase = .committing rest allCommitted) (pid : P)
    (shouldFailCommit : Bool) (r : Responses P) :
    ∃ r', x.finish registered r' =
      (x.step registered txnId participant (.commit pid shouldFailCommit)).1.finish registered r := by
  unfold Execution.step
  rw [hphase]
  dsimp only
  by_cases hpid : pid ∈ rest
  · let answer := (sendCommit registered txnId participant pid shouldFailCommit).2
    have hanswer : answer = true → pid ∈ registered := by
      intro ha
      by_contra hreg
      change (sendCommit registered txnId participant pid shouldFailCommit).2 = true at ha
      unfold sendCommit at ha
      rw [if_neg hreg] at ha
      cases ha
    refine ⟨{ r with commits := Function.update r.commits pid answer },?_⟩
    rw [if_pos hpid]
    unfold finish
    rw [hphase]
    dsimp only
    rw [insert_told hpid]
    refine if_congr ?_ rfl rfl
    rw [Bool.and_eq_true,and_assoc]
    refine and_congr_right fun _ => ⟨fun hall => ⟨?_,fun p hp => ?_⟩,fun hall p hp => ?_⟩
    · have hself := (hall pid hpid).2
      rwa [Function.update_self] at hself
    · obtain ⟨hne,hp⟩ := Finset.mem_erase.mp hp
      have hother := hall p hp
      rwa [Function.update_of_ne hne] at hother
    · by_cases hne : p = pid
      · subst p
        rw [Function.update_self]
        exact ⟨hanswer hall.1,hall.1⟩
      · rw [Function.update_of_ne hne]
        exact hall.2 p (Finset.mem_erase.mpr ⟨hne,hp⟩)
  · rw [if_neg hpid]
    exact ⟨r,rfl⟩

theorem finish_abort {rest : Finset P} (hphase : x.phase = .aborting rest) (pid : P) (shouldFailAbort : Bool)
    (call : U → Except String Unit) (r : Responses P) :
    x.finish registered r =
      (x.step registered txnId participant (.abort pid shouldFailAbort call)).1.finish registered r := by
  unfold Execution.step
  rw [hphase]
  dsimp only
  by_cases hpid : pid ∈ rest
  · rw [if_pos hpid]
    unfold finish
    rw [hphase]
    dsimp only
    rw [insert_told hpid]
  · rw [if_neg hpid]

theorem finish_endLoop (r : Responses P) :
    x.finish registered r = (x.step registered txnId participant (.endLoop : Event P U)).1.finish registered r := by
  unfold Execution.step
  cases hphase : x.phase with
  | preparing rest => cases rest <;> rfl
  | committing rest allCommitted =>
    dsimp only
    split
    · rename_i hrest
      subst rest
      unfold finish
      rw [hphase]
      cases allCommitted with
      | true => simp
      | false => simp
    · rfl
  | aborting rest =>
    dsimp only
    split
    · rename_i hrest
      subst rest
      unfold finish
      rw [hphase]
      simp
    · rfl
  | returned result => rfl

/-- Every event is an answer that the execution would have gone on with alone. -/
theorem finish_step (h : x.Distinct) (event : Event P U) (r : Responses P) :
    ∃ r', x.finish registered r' = (x.step registered txnId participant event).1.finish registered r := by
  rcases x.step_cases registered txnId participant event with hskip | ⟨pid,op,rest,expired,prep,hphase,rfl⟩ |
    ⟨expired,hphase,rfl⟩ | ⟨rest,allCommitted,pid,shouldFailCommit,hphase,rfl⟩ | ⟨rest,pid,shouldFailAbort,call,hphase,rfl⟩ | rfl
  · rw [hskip]
    exact ⟨r,rfl⟩
  · exact finish_prepare h hphase expired prep r
  · exact finish_endPrepare hphase expired r
  · exact finish_commit hphase pid shouldFailCommit r
  · exact ⟨r,finish_abort hphase pid shouldFailAbort call r⟩
  · exact ⟨r,finish_endLoop r⟩

end Execution

namespace Executions
open Execution

theorem registered_step (s : Executions P A U) (turn : Turn P A U) : (s.step turn).registered = s.registered := by
  cases turn with
  | executeTransaction operations => rfl
  | advance txnId event =>
    unfold step
    dsimp only
    split
    · rfl
    · rfl

/-- What a turn makes of an execution that is under way. -/
theorem executions_step {s : Executions P A U} {txnId : ℕ} {x : Execution P A} (hx : s.executions[txnId]? = some x)
    (hd : x.Distinct) (turn : Turn P A U) : ∃ x', (s.step turn).executions[txnId]? = some x' ∧ x'.Distinct ∧
      ∀ r, ∃ r', x.finish s.registered r' = x'.finish s.registered r := by
  cases turn with
  | executeTransaction operations =>
    refine ⟨x,?_,hd,fun r => ⟨r,rfl⟩⟩
    change (s.executions ++ _)[txnId]? = some x
    rw [List.getElem?_append_left (List.getElem?_eq_some_iff.mp hx).1,hx]
  | advance other event =>
    unfold step
    dsimp only
    cases hother : s.executions[other]? with
    | none => exact ⟨x,hx,hd,fun r => ⟨r,rfl⟩⟩
    | some x' =>
      dsimp only
      by_cases hne : other = txnId
      · subst other
        obtain rfl := Option.some.inj (hx.symm.trans hother)
        rw [List.getElem?_set_self (List.getElem?_eq_some_iff.mp hx).1]
        exact ⟨_,rfl,hd.step event,finish_step hd event⟩
      · rw [List.getElem?_set_ne hne]
        exact ⟨x,hx,hd,fun r => ⟨r,rfl⟩⟩

theorem run_finish (turns : List (Turn P A U)) {s : Executions P A U} {txnId : ℕ} {x last : Execution P A} {result : Bool}
    (hx : s.executions[txnId]? = some x) (hd : x.Distinct)
    (hlast : (Runs.run step s turns).executions[txnId]? = some last) (hphase : last.phase = .returned result) :
    ∃ r, x.finish s.registered r = (last.ctx,result) := by
  induction turns generalizing s x with
  | nil =>
    obtain rfl := Option.some.inj (hx.symm.trans hlast)
    refine ⟨⟨fun _ => false,fun _ => .yes,false,fun _ => true⟩,?_⟩
    unfold finish
    rw [hphase]
  | cons turn rest ih =>
    obtain ⟨x',hx',hd',hback⟩ := executions_step hx hd turn
    obtain ⟨r,hr⟩ := ih hx' hd' hlast
    rw [registered_step] at hr
    obtain ⟨r',hr'⟩ := hback r
    exact ⟨r',hr'.trans hr⟩

theorem start_distinct (registered : Finset P) (operations : List (Operation P A)) :
    (start registered operations).Distinct := by
  unfold start
  split
  · exact ((TransactionContext.begin operations).setState .preparing).participantOps.nodup
  · trivial

/-- An execution of the run was started by one of its turns. -/
theorem run_start (turns : List (Turn P A U)) {s : Executions P A U} {txnId : ℕ} {last : Execution P A} {result : Bool}
    (hx : s.executions[txnId]? = none) (hlast : (Runs.run step s turns).executions[txnId]? = some last)
    (hphase : last.phase = .returned result) : ∃ operations, Turn.executeTransaction operations ∈ turns ∧
      ∃ r, (start s.registered operations).finish s.registered r = (last.ctx,result) := by
  induction turns generalizing s with
  | nil => cases hx.symm.trans hlast
  | cons turn rest ih =>
    cases hx' : (s.step turn).executions[txnId]? with
    | none =>
      obtain ⟨operations,hmem,hr⟩ := ih hx' hlast
      rw [registered_step] at hr
      exact ⟨operations,List.mem_cons_of_mem _ hmem,hr⟩
    | some x =>
      cases turn with
      | executeTransaction operations =>
        have hnew : x = start s.registered operations := by
          change (s.executions ++ [start s.registered operations])[txnId]? = some x at hx'
          rw [List.getElem?_append_right (List.getElem?_eq_none_iff.mp hx)] at hx'
          exact (List.mem_singleton.mp (List.mem_of_getElem? hx'))
        subst hnew
        obtain ⟨r,hr⟩ := run_finish rest hx' (start_distinct s.registered operations) hlast hphase
        exact ⟨operations,List.mem_cons_self,r,hr⟩
      | advance other event =>
        unfold step at hx'
        dsimp only at hx'
        split at hx'
        · cases hx.symm.trans hx'
        · have hlt := (List.getElem?_eq_some_iff.mp hx').1
          rw [List.length_set] at hlt
          exact absurd hlt (not_lt.mpr (List.getElem?_eq_none_iff.mp hx))

/-- An execution that returns has the result and the context of a call of `execute_transaction`
that nothing comes between. -/
theorem returned_sequential (registered : Finset P) (turns : List (Turn P A U)) {txnId : ℕ} {x : Execution P A}
    {result : Bool} (hx : (Runs.run step (init A U registered) turns).executions[txnId]? = some x)
    (hphase : x.phase = .returned result) : ∃ operations, Turn.executeTransaction operations ∈ turns ∧
      ∃ r : Responses P, ∀ c : TwoPhaseCoordinator P A, c.participants = registered → c.executeTransaction r operations =
        ({ c with transactions :=
            if ∀ op ∈ operations, op.participant ∈ registered then c.transactions ++ [x.ctx] else c.transactions },result) := by
  obtain ⟨operations,hmem,r,hr⟩ := run_start turns rfl hx hphase
  refine ⟨operations,hmem,r,fun c hc => ?_⟩
  subst hc
  change (start c.participants operations).finish c.participants r = _ at hr
  unfold start at hr
  by_cases hreg : ∀ op ∈ operations, op.participant ∈ c.participants
  · rw [if_pos hreg] at hr ⊢
    have hout := (TransactionContext.prepare_eq_endVoting c.participants r (.begin operations)).symm
    change TransactionContext.conclude c.participants r (TransactionContext.endVoting r _) = _ at hr
    rw [hout] at hr
    rw [TwoPhaseCoordinator.executeTransaction_eq r hreg,hr]
  · rw [if_neg hreg] at hr ⊢
    unfold TwoPhaseCoordinator.executeTransaction
    rw [if_neg hreg]
    exact congrArg (Prod.mk c) (congrArg Prod.snd hr)

end Executions

end DistributedSystems.Transactions
