import DistributedSystems.Transactions.Interleaving

/-! # Undo logs of concurrent transactions

Whatever else is going on, an execution that returns True has all its participants drop
their undo logs, and one that returns False has them undo all that they recorded for it.
-/
namespace DistributedSystems.Transactions
variable {P A U : Type} [DecidableEq P]

/-- Calls of `commit` and `abort` do not fail. -/
def Event.Confirmed : Event P U → Prop
  | .commit _ shouldFailCommit => shouldFailCommit = false
  | .abort _ shouldFailAbort _ => shouldFailAbort = false
  | _ => True

def Turn.Confirmed : Turn P A U → Prop
  | .executeTransaction _ => True
  | .advance _ event => event.Confirmed

namespace Execution
variable {registered : Finset P} {txnId : ℕ} {x : Execution P A} {participant : P → TwoPhaseParticipant U}

/-- The operations, all for registered participants, are not empty, every answer was YES,
and no expiry was seen. -/
def Unanimous (registered : Finset P) (x : Execution P A) : Prop :=
  (∀ op ∈ x.ctx.operations, op.participant ∈ registered) ∧ x.ctx.operations ≠ [] ∧
    (∀ call ∈ x.ctx.prepareCalls, call.2.2 = .yes) ∧ x.sawExpiry = false

/-- An execution that asks for votes: the participants asked so far said YES, and nothing
was committed or undone. -/
structure Voting (registered : Finset P) (ledger : P → Ledger U) (x : Execution P A) (rest : List (P × Operation P A)) :
    Prop where
  registered : ∀ op ∈ x.ctx.operations, op.participant ∈ registered
  state : x.ctx.state = .preparing
  asked : ∃ done, x.ctx.participantOps.entries = done ++ rest ∧
    x.ctx.votes.entries = done.map (fun e => (e.1,VoteResponse.yes)) ∧
    x.ctx.prepareCalls = done.map fun e => (e.1,e.2,VoteResponse.yes)
  sawExpiry : x.sawExpiry = false
  held : ∀ p, (ledger p).Held
  recorded : ∀ p, p ∉ x.ctx.involvedParticipants → (ledger p).recorded = []

/-- What the participants know of an execution in each of its phases. -/
def Disciplined (registered : Finset P) (ledger : P → Ledger U) (x : Execution P A) : Prop :=
  match x.phase with
  | .preparing rest => x.Voting registered ledger rest
  | .committing rest allCommitted => x.Unanimous registered ∧ allCommitted = true ∧ rest ⊆ registered ∧
    ∀ p, if p ∈ rest then (ledger p).Held else (ledger p).Committed
  | .aborting rest => ¬x.Unanimous registered ∧ rest ⊆ registered ∧
    ∀ p, if p ∈ rest then (ledger p).Held else (ledger p).RolledBack
  | .returned result => (result = true ↔ x.Unanimous registered) ∧
    ∀ p, if result then (ledger p).Committed else (ledger p).RolledBack

theorem involved_subset (h : ∀ op ∈ x.ctx.operations, op.participant ∈ registered) :
    x.ctx.involvedParticipants ⊆ registered := by
  intro p hp
  obtain ⟨op,hop,rfl⟩ := List.mem_map.mp (List.mem_toFinset.mp hp)
  exact h op hop

theorem card_involved (ctx : TransactionContext P A) : ctx.involvedParticipants.card = ctx.participantOps.size := by
  unfold TransactionContext.involvedParticipants TransactionContext.participantOps
  rw [Dict.size_ofEntries,List.map_map]
  rfl

/-- A decision against the transaction leaves it to the abort loop. -/
theorem startAbort_disciplined {ledger : P → Ledger U} (hreg : ∀ op ∈ x.ctx.operations, op.participant ∈ registered)
    (hstate : x.ctx.state = .preparing) (hno : ¬x.Unanimous registered) (hheld : ∀ p, (ledger p).Held)
    (hrecorded : ∀ p, p ∉ x.ctx.involvedParticipants → (ledger p).recorded = []) :
    x.startAbort.Disciplined registered ledger := by
  unfold startAbort
  rw [if_neg (by rw [hstate]; exact fun h => by cases h)]
  refine ⟨hno,involved_subset hreg,fun p => ?_⟩
  split
  · exact hheld p
  · rename_i hp
    exact (hheld p).rolledBack (hrecorded p hp)

namespace Voting
variable {ledger : P → Ledger U}

/-- The participant that is asked next is registered, involved, and has not voted yet. -/
theorem next {pid : P} {op : Operation P A} {rest : List (P × Operation P A)}
    (h : x.Voting registered ledger ((pid,op) :: rest)) :
    pid ∈ registered ∧ pid ∈ x.ctx.involvedParticipants ∧ pid ∉ x.ctx.votes.keys := by
  obtain ⟨done,hops,hvotes,-⟩ := h.asked
  have hmem : (pid,op) ∈ x.ctx.participantOps.entries := by
    rw [hops]
    exact List.mem_append_right _ List.mem_cons_self
  obtain ⟨op',hop,heq⟩ := List.mem_map.mp (Dict.mem_ofEntries hmem)
  cases heq
  refine ⟨h.registered op hop,List.mem_toFinset.mpr (List.mem_map_of_mem hop),?_⟩
  unfold Dict.keys
  rw [hvotes,List.map_map]
  have hnodup := x.ctx.participantOps.nodup
  rw [hops,List.map_append,List.map_cons] at hnodup
  exact fun hm => (List.nodup_append.mp hnodup).2.2 _ hm _ List.mem_cons_self rfl

/-- All participants have been asked: only the votes of no participant are too few. -/
theorem canCommit_iff (h : x.Voting registered ledger []) :
    x.ctx.canCommit x.ctx.participantOps.size ↔ x.ctx.operations ≠ [] := by
  obtain ⟨done,hops,hvotes,-⟩ := h.asked
  rw [List.append_nil] at hops
  have hsize : x.ctx.votes.size = x.ctx.participantOps.size := by
    unfold Dict.size
    rw [hvotes,hops,List.length_map]
  have hpos : x.ctx.participantOps.size ≠ 0 ↔ x.ctx.operations ≠ [] := by
    rw [← card_involved,Finset.card_ne_zero]
    unfold TransactionContext.involvedParticipants
    rw [List.toFinset_nonempty_iff,ne_eq,List.map_eq_nil_iff]
  constructor
  · intro hc
    exact hpos.mp (hsize ▸ hc.1)
  · intro hne
    refine ⟨by rw [hsize]; exact hpos.mpr hne,hsize,fun e he => ?_⟩
    rw [hvotes] at he
    obtain ⟨e',-,rfl⟩ := List.mem_map.mp he
    rfl

theorem calls_yes {rest : List (P × Operation P A)} (h : x.Voting registered ledger rest) :
    ∀ call ∈ x.ctx.prepareCalls, call.2.2 = .yes := by
  obtain ⟨done,-,-,hcalls⟩ := h.asked
  rw [hcalls]
  intro call hc
  obtain ⟨e,-,rfl⟩ := List.mem_map.mp hc
  rfl

end Voting

/-- A property of what one participant knows, changed at one participant. -/
theorem forall_update {Q : P → Ledger U → Prop} {pid : P} {new : TwoPhaseParticipant U} (hnew : Q pid (new.ledger txnId))
    (h : ∀ p, p ≠ pid → Q p ((participant p).ledger txnId)) (p : P) :
    Q p ((Function.update participant pid new p).ledger txnId) := by
  by_cases hp : p = pid
  · subst p
    rw [Function.update_self]
    exact hnew
  · rw [Function.update_of_ne hp]
    exact h p hp

/-- Asking the next participant. -/
theorem Voting.prepare {pid : P} {op : Operation P A} {rest : List (P × Operation P A)}
    (h : x.Voting registered (fun p => (participant p).ledger txnId) ((pid,op) :: rest))
    (hphase : x.phase = .preparing ((pid,op) :: rest)) (expired : Bool) (r : Preparation U) :
    (x.step registered txnId participant (.prepare expired r)).1.Disciplined registered
      fun p => ((x.step registered txnId participant (.prepare expired r)).2 p).ledger txnId := by
  obtain ⟨hpid,hinvolved,hnew⟩ := h.next
  obtain ⟨done,hops,hvotes,hcalls⟩ := h.asked
  unfold step sendPrepare
  rw [hphase]
  dsimp only
  rw [if_pos hpid]
  cases expired with
  | true => exact startAbort_disciplined h.registered h.state (fun hu => by cases hu.2.2.2) h.held h.recorded
  | false =>
    rw [if_neg Bool.false_ne_true]
    have hheld : ∀ p, ((Function.update participant pid ((participant pid).prepare txnId r).1 p).ledger txnId).Held :=
      forall_update (Q := fun _ l => l.Held) (TwoPhaseParticipant.prepare_held (h.held pid) r) fun p _ => h.held p
    have hrecorded : ∀ p, p ∉ x.ctx.involvedParticipants →
        ((Function.update participant pid ((participant pid).prepare txnId r).1 p).ledger txnId).recorded = [] :=
      forall_update (Q := fun p l => p ∉ x.ctx.involvedParticipants → l.recorded = [])
        (fun hp => absurd hinvolved hp) fun p _ => h.recorded p
    have hcall : (x.ctx.recordVote registered pid op ((participant pid).prepare txnId r).2).prepareCalls =
        x.ctx.prepareCalls ++ [(pid,op,((participant pid).prepare txnId r).2)] := if_pos hpid
    by_cases hvote : ((participant pid).prepare txnId r).2 = .no
    · rw [if_pos hvote]
      refine startAbort_disciplined h.registered h.state (fun hu => ?_) hheld hrecorded
      have hyes := hu.2.2.1 (pid,op,((participant pid).prepare txnId r).2)
        (by rw [hcall]; exact List.mem_append_right _ List.mem_cons_self)
      rw [hvote] at hyes
      cases hyes
    · have hyes : ((participant pid).prepare txnId r).2 = .yes := by
        cases hv : ((participant pid).prepare txnId r).2 with
        | yes => rfl
        | no => exact absurd hv hvote
      rw [if_neg hvote]
      refine ⟨h.registered,h.state,⟨done ++ [(pid,op)],?_,?_,?_⟩,h.sawExpiry,hheld,hrecorded⟩
      · rw [List.append_assoc]
        exact hops
      · change putEntry pid _ x.ctx.votes.entries = _
        rw [putEntry_of_notMem hnew,hvotes,hyes,List.map_append]
        rfl
      · rw [hcall,hcalls,hyes,List.map_append]
        rfl

/-- The decision after the last vote. -/
theorem Voting.endPrepare (h : x.Voting registered (fun p => (participant p).ledger txnId) [])
    (hphase : x.phase = .preparing []) (expired : Bool) :
    (x.step registered txnId participant (.endPrepare expired)).1.Disciplined registered
      fun p => ((x.step registered txnId participant (.endPrepare expired)).2 p).ledger txnId := by
  unfold step
  rw [hphase]
  dsimp only
  by_cases hcan : x.ctx.canCommit x.ctx.participantOps.size
  · rw [if_pos hcan]
    cases expired with
    | true => exact startAbort_disciplined h.registered h.state (fun hu => by cases hu.2.2.2) h.held h.recorded
    | false =>
      rw [if_neg Bool.false_ne_true]
      unfold startCommit
      rw [if_pos (by rw [card_involved]; exact hcan)]
      refine ⟨⟨h.registered,h.canCommit_iff.mp hcan,h.calls_yes,h.sawExpiry⟩,rfl,involved_subset h.registered,fun p => ?_⟩
      split
      · exact h.held p
      · rename_i hp
        exact (h.held p).committed (h.recorded p hp)
  · rw [if_neg hcan]
    exact startAbort_disciplined h.registered h.state (fun hu => hcan (h.canCommit_iff.mpr hu.2.1)) h.held h.recorded

/-- In a round that tells the participants of the outcome, one more of them has been told. -/
theorem forall_told {Told : Ledger U → Prop} {rest : Finset P} {pid : P} {new : TwoPhaseParticipant U}
    (hmem : pid ∈ rest)
    (hledger : ∀ p, if p ∈ rest then ((participant p).ledger txnId).Held else Told ((participant p).ledger txnId))
    (hnew : ((participant pid).ledger txnId).Held → Told (new.ledger txnId)) (p : P) :
    if p ∈ rest.erase pid then ((Function.update participant pid new p).ledger txnId).Held
      else Told ((Function.update participant pid new p).ledger txnId) := by
  refine forall_update (Q := fun p l => if p ∈ rest.erase pid then l.Held else Told l) ?_ (fun p hp => ?_) p
  · rw [if_neg (Finset.notMem_erase pid rest)]
    have hheld := hledger pid
    rw [if_pos hmem] at hheld
    exact hnew hheld
  · rw [if_congr (Finset.mem_erase.trans (and_iff_right hp)) rfl rfl]
    exact hledger p

/-- Telling a participant to commit. -/
theorem step_commit {rest : Finset P} {allCommitted : Bool} (hphase : x.phase = .committing rest allCommitted)
    (h : x.Disciplined registered fun p => (participant p).ledger txnId) (pid : P) :
    (x.step registered txnId participant (.commit pid false)).1.Disciplined registered
      fun p => ((x.step registered txnId participant (.commit pid false)).2 p).ledger txnId := by
  by_cases hmem : pid ∈ rest
  · unfold Disciplined at h
    rw [hphase] at h
    obtain ⟨hu,hall,hrest,hledger⟩ := h
    unfold step sendCommit
    rw [hphase]
    dsimp only
    rw [if_pos hmem]
    simp only [if_pos (hrest hmem)]
    exact ⟨hu,by rw [hall]; rfl,(Finset.erase_subset pid rest).trans hrest,
      forall_told hmem hledger fun hheld => TwoPhaseParticipant.commit_committed hheld⟩
  · have hstep : x.step registered txnId participant (.commit pid false) = (x,participant) := by
      unfold step
      rw [hphase]
      exact if_neg hmem
    rw [hstep]
    exact h

/-- Telling a participant to abort. -/
theorem step_abort {rest : Finset P} (hphase : x.phase = .aborting rest)
    (h : x.Disciplined registered fun p => (participant p).ledger txnId) (pid : P) (call : U → Except String Unit) :
    (x.step registered txnId participant (.abort pid false call)).1.Disciplined registered
      fun p => ((x.step registered txnId participant (.abort pid false call)).2 p).ledger txnId := by
  by_cases hmem : pid ∈ rest
  · unfold Disciplined at h
    rw [hphase] at h
    obtain ⟨hu,hrest,hledger⟩ := h
    unfold step sendAbort
    rw [hphase]
    dsimp only
    rw [if_pos hmem]
    simp only [if_pos (hrest hmem)]
    exact ⟨hu,(Finset.erase_subset pid rest).trans hrest,
      forall_told hmem hledger fun hheld => TwoPhaseParticipant.abort_rolledBack hheld call⟩
  · have hstep : x.step registered txnId participant (.abort pid false call) = (x,participant) := by
      unfold step
      rw [hphase]
      exact if_neg hmem
    rw [hstep]
    exact h

/-- Leaving a loop, once every participant has been told. -/
theorem step_endLoop (h : x.Disciplined registered fun p => (participant p).ledger txnId) :
    (x.step registered txnId participant .endLoop).1.Disciplined registered
      fun p => ((x.step registered txnId participant .endLoop).2 p).ledger txnId := by
  unfold step
  cases hphase : x.phase with
  | preparing rest => cases rest <;> exact h
  | committing rest allCommitted =>
    dsimp only
    split
    · rename_i hempty
      unfold Disciplined at h
      rw [hphase] at h
      obtain ⟨hu,rfl,-,hledger⟩ := h
      refine ⟨iff_of_true rfl hu,fun p => ?_⟩
      have hp := hledger p
      rw [hempty,if_neg (Finset.notMem_empty p)] at hp
      exact hp
    · exact h
  | aborting rest =>
    dsimp only
    split
    · rename_i hempty
      unfold Disciplined at h
      rw [hphase] at h
      obtain ⟨hu,-,hledger⟩ := h
      refine ⟨iff_of_false Bool.false_ne_true hu,fun p => ?_⟩
      have hp := hledger p
      rw [hempty,if_neg (Finset.notMem_empty p)] at hp
      exact hp
    · exact h
  | returned result => exact h

/-- No event breaks the discipline of the execution that takes it. -/
theorem step_disciplined (h : x.Disciplined registered fun p => (participant p).ledger txnId) {event : Event P U}
    (he : event.Confirmed) : (x.step registered txnId participant event).1.Disciplined registered
      fun p => ((x.step registered txnId participant event).2 p).ledger txnId := by
  rcases x.step_cases registered txnId participant event with hskip | ⟨pid,op,rest,expired,r,hphase,rfl⟩ |
    ⟨expired,hphase,rfl⟩ | ⟨rest,allCommitted,pid,shouldFailCommit,hphase,rfl⟩ | ⟨rest,pid,shouldFailAbort,call,hphase,rfl⟩ | rfl
  · rw [hskip]
    exact h
  · unfold Disciplined at h
    rw [hphase] at h
    exact h.prepare hphase expired r
  · unfold Disciplined at h
    rw [hphase] at h
    exact h.endPrepare hphase expired
  · obtain rfl : shouldFailCommit = false := he
    exact step_commit hphase h pid
  · obtain rfl : shouldFailAbort = false := he
    exact step_abort hphase h pid call
  · exact step_endLoop h

/-- An execution makes calls for its own transaction only. -/
theorem step_other {other : ℕ} (hne : other ≠ txnId) (event : Event P U) (p : P) :
    ((x.step registered txnId participant event).2 p).ledger other = (participant p).ledger other := by
  have hcall : ∀ {pid : P} {new : TwoPhaseParticipant U}, new.ledger other = (participant pid).ledger other →
      ((Function.update participant pid new p).ledger other) = (participant p).ledger other := by
    intro pid new hnew
    by_cases hp : p = pid
    · subst p
      rw [Function.update_self]
      exact hnew
    · rw [Function.update_of_ne hp]
  unfold step
  split
  · split
    · rfl
    · unfold sendPrepare
      split
      · exact hcall (TwoPhaseParticipant.prepare_other hne _)
      · rfl
  · split
    · split
      · rfl
      · rfl
    · rfl
  · split
    · unfold sendCommit
      split
      · exact hcall (TwoPhaseParticipant.commit_other hne _)
      · rfl
    · rfl
  · split
    · split
      · rfl
      · rfl
    · rfl
  · split
    · unfold sendAbort
      split
      · exact hcall (TwoPhaseParticipant.abort_other hne _ _)
      · rfl
    · rfl
  · split
    · rfl
    · rfl
  · rfl

end Execution

namespace Executions

/-- What the participants know of a transaction. -/
def ledger (s : Executions P A U) (txnId : ℕ) (p : P) : Ledger U := (s.participant p).ledger txnId

/-- Every execution is disciplined, and nobody knows a number that is not in use. -/
structure Sound (registered : Finset P) (s : Executions P A U) : Prop where
  roster : s.registered = registered
  disciplined : ∀ txnId (x : Execution P A), s.executions[txnId]? = some x → x.Disciplined registered (s.ledger txnId)
  unused : ∀ txnId, s.executions.length ≤ txnId → ∀ p, s.ledger txnId p = ⟨none,[],[]⟩

theorem start_disciplined (registered : Finset P) (operations : List (Operation P A)) {ledger : P → Ledger U}
    (h : ∀ p, ledger p = ⟨none,[],[]⟩) : (start registered operations).Disciplined registered ledger := by
  unfold start
  split
  · rename_i hreg
    refine ⟨hreg,rfl,⟨[],rfl,rfl,rfl⟩,rfl,fun p => ?_,fun p _ => ?_⟩
    · rw [h]
      exact ⟨rfl,rfl⟩
    · rw [h]
  · rename_i hreg
    refine ⟨iff_of_false Bool.false_ne_true fun hu => hreg hu.1,fun p => ?_⟩
    rw [h]
    exact ⟨rfl,rfl⟩

namespace Sound
variable {registered : Finset P} {s : Executions P A U}

theorem init (registered : Finset P) : Sound registered (Executions.init A U registered) where
  roster := rfl
  disciplined _ _ h := by cases h
  unused _ _ _ := rfl

theorem executeTransaction (h : Sound registered s) (operations : List (Operation P A)) :
    Sound registered (s.step (.executeTransaction operations)) := by
  refine ⟨h.roster,fun txnId x hx => ?_,fun txnId hle => h.unused txnId ?_⟩
  · change (s.executions ++ [start s.registered operations])[txnId]? = some x at hx
    rw [h.roster,List.getElem?_append] at hx
    split at hx
    · exact h.disciplined txnId x hx
    · rename_i hlt
      obtain ⟨-,rfl⟩ := List.getElem?_eq_some_iff.mp hx
      rw [List.getElem_singleton]
      exact start_disciplined registered operations (h.unused txnId (not_lt.mp hlt))
  · change (s.executions ++ [start s.registered operations]).length ≤ txnId at hle
    rw [List.length_append] at hle
    omega

/-- A turn for one transaction leaves what is known of the others as it is. -/
theorem ledger_other {txnId other : ℕ} (hne : other ≠ txnId) (s : Executions P A U) (event : Event P U) :
    (s.step (.advance txnId event)).ledger other = s.ledger other := by
  unfold Executions.step
  dsimp only
  cases s.executions[txnId]? with
  | none => rfl
  | some x => exact funext fun p => Execution.step_other hne event p

theorem advance (h : Sound registered s) (txnId : ℕ) {event : Event P U} (he : event.Confirmed) :
    Sound registered (s.step (.advance txnId event)) := by
  have hother := fun other (hne : other ≠ txnId) => ledger_other hne s event
  unfold Executions.step at hother ⊢
  dsimp only at hother ⊢
  cases hx : s.executions[txnId]? with
  | none => exact h
  | some x =>
    rw [hx] at hother
    dsimp only at hother ⊢
    have hlt := (List.getElem?_eq_some_iff.mp hx).1
    refine ⟨h.roster,fun other x' hx' => ?_,fun other hle => ?_⟩
    · by_cases hne : other = txnId
      · subst other
        rw [List.getElem?_set_self hlt] at hx'
        obtain rfl := Option.some.inj hx'
        rw [h.roster]
        exact Execution.step_disciplined (h.disciplined txnId x hx) he
      · rw [List.getElem?_set_ne (Ne.symm hne)] at hx'
        rw [hother other hne]
        exact h.disciplined other x' hx'
    · rw [List.length_set] at hle
      rw [hother other (by omega)]
      exact h.unused other hle

theorem step (h : Sound registered s) {turn : Turn P A U} (ht : turn.Confirmed) : Sound registered (s.step turn) := by
  cases turn with
  | executeTransaction operations => exact h.executeTransaction operations
  | advance txnId event => exact h.advance txnId ht

end Sound

/-- An execution returned True exactly when it is unanimous. Then none of its undo functions
has been called; otherwise each was called once, in reverse order. Its undo logs are gone, and
its turns do not touch those of the others. -/
def UndoDiscipline (registered : Finset P) (s : Executions P A U) : Prop :=
  (∀ txnId x result, s.executions[txnId]? = some x → x.phase = .returned result →
    (result = true ↔ x.Unanimous registered) ∧ ∀ p, (s.participant p).undoLogs txnId = none ∧
      (s.participant p).undone txnId = if result then [] else ((s.participant p).recorded txnId).reverse) ∧
  ∀ txnId other event, other ≠ txnId → ∀ p,
    ((s.step (.advance txnId event)).participant p).ledger other = (s.participant p).ledger other

theorem undo_discipline (registered : Finset P) (turns : List (Turn P A U)) (h : ∀ turn ∈ turns, turn.Confirmed) :
    (Runs.run step (init A U registered) turns).UndoDiscipline registered := by
  have hconfirmed : Runs.Along step (fun _ turn => turn.Confirmed) (init A U registered) turns :=
    Runs.along_of_forall h _
  have hsound := Runs.run_invariant (I := Sound registered) (fun _ _ hs ht => hs.step ht) (.init registered) hconfirmed
  refine ⟨fun txnId x result hx hphase => ?_,fun txnId other event hne p => congrFun (Sound.ledger_other hne _ event) p⟩
  have hd := hsound.disciplined txnId x hx
  unfold Execution.Disciplined at hd
  rw [hphase] at hd
  refine ⟨hd.1,fun p => ?_⟩
  have hp := hd.2 p
  cases result with
  | true => exact ⟨hp.log,hp.undone⟩
  | false => exact ⟨hp.log,hp.undone⟩

/-- Transaction 0 needs participants 1 and 2, of which the latter refuses. Transaction 1 is
prepared at participant 1 in between, and commits. The undo function of the former raises. -/
def twoExecutions : List (Turn ℕ ℕ ℕ) :=
  [.executeTransaction [⟨1,10⟩,⟨2,20⟩],.executeTransaction [⟨1,30⟩],.advance 0 (.prepare false ⟨false,some true,some 5⟩),
    .advance 1 (.prepare false ⟨false,some true,some 6⟩),.advance 0 (.prepare false ⟨false,some false,none⟩),
    .advance 1 (.endPrepare false),.advance 0 (.abort 1 false fun _ => .error "raised"),.advance 1 (.commit 1 false),
    .advance 0 (.abort 2 false fun _ => .ok ()),.advance 1 .endLoop,.advance 0 .endLoop]

theorem undo_discipline_two :
    (∃ x x', (Runs.run step (init ℕ ℕ {1,2}) twoExecutions).executions = [x,x'] ∧ x.phase = .returned false ∧
      x'.phase = .returned true) ∧
    ((Runs.run step (init ℕ ℕ {1,2}) twoExecutions).participant 1).undone 0 = [5] ∧
    (Runs.run step (init ℕ ℕ {1,2}) twoExecutions).UndoDiscipline {1,2} :=
  ⟨⟨_,_,rfl,rfl,rfl⟩,by decide,undo_discipline {1,2} twoExecutions (by simp [twoExecutions,Turn.Confirmed,Event.Confirmed])⟩

end Executions

end DistributedSystems.Transactions
