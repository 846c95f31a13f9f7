import DistributedSystems.Protocol.Runs
import DistributedSystems.Transactions.TwoPhaseCommit

/-! # Final decisions

The phases check the votes, not the state: a decided transaction can be prepared,
committed or aborted again. Decisions are final exactly when no call does so.
-/
namespace DistributedSystems.Transactions
variable {P A : Type} [DecidableEq P]

/-- A call of one of the public methods. -/
inductive Call (P A : Type)
  | beginTransaction (operations : List (Operation P A))
  | prepare (txnId : ℕ) (r : Responses P)
  | commit (txnId : ℕ) (r : Responses P)
  | abort (txnId : ℕ)

namespace TransactionContext

/-- A decision is never followed by another state, and no participant was told both. -/
structure Final (ctx : TransactionContext P A) : Prop where
  states : ctx.states.Pairwise fun s s' => s.decided → s' = s
  told : Disjoint ctx.toldCommit ctx.toldAbort

/-- What every context satisfies: the state is the last one, and the histories say who
was told what. -/
structure Recorded (participants : Finset P) (ctx : TransactionContext P A) : Prop where
  last : ctx.state ∈ ctx.states.getLast?
  toldCommit : ctx.toldCommit ⊆ ctx.involvedParticipants ∩ participants
  toldAbort : ctx.toldAbort.Nonempty → TransactionState.aborted ∈ ctx.states

/-- A new state after a decision is only harmless if it repeats it. -/
theorem pairwise_setState {states : List TransactionState} {s s' : TransactionState} (hlast : s ∈ states.getLast?) :
    (states ++ [s']).Pairwise (fun x y => x.decided → y = x) ↔
      states.Pairwise (fun x y => x.decided → y = x) ∧ (s.decided → s' = s) := by
  obtain ⟨before,rfl⟩ := List.getLast?_eq_some_iff.mp hlast
  rw [List.pairwise_append]
  constructor
  · rintro ⟨hp,-,hall⟩
    exact ⟨hp,hall s (List.mem_append_right _ List.mem_cons_self) s' List.mem_cons_self⟩
  · rintro ⟨hp,hs⟩
    refine ⟨hp,List.pairwise_singleton _ _,fun x hx y hy hd => ?_⟩
    rw [List.mem_singleton.mp hy]
    rcases List.mem_append.mp hx with hx' | hx'
    · -- an earlier decision is the last state
      have hsx := (List.pairwise_append.mp hp).2.2 x hx' s List.mem_cons_self hd
      subst s
      exact hs hd
    · rw [List.mem_singleton.mp hx'] at hd ⊢
      exact hs hd

variable {participants : Finset P} {ctx : TransactionContext P A}

theorem Recorded.begin (participants : Finset P) (operations : List (Operation P A)) :
    Recorded participants (.begin operations) where
  last := rfl
  toldCommit := Finset.empty_subset _
  toldAbort h := absurd h.choose_spec (Finset.notMem_empty _)

omit [DecidableEq P] in
theorem Final.begin (operations : List (Operation P A)) : Final (TransactionContext.begin operations) where
  states := List.pairwise_singleton _ _
  told := Finset.disjoint_empty_left _

namespace Recorded

theorem setState (h : Recorded participants ctx) (s : TransactionState) : Recorded participants (ctx.setState s) where
  last := by
    change s ∈ (ctx.states ++ [s]).getLast?
    rw [List.getLast?_concat]
    rfl
  toldCommit := h.toldCommit
  toldAbort ha := List.mem_append_left _ (h.toldAbort ha)

theorem final_setState (h : Recorded participants ctx) (s : TransactionState) :
    (ctx.setState s).Final ↔ ctx.Final ∧ (ctx.state.decided → s = ctx.state) := by
  constructor
  · intro hf
    obtain ⟨hp,hs⟩ := (pairwise_setState h.last).mp hf.states
    exact ⟨⟨hp,hf.told⟩,hs⟩
  · rintro ⟨hf,hs⟩
    exact ⟨(pairwise_setState h.last).mpr ⟨hf.states,hs⟩,hf.told⟩

end Recorded

omit [DecidableEq P] in
theorem Agrees.final_iff {ctx' : TransactionContext P A} (h : Agrees ctx ctx') : ctx'.Final ↔ ctx.Final := by
  constructor
  · intro hf
    have hs := hf.states
    have ht := hf.told
    rw [h.states] at hs
    rw [h.toldCommit,h.toldAbort] at ht
    exact ⟨hs,ht⟩
  · intro hf
    constructor
    · rw [h.states]
      exact hf.states
    · rw [h.toldCommit,h.toldAbort]
      exact hf.told

theorem Recorded.of_agrees {ctx' : TransactionContext P A} (hr : Recorded participants ctx) (h : Agrees ctx ctx') :
    Recorded participants ctx' := by
  refine ⟨?_,?_,?_⟩
  · rw [h.state,h.states]
    exact hr.last
  · unfold involvedParticipants
    rw [h.toldCommit,h.operations]
    exact hr.toldCommit
  · rw [h.toldAbort,h.states]
    exact hr.toldAbort

namespace Recorded

/-- `prepare` forgets any decision. -/
theorem prepare (h : Recorded participants ctx) (r : Responses P) :
    Recorded participants (ctx.prepare participants r).1 ∧
      ((ctx.prepare participants r).1.Final ↔ ctx.Final ∧ ¬ctx.state.decided) := by
  have hstart := h.setState .preparing
  have hagrees := collectVotes_agrees participants r (ctx.setState .preparing)
    (ctx.setState .preparing).participantOps.entries
  have hvoted := hstart.of_agrees hagrees
  have hfinal : (collectVotes participants r (ctx.setState .preparing)
      (ctx.setState .preparing).participantOps.entries).1.Final ↔ ctx.Final ∧ ¬ctx.state.decided := by
    rw [hagrees.final_iff,h.final_setState]
    refine and_congr_right fun _ => ⟨fun hs hd => ?_,fun hd hd' => absurd hd' hd⟩
    rcases hd with hd | hd
    · cases (hs (Or.inl hd)).trans hd
    · cases (hs (Or.inr hd)).trans hd
  unfold TransactionContext.prepare
  dsimp only
  split
  · split
    · split
      · exact ⟨hvoted,hfinal⟩
      · refine ⟨hvoted.setState .prepared,(hvoted.final_setState .prepared).trans ?_⟩
        rw [hfinal]
        apply and_iff_left
        intro hd
        rw [hagrees.state] at hd
        rcases hd with hd | hd
        · cases hd
        · cases hd
    · exact ⟨hvoted,hfinal⟩
  · exact ⟨hvoted,hfinal⟩

/-- In a context whose decisions were final so far, who was told to abort was told so by
the decision it is in. -/
theorem toldAbort_eq_empty (h : Recorded participants ctx) (hf : ctx.Final) (hd : ¬ctx.state.decided) :
    ctx.toldAbort = ∅ := by
  by_contra hne
  have hmem := h.toldAbort (Finset.nonempty_iff_ne_empty.mpr hne)
  obtain ⟨before,hstates⟩ := List.getLast?_eq_some_iff.mp h.last
  have hp := hf.states
  rw [hstates] at hmem hp
  rcases List.mem_append.mp hmem with hmem | hmem
  · have hlast := (List.pairwise_append.mp hp).2.2 _ hmem ctx.state List.mem_cons_self (Or.inr rfl)
    exact hd (Or.inr hlast)
  · exact hd (Or.inr (List.mem_singleton.mp hmem).symm)

/-- `commit` with all votes goes ahead whatever the state is. -/
theorem commit (h : Recorded participants ctx) (r : Responses P) :
    Recorded participants (ctx.commit participants r).1 ∧
      ((ctx.commit participants r).1.Final ↔
        ctx.Final ∧ (ctx.canCommit ctx.involvedParticipants.card → ¬ctx.state.decided)) := by
  unfold TransactionContext.commit
  split
  · rename_i hc
    let told : TransactionContext P A := { ctx.setState .committing with
      toldCommit := ctx.toldCommit ∪ (ctx.involvedParticipants ∩ participants) }
    have hstart := h.setState .committing
    have htold : Recorded participants told :=
      ⟨hstart.last,Finset.union_subset h.toldCommit (Finset.Subset.refl _),hstart.toldAbort⟩
    have hfinal : told.Final ↔ ctx.Final ∧ (ctx.canCommit ctx.involvedParticipants.card → ¬ctx.state.decided) := by
      constructor
      · intro hf
        have hs := (h.final_setState .committing).mp
          ⟨hf.states,Finset.disjoint_of_subset_left Finset.subset_union_left hf.told⟩
        refine ⟨hs.1,fun _ hd => ?_⟩
        rcases hd with hd | hd
        · cases (hs.2 (Or.inl hd)).trans hd
        · cases (hs.2 (Or.inr hd)).trans hd
      · rintro ⟨hf,hd⟩
        refine ⟨((h.final_setState .committing).mpr ⟨hf,fun hd' => absurd hd' (hd hc)⟩).states,?_⟩
        change Disjoint _ ctx.toldAbort
        rw [h.toldAbort_eq_empty hf (hd hc)]
        exact Finset.disjoint_empty_right _
    dsimp only
    split
    · refine ⟨htold.setState .committed,(htold.final_setState .committed).trans ?_⟩
      rw [hfinal]
      apply and_iff_left
      intro hd
      rcases hd with hd | hd
      · cases hd
      · cases hd
    · exact ⟨htold,hfinal⟩
  · rename_i hc
    exact ⟨h,⟨fun hf => ⟨hf,fun hc' => absurd hc' hc⟩,And.left⟩⟩

/-- `abort` only refuses a fully committed transaction. -/
theorem abort (h : Recorded participants ctx) : Recorded participants (ctx.abort participants).1 ∧
    ((ctx.abort participants).1.Final ↔
      ctx.Final ∧ (ctx.state = .committed ∨ (ctx.state ≠ .aborted ∧ ctx.toldCommit = ∅))) := by
  unfold TransactionContext.abort
  split
  · rename_i hc
    exact ⟨h,⟨fun hf => ⟨hf,Or.inl hc⟩,And.left⟩⟩
  rename_i hc
  let told : TransactionContext P A := { ctx.setState .aborting with
    toldAbort := ctx.toldAbort ∪ (ctx.involvedParticipants ∩ participants) }
  have hstart := h.setState .aborting
  refine ⟨⟨?_,h.toldCommit,fun _ => List.mem_append_right _ List.mem_cons_self⟩,?_⟩
  · change TransactionState.aborted ∈ ((ctx.setState .aborting).states ++ [TransactionState.aborted]).getLast?
    rw [List.getLast?_concat]
    rfl
  · have hlast : TransactionState.aborting ∈ (ctx.setState .aborting).states.getLast? := hstart.last
    constructor
    · intro hf
      have hs := (pairwise_setState hlast).mp hf.states
      have ht : Disjoint ctx.toldCommit (ctx.toldAbort ∪ (ctx.involvedParticipants ∩ participants)) := hf.told
      obtain ⟨hfinal,hd⟩ := (h.final_setState .aborting).mp
        ⟨hs.1,Finset.disjoint_of_subset_right Finset.subset_union_left ht⟩
      refine ⟨hfinal,Or.inr ⟨fun ha => ?_,?_⟩⟩
      · cases (hd (Or.inr ha)).trans ha
      · -- whoever was told to commit is told to abort now
        have hself := Finset.disjoint_of_subset_right (h.toldCommit.trans Finset.subset_union_right) ht
        exact Finset.disjoint_self_iff_empty _ |>.mp hself
    · rintro ⟨hf,hg⟩
      obtain ⟨ha,hempty⟩ := hg.resolve_left hc
      constructor
      · refine (pairwise_setState hlast).mpr ⟨?_,fun hd => ?_⟩
        · refine ((h.final_setState .aborting).mpr ⟨hf,fun hd => ?_⟩).states
          exact absurd hd (not_or.mpr ⟨hc,ha⟩)
        · rcases hd with hd | hd
          · cases hd
          · cases hd
      · change Disjoint ctx.toldCommit _
        rw [hempty]
        exact Finset.disjoint_empty_left _

end Recorded

end TransactionContext

namespace TwoPhaseCoordinator

def step (c : TwoPhaseCoordinator P A) : Call P A → TwoPhaseCoordinator P A
  | .beginTransaction operations => (c.beginTransaction operations).1
  | .prepare txnId r => (c.prepare txnId r).1
  | .commit txnId r => (c.commit txnId r).1
  | .abort txnId => (c.abort txnId).1

/-- All decisions of the coordinator are final. -/
def Final (c : TwoPhaseCoordinator P A) : Prop := ∀ ctx ∈ c.transactions, ctx.Final

/-- A call that respects the decision: a decided transaction is not prepared or, with all
its votes in, committed again, and a transaction is not aborted again, nor after a
participant was told to commit it unless it is seen to be committed. -/
def Respects (c : TwoPhaseCoordinator P A) : Call P A → Prop
  | .beginTransaction _ => True
  | .prepare txnId _ => ∀ ctx ∈ c.transactions[txnId]?, ¬ctx.state.decided
  | .commit txnId _ => ∀ ctx ∈ c.transactions[txnId]?,
    ctx.canCommit ctx.involvedParticipants.card → ¬ctx.state.decided
  | .abort txnId => ∀ ctx ∈ c.transactions[txnId]?,
    ctx.state = .committed ∨ (ctx.state ≠ .aborted ∧ ctx.toldCommit = ∅)

/-- Every context is one that its phases have made. -/
structure Sound (participants : Finset P) (c : TwoPhaseCoordinator P A) : Prop where
  registered : c.participants = participants
  recorded : ∀ ctx ∈ c.transactions, ctx.Recorded participants

variable {participants : Finset P} {c : TwoPhaseCoordinator P A}

/-- A phase on one transaction leaves the others alone. -/
theorem onContext_final (h : Sound participants c) (txnId : ℕ)
    {phase : TransactionContext P A → TransactionContext P A × Bool} {G : TransactionContext P A → Prop}
    (hphase : ∀ ctx, ctx.Recorded participants →
      (phase ctx).1.Recorded participants ∧ ((phase ctx).1.Final ↔ ctx.Final ∧ G ctx)) :
    Sound participants (c.onContext txnId phase).1 ∧
      ((c.onContext txnId phase).1.Final ↔ c.Final ∧ ∀ ctx ∈ c.transactions[txnId]?, G ctx) := by
  unfold onContext
  cases hk : c.transactions[txnId]? with
  | none => exact ⟨h,(and_iff_left fun ctx hc => by cases hc).symm⟩
  | some ctx =>
    have hmem := List.mem_of_getElem? hk
    obtain ⟨hrec,hfinal⟩ := hphase ctx (h.recorded ctx hmem)
    obtain ⟨hlt,-⟩ := List.getElem?_eq_some_iff.mp hk
    refine ⟨⟨h.registered,fun x hx => ?_⟩,?_⟩
    · rcases List.mem_or_eq_of_mem_set hx with hx | rfl
      · exact h.recorded x hx
      · exact hrec
    constructor
    · intro hf
      have hnew := hfinal.mp (hf (phase ctx).1 (List.mem_set hlt _))
      refine ⟨fun x hx => ?_,fun x hx => ?_⟩
      · obtain ⟨j,hj⟩ := List.getElem?_of_mem hx
        by_cases hji : j = txnId
        · subst j
          rw [hk] at hj
          cases hj
          exact hnew.1
        · refine hf x (List.mem_of_getElem? (i := j) ?_)
          rw [List.getElem?_set_ne (Ne.symm hji)]
          exact hj
      · cases hx
        exact hnew.2
    · rintro ⟨hf,hg⟩ x hx
      rcases List.mem_or_eq_of_mem_set hx with hx | rfl
      · exact hf x hx
      · exact hfinal.mpr ⟨hf ctx hmem,hg ctx rfl⟩

/-- A call keeps decisions final exactly when it respects them. -/
theorem step_final (h : Sound participants c) (call : Call P A) :
    Sound participants (c.step call) ∧ ((c.step call).Final ↔ c.Final ∧ c.Respects call) := by
  have hp := h.registered
  cases call with
  | beginTransaction operations =>
    refine ⟨⟨hp,fun x hx => ?_⟩,⟨fun hf => ⟨fun x hx => hf x (List.mem_append_left _ hx),trivial⟩,fun hf x hx => ?_⟩⟩
    · rcases List.mem_append.mp hx with hx | hx
      · exact h.recorded x hx
      · rw [List.mem_singleton.mp hx]
        exact .begin participants operations
    · rcases List.mem_append.mp hx with hx | hx
      · exact hf.1 x hx
      · rw [List.mem_singleton.mp hx]
        exact .begin operations
  | prepare txnId r =>
    subst hp
    exact onContext_final h txnId fun _ hr => hr.prepare r
  | commit txnId r =>
    subst hp
    exact onContext_final h txnId fun _ hr => hr.commit r
  | abort txnId =>
    subst hp
    exact onContext_final h txnId fun _ hr => hr.abort

def init (P A : Type) (participants : Finset P) : TwoPhaseCoordinator P A where
  participants := participants
  transactions := []

/-- Decisions are final over a sequence of calls exactly when every call respects them. -/
theorem decisions_final_iff (participants : Finset P) (calls : List (Call P A)) :
    (Runs.run step (init P A participants) calls).Final ↔
      Runs.Along step Respects (init P A participants) calls := by
  have hsound : Sound participants (init P A participants) := ⟨rfl,fun _ h => absurd h List.not_mem_nil⟩
  have hfinal : (init P A participants).Final := fun _ h => absurd h List.not_mem_nil
  rw [Runs.run_iff_along (I := Sound participants) (fun _ call h => (step_final h call).1)
    (fun _ call h => (step_final h call).2) hsound]
  exact and_iff_right hfinal

/-- Everybody votes YES and confirms, and nothing expires. -/
def allYes : Responses ℕ where
  expired _ := false
  vote _ := .yes
  expiredAtEnd := false
  commits _ := true

/-- A transaction is prepared, aborted and then committed. -/
theorem committed_after_abort :
    ¬ ∀ (participants : Finset ℕ) (calls : List (Call ℕ ℕ)),
      (Runs.run step (init ℕ ℕ participants) calls).Final := by
  intro h
  have hf := (h {1} [.beginTransaction [⟨1,0⟩],.prepare 0 allYes,.abort 0,.commit 0 allYes]) _ List.mem_cons_self
  exact absurd hf.told (by decide)

end TwoPhaseCoordinator

end DistributedSystems.Transactions
