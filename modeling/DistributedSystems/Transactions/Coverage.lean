import DistributedSystems.Transactions.TwoPhaseCommit

/-! # Operations covered by a transaction

The coordinator keeps one operation for each participant and counts one vote for each
participant, so the votes are complete although operations are missing.
-/
namespace DistributedSystems.Transactions
variable {P A : Type} [DecidableEq P]

namespace TransactionContext
variable {participants : Finset P}

/-- The calls and votes of a voting loop that did not return early. -/
theorem collectVotes_complete {r : Responses P} {ctx : TransactionContext P A} {entries : List (P × Operation P A)}
    (hreg : ∀ e ∈ entries, e.1 ∈ participants) (h : (collectVotes participants r ctx entries).2 = true) :
    (collectVotes participants r ctx entries).1.prepareCalls =
        ctx.prepareCalls ++ entries.map fun e => (e.1,e.2,VoteResponse.yes) := by
  induction entries generalizing ctx with
  | nil => exact (List.append_nil _).symm
  | cons e rest ih =>
    have hmem : e.1 ∈ participants := hreg e List.mem_cons_self
    have hrest := fun e' he' => hreg e' (List.mem_cons_of_mem e he')
    unfold collectVotes at h ⊢
    split at h
    · cases h
    rename_i hexp
    rw [if_neg hexp]
    dsimp only at h ⊢
    split at h
    · cases h
    rename_i hno
    rw [if_neg hno,ih hrest h]
    have hyes : sendPrepare participants r e.1 = .yes := by
      cases hv : sendPrepare participants r e.1 with
      | yes => rfl
      | no => exact absurd hv hno
    unfold recordVote
    rw [if_pos hmem,hyes,List.map_cons,List.append_assoc]
    rfl

/-- With every answer in its favour the loop completes and every participant has voted. -/
theorem collectVotes_unanimous {r : Responses P} (hexp : ∀ pid, r.expired pid = false)
    (hvote : ∀ pid, r.vote pid = .yes) (ctx : TransactionContext P A) {entries : List (P × Operation P A)} (hreg : ∀ e ∈ entries, e.1 ∈ participants) :
    (collectVotes participants r ctx entries).2 = true ∧
      (collectVotes participants r ctx entries).1.votes =
        (entries.map fun e => (e.1,VoteResponse.yes)).foldl (fun d e => d.insert e.1 e.2) ctx.votes := by
  induction entries generalizing ctx with
  | nil => exact ⟨rfl,rfl⟩
  | cons e rest ih =>
    have hmem : e.1 ∈ participants := hreg e List.mem_cons_self
    have hyes : sendPrepare participants r e.1 = .yes := by
      unfold sendPrepare
      rw [if_pos hmem,hvote]
    unfold collectVotes
    rw [if_neg (by rw [hexp]; exact Bool.false_ne_true)]
    dsimp only
    rw [if_neg (by rw [hyes]; exact fun h => by cases h)]
    obtain ⟨hok,hvotes⟩ := ih (ctx.recordVote participants e.1 e.2 (sendPrepare participants r e.1))
      fun e' he' => hreg e' (List.mem_cons_of_mem e he')
    refine ⟨hok,hvotes.trans ?_⟩
    rw [List.map_cons,List.foldl_cons]
    unfold recordVote
    rw [hyes]

theorem participantOps_registered {operations : List (Operation P A)}
    (hreg : ∀ op ∈ operations, op.participant ∈ participants) :
    ∀ e ∈ ((TransactionContext.begin operations).setState .preparing).participantOps.entries, e.1 ∈ participants := by
  intro e he
  obtain ⟨op,hop,rfl⟩ := List.mem_map.mp (Dict.mem_ofEntries he)
  exact hreg op hop

/-- A `prepare` that succeeds has asked for the kept operation of each participant. -/
theorem prepare_calls {r : Responses P} {operations : List (Operation P A)}
    (hreg : ∀ op ∈ operations, op.participant ∈ participants)
    (h : ((TransactionContext.begin operations).prepare participants r).2 = true) :
    ((TransactionContext.begin operations).prepare participants r).1.prepareCalls =
      (Dict.ofEntries (operations.map fun op => (op.participant,op))).entries.map
        fun e => (e.1,e.2,VoteResponse.yes) := by
  unfold prepare at h ⊢
  dsimp only at h ⊢
  split at h
  · rename_i hok
    rw [if_pos hok]
    split at h
    · rename_i hcan
      rw [if_pos hcan]
      split at h
      · cases h
      · rename_i hexp
        rw [if_neg hexp]
        exact (collectVotes_complete (participantOps_registered hreg) hok).trans (List.nil_append _)
    · cases h
  · cases h

theorem commit_calls (participants : Finset P) (r : Responses P) (ctx : TransactionContext P A) :
    (ctx.commit participants r).1.prepareCalls = ctx.prepareCalls := by
  unfold commit
  split
  · dsimp only
    split
    · rfl
    · rfl
  · rfl

/-- Each participant has one operation to prepare. -/
theorem size_participantOps (operations : List (Operation P A)) :
    ((TransactionContext.begin operations).setState .preparing).participantOps.size =
      (operations.map Operation.participant).toFinset.card := by
  unfold participantOps
  rw [Dict.size_ofEntries,List.map_map]
  rfl

/-- All answers YES: the votes of the participants are in, one for each. -/
theorem canCommit_collectVotes {r : Responses P} (hexp : ∀ pid, r.expired pid = false) (hvote : ∀ pid, r.vote pid = .yes)
    {ctx : TransactionContext P A} (hnone : ctx.votes = .empty)
    (hreg : ∀ e ∈ ctx.participantOps.entries, e.1 ∈ participants) (hpos : ctx.participantOps.size ≠ 0) :
    (collectVotes participants r ctx ctx.participantOps.entries).1.canCommit ctx.participantOps.size := by
  obtain ⟨_,hvotes⟩ := collectVotes_unanimous hexp hvote ctx hreg
  have hentries : (collectVotes participants r ctx ctx.participantOps.entries).1.votes.entries =
      ctx.participantOps.entries.map fun e => (e.1,VoteResponse.yes) := by
    rw [hvotes,hnone]
    apply Dict.ofEntries_of_nodup
    rw [List.map_map]
    exact ctx.participantOps.nodup
  have hlen : (collectVotes participants r ctx ctx.participantOps.entries).1.votes.size = ctx.participantOps.size := by
    unfold Dict.size
    rw [hentries,List.length_map]
  refine ⟨by rw [hlen]; exact hpos,hlen,fun e he => ?_⟩
  rw [hentries] at he
  obtain ⟨e',-,rfl⟩ := List.mem_map.mp he
  rfl

/-- With all answers YES and all commits done both phases succeed. -/
theorem unanimous {r : Responses P} (hexp : ∀ pid, r.expired pid = false) (hvote : ∀ pid, r.vote pid = .yes)
    (hend : r.expiredAtEnd = false) (hcommit : ∀ pid, r.commits pid = true) {operations : List (Operation P A)}
    (hne : operations ≠ []) (hreg : ∀ op ∈ operations, op.participant ∈ participants) :
    ((TransactionContext.begin operations).prepare participants r).2 = true ∧
      (((TransactionContext.begin operations).prepare participants r).1.commit participants r).2 = true := by
  let ctx : TransactionContext P A := (TransactionContext.begin operations).setState .preparing
  have hsize : ctx.participantOps.size = ((operations.map Operation.participant).toFinset).card :=
    size_participantOps operations
  have hpos : ctx.participantOps.size ≠ 0 := by
    rw [hsize]
    obtain ⟨op,rest,rfl⟩ := List.exists_cons_of_ne_nil hne
    exact Finset.card_ne_zero_of_mem (List.mem_toFinset.mpr (List.mem_map_of_mem List.mem_cons_self))
  have hok := (collectVotes_unanimous hexp hvote ctx (participantOps_registered hreg)).1
  have hcan := canCommit_collectVotes hexp hvote rfl (participantOps_registered hreg) hpos
  have hprep : (TransactionContext.begin operations).prepare participants r =
      ((collectVotes participants r ctx ctx.participantOps.entries).1.setState .prepared,true) := by
    unfold prepare
    dsimp only
    rw [if_pos hok,if_pos hcan,if_neg (by rw [hend]; exact Bool.false_ne_true)]
  have hinv : ((collectVotes participants r ctx ctx.participantOps.entries).1.setState .prepared).involvedParticipants =
      (operations.map Operation.participant).toFinset := by
    have hops : (collectVotes participants r ctx ctx.participantOps.entries).1.operations = operations :=
      (collectVotes_agrees participants r ctx _).operations
    unfold involvedParticipants setState
    rw [hops]
  rw [hprep]
  refine ⟨rfl,?_⟩
  unfold commit
  rw [if_pos (by rw [hinv,← hsize]; exact hcan)]
  dsimp only
  rw [if_pos]
  intro pid hpid
  change pid ∈ ((collectVotes participants r ctx ctx.participantOps.entries).1.setState .prepared).involvedParticipants
    at hpid
  rw [hinv,List.mem_toFinset] at hpid
  obtain ⟨op,hop,rfl⟩ := List.mem_map.mp hpid
  exact ⟨hreg op hop,hcommit _⟩

end TransactionContext

namespace TwoPhaseCoordinator
variable {c : TwoPhaseCoordinator P A}

omit [DecidableEq P] in
/-- A phase of the newest transaction. -/
theorem onContext_last (participants : Finset P) (transactions : List (TransactionContext P A))
    (ctx : TransactionContext P A) (phase : TransactionContext P A → TransactionContext P A × Bool) :
    (⟨participants,transactions ++ [ctx]⟩ : TwoPhaseCoordinator P A).onContext transactions.length phase =
      (⟨participants,transactions ++ [(phase ctx).1]⟩,some (phase ctx).2) := by
  unfold onContext
  dsimp only
  rw [List.getElem?_concat_length]
  dsimp only
  rw [List.set_append_right _ _ (le_refl _),Nat.sub_self]
  rfl

/-- The transaction contains a call answered with YES for each operation of the list. -/
def Covers (c : TwoPhaseCoordinator P A) (txnId : ℕ) (operations : List (Operation P A)) : Prop :=
  ∃ ctx ∈ c.transactions[txnId]?,
    (operations.map fun op => (op.participant,op,VoteResponse.yes)).Subperm ctx.prepareCalls

/-- What `execute_transaction` does when it is successful. -/
theorem executeTransaction_true {r : Responses P} {operations : List (Operation P A)}
    (hreg : ∀ op ∈ operations, op.participant ∈ c.participants) :
    ((c.executeTransaction r operations).2 = true ↔
      ((TransactionContext.begin operations).prepare c.participants r).2 = true ∧
        (((TransactionContext.begin operations).prepare c.participants r).1.commit c.participants r).2 = true) ∧
    ((c.executeTransaction r operations).2 = true →
      (c.executeTransaction r operations).1.transactions[c.transactions.length]? =
        some (((TransactionContext.begin operations).prepare c.participants r).1.commit c.participants r).1) := by
  unfold executeTransaction
  rw [if_pos hreg]
  unfold beginTransaction prepare commit
  dsimp only
  rw [onContext_last]
  cases hp : ((TransactionContext.begin operations).prepare c.participants r).2 with
  | false =>
    rw [if_neg (by simp)]
    simp
  | true =>
    rw [if_pos rfl]
    dsimp only
    rw [onContext_last]
    refine ⟨?_,fun _ => ?_⟩
    · simp
    · exact List.getElem?_concat_length

/-- Every successful execution covers its operations exactly when no participant has two
of them. -/
theorem execute_covers_iff (c : TwoPhaseCoordinator P A) (operations : List (Operation P A))
    (hreg : ∀ op ∈ operations, op.participant ∈ c.participants) :
    (∀ r : Responses P, (c.executeTransaction r operations).2 = true →
      (c.executeTransaction r operations).1.Covers c.transactions.length operations) ↔
    (operations.map Operation.participant).Nodup := by
  let entries : List (P × Operation P A) := operations.map fun op => (op.participant,op)
  have hkeys : entries.map Prod.fst = operations.map Operation.participant := List.map_map
  constructor
  · intro h
    by_cases hne : operations = []
    · subst operations
      exact List.nodup_nil
    -- everybody answers YES: there are as many calls as participants
    let r : Responses P := ⟨fun _ => false,fun _ => .yes,false,fun _ => true⟩
    obtain ⟨hp,hc⟩ := TransactionContext.unanimous (r := r) (fun _ => rfl) (fun _ => rfl) rfl (fun _ => rfl) hne hreg
    have htrue := (executeTransaction_true hreg).1.mpr ⟨hp,hc⟩
    obtain ⟨ctx,hctx,hsub⟩ := h r htrue
    rw [(executeTransaction_true hreg).2 htrue] at hctx
    cases hctx
    rw [TransactionContext.commit_calls,TransactionContext.prepare_calls hreg hp] at hsub
    have hlen := hsub.length_le
    rw [List.length_map,List.length_map] at hlen
    have hsize := Dict.size_ofEntries entries
    rw [hkeys] at hsize
    have hle : (operations.map Operation.participant).length ≤
        (operations.map Operation.participant).toFinset.card := by
      rw [List.length_map,← hsize]
      exact hlen
    rw [List.card_toFinset] at hle
    exact List.dedup_eq_self.mp ((List.dedup_sublist _).eq_of_length_le hle)
  · intro hnodup r htrue
    obtain ⟨hp,-⟩ := (executeTransaction_true hreg).1.mp htrue
    refine ⟨_,(executeTransaction_true hreg).2 htrue,?_⟩
    rw [TransactionContext.commit_calls,TransactionContext.prepare_calls hreg hp]
    have hentries : (Dict.ofEntries entries).entries = entries :=
      Dict.ofEntries_of_nodup (by rw [hkeys]; exact hnodup)
    rw [show (Dict.ofEntries (operations.map fun op => (op.participant,op))).entries = entries from hentries,
      List.map_map]
    exact List.Subperm.refl _

/-- Two operations of one participant: the first is never prepared. -/
theorem overwritten_operation_uncovered :
    ¬ ∀ (c : TwoPhaseCoordinator ℕ ℕ) (operations : List (Operation ℕ ℕ)) (r : Responses ℕ),
      (∀ op ∈ operations, op.participant ∈ c.participants) → (c.executeTransaction r operations).2 = true →
        (c.executeTransaction r operations).1.Covers c.transactions.length operations := by
  intro h
  obtain ⟨ctx,hctx,hsub⟩ := h ⟨{1},[]⟩ [⟨1,10⟩,⟨1,20⟩] ⟨fun _ => false,fun _ => .yes,false,fun _ => true⟩
    (by decide) (by decide)
  cases hctx
  exact absurd hsub.length_le (by decide)

/-- One operation for each of two participants. -/
theorem execute_covers_iff_two :
    (∀ r : Responses ℕ, ((⟨{1,2},[]⟩ : TwoPhaseCoordinator ℕ ℕ).executeTransaction r [⟨1,10⟩,⟨2,20⟩]).2 = true →
      ((⟨{1,2},[]⟩ : TwoPhaseCoordinator ℕ ℕ).executeTransaction r [⟨1,10⟩,⟨2,20⟩]).1.Covers 0 [⟨1,10⟩,⟨2,20⟩]) ↔
    ([⟨1,10⟩,⟨2,20⟩].map (Operation.participant : Operation ℕ ℕ → ℕ)).Nodup :=
  execute_covers_iff ⟨{1,2},[]⟩ [⟨1,10⟩,⟨2,20⟩] (by decide)

end TwoPhaseCoordinator

end DistributedSystems.Transactions
