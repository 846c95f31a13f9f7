import DistributedSystems.Election.LeaseCluster
import DistributedSystems.Protocol.Quorum

/-! # One winner of a term

A node forgets its vote only when its term grows, so a vote of the current term is the
one in `votedFor`. Two steps of the code escape this: a grant for an old term or by the
branch for the previous holder, and a quorum of votes that were asked for in another term.
-/
namespace DistributedSystems.Election
open Runs LeaseBasedElection

variable {T : Type} [Add T] [LinearOrder T]

namespace LeaseBasedElection

/-- A request is granted only in a term that is not over and to the candidate of that
term, and a quorum is completed in the term in which its votes were asked for. -/
def Honours (n : LeaseBasedElection T) (now : T) : Cause → Prop
  | .own _ => True
  | .message msg =>
    (msg.type = .requestLease → (n.adoptTerm msg.term).shouldGrant now msg.senderId →
      n.term ≤ msg.term ∧ (msg.term = n.term → n.votedFor = none ∨ n.votedFor = some msg.senderId)) ∧
    (msg.type = .grantLease → n.completesQuorum msg → n.term = n.attemptTerm)

instance (n : LeaseBasedElection T) (now : T) : ∀ cause, Decidable (n.Honours now cause)
  | .own _ => isTrue trivial
  | .message _ => inferInstanceAs (Decidable (_ ∧ _))

/-- The votes of a node are one for each term, and that of its current term is recorded. -/
structure Ballot (n : LeaseBasedElection T) : Prop where
  term : ∀ t x, (t,x) ∈ n.casts → t ≤ n.term
  current : ∀ x, (n.term,x) ∈ n.casts → n.votedFor = some x
  once : ∀ t x y, (t,x) ∈ n.casts → (t,y) ∈ n.casts → x = y
  attempt : n.attemptTerm ≤ n.term

namespace Ballot

omit [Add T] [LinearOrder T] in
theorem init (nodeId : ℕ) (peers : List ℕ) (leaseDuration : T) (quorumSize : Option ℕ) :
    Ballot (LeaseBasedElection.init nodeId peers leaseDuration quorumSize) :=
  ⟨fun _ _ h => absurd h List.not_mem_nil,fun _ h => absurd h List.not_mem_nil,
    fun _ _ _ h => absurd h List.not_mem_nil,le_refl _⟩

theorem steady {n n' : LeaseBasedElection T} (h : Ballot n) (hs : n.Steady n') : Ballot n' where
  term t x hx := (h.term t x (hs.casts ▸ hx)).trans hs.term
  current x hx := by
    rw [hs.casts] at hx
    have ht : n'.term = n.term := le_antisymm (h.term _ x hx) hs.term
    rw [hs.votedFor ht]
    exact h.current x (ht ▸ hx)
  once t x y hx hy := h.once t x y (hs.casts ▸ hx) (hs.casts ▸ hy)
  attempt := by
    rw [hs.attemptTerm]
    exact h.attempt.trans hs.term

omit [Add T] [LinearOrder T] in
/-- A vote in a later term, or in the current one for the candidate that has the vote already. -/
theorem cast {n n' : LeaseBasedElection T} {x : ℕ} (h : Ballot n) (hterm : n.term ≤ n'.term)
    (hvote : n'.term = n.term → n.votedFor = none ∨ n.votedFor = some x)
    (hcasts : n'.casts = n.casts ++ [(n'.term,x)]) (hfor : n'.votedFor = some x)
    (hattempt : n'.attemptTerm ≤ n'.term) : Ballot n' := by
  have hold : ∀ y, (n'.term,y) ∈ n.casts → y = x := by
    intro y hy
    have ht : n'.term = n.term := le_antisymm (h.term _ y hy) hterm
    have hcur := h.current y (ht ▸ hy)
    rcases hvote ht with hnone | hsome
    · rw [hnone] at hcur
      cases hcur
    · rw [hsome] at hcur
      exact (Option.some.inj hcur).symm
  have hmem : ∀ t y, (t,y) ∈ n'.casts → (t,y) ∈ n.casts ∨ (t = n'.term ∧ y = x) := by
    intro t y hy
    rw [hcasts] at hy
    rcases List.mem_append.mp hy with hy | hy
    · exact Or.inl hy
    · exact Or.inr (Prod.mk.injEq .. ▸ List.mem_singleton.mp hy)
  refine ⟨?_,?_,?_,hattempt⟩
  · intro t y hy
    rcases hmem t y hy with hy | ⟨rfl,-⟩
    · exact (h.term t y hy).trans hterm
    · exact le_refl _
  · intro y hy
    rcases hmem _ y hy with hy | ⟨-,rfl⟩
    · rw [hold y hy]
      exact hfor
    · exact hfor
  · intro t y z hy hz
    rcases hmem t y hy with hy | ⟨rfl,rfl⟩
    · rcases hmem t z hz with hz | ⟨rfl,rfl⟩
      · exact h.once t y z hy hz
      · exact hold y hy
    · rcases hmem _ z hz with hz | ⟨-,rfl⟩
      · exact (hold z hz).symm
      · rfl

theorem reacts {n : LeaseBasedElection T} {now : T} {cause : Cause} {r : Reaction T} (h : Ballot n)
    (hr : n.Reacts now cause r) (hh : n.Honours now cause) : Ballot r.node := by
  cases hr with
  | silent hs => exact h.steady hs.1
  | request => exact h.cast (Nat.le_succ _) (fun ht => absurd ht (Nat.succ_ne_self _)) rfl rfl (le_refl _)
  | @grant msg ht hg =>
    obtain ⟨hle,hvote⟩ := hh.1 ht hg
    have hadopt := Steady.adoptTerm n msg.term
    have hterm : (n.adoptTerm msg.term).term = msg.term := by
      unfold adoptTerm
      split
      · rfl
      · rename_i hlt
        exact le_antisymm hle (not_lt.mp hlt)
    refine h.cast (x := msg.senderId) hadopt.term ?_ ?_ rfl ?_
    · intro heq
      exact hvote (hterm.symm.trans heq)
    · change (n.adoptTerm msg.term).casts ++ [(msg.term,msg.senderId)] =
        n.casts ++ [((n.adoptTerm msg.term).term,msg.senderId)]
      rw [hadopt.casts,hterm]
    · change (n.adoptTerm msg.term).attemptTerm ≤ _
      rw [hadopt.attemptTerm]
      exact h.attempt.trans hadopt.term
  | count => exact ⟨h.term,h.current,h.once,h.attempt⟩
  | lead => exact ⟨h.term,h.current,h.once,h.attempt⟩

end Ballot

end LeaseBasedElection

namespace LeaseCluster

/-- The step of the action keeps votes to one candidate a term. -/
def VotesOnce (cfg : LeaseConfig T) (c : LeaseCluster T) (a : LeaseAction T) : Prop :=
  ∀ o ∈ c.cause cfg a, (c.nodes o.1).Honours (cfg.clock o.1 c.time) o.2

instance (cfg : LeaseConfig T) (c : LeaseCluster T) (a : LeaseAction T) : Decidable (c.VotesOnce cfg a) :=
  inferInstanceAs (Decidable (∀ o ∈ c.cause cfg a, (c.nodes o.1).Honours (cfg.clock o.1 c.time) o.2))

/-- A majority of the cluster has voted for the candidate in the term. -/
def Elected (cfg : LeaseConfig T) (c : LeaseCluster T) (t i : ℕ) : Prop :=
  ∃ S ⊆ Finset.range cfg.totalNodes, cfg.totalNodes < 2 * S.card ∧ ∀ v ∈ S, (t,i) ∈ (c.nodes v).casts

/-- Grants on their way were cast, votes counted for the term of the last own request were
cast for it, and whoever became leader was elected. -/
structure Tallied (cfg : LeaseConfig T) (c : LeaseCluster T) : Prop where
  proper : Proper cfg c
  ballot : ∀ i, (c.nodes i).Ballot
  granted : ∀ p ∈ c.network, p.message.type = .grantLease →
    (p.message.term,p.destination) ∈ (c.nodes p.message.senderId).casts
  counted : ∀ i, (c.nodes i).term = (c.nodes i).attemptTerm →
    ∀ v ∈ (c.nodes i).votesReceived, ((c.nodes i).term,i) ∈ (c.nodes v).casts
  won : ∀ i, ∀ t ∈ (c.nodes i).wins, c.Elected cfg t i

omit [Add T] [LinearOrder T] in
theorem tallied_init (cfg : LeaseConfig T) (time : T) : Tallied cfg (init cfg time) where
  proper := proper_init cfg time
  ballot i := Ballot.init i _ (cfg.leaseDuration i) none
  granted _ hp := absurd hp List.not_mem_nil
  counted _ _ _ hv := absurd hv (Finset.notMem_empty _)
  won _ _ ht := absurd ht List.not_mem_nil

/-- Votes are never withdrawn. -/
theorem casts_subset_update {c : LeaseCluster T} {i : ℕ} {now : T} {cause : Cause} {r : Reaction T}
    (hr : (c.nodes i).Reacts now cause r) (v : ℕ) : (c.nodes v).casts ⊆ ((c.update i r).nodes v).casts :=
  forall_nodes_update (P := fun v n => (c.nodes v).casts ⊆ n.casts) hr.casts_subset
    (fun _ => List.Subset.refl _) v

omit [Add T] [LinearOrder T] in
theorem Elected.mono {cfg : LeaseConfig T} {c c' : LeaseCluster T} {t i : ℕ} (h : c.Elected cfg t i)
    (hcasts : ∀ v, (c.nodes v).casts ⊆ (c'.nodes v).casts) : c'.Elected cfg t i := by
  obtain ⟨S,hS,hcard,hall⟩ := h
  exact ⟨S,hS,hcard,fun v hv => hcasts v (hall v hv)⟩

omit [Add T] [LinearOrder T] in
/-- Two candidates elected in one term share a voter. -/
theorem Elected.unique {cfg : LeaseConfig T} {c : LeaseCluster T} (hb : ∀ i, (c.nodes i).Ballot) {t i j : ℕ}
    (hi : c.Elected cfg t i) (hj : c.Elected cfg t j) : i = j := by
  obtain ⟨A,hA,hcardA,hcastA⟩ := hi
  obtain ⟨B,hB,hcardB,hcastB⟩ := hj
  obtain ⟨v,hv⟩ := inter_nonempty_of_card hA hB (by rw [Finset.card_range]; omega)
  obtain ⟨hvA,hvB⟩ := Finset.mem_inter.mp hv
  exact (hb v).once t i j (hcastA v hvA) (hcastB v hvB)

omit [Add T] [LinearOrder T] in
/-- A term that has not been left since the last own request keeps its votes. -/
theorem Tallied.counted_of {cfg : LeaseConfig T} {c : LeaseCluster T} (h : Tallied cfg c) {i : ℕ}
    {n' : LeaseBasedElection T} (hterm : (c.nodes i).term ≤ n'.term)
    (hattempt : n'.attemptTerm = (c.nodes i).attemptTerm) (hvotes : n'.votesReceived = (c.nodes i).votesReceived) (ht : n'.term = n'.attemptTerm) {v : ℕ}
    (hv : v ∈ n'.votesReceived) : (n'.term,i) ∈ (c.nodes v).casts := by
  have heq : n'.term = (c.nodes i).term := by
    refine le_antisymm ?_ hterm
    rw [ht,hattempt]
    exact (h.ballot i).attempt
  rw [heq]
  exact h.counted i (by rw [← heq,ht,hattempt]) v (hvotes ▸ hv)

omit [Add T] [LinearOrder T] in
/-- A vote that arrives was cast for the node and the term that it is counted for. -/
theorem Tallied.counted_insert {cfg : LeaseConfig T} {c : LeaseCluster T} (h : Tallied cfg c) {i : ℕ}
    {msg : LeaseMessage} (hmem : (⟨i,msg⟩ : Packet) ∈ c.network) (htype : msg.type = .grantLease)
    (hterm : msg.term = (c.nodes i).term) (ht : (c.nodes i).term = (c.nodes i).attemptTerm) {v : ℕ}
    (hv : v ∈ insert msg.senderId (c.nodes i).votesReceived) : ((c.nodes i).term,i) ∈ (c.nodes v).casts := by
  rcases Finset.mem_insert.mp hv with rfl | hv
  · rw [← hterm]
    exact h.granted _ hmem htype
  · exact h.counted i ht v hv

omit [Add T] [LinearOrder T] in
/-- A quorum that is completed in the term of its request elects the node. -/
theorem Tallied.elected {cfg : LeaseConfig T} {c : LeaseCluster T} (h : Tallied cfg c) {i : ℕ}
    (hi : i < cfg.totalNodes) {msg : LeaseMessage} (hmem : (⟨i,msg⟩ : Packet) ∈ c.network) (hs : msg.senderId < cfg.totalNodes)
    (htype : msg.type = .grantLease) (hq : (c.nodes i).completesQuorum msg)
    (ht : (c.nodes i).term = (c.nodes i).attemptTerm) : c.Elected cfg (c.nodes i).term i := by
  obtain ⟨-,-,hterm,hcard⟩ := hq
  rw [h.proper.quorumSize i hi] at hcard
  refine ⟨insert msg.senderId (c.nodes i).votesReceived,?_,by omega,?_⟩
  · intro v hv
    rcases Finset.mem_insert.mp hv with rfl | hv
    · exact Finset.mem_range.mpr hs
    · exact Finset.mem_range.mpr (h.proper.votesReceived i hi v hv)
  · exact fun v hv => h.counted_insert hmem htype hterm ht hv

theorem Tallied.step {cfg : LeaseConfig T} {c : LeaseCluster T} {a : LeaseAction T} (h : Tallied cfg c)
    (hguard : c.VotesOnce cfg a) : Tallied cfg (c.step cfg a) := by
  have hproper := h.proper.step a
  rcases h.proper.step_cases a with ⟨time,-,hc⟩ | ⟨i,cause,r,hcause,hr,hc⟩
  · rw [hc] at hproper ⊢
    exact ⟨hproper,h.ballot,h.granted,h.counted,h.won⟩
  obtain ⟨hi,hmsg⟩ := h.proper.cause_lt hcause
  have hgrow := casts_subset_update hr
  have hhonours := hguard _ hcause
  rw [hc] at hproper ⊢
  refine ⟨hproper,?_,?_,?_,?_⟩
  · exact forall_nodes_update (P := fun _ n => n.Ballot) ((h.ballot i).reacts hr hhonours) h.ballot
  · intro p hp ht
    rcases mem_update_network hp with hp | hp
    · exact hgrow _ (h.granted p hp ht)
    · rw [(hr.sent hp).1,h.proper.nodeId i,update_self]
      exact hr.sent_grant hp ht
  · refine forall_nodes_update (P := fun j n => n.term = n.attemptTerm →
      ∀ v ∈ n.votesReceived, (n.term,j) ∈ ((c.update i r).nodes v).casts) ?_
      fun j ht v hv => hgrow v (h.counted j ht v hv)
    intro ht v hv
    cases hr with
    | silent hs => exact hgrow v (h.counted_of hs.1.term hs.1.attemptTerm hs.1.votesReceived ht hv)
    | request =>
      rw [Finset.mem_singleton.mp hv,h.proper.nodeId i,update_self]
      exact List.mem_append_right _ (List.mem_singleton.mpr (by rw [h.proper.nodeId i]; rfl))
    | @grant msg =>
      have hadopt := Steady.adoptTerm (c.nodes i) msg.term
      exact hgrow v (h.counted_of hadopt.term hadopt.attemptTerm hadopt.votesReceived ht hv)
    | count htype hterm => exact hgrow v (h.counted_insert (hmsg _ rfl).1 htype hterm ht hv)
    | lead htype hq => exact hgrow v (h.counted_insert (hmsg _ rfl).1 htype hq.2.2.1 ht hv)
  · refine forall_nodes_update (P := fun j n => ∀ t ∈ n.wins, (c.update i r).Elected cfg t j) ?_
      fun j t ht => (h.won j t ht).mono hgrow
    intro t ht
    cases hr with
    | silent hs => exact (h.won i t (hs.1.wins ▸ ht)).mono hgrow
    | request => exact (h.won i t ht).mono hgrow
    | @grant msg => exact (h.won i t ((Steady.adoptTerm (c.nodes i) msg.term).wins ▸ ht)).mono hgrow
    | count => exact (h.won i t ht).mono hgrow
    | lead htype hq =>
      rcases List.mem_append.mp ht with ht | ht
      · exact (h.won i t ht).mono hgrow
      · rw [List.mem_singleton.mp ht]
        obtain ⟨hmem,hs,-⟩ := hmsg _ rfl
        exact (h.elected hi hmem hs htype hq (hhonours.2 htype hq)).mono hgrow

/-- In runs whose steps keep votes to one candidate a term, a term has one winner. -/
theorem one_winner_per_term (cfg : LeaseConfig T) (time : T) {schedule : List (LeaseAction T)}
    (hguard : Along (step cfg) (VotesOnce cfg) (init cfg time) schedule) {i j t : ℕ}
    (hi : t ∈ ((run (step cfg) (init cfg time) schedule).nodes i).wins)
    (hj : t ∈ ((run (step cfg) (init cfg time) schedule).nodes j).wins) : i = j := by
  have h := run_invariant (I := Tallied cfg) (fun _ _ hs hg => hs.step hg) (tallied_init cfg time) hguard
  exact Elected.unique h.ballot (h.won i t hi) (h.won j t hj)

/-- Node 0 wins term 1, its lease expires, and node 2 wins term 2. -/
theorem one_winner_per_term_two_terms :
    ∃ schedule : List (LeaseAction ℕ),
      1 ∈ ((run (step LeaseConfig.threeNodes) (init LeaseConfig.threeNodes 0) schedule).nodes 0).wins ∧
      2 ∈ ((run (step LeaseConfig.threeNodes) (init LeaseConfig.threeNodes 0) schedule).nodes 2).wins ∧
      ∀ j, 2 ∈ ((run (step LeaseConfig.threeNodes) (init LeaseConfig.threeNodes 0) schedule).nodes j).wins → 2 = j :=
  ⟨[.move 0 .start,.move 1 .start,.move 2 .start,.move 0 .attemptAcquireLease,.deliver 0,.deliver 2,.deliver 1,
      .elapse 10,.move 2 .attemptAcquireLease,.deliver 5,.deliver 6],by decide,by decide,
    fun _ hj => one_winner_per_term LeaseConfig.threeNodes 0 (by decide) (by decide) hj⟩

/-- Node 1 votes for node 2 in term 2 and then, in the same term, for node 0, whose expired
lease it still has on record. -/
theorem two_winners_of_one_term :
    ¬ ∀ (schedule : List (LeaseAction ℕ)) (i j t : ℕ),
      t ∈ ((run (step LeaseConfig.threeNodes) (init LeaseConfig.threeNodes 0) schedule).nodes i).wins →
      t ∈ ((run (step LeaseConfig.threeNodes) (init LeaseConfig.threeNodes 0) schedule).nodes j).wins → i = j := by
  intro h
  -- Packets 0 and 5 bring node 1 the request and the heartbeat of term 1, packets 9 and 11 the requests of term 2.
  have he := h [.move 0 .start,.move 1 .start,.move 2 .start,.move 0 .attemptAcquireLease,.deliver 0,.deliver 2,
    .deliver 1,.move 0 .renewalCheck,.move 0 .composeHeartbeat,.move 0 (.sendHeartbeat 0),.deliver 5,.elapse 10,
    .move 2 .attemptAcquireLease,.deliver 9,.deliver 10,.move 0 .monitorCheck,.move 0 .monitorLease,
    .move 0 .attemptAcquireLease,.deliver 11,.deliver 13] 0 2 2 (by decide) (by decide)
  exact absurd he (by decide)

end LeaseCluster

end DistributedSystems.Election
