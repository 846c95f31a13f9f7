import DistributedSystems.Protocol.Quorum
import DistributedSystems.Pbft.CommitVotes
import DistributedSystems.Pbft.PrePrepares

/-! # Agreement inside a view

Two honest nodes that commit a key commit the same digest: by quorum intersection when
one more node than three times the tolerated faults takes part, and because
PRE-PREPAREs are unique when nobody is faulty.
-/
namespace DistributedSystems.Pbft
variable {Op Dig : Type} [DecidableEq Op] [DecidableEq Dig]

/-- The key is in `committed_predicate`, put there with a PRE-PREPARE of this digest. -/
def PBFTNode.CommittedWith (n : PBFTNode Op Dig) (key : Key) (d : Dig) : Prop :=
  key ∈ n.committedPredicate ∧ ∃ pp ∈ n.executed, pp.key = key ∧ pp.digest = d

instance (n : PBFTNode Op Dig) (key : Key) (d : Dig) : Decidable (n.CommittedWith key d) :=
  inferInstanceAs (Decidable (_ ∧ _))

namespace System

def Agreement (cfg : Config) (c : System Op Dig) : Prop :=
  ∀ i j key d d', cfg.honest i → cfg.honest j →
    (c.nodes i).CommittedWith key d → (c.nodes j).CommittedWith key d' → d = d'

/-- An honest node is bound by the COMMIT it broadcast. -/
def Voted (cfg : Config) (c : System Op Dig) (key : Key) (x : ℕ) (d : Dig) : Prop :=
  x < cfg.totalNodes ∧ (cfg.honest x → (c.nodes x).commitSent key = some d)

structure VotesSound (cfg : Config) (c : System Op Dig) : Prop where
  nodeId : ∀ i, (c.nodes i).nodeId = i
  f : ∀ i, (c.nodes i).f = (cfg.totalNodes - 1) / 3
  node : ∀ i, CommitInv (c.Voted cfg) (c.nodes i)
  network : ∀ e ∈ c.network, ∀ m, e.message = .commit m → c.Voted cfg m.key m.sender m.digest

namespace VotesSound
variable {cfg : Config} {c : System Op Dig}

omit [DecidableEq Op] in
theorem init (cfg : Config) : VotesSound cfg (System.init Op Dig cfg) where
  nodeId _ := rfl
  f _ := rfl
  node i := CommitInv.init _ i cfg.totalNodes
  network _ h := absurd h List.not_mem_nil

theorem commitStep (h : VotesSound cfg c) {digest : Op → Option Dig} {a : Action Op Dig} {i : ℕ}
    {out : PBFTNode Op Dig × List (Outgoing Op Dig)} (hh : c.Handler digest a i out) :
    CommitStep (c.Voted cfg) (c.nodes i) out := by
  cases hh with
  | propose i operation reqId => exact (h.node i).propose digest operation reqId
  | triggerViewChange i => exact (h.node i).triggerViewChange
  | deliver k i envelope hk =>
    exact (h.node i).receive digest envelope.message (h.network envelope (List.mem_of_getElem? hk))

omit [DecidableEq Op] in
/-- A COMMIT on record stays on record. -/
theorem voted_update {i : ℕ} {out : PBFTNode Op Dig × List (Outgoing Op Dig)}
    (hs : CommitStep (c.Voted cfg) (c.nodes i) out) (key : Key) (x : ℕ) (d : Dig) (hv : c.Voted cfg key x d) :
    (c.update i out).Voted cfg key x d := by
  refine ⟨hv.1,fun hx => ?_⟩
  have hsent := forall_nodes_update (P := fun y n => (c.nodes y).commitSent key = some d → n.commitSent key = some d)
    (hs.sent key d) (fun _ hd => hd) x
  exact hsent (hv.2 hx)

omit [DecidableEq Op] in
theorem update (h : VotesSound cfg c) {i : ℕ} (hi : cfg.honest i)
    {out : PBFTNode Op Dig × List (Outgoing Op Dig)} (hs : CommitStep (c.Voted cfg) (c.nodes i) out) :
    VotesSound cfg (c.update i out) where
  nodeId := forall_nodes_update (P := fun j n => n.nodeId = j) (hs.nodeId.trans (h.nodeId i)) h.nodeId
  f := forall_nodes_update (P := fun _ n => n.f = (cfg.totalNodes - 1) / 3) (hs.f.trans (h.f i)) h.f
  node := forall_nodes_update (P := fun _ n => CommitInv ((c.update i out).Voted cfg) n)
    (hs.inv.mono (voted_update hs)) fun j => (h.node j).mono (voted_update hs)
  network e he m hm := by
    rcases mem_update_network he with he | ⟨o,ho,rfl⟩
    · exact voted_update hs _ _ _ (h.network e he m hm)
    · rw [Outgoing.envelope_message] at hm
      cases o with
      | broadcast message =>
        change message = .commit m at hm
        subst message
        obtain ⟨hsender,hsent⟩ := hs.broadcast m ho
        rw [hsender,h.nodeId i]
        exact ⟨hi.1,fun _ => by rw [update_self]; exact hsent⟩
      | send message destination =>
        change message = .commit m at hm
        subst message
        exact absurd ho (hs.send m destination)

theorem step (h : VotesSound cfg c) (digest : Op → Option Dig) (a : Action Op Dig) :
    VotesSound cfg (c.step cfg digest a) := by
  refine step_keeps h (fun i out hi hh => h.update hi (h.commitStep hh)) fun envelope he => ?_
  refine ⟨h.nodeId,h.f,h.node,?_⟩
  intro e hmem m hm
  rcases List.mem_append.mp hmem with hmem | hmem
  · exact h.network e hmem m hm
  · -- a Byzantine sender is no honest node
    rw [List.mem_singleton.mp hmem] at hm
    rw [hm] at he
    exact ⟨cfg.members _ he,fun hhonest => absurd he hhonest.2⟩

theorem run (cfg : Config) (digest : Op → Option Dig) (schedule : List (Action Op Dig)) :
    VotesSound cfg (Runs.run (System.step cfg digest) (System.init Op Dig cfg) schedule) :=
  Runs.run_invariant_of_step (fun _ a h => h.step digest a) (init cfg) schedule

omit [DecidableEq Op] in
/-- Every vote counted for the digest of an executed PRE-PREPARE is binding. -/
theorem counted (h : VotesSound cfg c) {i : ℕ} (hi : cfg.honest i) {key : Key} {d : Dig} {p : ℕ × Dig}
    (hp : p ∈ ((c.nodes i).commits key).filter (·.2 = d)) :
    p.2 = d ∧ p.1 ∈ Finset.range cfg.totalNodes ∧
      (p.1 ∉ cfg.byzantine → (c.nodes p.1).commitSent key = some d) := by
  obtain ⟨x,e⟩ := p
  obtain ⟨hmem,rfl⟩ := Finset.mem_filter.mp hp
  rcases (h.node i).counted key x e hmem with hv | ⟨hx,hsent⟩
  · exact ⟨rfl,Finset.mem_range.mpr hv.1,fun hb => hv.2 ⟨hv.1,hb⟩⟩
  · rw [h.nodeId i] at hx
    subst x
    exact ⟨rfl,Finset.mem_range.mpr hi.1,fun _ => hsent⟩

omit [DecidableEq Op] in
/-- Two quorums of `2f + 1` among `3f + 1` nodes share an honest node. -/
theorem agreement (h : VotesSound cfg c) (hN : cfg.totalNodes % 3 = 1) : c.Agreement cfg := by
  rintro i j key d d' hi hj ⟨-,pp,hpp,rfl,rfl⟩ ⟨-,pp',hpp',hkey,rfl⟩
  have hci := ((h.node i).executed pp hpp).2
  have hcj := ((h.node j).executed pp' hpp').2
  rw [h.f] at hci hcj
  rw [hkey] at hcj
  have hbound := cfg.bound
  refine certificate_unique cfg.byzantine (fun x => (c.nodes x).commitSent pp.key) (fun p hp => h.counted hi hp) (fun p hp => h.counted hj hp) ?_
  rw [Finset.card_range]
  omega

end VotesSound

/-- The PRE-PREPAREs of a cluster without Byzantine nodes. -/
structure Originals (cfg : Config) (c : System Op Dig) : Prop where
  nodeId : ∀ i, (c.nodes i).nodeId = i
  totalNodes : ∀ i, (c.nodes i).totalNodes = cfg.totalNodes
  accepted : ∀ i, ∀ pp ∈ (c.nodes i).accepted, c.Known pp
  origin : ∀ pp, c.Known pp → (pp.sender : ℤ) = pp.view % cfg.totalNodes ∧
    pp.sequenceNumber ≤ (c.nodes pp.sender).seqNum
  unique : ∀ pp pp', c.Known pp → c.Known pp' → pp.key = pp'.key → pp = pp'

omit [DecidableEq Op] [DecidableEq Dig] in
/-- A handler makes at most the PRE-PREPARE known that it stores. -/
theorem known_update {digest : Op → Option Dig} {c : System Op Dig} {i : ℕ}
    {stored : Option (PrePrepareMessage Op Dig)} {out : PBFTNode Op Dig × List (Outgoing Op Dig)}
    (hs : AcceptStep digest c.Known (c.nodes i) stored out) {pp : PrePrepareMessage Op Dig}
    (h : (c.update i out).Known pp) :
    c.Known pp ∨ ((c.nodes i).isPrimary ∧ out.1.seqNum = (c.nodes i).seqNum + 1 ∧ stored = some pp ∧
      ∃ d msg, digest msg.operation = some d ∧ pp = (c.nodes i).proposal d msg) := by
  obtain ⟨e,he,hpp⟩ := h
  rcases mem_update_network he with he | ⟨o,ho,rfl⟩
  · exact Or.inl ⟨e,he,hpp⟩
  · rw [Outgoing.envelope_message] at hpp
    exact Or.inr (hs.proposed o ho pp hpp)

omit [DecidableEq Op] [DecidableEq Dig] in
theorem Known.update {c : System Op Dig} {pp : PrePrepareMessage Op Dig} (h : c.Known pp) (i : ℕ)
    (out : PBFTNode Op Dig × List (Outgoing Op Dig)) : (c.update i out).Known pp := by
  obtain ⟨e,he,hpp⟩ := h
  exact ⟨e,List.mem_append_left _ he,hpp⟩

namespace Originals
variable {cfg : Config} {c : System Op Dig}

omit [DecidableEq Op] [DecidableEq Dig] in
theorem init (cfg : Config) : Originals cfg (System.init Op Dig cfg) where
  nodeId _ := rfl
  totalNodes _ := rfl
  accepted _ _ h := absurd h List.not_mem_nil
  origin _ h := absurd h.choose_spec.1 List.not_mem_nil
  unique _ _ h := absurd h.choose_spec.1 List.not_mem_nil

omit [DecidableEq Op] [DecidableEq Dig] in
theorem update (h : Originals cfg c) {i : ℕ} {digest : Op → Option Dig}
    {stored : Option (PrePrepareMessage Op Dig)} {out : PBFTNode Op Dig × List (Outgoing Op Dig)}
    (hs : AcceptStep digest c.Known (c.nodes i) stored out) : Originals cfg (c.update i out) := by
  have hnum : ∀ x, (c.nodes x).seqNum ≤ ((c.update i out).nodes x).seqNum :=
    forall_nodes_update (P := fun x n => (c.nodes x).seqNum ≤ n.seqNum) hs.seqNum fun _ => le_refl _
  -- a new PRE-PREPARE carries a number its primary has not used before
  have hnew : ∀ pp pp', c.Known pp' → (c.nodes i).isPrimary →
      (∃ d msg, digest msg.operation = some d ∧ pp = (c.nodes i).proposal d msg) → pp.key ≠ pp'.key := by
    rintro _ pp' hk hp ⟨d,msg,-,rfl⟩ hkey
    obtain ⟨hsender,hle⟩ := h.origin pp' hk
    have hv : (c.nodes i).view = pp'.view := congrArg Prod.fst hkey
    have hn : (c.nodes i).seqNum + 1 = pp'.sequenceNumber := congrArg Prod.snd hkey
    have hi : pp'.sender = i := by
      unfold PBFTNode.isPrimary at hp
      rw [h.nodeId,h.totalNodes,hv,← hsender] at hp
      exact_mod_cast hp.symm
    rw [hi] at hle
    omega
  refine ⟨?_,?_,?_,?_,?_⟩
  · exact forall_nodes_update (P := fun x n => n.nodeId = x) (hs.nodeId.trans (h.nodeId i)) h.nodeId
  · exact forall_nodes_update (P := fun _ n => n.totalNodes = cfg.totalNodes) (hs.totalNodes.trans (h.totalNodes i))
      h.totalNodes
  · intro x pp hpp
    rcases mem_accepted_update hs hpp with hpp | hpp
    · exact (h.accepted x pp hpp).update i out
    · rcases hs.published pp hpp with hk | hsent
      · exact hk.update i out
      · exact ⟨_,List.mem_append_right _ (List.mem_map_of_mem hsent),rfl⟩
  · intro pp hpp
    rcases known_update hs hpp with hk | ⟨hp,hseq,-,d,msg,-,rfl⟩
    · exact ⟨(h.origin pp hk).1,(h.origin pp hk).2.trans (hnum pp.sender)⟩
    · unfold PBFTNode.isPrimary at hp
      rw [h.totalNodes] at hp
      refine ⟨hp,?_⟩
      change (c.nodes i).seqNum + 1 ≤ ((c.update i out).nodes (c.nodes i).nodeId).seqNum
      rw [h.nodeId,update_self,hseq]
  · intro pp pp' hpp hpp' hkey
    rcases known_update hs hpp with hk | ⟨hp,-,hst,hpr⟩
    · rcases known_update hs hpp' with hk' | ⟨hp',-,-,hpr'⟩
      · exact h.unique pp pp' hk hk' hkey
      · exact absurd hkey.symm (hnew pp' pp hk hp' hpr')
    · rcases known_update hs hpp' with hk' | ⟨-,-,hst',-⟩
      · exact absurd hkey (hnew pp pp' hk' hp hpr)
      · exact Option.some.inj (hst.symm.trans hst')

theorem step (h : Originals cfg c) (hb : cfg.byzantine = ∅) (digest : Op → Option Dig) (a : Action Op Dig) :
    Originals cfg (c.step cfg digest a) := by
  refine step_keeps h (fun i out hi hh => h.update (hh.acceptStep hi)) fun envelope he => ?_
  rw [hb] at he
  exact absurd he (Finset.notMem_empty _)

theorem run {cfg : Config} (hb : cfg.byzantine = ∅) (digest : Op → Option Dig) (schedule : List (Action Op Dig)) :
    Originals cfg (Runs.run (System.step cfg digest) (System.init Op Dig cfg) schedule) :=
  Runs.run_invariant_of_step (fun _ a h => h.step hb digest a) (init cfg) schedule

omit [DecidableEq Op] in
theorem agreement (h : Originals cfg c) (hv : VotesSound cfg c) : c.Agreement cfg := by
  rintro i j key d d' - - ⟨-,pp,hpp,rfl,rfl⟩ ⟨-,pp',hpp',hkey,rfl⟩
  have hi := h.accepted i pp ((hv.node i).executed pp hpp).1
  have hj := h.accepted j pp' ((hv.node j).executed pp' hpp').1
  rw [h.unique pp pp' hi hj hkey.symm]

end Originals

/-- Up to three nodes tolerate no fault, and one more than a multiple of three is enough. -/
theorem agreement_of_totalNodes {cfg : Config} (hN : cfg.totalNodes % 3 = 1 ∨ cfg.totalNodes ≤ 3)
    (digest : Op → Option Dig) (schedule : List (Action Op Dig)) :
    (Runs.run (System.step cfg digest) (System.init Op Dig cfg) schedule).Agreement cfg := by
  have hv := VotesSound.run cfg digest schedule
  rcases hN with hN | hN
  · exact hv.agreement hN
  · have hbound := cfg.bound
    have hb : cfg.byzantine = ∅ := Finset.card_eq_zero.mp (by omega)
    exact (Originals.run hb digest schedule).agreement hv

end System

end DistributedSystems.Pbft
