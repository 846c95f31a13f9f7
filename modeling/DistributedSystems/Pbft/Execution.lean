import DistributedSystems.Pbft.Agreement

/-! # Agreement on what is executed

Votes name a digest, while execution takes the request out of the PRE-PREPARE that the
node has stored. The two stay together as long as nodes only store PRE-PREPAREs that
carry a request of their digest, the same one everywhere.
-/
namespace DistributedSystems.Pbft
variable {Op Dig : Type} [DecidableEq Op] [DecidableEq Dig]

/-- The operation of the embedded request has the digest of the PRE-PREPARE. -/
def PrePrepareMessage.Genuine (digest : Op → Option Dig) (pp : PrePrepareMessage Op Dig) : Prop :=
  (pp.request.bind RequestDict.operation).bind digest = some pp.digest

instance (digest : Op → Option Dig) (pp : PrePrepareMessage Op Dig) : Decidable (pp.Genuine digest) :=
  inferInstanceAs (Decidable (_ = _))

namespace System

/-- A step on which an honest node stores only a genuine PRE-PREPARE, with the request
that honest nodes already have for its key and digest. -/
def Vouched (cfg : Config) (digest : Op → Option Dig) (c : System Op Dig) (a : Action Op Dig) : Prop :=
  ∀ pp ∈ c.stores cfg digest a, pp.Genuine digest ∧ ∀ j ∈ Finset.range cfg.totalNodes, cfg.honest j →
    ∀ pp' ∈ (c.nodes j).accepted, pp'.key = pp.key → pp'.digest = pp.digest → pp'.request = pp.request

instance (cfg : Config) (digest : Op → Option Dig) (c : System Op Dig) (a : Action Op Dig) :
    Decidable (c.Vouched cfg digest a) := by
  unfold Vouched
  infer_instance

/-- Honest nodes that execute a key execute one request, whose operation has the digest
that the quorum committed. -/
def ExecutionAgreement (cfg : Config) (digest : Op → Option Dig) (c : System Op Dig) : Prop :=
  ∀ i j pp pp', cfg.honest i → cfg.honest j → pp ∈ (c.nodes i).executed → pp' ∈ (c.nodes j).executed →
    pp.key = pp'.key → pp.request = pp'.request ∧ pp.Genuine digest ∧
      2 * (c.nodes i).f + 1 ≤ (((c.nodes i).commits pp.key).filter (·.2 = pp.digest)).card

/-- The PRE-PREPAREs that honest nodes have accepted. -/
structure RequestsSound (cfg : Config) (digest : Op → Option Dig) (c : System Op Dig) : Prop where
  genuine : ∀ i, cfg.honest i → ∀ pp ∈ (c.nodes i).accepted, pp.Genuine digest
  same : ∀ i j, cfg.honest i → cfg.honest j → ∀ pp ∈ (c.nodes i).accepted, ∀ pp' ∈ (c.nodes j).accepted,
    pp.key = pp'.key → pp.digest = pp'.digest → pp.request = pp'.request

namespace RequestsSound
variable {cfg : Config} {digest : Op → Option Dig} {c : System Op Dig}

omit [DecidableEq Op] [DecidableEq Dig] in
theorem init (cfg : Config) (digest : Op → Option Dig) : RequestsSound cfg digest (System.init Op Dig cfg) :=
  ⟨fun _ _ _ h => absurd h List.not_mem_nil,fun _ _ _ _ _ h => absurd h List.not_mem_nil⟩

theorem step (h : RequestsSound cfg digest c) {a : Action Op Dig} (ha : c.Vouched cfg digest a) :
    RequestsSound cfg digest (c.step cfg digest a) := by
  refine step_keeps h (fun i out hi hh => ?_) fun envelope _ => ⟨h.genuine,h.same⟩
  have hs := hh.acceptStep hi
  constructor
  · intro j hj pp hpp
    rcases mem_accepted_update hs hpp with hpp | hpp
    · exact h.genuine j hj pp hpp
    · exact (ha pp hpp).1
  · intro j k hj hk pp hpp pp' hpp' hkey hd
    rcases mem_accepted_update hs hpp with hpp | hpp
    · rcases mem_accepted_update hs hpp' with hpp' | hpp'
      · exact h.same j k hj hk pp hpp pp' hpp' hkey hd
      · exact (ha pp' hpp').2 j (Finset.mem_range.mpr hj.1) hj pp hpp hkey hd
    · rcases mem_accepted_update hs hpp' with hpp' | hpp'
      · exact ((ha pp hpp).2 k (Finset.mem_range.mpr hk.1) hk pp' hpp' hkey.symm hd.symm).symm
      · rw [Option.some.inj (hpp.symm.trans hpp')]

end RequestsSound

/-- With `3f + 1` nodes the quorum fixes the digest, and the guard fixes the request. -/
theorem execution_agreement (cfg : Config) (hN : cfg.totalNodes % 3 = 1) (digest : Op → Option Dig)
    (schedule : List (Action Op Dig))
    (h : Runs.Along (System.step cfg digest) (Vouched cfg digest) (System.init Op Dig cfg) schedule) :
    (Runs.run (System.step cfg digest) (System.init Op Dig cfg) schedule).ExecutionAgreement cfg digest := by
  have hv := VotesSound.run cfg digest schedule
  have hr := Runs.run_invariant (I := RequestsSound cfg digest) (fun _ _ hI ha => hI.step ha) (.init cfg digest) h
  intro i j pp pp' hi hj hpp hpp' hkey
  obtain ⟨hacc,hquorum⟩ := (hv.node i).executed pp hpp
  obtain ⟨hacc',-⟩ := (hv.node j).executed pp' hpp'
  have hd : pp.digest = pp'.digest := hv.agreement hN i j pp.key pp.digest pp'.digest hi hj
    ⟨((hv.node i).committed pp.key).mpr ⟨pp,hpp,rfl⟩,pp,hpp,rfl,rfl⟩
    ⟨((hv.node j).committed pp.key).mpr ⟨pp',hpp',hkey.symm⟩,pp',hpp',hkey.symm,rfl⟩
  exact ⟨hr.same i j hi hj pp hacc pp' hacc' hkey hd,hr.genuine i hi pp hacc,hquorum⟩

/-- Four nodes, node 3 Byzantine. -/
def fourNodes : Config where
  totalNodes := 4
  byzantine := {3}
  members := by decide
  bound := by decide

/-- Nodes 0 and 1 execute a proposal of node 0, which node 3 supports. -/
theorem execution_agreement_one_request :
    ∃ schedule : List (Action ℕ ℕ),
      ((Runs.run (System.step fourNodes some) (System.init ℕ ℕ fourNodes) schedule).nodes 0).executed.length = 1 ∧
      ((Runs.run (System.step fourNodes some) (System.init ℕ ℕ fourNodes) schedule).nodes 1).executed.length = 1 ∧
      (Runs.run (System.step fourNodes some) (System.init ℕ ℕ fourNodes) schedule).ExecutionAgreement fourNodes some :=
  ⟨[.propose 0 7 1,.deliver 0 1,.inject ⟨3,none,.prepare ⟨3,0,1,7⟩⟩,.inject ⟨3,none,.commit ⟨3,0,1,7⟩⟩,
      .deliver 1 0,.deliver 2 0,.deliver 2 1,.deliver 3 0,.deliver 3 1,.deliver 5 0,.deliver 4 1],by decide,by decide,
    execution_agreement fourNodes rfl some _ (by decide)⟩

/-- Node 3 sends two PRE-PREPAREs of one digest, and nodes 0 and 2 store different ones. -/
theorem different_requests_executed :
    ¬ ∀ schedule : List (Action ℕ ℕ),
      (Runs.run (System.step fourNodes some) (System.init ℕ ℕ fourNodes) schedule).ExecutionAgreement fourNodes some := by
  intro h
  have hsame := h
    [.inject ⟨3,none,.prePrepare ⟨3,0,1,7,some ⟨some 3,some 0,some 3,some 7,some 1⟩⟩⟩,
      .inject ⟨3,none,.prePrepare ⟨3,0,1,7,some ⟨some 3,some 0,some 3,some 9,some 1⟩⟩⟩,
      .deliver 0 0,.deliver 0 1,.deliver 1 2,.deliver 3 0,.deliver 2 1,.deliver 2 2,
      .deliver 6 0,.deliver 7 0,.deliver 5 2,.deliver 6 2] 0 2
    ⟨3,0,1,7,some ⟨some 3,some 0,some 3,some 7,some 1⟩⟩ ⟨3,0,1,7,some ⟨some 3,some 0,some 3,some 9,some 1⟩⟩
    (by decide) (by decide) (by decide) (by decide) rfl
  exact absurd hsame.1 (by decide)

end System

end DistributedSystems.Pbft
