import DistributedSystems.Pbft.Agreement
import DistributedSystems.Pbft.Marking

/-! # The order of execution

A node executes a key as soon as the votes for it are complete, whatever its number,
and a new primary counts from its own last number. When every completed key is the next
one and no number is used for two requests, all nodes execute one sequence.
-/
namespace DistributedSystems.Pbft
variable {Op Dig : Type} [DecidableEq Op] [DecidableEq Dig]

namespace System

/-- The key whose votes a step completes at an honest node. -/
def completes (cfg : Config) (c : System Op Dig) : Action Op Dig → Option (ℕ × Key)
  | .deliver k i => c.network[k]?.bind fun envelope =>
    if cfg.honest i ∧ envelope.reaches i then ((c.nodes i).completes envelope.message).map (i,·) else none
  | _ => none

def proposals (c : System Op Dig) : List (PrePrepareMessage Op Dig) :=
  c.network.filterMap fun envelope => envelope.message.prePrepare?

omit [DecidableEq Op] [DecidableEq Dig] in
theorem mem_proposals {c : System Op Dig} {pp : PrePrepareMessage Op Dig} : pp ∈ c.proposals ↔ c.Known pp := by
  unfold proposals Known
  rw [List.mem_filterMap]
  refine exists_congr fun e => and_congr_right fun _ => ?_
  cases e.message <;> simp [Message.prePrepare?]

/-- A step that completes only the next key of the node, and stores a PRE-PREPARE only
if all of its number that are in the network carry its request. -/
def InOrder (cfg : Config) (digest : Op → Option Dig) (c : System Op Dig) (a : Action Op Dig) : Prop :=
  (∀ p ∈ c.completes cfg a, p.2.2 = (c.nodes p.1).executed.length + 1) ∧
  (∀ pp ∈ c.stores cfg digest a, ∀ pp' ∈ c.proposals, pp'.sequenceNumber = pp.sequenceNumber → pp'.request = pp.request)

instance (cfg : Config) (digest : Op → Option Dig) (c : System Op Dig) (a : Action Op Dig) :
    Decidable (c.InOrder cfg digest a) := by
  unfold InOrder
  infer_instance

/-- Of the requests that two nodes have executed, one sequence begins with the other. -/
def OrderAgreement (c : System Op Dig) : Prop :=
  ∀ i j, (c.nodes i).executed.map PrePrepareMessage.request <+: (c.nodes j).executed.map PrePrepareMessage.request ∨
    (c.nodes j).executed.map PrePrepareMessage.request <+: (c.nodes i).executed.map PrePrepareMessage.request

/-- Execution follows the numbers without gaps, and a number stands for one request. -/
structure Ordered (c : System Op Dig) : Prop where
  number : ∀ i (k : ℕ) pp, (c.nodes i).executed[k]? = some pp → pp.sequenceNumber = (k : ℤ) + 1
  request : ∀ pp pp', c.Known pp → c.Known pp' → pp.sequenceNumber = pp'.sequenceNumber → pp.request = pp'.request

theorem Handler.executeStep {cfg : Config} {digest : Op → Option Dig} {c : System Op Dig} {a : Action Op Dig} {i : ℕ}
    {out : PBFTNode Op Dig × List (Outgoing Op Dig)} (h : c.Handler digest a i out) (hi : cfg.honest i) :
    out.1.executed = (c.nodes i).executed ∨ ∃ key pp, c.completes cfg a = some (i,key) ∧
      out.1.prePrepares key = some pp ∧ out.1.executed = (c.nodes i).executed ++ [pp] := by
  cases h with
  | propose i operation reqId => exact Or.inl (MarkStep.propose digest _ operation reqId).1
  | triggerViewChange i => exact Or.inl rfl
  | deliver k i envelope hk hr =>
    rcases ExecuteStep.receive digest (c.nodes i) envelope.message with he | ⟨key,pp,hkey,hpp,he⟩
    · exact Or.inl he
    · refine Or.inr ⟨key,pp,?_,hpp,he⟩
      rw [completes,hk,Option.bind_some,if_pos ⟨hi,hr⟩,hkey]
      rfl

namespace Ordered
variable {cfg : Config} {digest : Op → Option Dig} {c : System Op Dig}

omit [DecidableEq Op] [DecidableEq Dig] in
theorem init (cfg : Config) : Ordered (System.init Op Dig cfg) :=
  ⟨fun _ _ _ h => absurd (List.mem_of_getElem? h) List.not_mem_nil,
    fun _ _ h => absurd h.choose_spec.1 List.not_mem_nil⟩

theorem update (h : Ordered c) {a : Action Op Dig} {i : ℕ} {out : PBFTNode Op Dig × List (Outgoing Op Dig)}
    (hi : cfg.honest i) (hh : c.Handler digest a i out) (ha : c.InOrder cfg digest a)
    (hv : VotesSound cfg (c.update i out)) : Ordered (c.update i out) := by
  constructor
  · intro j k pp hk
    by_cases hj : j = i
    · subst j
      rw [update_self] at hk
      rcases hh.executeStep hi with he | ⟨key,new,hkey,hnew,he⟩
      · rw [he] at hk
        exact h.number i k pp hk
      · rw [he,List.getElem?_append] at hk
        split at hk
        · exact h.number i k pp hk
        · -- the PRE-PREPARE just executed has the number after the last one
          rename_i hlt
          obtain ⟨hzero,rfl⟩ := List.getElem?_eq_some_iff.mp hk
          have hlen : k = (c.nodes i).executed.length := by
            rw [List.length_singleton] at hzero
            omega
          have hstored := ((hv.node i).stored key new (by rw [update_self]; exact hnew)).1
          have hnum : key.2 = (c.nodes i).executed.length + 1 := ha.1 (i,key) hkey
          rw [← hstored] at hnum
          rw [List.getElem_singleton,hlen]
          exact hnum
    · rw [update_ne c out hj] at hk
      exact h.number j k pp hk
  · intro pp pp' hpp hpp' hnum
    rcases known_update (hh.acceptStep hi) hpp with hk | ⟨-,-,hst,-⟩
    · rcases known_update (hh.acceptStep hi) hpp' with hk' | ⟨-,-,hst',-⟩
      · exact h.request pp pp' hk hk' hnum
      · exact ha.2 pp' hst' pp (mem_proposals.mpr hk) hnum
    · rcases known_update (hh.acceptStep hi) hpp' with hk' | ⟨-,-,hst',-⟩
      · exact (ha.2 pp hst pp' (mem_proposals.mpr hk') hnum.symm).symm
      · rw [Option.some.inj (hst.symm.trans hst')]

theorem step (h : Ordered c) (hv : VotesSound cfg c) (hb : cfg.byzantine = ∅) {a : Action Op Dig}
    (ha : c.InOrder cfg digest a) : Ordered (c.step cfg digest a) := by
  refine step_keeps h (fun i out hi hh => h.update hi hh ha (hv.update hi (hv.commitStep hh))) fun envelope he => ?_
  rw [hb] at he
  exact absurd he (Finset.notMem_empty _)

omit [DecidableEq Op] in
/-- The shorter of two sequences is the beginning of the longer one. -/
theorem executed_isPrefix (h : Ordered c) (ho : Originals cfg c) (hv : VotesSound cfg c) {i j : ℕ}
    (hle : (c.nodes i).executed.length ≤ (c.nodes j).executed.length) :
    (c.nodes i).executed.map PrePrepareMessage.request <+: (c.nodes j).executed.map PrePrepareMessage.request := by
  have hknown : ∀ x k pp, (c.nodes x).executed[k]? = some pp → c.Known pp := fun x k pp hk =>
    ho.accepted x pp ((hv.node x).executed pp (List.mem_of_getElem? hk)).1
  rw [List.prefix_iff_getElem?]
  intro k hk
  rw [List.length_map] at hk
  obtain ⟨pp,hpp⟩ : ∃ pp, (c.nodes i).executed[k]? = some pp := ⟨_,List.getElem?_eq_getElem hk⟩
  obtain ⟨pp',hpp'⟩ : ∃ pp', (c.nodes j).executed[k]? = some pp' := ⟨_,List.getElem?_eq_getElem (hk.trans_le hle)⟩
  have hnum : pp.sequenceNumber = pp'.sequenceNumber := (h.number i k pp hpp).trans (h.number j k pp' hpp').symm
  have hreq := h.request pp pp' (hknown i k pp hpp) (hknown j k pp' hpp') hnum
  obtain ⟨_,hget⟩ := List.getElem?_eq_some_iff.mp hpp
  rw [List.getElem?_map,hpp',List.getElem_map,hget,hreq]
  rfl

end Ordered

/-- Nodes that execute in order execute comparable sequences of requests. -/
theorem order_agreement (cfg : Config) (hb : cfg.byzantine = ∅) (digest : Op → Option Dig)
    (schedule : List (Action Op Dig))
    (h : Runs.Along (System.step cfg digest) (InOrder cfg digest) (System.init Op Dig cfg) schedule) :
    (Runs.run (System.step cfg digest) (System.init Op Dig cfg) schedule).OrderAgreement := by
  have hinv := Runs.run_invariant (I := fun c => VotesSound cfg c ∧ Ordered c)
    (fun c a hI ha => ⟨hI.1.step digest a,hI.2.step hI.1 hb ha⟩) ⟨.init cfg,.init cfg⟩ h
  have ho := Originals.run hb digest schedule
  intro i j
  rcases le_total ((Runs.run (System.step cfg digest) (System.init Op Dig cfg) schedule).nodes i).executed.length
    ((Runs.run (System.step cfg digest) (System.init Op Dig cfg) schedule).nodes j).executed.length with hle | hle
  · exact Or.inl (hinv.2.executed_isPrefix ho hinv.1 hle)
  · exact Or.inr (hinv.2.executed_isPrefix ho hinv.1 hle)

/-- Four honest nodes. -/
def allHonest : Config where
  totalNodes := 4
  byzantine := ∅
  members := by decide
  bound := by decide

/-- Node 0 proposes two requests; nodes 1 and 2 send PREPAREs for both, and the
votes of nodes 0, 1 and 2 for the first request are in at node 0. -/
def twoProposals : List (Action ℕ ℕ) :=
  [.propose 0 7 1,.propose 0 8 2,.deliver 0 1,.deliver 0 2,.deliver 1 1,.deliver 1 2,
    .deliver 2 0,.deliver 3 0,.deliver 4 0,.deliver 5 0,.deliver 3 1,.deliver 5 1,.deliver 2 2,.deliver 4 2,
    .deliver 8 0,.deliver 10 0]

/-- Node 1 completes both keys in the order of their numbers. -/
theorem order_agreement_two_requests :
    (Runs.run (System.step allHonest some) (System.init ℕ ℕ allHonest)
      (twoProposals ++ [.deliver 6 1,.deliver 10 1,.deliver 7 1,.deliver 11 1])).OrderAgreement :=
  order_agreement allHonest rfl some _ (by decide +kernel)

/-- Node 1 completes the second key first. -/
theorem executed_out_of_order :
    ¬ ∀ schedule : List (Action ℕ ℕ),
      (Runs.run (System.step allHonest some) (System.init ℕ ℕ allHonest) schedule).OrderAgreement := by
  intro h
  exact absurd (h (twoProposals ++ [.deliver 7 1,.deliver 11 1]) 0 1) (by decide +kernel)

end System

end DistributedSystems.Pbft
