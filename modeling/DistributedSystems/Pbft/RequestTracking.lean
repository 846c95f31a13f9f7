import DistributedSystems.Pbft.Ordering

/-! # Client requests and their states

`propose` returns the `RequestState` that it puts into the client requests of the node,
and execution looks one up by the id of the executed request. Ids are clock readings, so
two calls can share one.
-/
namespace DistributedSystems.Pbft
variable {Op Dig : Type} [DecidableEq Op] [DecidableEq Dig]

namespace PBFTNode

theorem mem_checkPrepared {n : PBFTNode Op Dig} {key : Key} {d : Dig} {o : Outgoing Op Dig}
    (ho : o ∈ (n.checkPrepared key d).2) : o = .broadcast (.commit ⟨n.nodeId,n.view,key.2,d⟩) := by
  rcases n.checkPrepared_cases key d with ⟨-,h⟩ | ⟨-,-,h⟩
  · rw [h] at ho
    exact absurd ho List.not_mem_nil
  · rw [h] at ho
    exact List.mem_singleton.mp ho

/-- A request is handed on as it was received. -/
theorem receive_request (digest : Op → Option Dig) (n : PBFTNode Op Dig) {message : Message Op Dig}
    {o : Outgoing Op Dig} (ho : o ∈ (n.receive digest message).2) {msg : RequestMessage Op}
    (hmsg : o.message = .request msg) : message = .request msg := by
  cases message with
  | request m =>
    unfold receive handleRequest at ho
    dsimp only at ho
    split at ho
    · rw [List.mem_singleton.mp ho] at hmsg
      exact hmsg
    · cases hd : digest m.operation with
      | none =>
        rw [hd] at ho
        exact absurd ho List.not_mem_nil
      | some d =>
        rw [hd] at ho
        rw [List.mem_singleton.mp ho] at hmsg
        cases hmsg
  | prePrepare m =>
    rw [receive] at ho
    rcases n.handlePrePrepare_cases m with ⟨-,h⟩ | ⟨-,-,h⟩
    · rw [h] at ho
      exact absurd ho List.not_mem_nil
    rw [h] at ho
    rcases List.mem_cons.mp ho with rfl | ho
    · cases hmsg
    · rw [mem_checkPrepared ho] at hmsg
      cases hmsg
  | prepare m =>
    rw [receive] at ho
    rcases n.handlePrepare_cases m with ⟨-,h⟩ | ⟨-,-,h⟩ | ⟨-,pp,-,-,h⟩
    · rw [h] at ho
      exact absurd ho List.not_mem_nil
    · rw [h] at ho
      exact absurd ho List.not_mem_nil
    · rw [h] at ho
      rw [mem_checkPrepared ho] at hmsg
      cases hmsg
  | commit m => exact absurd ho List.not_mem_nil
  | viewChange m =>
    unfold receive handleViewChange at ho
    dsimp only at ho
    split at ho
    · exact absurd ho List.not_mem_nil
    split at ho
    · rw [List.mem_singleton.mp ho] at hmsg
      cases hmsg
    · exact absurd ho List.not_mem_nil
  | newView m => exact absurd ho List.not_mem_nil

theorem propose_request (digest : Op → Option Dig) (n : PBFTNode Op Dig) {operation : Op} {reqId : ℤ}
    {o : Outgoing Op Dig} (ho : o ∈ (n.propose digest operation reqId).2) {msg : RequestMessage Op}
    (hmsg : o.message = .request msg) : msg = n.clientRequest operation reqId := by
  unfold propose at ho
  dsimp only at ho
  split at ho
  · have h : Message.request (n.clientRequest operation reqId) = Message.request msg := receive_request digest
      { n with clientRequests := Function.update n.clientRequests reqId (some ⟨false,none⟩) } ho hmsg
    exact (Message.request.inj h).symm
  · rw [List.mem_singleton.mp ho] at hmsg
    exact (Message.request.inj hmsg).symm

end PBFTNode

namespace System
variable {cfg : Config} {digest : Op → Option Dig} {c : System Op Dig}

/-- A request that a step can start from. -/
def Requested (c : System Op Dig) (a : Action Op Dig) (msg : RequestMessage Op) : Prop :=
  (∃ e ∈ c.network, e.message = .request msg) ∨
    ∃ i operation reqId, a = .propose i operation reqId ∧ msg = (c.nodes i).clientRequest operation reqId

/-- The PRE-PREPARE whose request a delivery makes a node execute. -/
def executes (cfg : Config) (c : System Op Dig) (k i : ℕ) : Option (PrePrepareMessage Op Dig) :=
  c.network[k]?.bind fun envelope =>
    if cfg.honest i ∧ envelope.reaches i then (c.nodes i).executes envelope.message else none

theorem deliver_marks (cfg : Config) (digest : Op → Option Dig) (c : System Op Dig) (k i : ℕ) :
    MarkStep (c.nodes i) (c.executes cfg k i) ((c.step cfg digest (.deliver k i)).nodes i) := by
  unfold executes
  cases hk : c.network[k]? with
  | none =>
    unfold step
    dsimp only
    rw [hk]
    exact .quiet rfl rfl
  | some envelope =>
    rw [Option.bind_some]
    by_cases hr : cfg.honest i ∧ envelope.reaches i
    · rw [if_pos hr,step_deliver hk hr.1 hr.2,update_self]
      exact .receive digest _ envelope.message
    · unfold step
      dsimp only
      rw [hk]
      dsimp only
      rw [if_neg hr,if_neg hr]
      exact .quiet rfl rfl

theorem deliver_other (cfg : Config) (digest : Op → Option Dig) (c : System Op Dig) (k : ℕ) {i j : ℕ} (h : j ≠ i) :
    (c.step cfg digest (.deliver k i)).nodes j = c.nodes j := by
  unfold step
  dsimp only
  cases c.network[k]? with
  | none => rfl
  | some envelope =>
    dsimp only
    split
    · exact update_ne c _ h
    · rfl

theorem mem_executed_deliver (cfg : Config) (digest : Op → Option Dig) (c : System Op Dig) (k i j : ℕ)
    (pp : PrePrepareMessage Op Dig) : pp ∈ ((c.step cfg digest (.deliver k i)).nodes j).executed ↔
      pp ∈ (c.nodes j).executed ∨ j = i ∧ pp ∈ c.executes cfg k i := by
  by_cases hj : j = i
  · subst j
    rw [(deliver_marks cfg digest c k i).executed,List.mem_append,Option.mem_toList]
    exact or_congr_right (and_iff_right rfl).symm
  · rw [deliver_other cfg digest c k hj]
    exact (or_iff_left (fun h => hj h.1)).symm

/-- A tracked request stays tracked, and is marked when a request of its id is executed. -/
theorem deliver_clientRequests (cfg : Config) (digest : Op → Option Dig) (k i : ℕ) {j : ℕ} {reqId : ℤ} {state : RequestState}
    (h : (c.nodes j).clientRequests reqId = some state) :
    ∃ state', ((c.step cfg digest (.deliver k i)).nodes j).clientRequests reqId = some state' ∧
      (state'.committed ↔ state.committed ∨
        j = i ∧ ∃ pp ∈ c.executes cfg k i, PBFTNode.requestIdOf pp.request = some reqId) := by
  by_cases hj : j = i
  · subst j
    rw [(deliver_marks cfg digest c k i).clientRequests]
    cases c.executes cfg k i with
    | none => exact ⟨state,h,by simp⟩
    | some pp =>
      unfold PBFTNode.marked
      dsimp only
      by_cases hid : PBFTNode.requestIdOf pp.request = some reqId
      · rw [if_pos hid,h]
        exact ⟨_,rfl,by simp [hid]⟩
      · rw [if_neg hid]
        exact ⟨state,h,by simp [hid]⟩
  · rw [deliver_other cfg digest c k hj]
    exact ⟨state,h,by simp [hj]⟩

theorem propose_clientRequests (digest : Op → Option Dig) {i : ℕ} (hi : cfg.honest i) (operation : Op) (reqId : ℤ)
    (j : ℕ) (reqId' : ℤ) : ((c.step cfg digest (.propose i operation reqId)).nodes j).clientRequests reqId' =
      if j = i ∧ reqId' = reqId then some ⟨false,none⟩ else (c.nodes j).clientRequests reqId' := by
  unfold step
  dsimp only
  rw [if_pos hi]
  by_cases hj : j = i
  · subst j
    rw [update_self,(MarkStep.propose _ _ _ _).2,Function.update_apply]
    simp
  · rw [update_ne _ _ hj,if_neg (fun h => hj h.1)]

theorem propose_executed (cfg : Config) (digest : Op → Option Dig) (c : System Op Dig) (i : ℕ) (operation : Op)
    (reqId : ℤ) (j : ℕ) : ((c.step cfg digest (.propose i operation reqId)).nodes j).executed = (c.nodes j).executed := by
  unfold step
  dsimp only
  split
  · exact forall_nodes_update (P := fun j n => n.executed = (c.nodes j).executed) (MarkStep.propose _ _ _ _).1
      (fun _ => rfl) j
  · rfl

/-- A view change announcement leaves requests alone. -/
theorem triggerViewChange_tracks (cfg : Config) (digest : Op → Option Dig) (c : System Op Dig) (i j : ℕ) :
    ((c.step cfg digest (.triggerViewChange i)).nodes j).clientRequests = (c.nodes j).clientRequests ∧
    ((c.step cfg digest (.triggerViewChange i)).nodes j).executed = (c.nodes j).executed := by
  unfold step
  dsimp only
  split
  · exact forall_nodes_update
      (P := fun j n => n.clientRequests = (c.nodes j).clientRequests ∧ n.executed = (c.nodes j).executed)
      ⟨rfl,rfl⟩ (fun _ => ⟨rfl,rfl⟩) j
  · exact ⟨rfl,rfl⟩

/-- Without Byzantine nodes every request in the network was made by some `propose`. -/
theorem request_step (hb : cfg.byzantine = ∅) {a : Action Op Dig} {e : Envelope Op Dig}
    (he : e ∈ (c.step cfg digest a).network) {msg : RequestMessage Op} (hmsg : e.message = .request msg) :
    c.Requested a msg := by
  rcases step_cases cfg digest c a with hc | ⟨i,out,hi,hh,hc⟩ | ⟨e',he',hc⟩
  · rw [hc] at he
    exact Or.inl ⟨e,he,hmsg⟩
  · rw [hc] at he
    rcases mem_update_network he with he | ⟨o,ho,rfl⟩
    · exact Or.inl ⟨e,he,hmsg⟩
    rw [Outgoing.envelope_message] at hmsg
    cases hh with
    | propose i operation reqId => exact Or.inr ⟨i,operation,reqId,rfl,PBFTNode.propose_request digest _ ho hmsg⟩
    | triggerViewChange i =>
      rw [List.mem_singleton.mp ho] at hmsg
      cases hmsg
    | deliver k i envelope hk _ =>
      exact Or.inl ⟨envelope,List.mem_of_getElem? hk,PBFTNode.receive_request digest _ ho hmsg⟩
  · rw [hb] at he'
    exact absurd he'.1 (Finset.notMem_empty _)

omit [DecidableEq Op] [DecidableEq Dig] in
/-- A PRE-PREPARE that a step stores was known, or embeds a request. -/
theorem stores_request {a : Action Op Dig} {pp : PrePrepareMessage Op Dig} (h : c.stores cfg digest a = some pp) :
    c.Known pp ∨ ∃ msg, c.Requested a msg ∧ pp.request = some msg.asdict := by
  have hmade : ∀ {n : PBFTNode Op Dig} {msg : RequestMessage Op}, n.stores digest (.request msg) = some pp →
      pp.request = some msg.asdict := by
    intro n msg hs
    rw [PBFTNode.stores_request] at hs
    split at hs
    · obtain ⟨d,-,rfl⟩ := Option.map_eq_some_iff.mp hs
      rfl
    · cases hs
  cases a with
  | propose i operation reqId =>
    unfold stores at h
    dsimp only at h
    split at h
    · exact Or.inr ⟨_,Or.inr ⟨i,operation,reqId,rfl,rfl⟩,hmade h⟩
    · cases h
  | triggerViewChange i => cases h
  | deliver k i =>
    unfold stores at h
    obtain ⟨envelope,hk,h⟩ := Option.bind_eq_some_iff.mp h
    split at h
    · have hmem := List.mem_of_getElem? hk
      cases hm : envelope.message with
      | request msg =>
        rw [hm] at h
        exact Or.inr ⟨msg,Or.inl ⟨envelope,hmem,hm⟩,hmade h⟩
      | prePrepare msg =>
        rw [hm,PBFTNode.stores_prePrepare] at h
        split at h
        · exact Or.inl ⟨envelope,hmem,by rw [hm,Option.some.inj h]⟩
        · cases h
      | _ =>
        rw [hm] at h
        cases h
    · cases h
  | inject envelope => cases h

theorem known_step (hb : cfg.byzantine = ∅) {a : Action Op Dig} {pp : PrePrepareMessage Op Dig}
    (hpp : (c.step cfg digest a).Known pp) :
    c.Known pp ∨ ∃ msg, c.Requested a msg ∧ pp.request = some msg.asdict := by
  rcases step_cases cfg digest c a with hc | ⟨i,out,hi,hh,hc⟩ | ⟨e,he,hc⟩
  · rw [hc] at hpp
    exact Or.inl hpp
  · rw [hc] at hpp
    rcases known_update (hh.acceptStep hi) hpp with hk | ⟨-,-,hs,-⟩
    · exact Or.inl hk
    · exact stores_request hs
  · rw [hb] at he
    exact absurd he.1 (Finset.notMem_empty _)

end System

end DistributedSystems.Pbft
