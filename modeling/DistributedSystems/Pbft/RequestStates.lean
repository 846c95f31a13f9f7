import DistributedSystems.Pbft.Relabelling
import DistributedSystems.Pbft.RequestTracking

/-! # What the callers of `propose` see

The states returned by `propose` over whole runs of honest nodes. An operation carries
the number of the call that brought it in, which no handler reads: without the numbers
these are the runs of the cluster.
-/
namespace DistributedSystems.Pbft
variable {Op Dig : Type} [DecidableEq Op] [DecidableEq Dig]

/-- A call of `propose`: its node, the id of its request, whether it came back with the
state it made, and that state. -/
structure Call where
  node : ℕ
  requestId : ℤ
  returned : Bool
  state : RequestState
  deriving DecidableEq

/-- A cluster of honest nodes. `table` names the call whose state a node keeps under an
id in `client_requests`. -/
structure Tracked (Op Dig : Type) where
  system : System (ℕ × Op) Dig
  calls : List Call
  table : ℕ → ℤ → Option ℕ

inductive HonestAction (Op : Type)
  | propose (i : ℕ) (operation : Op) (clock : ℤ)
  | triggerViewChange (i : ℕ)
  | deliver (k i : ℕ)

/-- Nodes `0, …, totalNodes - 1`, all honest. -/
def Config.faultless (totalNodes : ℕ) : Config where
  totalNodes := totalNodes
  byzantine := ∅
  members _ h := absurd h (Finset.notMem_empty _)
  bound := Nat.zero_le _

theorem Config.faultless_honest {totalNodes i : ℕ} : (Config.faultless totalNodes).honest i ↔ i < totalNodes :=
  and_iff_left (Finset.notMem_empty i)

/-- The call that created the request of a PRE-PREPARE. -/
def PrePrepareMessage.CreatedBy (pp : PrePrepareMessage (ℕ × Op) Dig) (p : ℕ) : Prop :=
  (pp.request.bind RequestDict.operation).map Prod.fst = some p

instance (pp : PrePrepareMessage (ℕ × Op) Dig) (p : ℕ) : Decidable (pp.CreatedBy p) :=
  inferInstanceAs (Decidable (_ = _))

namespace Tracked

def init (Op Dig : Type) (totalNodes : ℕ) : Tracked Op Dig where
  system := System.init (ℕ × Op) Dig (.faultless totalNodes)
  calls := []
  table _ _ := none

/-- The state in `client_requests` and the one the caller holds are one object. -/
def share (system : System (ℕ × Op) Dig) (table : ℕ → ℤ → Option ℕ) (p : ℕ) (call : Call) : Call :=
  if table call.node call.requestId = some p then
    { call with state := ((system.nodes call.node).clientRequests call.requestId).getD call.state }
  else call

/-- `clock` is the reading `int(time.time() * 1000000)`. A primary that cannot serialise
the operation raises, and its caller gets no state. -/
def step (totalNodes : ℕ) (digest : Op → Option Dig) (t : Tracked Op Dig) : HonestAction Op → Tracked Op Dig
  | .propose i operation clock =>
    if i < totalNodes then
      let reqId := clock + i
      { system := t.system.step (.faultless totalNodes) (digest ∘ Prod.snd) (.propose i (t.calls.length,operation) reqId)
        calls := t.calls ++ [{
          node := i
          requestId := reqId
          returned := ¬((t.system.nodes i).isPrimary ∧ digest operation = none)
          state := ⟨false,none⟩ }]
        table := Function.update t.table i (Function.update (t.table i) reqId (some t.calls.length)) }
    else t
  | .triggerViewChange i =>
    { t with system := t.system.step (.faultless totalNodes) (digest ∘ Prod.snd) (.triggerViewChange i) }
  | .deliver k i =>
    let system := t.system.step (.faultless totalNodes) (digest ∘ Prod.snd) (.deliver k i)
    { t with system := system, calls := t.calls.mapIdx (share system t.table) }

/-- What an action does to the cluster. -/
def untag : HonestAction Op → Action Op Dig
  | .propose i operation clock => .propose i operation (clock + i)
  | .triggerViewChange i => .triggerViewChange i
  | .deliver k i => .deliver k i

theorem untag_step (totalNodes : ℕ) (digest : Op → Option Dig) (t : Tracked Op Dig) (a : HonestAction Op) :
    (t.step totalNodes digest a).system.map Prod.snd =
      (t.system.map Prod.snd).step (.faultless totalNodes) digest (untag a) := by
  cases a with
  | propose i operation clock =>
    unfold step
    dsimp only
    by_cases hi : i < totalNodes
    · rw [if_pos hi]
      exact (System.step_map Prod.snd _ digest t.system (.propose i (t.calls.length,operation) (clock + i))).symm
    · rw [if_neg hi]
      exact (if_neg fun hh => hi (Config.faultless_honest.mp hh)).symm
  | triggerViewChange i => exact (System.step_map Prod.snd _ digest t.system (.triggerViewChange i)).symm
  | deliver k i => exact (System.step_map Prod.snd _ digest t.system (.deliver k i)).symm

/-- Without the numbers of the calls the cluster runs as it does in the source. -/
theorem untag_run (totalNodes : ℕ) (digest : Op → Option Dig) (schedule : List (HonestAction Op)) :
    (Runs.run (step totalNodes digest) (init Op Dig totalNodes) schedule).system.map Prod.snd =
      Runs.run (System.step (.faultless totalNodes) digest) (System.init Op Dig (.faultless totalNodes))
        (schedule.map untag) :=
  Runs.run_map (fun t : Tracked Op Dig => t.system.map Prod.snd) untag (untag_step totalNodes digest) _ schedule

/-- A returned state is marked committed exactly when its node has executed a request
that the call created. -/
def Faithful (t : Tracked Op Dig) : Prop :=
  ∀ p call, t.calls[p]? = some call → call.returned →
    (call.state.committed ↔ ∃ pp ∈ (t.system.nodes call.node).executed, pp.CreatedBy p)

/-- Nothing remains to be told to the caller. -/
def Settled (t : Tracked Op Dig) (p : ℕ) : Prop :=
  ∀ call ∈ t.calls[p]?, call.returned → call.state.committed

instance (t : Tracked Op Dig) (p : ℕ) : Decidable (t.Settled p) := by
  unfold Settled
  infer_instance

/-- A node that executes the request of a call finds that call under its id, unless
neither the call it finds nor the one that made the request waits for a mark there. -/
def Undisputed (totalNodes : ℕ) (t : Tracked Op Dig) : HonestAction Op → Prop
  | .deliver k i => ∀ pp ∈ t.system.executes (.faultless totalNodes) k i, ∀ q, pp.CreatedBy q →
    ∀ call ∈ t.calls[q]?, ∀ p ∈ t.table i call.requestId, p = q ∨ t.Settled p ∧ (call.node = i → t.Settled q)
  | _ => True

/-- The request carries the number and the id of a call. -/
def OfCall (t : Tracked Op Dig) (msg : RequestMessage (ℕ × Op)) : Prop :=
  ∃ call, t.calls[msg.operation.1]? = some call ∧ call.requestId = msg.requestId

/-- What ties the calls to the messages of the cluster and to the tables of its nodes. -/
structure Sound (totalNodes : ℕ) (t : Tracked Op Dig) : Prop where
  votes : System.VotesSound (.faultless totalNodes) t.system
  originals : System.Originals (.faultless totalNodes) t.system
  request : ∀ e ∈ t.system.network, ∀ msg, e.message = .request msg → t.OfCall msg
  prePrepare : ∀ pp, t.system.Known pp → ∃ msg, pp.request = some msg.asdict ∧ t.OfCall msg
  entry : ∀ i reqId p, t.table i reqId = some p → ∃ call, t.calls[p]? = some call ∧ call.node = i ∧
    call.requestId = reqId ∧ (t.system.nodes i).clientRequests reqId = some call.state
  listed : ∀ (p : ℕ) (call : Call), t.calls[p]? = some call → ∃ q, t.table call.node call.requestId = some q

omit [DecidableEq Op] [DecidableEq Dig] in
theorem createdBy_iff {pp : PrePrepareMessage (ℕ × Op) Dig} {msg : RequestMessage (ℕ × Op)}
    (h : pp.request = some msg.asdict) (p : ℕ) : pp.CreatedBy p ↔ msg.operation.1 = p := by
  unfold PrePrepareMessage.CreatedBy
  rw [h]
  exact Option.some_inj

theorem requestIdOf_asdict (msg : RequestMessage (ℕ × Op)) :
    PBFTNode.requestIdOf (some msg.asdict) = some msg.requestId := rfl

omit [DecidableEq Op] [DecidableEq Dig] in
theorem OfCall.mono {t t' : Tracked Op Dig} {msg : RequestMessage (ℕ × Op)} (h : t.OfCall msg)
    (hcalls : ∀ (p : ℕ) (call : Call), t.calls[p]? = some call →
      ∃ state, t'.calls[p]? = some { call with state := state }) : t'.OfCall msg := by
  obtain ⟨call,hcall,hid⟩ := h
  obtain ⟨state,hcall'⟩ := hcalls _ call hcall
  exact ⟨_,hcall',hid⟩

theorem getElem?_concat_cases {calls : List Call} {new call : Call} {p : ℕ} (h : (calls ++ [new])[p]? = some call) :
    calls[p]? = some call ∨ p = calls.length ∧ call = new := by
  rw [List.getElem?_append] at h
  split at h
  · exact Or.inl h
  · obtain ⟨hp,rfl⟩ := List.getElem?_eq_some_iff.mp h
    rw [List.length_singleton] at hp
    exact Or.inr ⟨by omega,List.getElem_singleton _⟩

theorem enter_apply (table : ℕ → ℤ → Option ℕ) (i : ℕ) (reqId : ℤ) (p j : ℕ) (reqId' : ℤ) :
    Function.update table i (Function.update (table i) reqId (some p)) j reqId' =
      if j = i ∧ reqId' = reqId then some p else table j reqId' := by
  by_cases hj : j = i
  · subst j
    rw [Function.update_self,Function.update_apply]
    simp
  · rw [Function.update_of_ne hj,if_neg (fun h => hj h.1)]

omit [DecidableEq Op] [DecidableEq Dig] in
theorem share_eq (system : System (ℕ × Op) Dig) (table : ℕ → ℤ → Option ℕ) (p : ℕ) (call : Call) :
    ∃ state, share system table p call = { call with state := state } := by
  unfold share
  split
  · exact ⟨_,rfl⟩
  · exact ⟨call.state,rfl⟩

namespace Sound
variable {totalNodes : ℕ} {t : Tracked Op Dig}

omit [DecidableEq Op] in
theorem init (totalNodes : ℕ) : Sound totalNodes (Tracked.init Op Dig totalNodes) where
  votes := .init _
  originals := .init _
  request _ he := absurd he List.not_mem_nil
  prePrepare _ h := absurd h.choose_spec.1 List.not_mem_nil
  entry _ _ _ h := by cases h
  listed _ _ h := by cases h

omit [DecidableEq Op] in
/-- Every executed PRE-PREPARE embeds the request of a call. -/
theorem executed (h : Sound totalNodes t) {i : ℕ} {pp : PrePrepareMessage (ℕ × Op) Dig}
    (hpp : pp ∈ (t.system.nodes i).executed) : ∃ msg, pp.request = some msg.asdict ∧ t.OfCall msg :=
  h.prePrepare pp (h.originals.accepted i pp ((h.votes.node i).executed pp hpp).1)

/-- What a delivery does to the state of a call. -/
theorem deliver_call (h : Sound totalNodes t) (digest : Op → Option Dig) (k i : ℕ) {p : ℕ} {call : Call}
    (hp : t.calls[p]? = some call) :
    ∃ state, (t.step totalNodes digest (.deliver k i)).calls[p]? = some { call with state := state } ∧
      (state.committed ↔ call.state.committed ∨ call.node = i ∧ t.table i call.requestId = some p ∧
        ∃ pp ∈ t.system.executes (.faultless totalNodes) k i,
          PBFTNode.requestIdOf pp.request = some call.requestId) ∧
      (t.table call.node call.requestId = some p →
        ((t.step totalNodes digest (.deliver k i)).system.nodes call.node).clientRequests call.requestId = some state) := by
  unfold step
  dsimp only
  rw [List.getElem?_mapIdx,hp,Option.map_some]
  by_cases hlive : t.table call.node call.requestId = some p
  · obtain ⟨call',hp',-,-,hstate⟩ := h.entry _ _ _ hlive
    obtain rfl := Option.some.inj (hp.symm.trans hp')
    obtain ⟨state,hs,hcommitted⟩ := System.deliver_clientRequests (.faultless totalNodes) (digest ∘ Prod.snd) k i
      hstate
    refine ⟨state,?_,?_,fun _ => hs⟩
    · unfold share
      rw [if_pos hlive,hs]
      rfl
    · rw [hcommitted]
      refine or_congr_right (and_congr_right fun hnode => ?_)
      rw [← hnode]
      exact (and_iff_right hlive).symm
  · refine ⟨call.state,?_,?_,fun hl => absurd hl hlive⟩
    · unfold share
      rw [if_neg hlive]
    · refine ⟨Or.inl,?_⟩
      rintro (hc | ⟨rfl,hl,-⟩)
      · exact hc
      · exact absurd hl hlive

/-- The messages of the next state still come from calls. -/
theorem advance (h : Sound totalNodes t) (digest : Op → Option Dig) (a : Action (ℕ × Op) Dig) {t' : Tracked Op Dig}
    (hsystem : t'.system = t.system.step (.faultless totalNodes) (digest ∘ Prod.snd) a)
    (hcalls : ∀ (p : ℕ) (call : Call), t.calls[p]? = some call →
      ∃ state, t'.calls[p]? = some { call with state := state })
    (hmade : ∀ i operation reqId, a = .propose i operation reqId →
      t'.OfCall ((t.system.nodes i).clientRequest operation reqId))
    (hentry : ∀ i reqId p, t'.table i reqId = some p → ∃ call, t'.calls[p]? = some call ∧ call.node = i ∧
      call.requestId = reqId ∧ (t'.system.nodes i).clientRequests reqId = some call.state)
    (hlisted : ∀ (p : ℕ) (call : Call), t'.calls[p]? = some call → ∃ q, t'.table call.node call.requestId = some q) :
    Sound totalNodes t' := by
  have hrequested : ∀ msg, t.system.Requested a msg → t'.OfCall msg := by
    rintro msg (⟨e,he,hmsg⟩ | ⟨i,operation,reqId,ha,rfl⟩)
    · exact (h.request e he msg hmsg).mono hcalls
    · exact hmade i operation reqId ha
  refine ⟨?_,?_,?_,?_,hentry,hlisted⟩
  · rw [hsystem]
    exact h.votes.step _ a
  · rw [hsystem]
    exact h.originals.step rfl _ a
  · intro e he msg hmsg
    rw [hsystem] at he
    exact hrequested msg (System.request_step rfl he hmsg)
  · intro pp hpp
    rw [hsystem] at hpp
    rcases System.known_step rfl hpp with hk | ⟨msg,hmsg,hreq⟩
    · obtain ⟨msg,hreq,hcall⟩ := h.prePrepare pp hk
      exact ⟨msg,hreq,hcall.mono hcalls⟩
    · exact ⟨msg,hreq,hrequested msg hmsg⟩

theorem deliver (h : Sound totalNodes t) (digest : Op → Option Dig) (k i : ℕ) :
    Sound totalNodes (t.step totalNodes digest (.deliver k i)) := by
  refine h.advance digest (.deliver k i) rfl (fun p call hp => ?_) (fun _ _ _ ha => by cases ha) ?_ ?_
  · obtain ⟨state,hs,-,-⟩ := h.deliver_call digest k i hp
    exact ⟨state,hs⟩
  · intro j reqId p hp
    obtain ⟨call,hcall,rfl,rfl,-⟩ := h.entry j reqId p hp
    obtain ⟨state,hs,-,hlive⟩ := h.deliver_call digest k i hcall
    exact ⟨_,hs,rfl,rfl,hlive hp⟩
  · intro p call hp
    change (t.calls.mapIdx _)[p]? = _ at hp
    rw [List.getElem?_mapIdx] at hp
    obtain ⟨old,hold,rfl⟩ := Option.map_eq_some_iff.mp hp
    obtain ⟨state,hs⟩ := share_eq (t.system.step (.faultless totalNodes) (digest ∘ Prod.snd) (.deliver k i)) t.table p old
    rw [hs]
    exact h.listed p old hold

theorem triggerViewChange (h : Sound totalNodes t) (digest : Op → Option Dig) (i : ℕ) :
    Sound totalNodes (t.step totalNodes digest (.triggerViewChange i)) := by
  refine h.advance digest (.triggerViewChange i) rfl (fun p call hp => ⟨call.state,hp⟩) (fun _ _ _ ha => by cases ha) ?_
    h.listed
  intro j reqId p hp
  obtain ⟨call,hcall,hnode,hid,hstate⟩ := h.entry j reqId p hp
  exact ⟨call,hcall,hnode,hid,
    by rw [← hstate]; exact congrFun (System.triggerViewChange_tracks _ (digest ∘ Prod.snd) t.system i j).1 reqId⟩

/-- A call enters the list and the table, under its own id. -/
theorem propose (h : Sound totalNodes t) (digest : Op → Option Dig) (i : ℕ) (operation : Op) (clock : ℤ) :
    Sound totalNodes (t.step totalNodes digest (.propose i operation clock)) := by
  unfold step
  dsimp only
  by_cases hi : i < totalNodes
  · rw [if_pos hi]
    have hkept : ∀ (p : ℕ) (call : Call), t.calls[p]? = some call → ∀ new, (t.calls ++ [new])[p]? = some call :=
      fun p call hp new => by rw [List.getElem?_append_left (List.getElem?_eq_some_iff.mp hp).1,hp]
    refine h.advance digest (.propose i (t.calls.length,operation) (clock + i)) rfl
      (fun p call hp => ⟨call.state,hkept p call hp _⟩) ?_ ?_ ?_
    · intro j operation' reqId ha
      cases ha
      exact ⟨_,List.getElem?_concat_length,rfl⟩
    · intro j reqId p hp
      dsimp only at hp ⊢
      rw [enter_apply] at hp
      rw [System.propose_clientRequests _ (Config.faultless_honest.mpr hi)]
      by_cases hnew : j = i ∧ reqId = clock + i
      · rw [if_pos hnew] at hp ⊢
        obtain rfl := Option.some.inj hp
        exact ⟨_,List.getElem?_concat_length,hnew.1.symm,hnew.2.symm,rfl⟩
      · rw [if_neg hnew] at hp ⊢
        obtain ⟨call,hcall,hcall'⟩ := h.entry j reqId p hp
        exact ⟨call,hkept p call hcall _,hcall'⟩
    · intro p call hp
      dsimp only at hp ⊢
      rw [enter_apply]
      split
      · exact ⟨_,rfl⟩
      · rename_i hnew
        rcases getElem?_concat_cases hp with hp | ⟨-,rfl⟩
        · exact h.listed p call hp
        · exact absurd ⟨rfl,rfl⟩ hnew
  · rw [if_neg hi]
    exact h

theorem step (h : Sound totalNodes t) (digest : Op → Option Dig) (a : HonestAction Op) :
    Sound totalNodes (t.step totalNodes digest a) := by
  cases a with
  | propose i operation clock => exact h.propose digest i operation clock
  | triggerViewChange i => exact h.triggerViewChange digest i
  | deliver k i => exact h.deliver digest k i

end Sound

omit [DecidableEq Op] in
/-- The request of an executed PRE-PREPARE was made by an earlier call. -/
theorem Sound.createdBy_lt {totalNodes : ℕ} {t : Tracked Op Dig} (h : Sound totalNodes t) {i p : ℕ}
    {pp : PrePrepareMessage (ℕ × Op) Dig} (hpp : pp ∈ (t.system.nodes i).executed) (hc : pp.CreatedBy p) :
    p < t.calls.length := by
  obtain ⟨msg,hreq,call,hcall,-⟩ := h.executed hpp
  rw [createdBy_iff hreq] at hc
  rw [← hc]
  exact (List.getElem?_eq_some_iff.mp hcall).1

theorem Faithful.propose {totalNodes : ℕ} {t : Tracked Op Dig} (hf : t.Faithful) (h : Sound totalNodes t)
    (digest : Op → Option Dig) (i : ℕ) (operation : Op) (clock : ℤ) :
    (t.step totalNodes digest (.propose i operation clock)).Faithful := by
  unfold step
  dsimp only
  split
  · intro p call hp hret
    dsimp only at hp ⊢
    rw [System.propose_executed]
    rcases getElem?_concat_cases hp with hp | ⟨rfl,rfl⟩
    · exact hf p call hp hret
    · refine iff_of_false Bool.false_ne_true ?_
      rintro ⟨pp,hpp,hc⟩
      exact absurd (h.createdBy_lt hpp hc) (lt_irrefl _)
  · exact hf

theorem Faithful.triggerViewChange {t : Tracked Op Dig} (hf : t.Faithful) (totalNodes : ℕ) (digest : Op → Option Dig)
    (i : ℕ) : (t.step totalNodes digest (.triggerViewChange i)).Faithful := by
  intro p call hp hret
  unfold step
  dsimp only
  rw [(System.triggerViewChange_tracks _ _ t.system i call.node).2]
  exact hf p call hp hret

/-- What the caller of a call is told by a delivery, and what the delivery executes for it. -/
theorem faithful_deliver_call {totalNodes : ℕ} {t : Tracked Op Dig} (hf : t.Faithful) (h : Sound totalNodes t)
    (digest : Op → Option Dig) (k i : ℕ) {p : ℕ} {call : Call} (hp : t.calls[p]? = some call) (hret : call.returned) :
    ∃ state, (t.step totalNodes digest (.deliver k i)).calls[p]? = some { call with state := state } ∧
      ((state.committed ↔
        ∃ pp ∈ ((t.step totalNodes digest (.deliver k i)).system.nodes call.node).executed, pp.CreatedBy p) ↔
      (¬call.state.committed → call.node = i → ∀ pp ∈ t.system.executes (.faultless totalNodes) k i,
        (t.table i call.requestId = some p ∧ PBFTNode.requestIdOf pp.request = some call.requestId ↔
          pp.CreatedBy p))) := by
  obtain ⟨state,hs,hcommitted,-⟩ := h.deliver_call digest k i hp
  refine ⟨state,hs,?_⟩
  have hbefore := hf p call hp hret
  have hafter : (∃ pp ∈ ((t.step totalNodes digest (.deliver k i)).system.nodes call.node).executed, pp.CreatedBy p) ↔
      call.state.committed ∨ call.node = i ∧ ∃ pp ∈ t.system.executes (.faultless totalNodes) k i, pp.CreatedBy p := by
    rw [hbefore]
    change (∃ pp ∈ ((t.system.step _ (digest ∘ Prod.snd) (.deliver k i)).nodes call.node).executed, _) ↔ _
    simp only [System.mem_executed_deliver,or_and_right,exists_or,and_assoc,exists_and_left]
  rw [hcommitted,hafter]
  cases hran : t.system.executes (.faultless totalNodes) k i with
  | none => simp
  | some ran =>
    simp only [Option.mem_some_iff,exists_eq_left',forall_eq']
    by_cases hwait : call.state.committed
    · simp [hwait]
    · by_cases hnode : call.node = i
      · simp [hwait,hnode]
      · simp [hwait,hnode]

/-- The calls after a delivery differ from those before it in their states. -/
theorem calls_deliver {totalNodes : ℕ} {digest : Op → Option Dig} {t : Tracked Op Dig} {k i p : ℕ} {call' : Call}
    (h : (t.step totalNodes digest (.deliver k i)).calls[p]? = some call') :
    ∃ call state, t.calls[p]? = some call ∧ call' = { call with state := state } := by
  unfold step at h
  dsimp only at h
  rw [List.getElem?_mapIdx] at h
  obtain ⟨call,hcall,rfl⟩ := Option.map_eq_some_iff.mp h
  obtain ⟨state,hs⟩ := share_eq (t.system.step (.faultless totalNodes) (digest ∘ Prod.snd) (.deliver k i)) t.table p call
  exact ⟨call,state,hcall,hs⟩

/-- The request that a delivery executes carries the number and the id of its call. -/
theorem Sound.executes {totalNodes : ℕ} {t : Tracked Op Dig} (h : Sound totalNodes t) (digest : Op → Option Dig)
    {k i : ℕ} {pp : PrePrepareMessage (ℕ × Op) Dig} (hpp : pp ∈ t.system.executes (.faultless totalNodes) k i) :
    ∃ q maker, t.calls[q]? = some maker ∧ PBFTNode.requestIdOf pp.request = some maker.requestId ∧
      ∀ p, pp.CreatedBy p ↔ q = p := by
  have hran := (System.mem_executed_deliver (.faultless totalNodes) (digest ∘ Prod.snd) t.system k i i pp).mpr
    (Or.inr ⟨rfl,hpp⟩)
  obtain ⟨msg,hreq,call',hcall',hid⟩ := (h.deliver digest k i).executed hran
  obtain ⟨maker,state,hmaker,rfl⟩ := calls_deliver hcall'
  refine ⟨msg.operation.1,maker,hmaker,?_,createdBy_iff hreq⟩
  rw [hreq,requestIdOf_asdict]
  exact congrArg some hid.symm

/-- Of two different calls with one id, the one that is found is told the other's news. -/
theorem faithful_deliver_iff {totalNodes : ℕ} {t : Tracked Op Dig} (hf : t.Faithful) (h : Sound totalNodes t)
    (digest : Op → Option Dig) (k i : ℕ) :
    (t.step totalNodes digest (.deliver k i)).Faithful ↔ t.Undisputed totalNodes (.deliver k i) := by
  constructor
  · intro hf' pp hpp q hq maker hmaker p hp
    obtain ⟨q',maker',hmaker',hid,hcreated⟩ := h.executes digest hpp
    obtain rfl := (hcreated q).mp hq
    obtain rfl := Option.some.inj (hmaker.symm.trans hmaker')
    by_cases hpq : p = q'
    · exact Or.inl hpq
    -- a call of the node that waits is found exactly when it made the request
    have htold : ∀ p' call, t.calls[p']? = some call → call.returned → ¬call.state.committed → call.node = i →
        (t.table i call.requestId = some p' ∧ PBFTNode.requestIdOf pp.request = some call.requestId ↔
          pp.CreatedBy p') := by
      intro p' call hcall hret hwait hnode
      obtain ⟨state,hs,hiff⟩ := faithful_deliver_call hf h digest k i hcall hret
      exact hiff.mp (hf' p' _ hs hret) hwait hnode pp hpp
    refine Or.inr ⟨?_,?_⟩
    · intro call hcall hret
      obtain ⟨call',hcall',hnode,hreq,-⟩ := h.entry i _ p hp
      obtain rfl := Option.some.inj (hcall.symm.trans hcall')
      by_contra hwait
      have hc := (htold p call hcall hret hwait hnode).mp ⟨by rw [hreq]; exact hp,by rw [hreq]; exact hid⟩
      exact hpq ((hcreated p).mp hc).symm
    · intro hnode call hcall hret
      obtain rfl := Option.some.inj (hmaker.symm.trans hcall)
      by_contra hwait
      have hl := ((htold q' maker hmaker hret hwait hnode).mpr hq).1
      exact hpq (Option.some.inj (hp.symm.trans hl))
  · intro hu p call' hp' hret
    obtain ⟨call,state',hp,rfl⟩ := calls_deliver hp'
    obtain ⟨state,hs,hiff⟩ := faithful_deliver_call hf h digest k i hp hret
    obtain rfl : state = state' := congrArg Call.state (Option.some.inj (hs.symm.trans hp'))
    refine hiff.mpr fun hwait hnode pp hpp => ?_
    obtain ⟨q,maker,hmaker,hid,hcreated⟩ := h.executes digest hpp
    have hq := (hcreated q).mpr rfl
    rw [hid,hcreated]
    constructor
    · rintro ⟨hl,hreq⟩
      rcases hu pp hpp q hq maker hmaker p (by rw [Option.some.inj hreq]; exact hl) with rfl | ⟨hsettled,-⟩
      · rfl
      · exact absurd (hsettled call hp hret) hwait
    · rintro rfl
      obtain rfl := Option.some.inj (hp.symm.trans hmaker)
      obtain ⟨p,hl⟩ := h.listed q call hp
      rw [hnode] at hl
      rcases hu pp hpp q hq call hp p hl with rfl | ⟨-,hsettled⟩
      · exact ⟨hl,rfl⟩
      · exact absurd (hsettled hnode call hp hret) hwait

theorem faithful_step_iff {totalNodes : ℕ} {t : Tracked Op Dig} (hf : t.Faithful) (h : Sound totalNodes t)
    (digest : Op → Option Dig) (a : HonestAction Op) :
    (t.step totalNodes digest a).Faithful ↔ t.Undisputed totalNodes a := by
  cases a with
  | propose i operation clock => exact iff_of_true (hf.propose h digest i operation clock) trivial
  | triggerViewChange i => exact iff_of_true (hf.triggerViewChange totalNodes digest i) trivial
  | deliver k i => exact faithful_deliver_iff hf h digest k i

/-- Every state that `propose` returns tells the truth in all states of a run exactly when
no request is executed under an id that is disputed on the node. -/
theorem faithful_along_iff (totalNodes : ℕ) (digest : Op → Option Dig) (schedule : List (HonestAction Op)) :
    Runs.Along (step totalNodes digest) (fun t a => (t.step totalNodes digest a).Faithful)
        (init Op Dig totalNodes) schedule ↔
      Runs.Along (step totalNodes digest) (Undisputed totalNodes) (init Op Dig totalNodes) schedule := by
  refine Runs.along_iff_of_invariant (I := fun t => t.Faithful ∧ Sound totalNodes t)
    (fun t a h hu => ⟨(faithful_step_iff h.1 h.2 digest a).mpr hu,h.2.step digest a⟩)
    (fun t a h => faithful_step_iff h.1 h.2 digest a) ⟨?_,.init totalNodes⟩
  intro p call hp
  cases hp

/-- A call whose id no earlier call of any node has. -/
def FreshId (t : Tracked Op Dig) : HonestAction Op → Prop
  | .propose i _ clock => ∀ call ∈ t.calls, call.requestId ≠ clock + i
  | _ => True

/-- No two calls have one id. -/
def DistinctIds (t : Tracked Op Dig) : Prop :=
  ∀ (p q : ℕ) (call call' : Call), t.calls[p]? = some call → t.calls[q]? = some call' →
    call.requestId = call'.requestId → p = q

theorem DistinctIds.step {totalNodes : ℕ} {t : Tracked Op Dig} (h : t.DistinctIds) (digest : Op → Option Dig)
    {a : HonestAction Op} (ha : t.FreshId a) : (t.step totalNodes digest a).DistinctIds := by
  intro p q call call' hp hq hid
  cases a with
  | propose i operation clock =>
    unfold Tracked.step at hp hq
    dsimp only at hp hq
    split at hp
    · rename_i hi
      rw [if_pos hi] at hq
      rcases getElem?_concat_cases hp with hp | ⟨rfl,rfl⟩
      · rcases getElem?_concat_cases hq with hq | ⟨rfl,rfl⟩
        · exact h p q call call' hp hq hid
        · exact absurd hid (ha call (List.mem_of_getElem? hp))
      · rcases getElem?_concat_cases hq with hq | ⟨rfl,-⟩
        · exact absurd hid.symm (ha call' (List.mem_of_getElem? hq))
        · rfl
    · rename_i hi
      rw [if_neg hi] at hq
      exact h p q call call' hp hq hid
  | triggerViewChange i => exact h p q call call' hp hq hid
  | deliver k i =>
    obtain ⟨old,_,hold,rfl⟩ := calls_deliver hp
    obtain ⟨old',_,hold',rfl⟩ := calls_deliver hq
    exact h p q old old' hold hold' hid

/-- Ids that are unique over all nodes and times are enough. -/
theorem faithful_of_freshIds (totalNodes : ℕ) (digest : Op → Option Dig) (schedule : List (HonestAction Op))
    (h : Runs.Along (step totalNodes digest) FreshId (init Op Dig totalNodes) schedule) :
    Runs.Along (step totalNodes digest) (fun t a => (t.step totalNodes digest a).Faithful)
      (init Op Dig totalNodes) schedule := by
  refine (faithful_along_iff totalNodes digest schedule).mpr ?_
  refine Runs.along_of_invariant (I := fun t => t.DistinctIds ∧ Sound totalNodes t)
    (fun t a h ha => ⟨h.1.step digest ha,h.2.step digest a⟩) ?_ ⟨?_,.init totalNodes⟩ h
  · intro t a h _
    cases a with
    | deliver k i =>
      intro pp _ q _ maker hmaker p hp
      obtain ⟨call,hcall,-,hid,-⟩ := h.2.entry i _ p hp
      exact Or.inl (h.1 p q call maker hcall hmaker hid)
    | _ => trivial
  · intro p q call call' hp
    cases hp

/-- Node 0 takes a request of node 1 and then makes one of its own under the same id. It
executes the former, and marks the state of the latter. -/
theorem other_request_marked :
    ¬ ∀ schedule : List (HonestAction ℕ), (Runs.run (step 4 some) (init ℕ ℕ 4) schedule).Faithful := by
  intro h
  have hmarked := h [.propose 1 7 5,.propose 0 8 6,.deliver 0 0,.deliver 2 1,.deliver 2 2,.deliver 3 0,.deliver 4 0,
    .deliver 3 2,.deliver 4 1,.deliver 6 0,.deliver 7 0] 1 ⟨0,6,true,⟨true,some "Executed"⟩⟩ (by decide +kernel) rfl
  exact absurd (hmarked.mp rfl) (by decide +kernel)

end Tracked

end DistributedSystems.Pbft
