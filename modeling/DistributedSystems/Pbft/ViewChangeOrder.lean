import DistributedSystems.Pbft.Transit
import DistributedSystems.Pbft.ViewChange

/-! # View change in any order

The next primary counts the VIEW_CHANGEs only when one is delivered to it. Its own, which
it logs when it triggers, is counted with the next delivery, so one must still come.
-/
namespace DistributedSystems.Pbft
variable {Op Dig : Type} [DecidableEq Op] [DecidableEq Dig]

/-- The primary of the view after `v`. -/
def nextPrimary (totalNodes : ℕ) (v : ℤ) : ℕ := ((v + 1) % totalNodes).toNat

theorem nextPrimary_lt {totalNodes : ℕ} (h : 0 < totalNodes) (v : ℤ) : nextPrimary totalNodes v < totalNodes := by
  have hlt := Int.emod_lt_of_pos (v + 1) (Int.natCast_pos.mpr h)
  unfold nextPrimary
  omega

theorem nextPrimary_cast {totalNodes : ℕ} (h : 0 < totalNodes) (v : ℤ) :
    (nextPrimary totalNodes v : ℤ) = (v + 1) % totalNodes :=
  Int.toNat_of_nonneg (Int.emod_nonneg _ (by omega))

namespace PBFTNode
variable {n : PBFTNode Op Dig}

omit [DecidableEq Op] [DecidableEq Dig] in
/-- One more entry adds its sender to those logged for its view. -/
theorem mem_loggedSenders_logViewChange {msg : ViewChangeMessage} {v : ℤ} {x : ℕ} :
    x ∈ (n.logViewChange msg).loggedSenders v ↔ x ∈ n.loggedSenders v ∨ (v = msg.view ∧ x = msg.sender) := by
  unfold loggedSenders
  change x ∈ ((Function.update n.viewChangeLog msg.view _ v).map ViewChangeMessage.sender).toFinset ↔ _
  by_cases hv : v = msg.view
  · subst v
    rw [Function.update_self]
    simp [or_comm]
  · rw [Function.update_of_ne hv]
    simp [hv]

omit [DecidableEq Op] [DecidableEq Dig] in
theorem card_loggedSenders_logViewChange (msg : ViewChangeMessage) (v : ℤ) :
    ((n.logViewChange msg).loggedSenders v).card ≤ (n.loggedSenders v).card + 1 := by
  refine (Finset.card_le_card ?_).trans (Finset.card_insert_le msg.sender (n.loggedSenders v))
  intro x hx
  rcases mem_loggedSenders_logViewChange.mp hx with hx | ⟨-,rfl⟩
  · exact Finset.mem_insert_of_mem hx
  · exact Finset.mem_insert_self _ _

end PBFTNode

namespace Transit

/-- All nodes are in view `v`, and nobody has asked for the next one yet. -/
structure InView (totalNodes : ℕ) (v : ℤ) (c : Transit Op Dig) : Prop where
  member : ∀ i < totalNodes, (c.nodes i).Member totalNodes i
  view : ∀ i < totalNodes, (c.nodes i).view = v
  log : ∀ i < totalNodes, (c.nodes i).viewChangeLog (v + 1) = []
  inFlight : c.inFlight = []
  triggered : c.triggered = []

/-- A view change is triggered by a node that has not changed its view yet. When the next
primary triggers, the VIEW_CHANGE of another of the triggering nodes has yet to reach it. -/
def InTime (totalNodes : ℕ) (v : ℤ) (triggering : Finset ℕ) (c : Transit Op Dig) : Event Op → Prop
  | .triggerViewChange i => (c.nodes i).view = v ∧
    (i = nextPrimary totalNodes v → ((c.nodes i).loggedSenders (v + 1)).card + 1 < triggering.card)
  | _ => True

instance (totalNodes : ℕ) (v : ℤ) (triggering : Finset ℕ) (c : Transit Op Dig) :
    ∀ a, Decidable (c.InTime totalNodes v triggering a)
  | .triggerViewChange _ => inferInstanceAs (Decidable (_ ∧ _))
  | .propose .. => isTrue trivial
  | .deliver _ => isTrue trivial

/-- Every node has completed the view change. -/
def Changed (totalNodes : ℕ) (v : ℤ) (c : Transit Op Dig) : Prop :=
  ∀ i < totalNodes, (c.nodes i).view = v + 1 ∧ (c.nodes i).status = .normal

/-- What the messages of a view change may ask for. -/
def Asks (totalNodes : ℕ) (v : ℤ) (c : Transit Op Dig) : Message Op Dig → Prop
  | .viewChange msg => msg.view = v + 1
  | .newView msg => msg.view = v + 1 ∧ (c.nodes (nextPrimary totalNodes v)).view = v + 1
  | _ => True

omit [DecidableEq Op] [DecidableEq Dig] in
/-- Messages go on asking for the view while the next primary stays in it. -/
theorem Asks.mono {totalNodes : ℕ} {v : ℤ} {c c' : Transit Op Dig} {message : Message Op Dig}
    (h : c.Asks totalNodes v message) (hview : (c.nodes (nextPrimary totalNodes v)).view = v + 1 →
      (c'.nodes (nextPrimary totalNodes v)).view = v + 1) : c'.Asks totalNodes v message := by
  cases message with
  | newView msg => exact ⟨h.1,hview h.2⟩
  | _ => exact h

/-- Until the next primary announces the view, every VIEW_CHANGE is in its log or on its
way to it, and its log is short of the triggering nodes. After that every other node
has followed or has the NEW_VIEW on its way. -/
structure Changing (totalNodes : ℕ) (v : ℤ) (triggering : Finset ℕ) (c : Transit Op Dig) : Prop where
  member : ∀ i < totalNodes, (c.nodes i).Member totalNodes i
  view : ∀ i < totalNodes, (c.nodes i).view = v ∨ (c.nodes i).view = v + 1
  destination : ∀ p ∈ c.inFlight, p.1 < totalNodes
  asks : ∀ p ∈ c.inFlight, c.Asks totalNodes v p.2
  short : (c.nodes (nextPrimary totalNodes v)).view = v →
    ((c.nodes (nextPrimary totalNodes v)).loggedSenders (v + 1)).card < triggering.card
  sent : (c.nodes (nextPrimary totalNodes v)).view = v → ∀ x ∈ c.triggered,
    x ∈ (c.nodes (nextPrimary totalNodes v)).loggedSenders (v + 1) ∨
      (nextPrimary totalNodes v,.viewChange ⟨x,v + 1⟩) ∈ c.inFlight
  before : (c.nodes (nextPrimary totalNodes v)).view = v → ∀ i < totalNodes, (c.nodes i).view = v
  after : (c.nodes (nextPrimary totalNodes v)).view = v + 1 → ∀ i < totalNodes,
    ((c.nodes i).view = v + 1 ∧ (c.nodes i).status = .normal) ∨
      (i ≠ nextPrimary totalNodes v ∧ ∃ msg, msg.view = v + 1 ∧ (i,.newView msg) ∈ c.inFlight)

namespace Changing
variable {totalNodes : ℕ} {v : ℤ} {triggering : Finset ℕ} {c : Transit Op Dig}

omit [DecidableEq Op] [DecidableEq Dig] in
theorem init (h : InView totalNodes v c) (hn : 0 < totalNodes) (hcard : 0 < triggering.card) :
    Changing totalNodes v triggering c where
  member := h.member
  view i hi := Or.inl (h.view i hi)
  destination p hp := absurd hp (by rw [h.inFlight]; exact List.not_mem_nil)
  asks p hp := absurd hp (by rw [h.inFlight]; exact List.not_mem_nil)
  short _ := by
    unfold PBFTNode.loggedSenders
    rw [h.log _ (nextPrimary_lt hn v)]
    exact hcard
  sent _ x hx := absurd hx (by rw [h.triggered]; exact List.not_mem_nil)
  before _ := h.view
  after hv := by
    rw [h.view _ (nextPrimary_lt hn v)] at hv
    omega

/-- Messages that have nothing to do with views. -/
def Unrelated (p : ℕ × Message Op Dig) : Prop :=
  (∀ msg, p.2 ≠ .viewChange msg) ∧ ∀ msg, p.2 ≠ .newView msg

omit [DecidableEq Op] [DecidableEq Dig] in
/-- Nodes that keep their view, status and log, and a network that keeps its VIEW_CHANGEs
and NEW_VIEWs. -/
theorem frame (h : Changing totalNodes v triggering c) {c' : Transit Op Dig}
    (hnode : ∀ i, (c'.nodes i).view = (c.nodes i).view ∧ (c'.nodes i).status = (c.nodes i).status ∧
      (c'.nodes i).viewChangeLog = (c.nodes i).viewChangeLog)
    (hmember : ∀ i < totalNodes, (c'.nodes i).Member totalNodes i) (htrig : c'.triggered = c.triggered)
    (hdest : ∀ p ∈ c'.inFlight, p.1 < totalNodes) (hnew : ∀ p ∈ c'.inFlight, p ∈ c.inFlight ∨ Unrelated p)
    (hkeep : ∀ p ∈ c.inFlight, p ∈ c'.inFlight ∨ Unrelated p) : Changing totalNodes v triggering c' := by
  have hview : ∀ i, (c'.nodes i).view = (c.nodes i).view := fun i => (hnode i).1
  have hlog : ∀ i w, (c'.nodes i).loggedSenders w = (c.nodes i).loggedSenders w := by
    intro i w
    unfold PBFTNode.loggedSenders
    rw [(hnode i).2.2]
  refine ⟨hmember,fun i hi => ?_,hdest,?_,?_,?_,?_,?_⟩
  · rw [hview]
    exact h.view i hi
  · intro p hp
    rcases hnew p hp with hp | hp
    · exact (h.asks p hp).mono fun ha => (hview _).trans ha
    · unfold Asks
      cases hm : p.2 with
      | viewChange msg => exact absurd hm (hp.1 msg)
      | newView msg => exact absurd hm (hp.2 msg)
      | _ => trivial
  · rw [hview,hlog]
    exact h.short
  · rw [hview,hlog,htrig]
    intro hv x hx
    refine (h.sent hv x hx).imp id fun hmem => (hkeep _ hmem).resolve_right ?_
    exact fun hu => hu.1 _ rfl
  · rw [hview]
    intro hv i hi
    rw [hview]
    exact h.before hv i hi
  · rw [hview]
    intro hv i hi
    rw [hview,(hnode i).2.1]
    apply (h.after hv i hi).imp id
    rintro ⟨hne,msg,hmsg,hmem⟩
    refine ⟨hne,msg,hmsg,(hkeep _ hmem).resolve_right ?_⟩
    exact fun hu => hu.2 _ rfl

omit [DecidableEq Op] [DecidableEq Dig] in
theorem trigger (h : Changing totalNodes v triggering c) (hn : 0 < totalNodes) {i : ℕ} (hi : i < totalNodes)
    (hg : c.InTime totalNodes v triggering (.triggerViewChange i : Event Op)) :
    Changing totalNodes v triggering
      { c.update totalNodes i (c.nodes i).triggerViewChange with triggered := c.triggered ++ [i] } := by
  have hmsg : (c.nodes i).triggerViewChange = ((c.nodes i).triggerViewChange.1,
      [.broadcast (.viewChange ⟨i,v + 1⟩)]) := by
    unfold PBFTNode.triggerViewChange
    rw [hg.1,(h.member i hi).nodeId]
  have hlog : ∀ j, ((c.update totalNodes i (c.nodes i).triggerViewChange).nodes j).loggedSenders (v + 1) =
      if j = i then ((c.nodes i).logViewChange ⟨i,v + 1⟩).loggedSenders (v + 1)
      else (c.nodes j).loggedSenders (v + 1) := by
    intro j
    by_cases hj : j = i
    · subst j
      rw [update_self,if_pos rfl]
      unfold PBFTNode.triggerViewChange
      rw [hg.1,(h.member i hi).nodeId]
      rfl
    · rw [update_ne hj,if_neg hj]
  have hview : ∀ j, ((c.update totalNodes i (c.nodes i).triggerViewChange).nodes j).view = (c.nodes j).view :=
    forall_nodes_update (P := fun j n => n.view = (c.nodes j).view) rfl fun _ => rfl
  have hmember : ∀ j < totalNodes,
      ((c.update totalNodes i (c.nodes i).triggerViewChange).nodes j).Member totalNodes j :=
    forall_lt_update (P := fun j n => n.Member totalNodes j)
      (fun hi => ⟨(h.member i hi).nodeId,(h.member i hi).totalNodes,(h.member i hi).f⟩) h.member
  have hnew : ∀ p ∈ (c.update totalNodes i (c.nodes i).triggerViewChange).inFlight,
      p ∈ c.inFlight ∨ (p.1 < totalNodes ∧ p.2 = .viewChange ⟨i,v + 1⟩) := by
    intro p hp
    rw [hmsg] at hp
    rcases mem_update_inFlight hp with hp | ⟨o,ho,hlt,hm⟩
    · exact Or.inl hp
    · rw [List.mem_singleton.mp ho] at hm
      exact Or.inr ⟨hlt,hm⟩
  refine ⟨hmember,fun j hj => ?_,fun p hp => ?_,fun p hp => ?_,?_,?_,?_,?_⟩
  · rw [hview]
    exact h.view j hj
  · exact (hnew p hp).elim (h.destination p) And.left
  · rcases hnew p hp with hp | ⟨-,hm⟩
    · exact (h.asks p hp).mono fun ha => (hview _).trans ha
    · unfold Asks
      rw [hm]
  · rw [hview,hlog]
    intro hv
    split
    · rename_i hp
      have hcard := (c.nodes i).card_loggedSenders_logViewChange ⟨i,v + 1⟩ (v + 1)
      have hguard := hg.2 hp.symm
      omega
    · exact h.short hv
  · rw [hview,hlog]
    intro hv x hx
    rcases List.mem_append.mp hx with hx | hx
    · refine (h.sent hv x hx).imp (fun hmem => ?_) mem_update_of_mem
      split
      · rename_i hp
        rw [hp] at hmem
        exact PBFTNode.mem_loggedSenders_logViewChange.mpr (Or.inl hmem)
      · exact hmem
    · rw [List.mem_singleton.mp hx]
      by_cases hp : nextPrimary totalNodes v = i
      · rw [if_pos hp]
        exact Or.inl (PBFTNode.mem_loggedSenders_logViewChange.mpr (Or.inr ⟨rfl,rfl⟩))
      · refine Or.inr (mem_update_of_broadcast ?_ (nextPrimary_lt hn v) hp)
        rw [hmsg]
        exact List.mem_cons_self
  · rw [hview]
    intro hv j hj
    rw [hview]
    exact h.before hv j hj
  · rw [hview]
    intro hv j hj
    rcases h.after hv j hj with hdone | ⟨hne,msg,hm,hmem⟩
    · -- a node that has followed does not trigger in time
      have hji : j ≠ i := by
        rintro rfl
        have hgv := hg.1
        omega
      rw [hview]
      refine Or.inl ⟨hdone.1,?_⟩
      change ((c.update totalNodes i (c.nodes i).triggerViewChange).nodes j).status = .normal
      rw [update_ne hji]
      exact hdone.2
    · exact Or.inr ⟨hne,msg,hm,mem_update_of_mem hmem⟩

omit [DecidableEq Op] [DecidableEq Dig] in
/-- A VIEW_CHANGE is delivered and changes at most the log. -/
theorem logged (h : Changing totalNodes v triggering c) {k i : ℕ} {msg : ViewChangeMessage} {n : PBFTNode Op Dig}
    (hk : c.inFlight[k]? = some (i,.viewChange msg)) (hn : n = c.nodes i ∨ n = (c.nodes i).logViewChange msg)
    (hshort : i = nextPrimary totalNodes v → (c.nodes i).view = v →
      msg.sender ∈ n.loggedSenders (v + 1) ∧ (n.loggedSenders (v + 1)).card < triggering.card) :
    Changing totalNodes v triggering ((c.take k).update totalNodes i (n,[])) := by
  have hsame : n.view = (c.nodes i).view ∧ n.status = (c.nodes i).status ∧
      ∀ N j, (c.nodes i).Member N j → n.Member N j := by
    rcases hn with rfl | rfl
    · exact ⟨rfl,rfl,fun _ _ hm => hm⟩
    · exact ⟨rfl,rfl,fun _ _ hm => ⟨hm.nodeId,hm.totalNodes,hm.f⟩⟩
  have hsub : ∀ x ∈ (c.nodes i).loggedSenders (v + 1), x ∈ n.loggedSenders (v + 1) := by
    intro x hx
    rcases hn with rfl | rfl
    · exact hx
    · exact PBFTNode.mem_loggedSenders_logViewChange.mpr (Or.inl hx)
  have hview : ∀ j, (((c.take k).update totalNodes i (n,[])).nodes j).view = (c.nodes j).view :=
    forall_nodes_update (P := fun j n => n.view = (c.nodes j).view) hsame.1 fun _ => rfl
  have hstatus : ∀ j, (((c.take k).update totalNodes i (n,[])).nodes j).status = (c.nodes j).status :=
    forall_nodes_update (P := fun j n => n.status = (c.nodes j).status) hsame.2.1 fun _ => rfl
  have hnet : ((c.take k).update totalNodes i (n,[])).inFlight = (c.take k).inFlight := List.append_nil _
  have hmember : ∀ j < totalNodes, (((c.take k).update totalNodes i (n,[])).nodes j).Member totalNodes j :=
    forall_lt_update (P := fun j n => n.Member totalNodes j) (fun hi => hsame.2.2 _ _ (h.member i hi)) h.member
  refine ⟨hmember,fun j hj => ?_,fun p hp => ?_,fun p hp => ?_,?_,?_,?_,?_⟩
  · rw [hview]
    exact h.view j hj
  · rw [hnet] at hp
    exact h.destination p (mem_of_mem_take hp)
  · rw [hnet] at hp
    exact (h.asks p (mem_of_mem_take hp)).mono fun ha => (hview _).trans ha
  · rw [hview]
    intro hv
    by_cases hp : nextPrimary totalNodes v = i
    · rw [hp] at hv ⊢
      rw [update_self]
      exact (hshort hp.symm hv).2
    · rw [update_ne hp]
      exact h.short hv
  · rw [hview,hnet]
    intro hv x hx
    by_cases hp : nextPrimary totalNodes v = i
    · rw [hp] at hv ⊢
      rw [update_self]
      rcases h.sent (by rw [hp]; exact hv) x hx with hmem | hmem
      · rw [hp] at hmem
        exact Or.inl (hsub x hmem)
      · rw [hp] at hmem
        rcases mem_take hk hmem with hmem | he
        · exact Or.inr hmem
        · -- the VIEW_CHANGE of `x` is the one that was delivered
          cases he
          exact Or.inl (hshort hp.symm hv).1
    · rw [update_ne hp]
      refine (h.sent hv x hx).imp id fun hmem => (mem_take hk hmem).resolve_right ?_
      intro he
      exact hp (congrArg Prod.fst he)
  · rw [hview]
    intro hv j hj
    rw [hview]
    exact h.before hv j hj
  · rw [hview,hnet]
    intro hv j hj
    rw [hview,hstatus]
    apply (h.after hv j hj).imp id
    rintro ⟨hne,nv,hnv,hmem⟩
    refine ⟨hne,nv,hnv,(mem_take hk hmem).resolve_right ?_⟩
    intro he
    cases congrArg Prod.snd he

omit [DecidableEq Op] [DecidableEq Dig] in
/-- The next primary announces the view: every other node has the NEW_VIEW on its way. -/
theorem announced (h : Changing totalNodes v triggering c) {k : ℕ} {n : PBFTNode Op Dig}
    (hmember : n.Member totalNodes (nextPrimary totalNodes v)) (hview : n.view = v + 1)
    (hstatus : n.status = .normal) (viewChanges : List ViewChangeMessage) :
    Changing totalNodes v triggering ((c.take k).update totalNodes (nextPrimary totalNodes v)
      (n,[.broadcast (.newView ⟨nextPrimary totalNodes v,v + 1,viewChanges⟩)])) := by
  have hself : (((c.take k).update totalNodes (nextPrimary totalNodes v)
      (n,[.broadcast (.newView ⟨nextPrimary totalNodes v,v + 1,viewChanges⟩)])).nodes
        (nextPrimary totalNodes v)).view = v + 1 := by
    rw [update_self]
    exact hview
  have hcontra : ¬(((c.take k).update totalNodes (nextPrimary totalNodes v)
      (n,[.broadcast (.newView ⟨nextPrimary totalNodes v,v + 1,viewChanges⟩)])).nodes
        (nextPrimary totalNodes v)).view = v := by
    rw [hself]
    omega
  refine ⟨?_,?_,fun p hp => ?_,fun p hp => ?_,fun hv => absurd hv hcontra,fun hv => absurd hv hcontra,
    fun hv => absurd hv hcontra,fun _ j hj => ?_⟩
  · exact forall_lt_update (P := fun j n => n.Member totalNodes j) (fun _ => hmember) h.member
  · exact forall_lt_update (P := fun _ n => n.view = v ∨ n.view = v + 1) (fun _ => Or.inr hview) h.view
  · rcases mem_update_inFlight hp with hp | ⟨o,-,hlt,-⟩
    · exact h.destination p (mem_of_mem_take hp)
    · exact hlt
  · rcases mem_update_inFlight hp with hp | ⟨o,ho,-,hm⟩
    · exact (h.asks p (mem_of_mem_take hp)).mono fun _ => hself
    · rw [List.mem_singleton.mp ho] at hm
      unfold Asks
      rw [hm]
      exact ⟨rfl,hself⟩
  · by_cases hp : j = nextPrimary totalNodes v
    · subst j
      rw [update_self]
      exact Or.inl ⟨hview,hstatus⟩
    · exact Or.inr ⟨hp,_,rfl,mem_update_of_broadcast List.mem_cons_self hj hp⟩

omit [DecidableEq Op] [DecidableEq Dig] in
/-- A node follows a NEW_VIEW. -/
theorem followed (h : Changing totalNodes v triggering c) {k i : ℕ} {msg : NewViewMessage}
    (hk : c.inFlight[k]? = some (i,.newView msg)) :
    Changing totalNodes v triggering ((c.take k).update totalNodes i ((c.nodes i).handleNewView msg,[])) := by
  have hmem := List.mem_of_getElem? hk
  obtain ⟨hmsg,hannounced⟩ : msg.view = v + 1 ∧ (c.nodes (nextPrimary totalNodes v)).view = v + 1 := h.asks _ hmem
  have hnet : ((c.take k).update totalNodes i ((c.nodes i).handleNewView msg,[])).inFlight = (c.take k).inFlight :=
    List.append_nil _
  have hview : (((c.take k).update totalNodes i ((c.nodes i).handleNewView msg,[])).nodes
      (nextPrimary totalNodes v)).view = v + 1 :=
    forall_nodes_update (P := fun j n => j = nextPrimary totalNodes v → n.view = v + 1) (fun _ => hmsg)
      (fun j hj => by rw [hj]; exact hannounced) _ rfl
  have hcontra : ¬(((c.take k).update totalNodes i ((c.nodes i).handleNewView msg,[])).nodes
      (nextPrimary totalNodes v)).view = v := by
    rw [hview]
    omega
  refine ⟨?_,?_,fun p hp => ?_,fun p hp => ?_,fun hv => absurd hv hcontra,fun hv => absurd hv hcontra,
    fun hv => absurd hv hcontra,fun _ j hj => ?_⟩
  · exact forall_lt_update (P := fun j n => n.Member totalNodes j)
      (fun hi => ⟨(h.member i hi).nodeId,(h.member i hi).totalNodes,(h.member i hi).f⟩) h.member
  · exact forall_lt_update (P := fun _ n => n.view = v ∨ n.view = v + 1) (fun _ => Or.inr hmsg) h.view
  · rw [hnet] at hp
    exact h.destination p (mem_of_mem_take hp)
  · rw [hnet] at hp
    exact (h.asks p (mem_of_mem_take hp)).mono fun _ => hview
  · by_cases hji : j = i
    · subst j
      rw [update_self]
      exact Or.inl ⟨hmsg,rfl⟩
    · rw [update_ne hji,hnet]
      apply (h.after hannounced j hj).imp id
      rintro ⟨hne,nv,hnv,hfl⟩
      refine ⟨hne,nv,hnv,(mem_take hk hfl).resolve_right ?_⟩
      intro he
      exact hji (congrArg Prod.fst he)

omit [DecidableEq Op] [DecidableEq Dig] in
/-- A delivered VIEW_CHANGE is ignored, logged, or completes the quorum of the next primary. -/
theorem viewChange (h : Changing totalNodes v triggering c) (hn : 0 < totalNodes)
    (hcard : 2 * ((totalNodes - 1) / 3) < triggering.card) {k i : ℕ} {msg : ViewChangeMessage}
    (hk : c.inFlight[k]? = some (i,.viewChange msg)) :
    Changing totalNodes v triggering ((c.take k).update totalNodes i ((c.nodes i).handleViewChange msg)) := by
  have hmem := List.mem_of_getElem? hk
  have hi : i < totalNodes := h.destination _ hmem
  have hmsg : msg.view = v + 1 := h.asks _ hmem
  rcases (c.nodes i).handleViewChange_cases msg with ⟨hle,he⟩ | ⟨-,hq,he⟩ | ⟨hlt,-,hp,he⟩
  · rw [he]
    apply h.logged hk (Or.inl rfl)
    intro _ hv
    omega
  · rw [he]
    refine h.logged hk (Or.inr rfl) fun hp _ => ⟨?_,?_⟩
    · exact PBFTNode.mem_loggedSenders_logViewChange.mpr (Or.inr ⟨hmsg.symm,rfl⟩)
    · -- without a quorum the log of the next primary is short
      have hprim : msg.view % (c.nodes i).totalNodes = (c.nodes i).nodeId := by
        rw [hmsg,(h.member i hi).totalNodes,(h.member i hi).nodeId,hp]
        exact (nextPrimary_cast hn v).symm
      have hfew : ¬_ := fun hc => hq ⟨hc,hprim⟩
      rw [hmsg,(h.member i hi).f] at hfew
      omega
  · rw [hmsg,(h.member i hi).totalNodes,(h.member i hi).nodeId] at hp
    have hip : i = nextPrimary totalNodes v := by
      have hcast := nextPrimary_cast hn v
      omega
    subst i
    rw [he]
    unfold PBFTNode.sendNewView
    rw [hmsg]
    have hid : ((c.nodes (nextPrimary totalNodes v)).logViewChange msg).nodeId = nextPrimary totalNodes v :=
      (h.member _ hi).nodeId
    rw [hid]
    refine h.announced ?_ ?_ ?_ _
    · exact ⟨rfl,(h.member _ hi).totalNodes,(h.member _ hi).f⟩
    · rfl
    · rfl

theorem step (h : Changing totalNodes v triggering c) (hn : 0 < totalNodes)
    (hcard : 2 * ((totalNodes - 1) / 3) < triggering.card) (digest : Op → Option Dig) {e : Event Op}
    (hg : c.InTime totalNodes v triggering e) : Changing totalNodes v triggering (c.step totalNodes digest e) := by
  have hquiet : ∀ {c' : Transit Op Dig} {i : ℕ} {out : PBFTNode Op Dig × List (Outgoing Op Dig)},
      (c.nodes i).KeepsView out → i < totalNodes → c'.nodes = c.nodes → c'.triggered = c.triggered →
      (∀ p ∈ c'.inFlight, p ∈ c.inFlight) → (∀ p ∈ c.inFlight, p ∈ c'.inFlight ∨ Unrelated p) →
      Changing totalNodes v triggering (c'.update totalNodes i out) := by
    intro c' i out hk hi hnodes htrig hsub hkeep
    refine h.frame ?_ ?_ htrig ?_ ?_ fun p hp => (hkeep p hp).imp mem_update_of_mem id
    · refine forall_nodes_update (P := fun j n => n.view = (c.nodes j).view ∧ n.status = (c.nodes j).status ∧
        n.viewChangeLog = (c.nodes j).viewChangeLog) ⟨hk.view,hk.status,hk.log⟩ fun j => ?_
      rw [hnodes]
      exact ⟨rfl,rfl,rfl⟩
    · refine forall_lt_update (P := fun j n => n.Member totalNodes j)
        (fun hi => hk.member (h.member i hi)) fun j hj => ?_
      rw [hnodes]
      exact h.member j hj
    · intro p hp
      rcases mem_update_inFlight hp with hp | ⟨o,-,hlt,-⟩
      · exact h.destination p (hsub p hp)
      · exact hlt
    · intro p hp
      rcases mem_update_inFlight hp with hp | ⟨o,ho,-,hm⟩
      · exact Or.inl (hsub p hp)
      · refine Or.inr ⟨?_,?_⟩
        · rw [hm]
          exact hk.viewChange o ho
        · rw [hm]
          exact hk.newView o ho
  cases e with
  | propose i operation reqId =>
    unfold Transit.step
    dsimp only
    split
    · rename_i hi
      exact hquiet (.propose digest _ operation reqId) hi rfl rfl (fun _ hp => hp) fun _ hp => Or.inl hp
    · exact h
  | triggerViewChange i =>
    unfold Transit.step
    dsimp only
    split
    · rename_i hi
      exact h.trigger hn hi hg
    · exact h
  | deliver k =>
    cases hk : c.inFlight[k]? with
    | none =>
      unfold Transit.step
      dsimp only
      rw [hk]
      exact h
    | some p =>
      obtain ⟨i,message⟩ := p
      rw [step_deliver hk]
      cases message with
      | viewChange msg => exact h.viewChange hn hcard hk
      | newView msg => exact h.followed hk
      | _ =>
        refine hquiet (((c.nodes i).receive_cases digest _).resolve_right (by simp))
          (h.destination _ (List.mem_of_getElem? hk)) rfl rfl (fun _ => mem_of_mem_take)
          fun p hp => (mem_take hk hp).imp id fun he => ?_
        rw [he]
        exact ⟨fun _ => by simp,fun _ => by simp⟩

omit [DecidableEq Op] [DecidableEq Dig] in
theorem complete (h : Changing totalNodes v triggering c) (hn : 0 < totalNodes)
    (hall : c.triggered.toFinset = triggering) (hend : c.inFlight = []) : c.Changed totalNodes v := by
  have hp := nextPrimary_lt hn v
  have hview : (c.nodes (nextPrimary totalNodes v)).view = v + 1 := by
    apply (h.view _ hp).resolve_left
    intro hv
    -- with nothing in flight the log would hold all triggering nodes
    refine absurd (h.short hv) (not_lt.mpr (Finset.card_le_card fun x hx => ?_))
    rw [← hall,List.mem_toFinset] at hx
    apply (h.sent hv x hx).resolve_right
    rw [hend]
    exact List.not_mem_nil
  intro i hi
  apply (h.after hview i hi).resolve_right
  rintro ⟨-,msg,-,hmem⟩
  rw [hend] at hmem
  exact absurd hmem List.not_mem_nil

end Changing

/-- A view change whose triggers are all in time completes, whatever the order of the
triggers and deliveries. -/
theorem view_change_any_order {totalNodes f : ℕ} (hn : totalNodes = 3 * f + 1) {v : ℤ} {triggering : Finset ℕ}
    (hcard : 2 * f + 1 ≤ triggering.card) (digest : Op → Option Dig) {c : Transit Op Dig}
    (hstart : c.InView totalNodes v) {schedule : List (Event Op)}
    (htime : Runs.Along (step totalNodes digest) (InTime totalNodes v triggering) c schedule)
    (hall : (Runs.run (step totalNodes digest) c schedule).triggered.toFinset = triggering)
    (hend : (Runs.run (step totalNodes digest) c schedule).inFlight = []) :
    (Runs.run (step totalNodes digest) c schedule).Changed totalNodes v := by
  have hpos : 0 < totalNodes := by omega
  have hinv := Runs.run_invariant (I := Changing totalNodes v triggering)
    (fun _ _ h hg => h.step hpos (by omega) digest hg) (.init hstart hpos (by omega)) htime
  exact hinv.complete hpos hall hend

omit [DecidableEq Op] [DecidableEq Dig] in
theorem init_inView (totalNodes : ℕ) : (init Op Dig totalNodes).InView totalNodes 0 where
  member _ _ := ⟨rfl,rfl,rfl⟩
  view _ _ := rfl
  log _ _ := rfl
  inFlight := rfl
  triggered := rfl

/-- Nodes 0, 1 and 2 of four trigger one after the other, and everything is delivered. -/
theorem view_change_any_order_three :
    (Runs.run (step 4 some) (init ℕ ℕ 4) (.triggerViewChange 0 :: .triggerViewChange 1 :: .triggerViewChange 2 ::
      List.replicate 12 (.deliver 0))).Changed 4 0 :=
  @view_change_any_order ℕ ℕ _ _ 4 1 rfl 0 {0,1,2} (by decide) some _ (init_inView 4) _ (by decide +kernel)
    (by decide +kernel) (by decide +kernel)

instance (totalNodes : ℕ) (v : ℤ) (c : Transit Op Dig) : Decidable (c.Changed totalNodes v) := by
  unfold Changed
  infer_instance

/-- Node 1, the next primary, triggers after the VIEW_CHANGEs of nodes 0 and 2 were
delivered to it: no delivery is left at which it would count its own. -/
theorem own_viewChange_uncounted :
    ¬ ∀ (f : ℕ) (v : ℤ) (triggering : Finset ℕ) (c : Transit ℕ ℕ) (schedule : List (Event ℕ)),
      2 * f + 1 ≤ triggering.card → c.InView (3 * f + 1) v →
      (Runs.run (step (3 * f + 1) some) c schedule).triggered.Nodup →
      (Runs.run (step (3 * f + 1) some) c schedule).triggered.toFinset = triggering →
      (Runs.run (step (3 * f + 1) some) c schedule).inFlight = [] →
      (Runs.run (step (3 * f + 1) some) c schedule).Changed (3 * f + 1) v := by
  intro h
  have hc := h 1 0 {0,1,2} (init ℕ ℕ 4) (.triggerViewChange 0 :: .triggerViewChange 2 :: .deliver 0 :: .deliver 3 ::
    .triggerViewChange 1 :: List.replicate 7 (.deliver 0)) (by decide) (init_inView 4)
    (by decide +kernel) (by decide +kernel) (by decide +kernel)
  exact absurd hc (by decide +kernel)

end Transit

end DistributedSystems.Pbft
