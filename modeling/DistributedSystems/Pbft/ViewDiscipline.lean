import DistributedSystems.Pbft.ViewChange

/-! # View discipline

What honest nodes announce is backed by `2f + 1` VIEW_CHANGEs, because a log holds only
VIEW_CHANGEs that were sent. Nothing backs a NEW_VIEW of a Byzantine node, and nothing
stops one of an earlier view.
-/
namespace DistributedSystems.Pbft
variable {Op Dig : Type} [DecidableEq Op] [DecidableEq Dig]

namespace System

/-- The node that sent a VIEW_CHANGE for `v`, if the envelope holds one. -/
def viewChanger (v : ℤ) (e : Envelope Op Dig) : Option ℕ :=
  match e.message with
  | .viewChange msg => if msg.view = v then some e.source else none
  | _ => none

/-- The distinct nodes that have sent VIEW_CHANGE for `v`. -/
def viewChangers (c : System Op Dig) (v : ℤ) : Finset ℕ := (c.network.filterMap (viewChanger v)).toFinset

omit [DecidableEq Op] [DecidableEq Dig] in
theorem mem_viewChangers {c : System Op Dig} {v : ℤ} {x : ℕ} :
    x ∈ c.viewChangers v ↔ ∃ e ∈ c.network, e.source = x ∧ ∃ msg, e.message = .viewChange msg ∧ msg.view = v := by
  unfold viewChangers
  rw [List.mem_toFinset,List.mem_filterMap]
  refine exists_congr fun e => and_congr_right fun _ => ?_
  unfold viewChanger
  cases e.message with
  | viewChange msg => simp [and_comm]
  | _ => simp

omit [DecidableEq Op] [DecidableEq Dig] in
theorem viewChangers_mono {c c' : System Op Dig} (h : ∀ e ∈ c.network, e ∈ c'.network) (v : ℤ) :
    c.viewChangers v ⊆ c'.viewChangers v := by
  intro x hx
  obtain ⟨e,he,hmsg⟩ := mem_viewChangers.mp hx
  exact mem_viewChangers.mpr ⟨e,h e he,hmsg⟩

/-- The node whose NEW_VIEW a node acts on in a step: the sender of the one delivered
to it, or the node itself. -/
def announcer (c : System Op Dig) (a : Action Op Dig) (i : ℕ) : ℕ :=
  match a with
  | .deliver k _ =>
    match c.network[k]? with
    | some ⟨source,_,.newView _⟩ => source
    | _ => i
  | _ => i

/-- A step in which no honest node falls back, or enters a view that was not asked for
by a quorum and announced by its primary. -/
def Disciplined (cfg : Config) (digest : Op → Option Dig) (c : System Op Dig) (a : Action Op Dig) : Prop :=
  ∀ i, cfg.honest i → (c.nodes i).view ≤ ((c.step cfg digest a).nodes i).view ∧
    (((c.step cfg digest a).nodes i).view ≠ (c.nodes i).view →
      2 * ((cfg.totalNodes - 1) / 3) + 1 ≤
        ((c.step cfg digest a).viewChangers ((c.step cfg digest a).nodes i).view).card ∧
      (c.announcer a i : ℤ) = ((c.step cfg digest a).nodes i).view % cfg.totalNodes)

/-- A NEW_VIEW that a node may believe: it is not behind the node, and one of a Byzantine
sender comes from the primary of a view that a quorum has asked for. -/
def Believable (cfg : Config) (c : System Op Dig) (i : ℕ) (e : Envelope Op Dig) : Prop :=
  match e.message with
  | .newView msg => (c.nodes i).view ≤ msg.view ∧
    ((c.nodes i).view < msg.view → e.source ∈ cfg.byzantine →
      (e.source : ℤ) = msg.view % cfg.totalNodes ∧
        2 * ((cfg.totalNodes - 1) / 3) + 1 ≤ (c.viewChangers msg.view).card)
  | _ => True

/-- A step that delivers only believable NEW_VIEWs. -/
def Verified (cfg : Config) (c : System Op Dig) : Action Op Dig → Prop
  | .deliver k i => ∀ e ∈ c.network[k]?, cfg.honest i → e.reaches i → c.Believable cfg i e
  | _ => True

/-- Logs hold VIEW_CHANGEs that were sent, and honest announcements are backed by them. -/
structure ViewsSound (cfg : Config) (c : System Op Dig) : Prop where
  nodeId : ∀ i, (c.nodes i).nodeId = i
  totalNodes : ∀ i, (c.nodes i).totalNodes = cfg.totalNodes
  f : ∀ i, (c.nodes i).f = (cfg.totalNodes - 1) / 3
  logged : ∀ i v, ∀ m ∈ (c.nodes i).viewChangeLog v, m.sender ∈ c.viewChangers v
  authentic : ∀ e ∈ c.network, ∀ msg, e.message = .viewChange msg → msg.sender = e.source
  announced : ∀ e ∈ c.network, e.source ∉ cfg.byzantine → ∀ msg, e.message = .newView msg →
    (e.source : ℤ) = msg.view % cfg.totalNodes ∧
      2 * ((cfg.totalNodes - 1) / 3) + 1 ≤ (c.viewChangers msg.view).card

/-- What a handler of an honest node may do to the view of the node and to the network. -/
structure ViewStep (cfg : Config) (c : System Op Dig) (i : ℕ) (out : PBFTNode Op Dig × List (Outgoing Op Dig)) :
    Prop where
  nodeId : out.1.nodeId = i
  totalNodes : out.1.totalNodes = cfg.totalNodes
  f : out.1.f = (cfg.totalNodes - 1) / 3
  logged : ∀ v, ∀ m ∈ out.1.viewChangeLog v, m.sender ∈ (c.update i out).viewChangers v
  authentic : ∀ o ∈ out.2, ∀ msg, o.message = .viewChange msg → msg.sender = i
  announced : ∀ o ∈ out.2, ∀ msg, o.message = .newView msg →
    (i : ℤ) = msg.view % cfg.totalNodes ∧ 2 * ((cfg.totalNodes - 1) / 3) + 1 ≤ (c.viewChangers msg.view).card

namespace ViewsSound
variable {cfg : Config} {c : System Op Dig}

omit [DecidableEq Op] [DecidableEq Dig] in
theorem init (cfg : Config) : ViewsSound cfg (System.init Op Dig cfg) where
  nodeId _ := rfl
  totalNodes _ := rfl
  f _ := rfl
  logged _ _ _ h := absurd h List.not_mem_nil
  authentic _ h := absurd h List.not_mem_nil
  announced _ h := absurd h List.not_mem_nil

omit [DecidableEq Op] [DecidableEq Dig] in
theorem keepsView (h : ViewsSound cfg c) {i : ℕ} {out : PBFTNode Op Dig × List (Outgoing Op Dig)}
    (hk : (c.nodes i).KeepsView out) : ViewStep cfg c i out where
  nodeId := hk.nodeId.trans (h.nodeId i)
  totalNodes := hk.totalNodes.trans (h.totalNodes i)
  f := hk.f.trans (h.f i)
  logged v m hm := by
    rw [hk.log] at hm
    exact viewChangers_mono (fun _ => mem_network_update) v (h.logged i v m hm)
  authentic o ho msg hmsg := absurd hmsg (hk.viewChange o ho msg)
  announced o ho msg hmsg := absurd hmsg (hk.newView o ho msg)

omit [DecidableEq Op] [DecidableEq Dig] in
/-- The senders a node has logged after one more VIEW_CHANGE have all sent theirs. -/
theorem logViewChange (h : ViewsSound cfg c) {i : ℕ} {msg m : ViewChangeMessage}
    (hmsg : msg.sender ∈ c.viewChangers msg.view) {v : ℤ}
    (hm : m ∈ ((c.nodes i).logViewChange msg).viewChangeLog v) : m.sender ∈ c.viewChangers v := by
  rcases PBFTNode.mem_logViewChange hm with hm | ⟨rfl,rfl⟩
  · exact h.logged i v m hm
  · exact hmsg

omit [DecidableEq Op] [DecidableEq Dig] in
theorem handleViewChange (h : ViewsSound cfg c) (i : ℕ) {msg : ViewChangeMessage}
    (hmsg : msg.sender ∈ c.viewChangers msg.view) : ViewStep cfg c i ((c.nodes i).handleViewChange msg) := by
  have hlog : ∀ (out : PBFTNode Op Dig × List (Outgoing Op Dig)) v,
      ∀ m ∈ ((c.nodes i).logViewChange msg).viewChangeLog v, m.sender ∈ (c.update i out).viewChangers v :=
    fun out v m hm => viewChangers_mono (fun _ => mem_network_update) v (h.logViewChange hmsg hm)
  rcases (c.nodes i).handleViewChange_cases msg with ⟨-,he⟩ | ⟨-,-,he⟩ | ⟨-,hq,hp,he⟩
  · rw [he]
    exact h.keepsView (.refl _ (by simp) (by simp))
  · rw [he]
    exact ⟨h.nodeId i,h.totalNodes i,h.f i,hlog _,by simp,by simp⟩
  · rw [he]
    rw [h.f] at hq
    rw [h.totalNodes,h.nodeId] at hp
    refine ⟨h.nodeId i,h.totalNodes i,h.f i,hlog _,by simp [PBFTNode.sendNewView,Outgoing.message],?_⟩
    intro o ho nv hnv
    rw [List.mem_singleton.mp ho] at hnv
    cases hnv
    refine ⟨hp.symm,hq.trans (Finset.card_le_card ?_)⟩
    intro x hx
    obtain ⟨m,hm,rfl⟩ := List.mem_map.mp (List.mem_toFinset.mp hx)
    exact h.logViewChange hmsg hm

omit [DecidableEq Op] [DecidableEq Dig] in
theorem triggerViewChange (h : ViewsSound cfg c) (i : ℕ) : ViewStep cfg c i (c.nodes i).triggerViewChange := by
  refine ⟨h.nodeId i,h.totalNodes i,h.f i,?_,?_,by simp [PBFTNode.triggerViewChange,Outgoing.message]⟩
  · intro v m hm
    rcases PBFTNode.mem_logViewChange hm with hm | ⟨rfl,rfl⟩
    · exact viewChangers_mono (fun _ => mem_network_update) v (h.logged i v m hm)
    · -- the own entry is broadcast in the same step
      refine mem_viewChangers.mpr ⟨_,List.mem_append_right _ List.mem_cons_self,?_,_,rfl,rfl⟩
      exact (h.nodeId i).symm
  · intro o ho msg hmsg
    rw [List.mem_singleton.mp ho] at hmsg
    cases hmsg
    exact h.nodeId i

theorem viewStep (h : ViewsSound cfg c) {digest : Op → Option Dig} {a : Action Op Dig} {i : ℕ}
    {out : PBFTNode Op Dig × List (Outgoing Op Dig)} (hh : c.Handler digest a i out) : ViewStep cfg c i out := by
  cases hh with
  | propose i operation reqId => exact h.keepsView (.propose digest _ operation reqId)
  | triggerViewChange i => exact h.triggerViewChange i
  | deliver k i e hk hr =>
    have he := List.mem_of_getElem? hk
    rcases (c.nodes i).receive_cases digest e.message with hv | ⟨msg,hm⟩ | ⟨msg,hm⟩
    · exact h.keepsView hv
    · rw [hm]
      apply h.handleViewChange i
      rw [h.authentic e he msg hm]
      exact mem_viewChangers.mpr ⟨e,he,rfl,msg,hm,rfl⟩
    · rw [hm]
      refine ⟨h.nodeId i,h.totalNodes i,h.f i,fun v m hlog => ?_,by simp [PBFTNode.receive],by simp [PBFTNode.receive]⟩
      exact viewChangers_mono (fun _ => mem_network_update) v (h.logged i v m hlog)

omit [DecidableEq Op] [DecidableEq Dig] in
theorem update (h : ViewsSound cfg c) {i : ℕ} {out : PBFTNode Op Dig × List (Outgoing Op Dig)}
    (hs : ViewStep cfg c i out) : ViewsSound cfg (c.update i out) := by
  have hmono : ∀ v, c.viewChangers v ⊆ (c.update i out).viewChangers v :=
    viewChangers_mono fun _ => mem_network_update
  refine ⟨?_,?_,?_,?_,?_,?_⟩
  · exact forall_nodes_update (P := fun j n => n.nodeId = j) hs.nodeId h.nodeId
  · exact forall_nodes_update (P := fun _ n => n.totalNodes = cfg.totalNodes) hs.totalNodes h.totalNodes
  · exact forall_nodes_update (P := fun _ n => n.f = (cfg.totalNodes - 1) / 3) hs.f h.f
  · exact forall_nodes_update
      (P := fun _ n => ∀ v, ∀ m ∈ n.viewChangeLog v, m.sender ∈ (c.update i out).viewChangers v)
      hs.logged fun j v m hm => hmono v (h.logged j v m hm)
  · intro e he msg hmsg
    rcases mem_update_network he with he | ⟨o,ho,rfl⟩
    · exact h.authentic e he msg hmsg
    · rw [Outgoing.envelope_message] at hmsg
      rw [hs.authentic o ho msg hmsg]
      cases o <;> rfl
  · intro e he hb msg hmsg
    rcases mem_update_network he with he | ⟨o,ho,rfl⟩
    · exact ⟨(h.announced e he hb msg hmsg).1,(h.announced e he hb msg hmsg).2.trans (Finset.card_le_card (hmono _))⟩
    · rw [Outgoing.envelope_message] at hmsg
      obtain ⟨hp,hq⟩ := hs.announced o ho msg hmsg
      have hsource : (o.envelope i).source = i := by cases o <;> rfl
      rw [hsource]
      exact ⟨hp,hq.trans (Finset.card_le_card (hmono _))⟩

theorem step (h : ViewsSound cfg c) (digest : Op → Option Dig) (a : Action Op Dig) :
    ViewsSound cfg (c.step cfg digest a) := by
  rcases step_cases cfg digest c a with hc | ⟨i,out,hi,hh,hc⟩ | ⟨e,he,hc⟩
  · rw [hc]
    exact h
  · rw [hc]
    exact h.update (h.viewStep hh)
  · rw [hc]
    have hmono : ∀ v, c.viewChangers v ⊆ ({ c with network := c.network ++ [e] } : System Op Dig).viewChangers v :=
      viewChangers_mono fun _ hmem => List.mem_append_left _ hmem
    refine ⟨h.nodeId,h.totalNodes,h.f,fun j v m hm => hmono v (h.logged j v m hm),?_,?_⟩
    · intro e' he' msg hmsg
      rcases List.mem_append.mp he' with he' | he'
      · exact h.authentic e' he' msg hmsg
      · rw [List.mem_singleton.mp he'] at hmsg ⊢
        have hsender := he.2
        rw [hmsg] at hsender
        exact hsender
    · intro e' he' hb msg hmsg
      rcases List.mem_append.mp he' with he' | he'
      · obtain ⟨hp,hq⟩ := h.announced e' he' hb msg hmsg
        exact ⟨hp,hq.trans (Finset.card_le_card (hmono _))⟩
      · rw [List.mem_singleton.mp he'] at hb
        exact absurd he.1 hb

/-- A node that announces a view has the quorum in its log and is the primary. -/
theorem disciplined_viewChange (h : ViewsSound cfg c) {digest : Op → Option Dig} {k i : ℕ} {e : Envelope Op Dig}
    {msg : ViewChangeMessage} (hk : c.network[k]? = some e) (hm : e.message = .viewChange msg)
    (hstep : c.step cfg digest (.deliver k i) = c.update i ((c.nodes i).handleViewChange msg)) :
    c.Disciplined cfg digest (.deliver k i) := by
  have hann : ∀ j, c.announcer (.deliver k i) j = j := by
    intro j
    unfold announcer
    dsimp only
    rw [hk]
    obtain ⟨source,destination,message⟩ := e
    change message = .viewChange msg at hm
    subst message
    rfl
  have hmsg : msg.sender ∈ c.viewChangers msg.view := by
    have he := List.mem_of_getElem? hk
    rw [h.authentic e he msg hm]
    exact mem_viewChangers.mpr ⟨e,he,rfl,msg,hm,rfl⟩
  intro j _
  rw [hann j,hstep]
  by_cases hj : j = i
  · subst j
    rw [update_self]
    rcases (c.nodes i).handleViewChange_cases msg with ⟨-,he⟩ | ⟨-,-,he⟩ | ⟨hlt,hq,hp,he⟩
    · rw [he]
      exact ⟨le_refl _,fun hne => absurd rfl hne⟩
    · rw [he]
      exact ⟨le_refl _,fun hne => absurd rfl hne⟩
    · have hback := ((h.handleViewChange i hmsg).announced (.broadcast (.newView ⟨(c.nodes i).nodeId,msg.view,
        ((c.nodes i).logViewChange msg).viewChangeLog msg.view⟩)) (by rw [he]; exact List.mem_cons_self) _ rfl)
      have hview : ((c.nodes i).handleViewChange msg).1.view = msg.view := by rw [he]; rfl
      rw [hview]
      exact ⟨hlt.le,fun _ => ⟨hback.2.trans (Finset.card_le_card (viewChangers_mono (fun _ => mem_network_update) _)),
        hback.1⟩⟩
  · rw [update_ne c _ hj]
    exact ⟨le_refl _,fun hne => absurd rfl hne⟩

/-- Whether a NEW_VIEW is believable decides whether acting on it is disciplined. -/
theorem disciplined_newView (h : ViewsSound cfg c) {digest : Op → Option Dig} {k i : ℕ} {e : Envelope Op Dig}
    {msg : NewViewMessage} (hk : c.network[k]? = some e) (hm : e.message = .newView msg) (hi : cfg.honest i)
    (hstep : c.step cfg digest (.deliver k i) = c.update i ((c.nodes i).handleNewView msg,[])) :
    c.Disciplined cfg digest (.deliver k i) ↔ c.Believable cfg i e := by
  have hann : ∀ j, c.announcer (.deliver k i) j = e.source := by
    intro j
    unfold announcer
    dsimp only
    rw [hk]
    obtain ⟨source,destination,message⟩ := e
    change message = .newView msg at hm
    subst message
    rfl
  have hnet : ∀ v, (c.update i ((c.nodes i).handleNewView msg,[])).viewChangers v = c.viewChangers v := by
    intro v
    unfold viewChangers System.update
    rw [List.map_nil,List.append_nil]
  have hself : ((c.update i ((c.nodes i).handleNewView msg,[])).nodes i).view = msg.view := by
    rw [update_self]
    rfl
  unfold Believable
  rw [hm]
  constructor
  · intro hd
    obtain ⟨hle,henter⟩ := hd i hi
    rw [hstep,hself] at hle henter
    rw [hann i,hnet] at henter
    exact ⟨hle,fun hlt _ => (henter hlt.ne').symm⟩
  · rintro ⟨hle,hbyz⟩ j _
    rw [hann j,hstep]
    by_cases hj : j = i
    · subst j
      rw [hself,hnet]
      refine ⟨hle,fun hne => And.symm ?_⟩
      by_cases hb : e.source ∈ cfg.byzantine
      · exact hbyz (lt_of_le_of_ne hle hne.symm) hb
      · exact h.announced e (List.mem_of_getElem? hk) hb msg hm
    · rw [update_ne c _ hj]
      exact ⟨le_refl _,fun hne => absurd rfl hne⟩

end ViewsSound

theorem disciplined_of_view {cfg : Config} {digest : Op → Option Dig} {c : System Op Dig} {a : Action Op Dig}
    (h : ∀ j, ((c.step cfg digest a).nodes j).view = (c.nodes j).view) : c.Disciplined cfg digest a :=
  fun j _ => ⟨(h j).ge,fun hne => absurd (h j) hne⟩

omit [DecidableEq Op] [DecidableEq Dig] in
theorem view_update {c : System Op Dig} {i : ℕ} {out : PBFTNode Op Dig × List (Outgoing Op Dig)}
    (h : out.1.view = (c.nodes i).view) (j : ℕ) : ((c.update i out).nodes j).view = (c.nodes j).view :=
  forall_nodes_update (P := fun j n => n.view = (c.nodes j).view) h (fun _ => rfl) j

/-- The missing check is exactly what separates disciplined steps from others. -/
theorem ViewsSound.disciplined_iff {cfg : Config} {c : System Op Dig} (h : ViewsSound cfg c)
    (digest : Op → Option Dig) (a : Action Op Dig) : c.Disciplined cfg digest a ↔ c.Verified cfg a := by
  cases a with
  | propose i operation reqId =>
    refine iff_of_true (disciplined_of_view fun j => ?_) trivial
    unfold System.step
    dsimp only
    split
    · exact view_update (PBFTNode.KeepsView.propose digest (c.nodes i) operation reqId).view j
    · rfl
  | triggerViewChange i =>
    refine iff_of_true (disciplined_of_view fun j => ?_) trivial
    unfold System.step
    dsimp only
    split
    · exact view_update rfl j
    · rfl
  | inject envelope =>
    refine iff_of_true (disciplined_of_view fun j => ?_) trivial
    unfold System.step
    dsimp only
    split
    · rfl
    · rfl
  | deliver k i =>
    cases hk : c.network[k]? with
    | none =>
      have hstep : c.step cfg digest (.deliver k i) = c := by
        unfold System.step
        dsimp only
        rw [hk]
      apply iff_of_true (disciplined_of_view fun j => by rw [hstep])
      change ∀ e ∈ c.network[k]?, cfg.honest i → e.reaches i → c.Believable cfg i e
      rw [hk]
      exact fun _ he => by cases he
    | some e =>
      have hver : c.Verified cfg (.deliver k i) ↔ (cfg.honest i → e.reaches i → c.Believable cfg i e) := by
        change (∀ e' ∈ c.network[k]?, cfg.honest i → e'.reaches i → c.Believable cfg i e') ↔ _
        rw [hk]
        exact ⟨fun hv => hv e rfl,fun hv e' he' => by cases he'; exact hv⟩
      rw [hver]
      by_cases ht : cfg.honest i ∧ e.reaches i
      · have hstep : c.step cfg digest (.deliver k i) = c.update i ((c.nodes i).receive digest e.message) :=
          step_deliver hk ht.1 ht.2
        have hbelieve : (cfg.honest i → e.reaches i → c.Believable cfg i e) ↔ c.Believable cfg i e :=
          ⟨fun hv => hv ht.1 ht.2,fun hv _ _ => hv⟩
        rw [hbelieve]
        cases hm : e.message with
        | viewChange msg =>
          rw [hm] at hstep
          apply iff_of_true (h.disciplined_viewChange hk hm hstep)
          unfold Believable
          rw [hm]
          trivial
        | newView msg =>
          rw [hm] at hstep
          exact h.disciplined_newView hk hm ht.1 hstep
        | _ =>
          have hkeep : (c.nodes i).KeepsView ((c.nodes i).receive digest e.message) :=
            ((c.nodes i).receive_cases digest e.message).resolve_right (by rw [hm]; simp)
          refine iff_of_true (disciplined_of_view fun j => ?_) ?_
          · rw [hstep]
            exact view_update hkeep.view j
          · unfold Believable
            rw [hm]
            trivial
      · have hstep : c.step cfg digest (.deliver k i) = c := by
          unfold System.step
          dsimp only
          rw [hk]
          exact if_neg ht
        exact iff_of_true (disciplined_of_view fun j => by rw [hstep]) fun hi hr => absurd ⟨hi,hr⟩ ht

/-- Views are disciplined along a run exactly when every NEW_VIEW that is acted on would
have passed the omitted verification. -/
theorem view_discipline_iff (cfg : Config) (digest : Op → Option Dig) (schedule : List (Action Op Dig)) :
    Runs.Along (System.step cfg digest) (Disciplined cfg digest) (System.init Op Dig cfg) schedule ↔
      Runs.Along (System.step cfg digest) (fun c a => c.Verified cfg a) (System.init Op Dig cfg) schedule :=
  Runs.along_congr (I := ViewsSound cfg) (fun _ a h => h.step digest a) (fun _ a h => h.disciplined_iff digest a)
    (.init cfg)

/-- Node 3 announces view 5 to node 1, which nobody asked for. -/
theorem forged_newView_believed :
    ¬ ∀ (cfg : Config) (schedule : List (Action ℕ ℕ)),
      Runs.Along (System.step cfg some) (Disciplined cfg some) (System.init ℕ ℕ cfg) schedule := by
  intro h
  let cfg : Config := { totalNodes := 4, byzantine := {3}, members := by decide, bound := by decide }
  have hd := (h cfg [.inject ⟨3,none,.newView ⟨3,5,[]⟩⟩,.deliver 0 1]).2.1 1 (by decide)
  exact absurd (hd.2 (by decide)).1 (by decide)

end System

end DistributedSystems.Pbft
