import DistributedSystems.Gossip.Epidemic
import DistributedSystems.Gossip.MembershipOrder

/-! # Membership among gossip nodes

A node learns of others from their messages and from the membership these carry. Nothing that a
node does makes it suspect another: the failure detector hears of every message, but nobody
asks it, so members stay alive in their first incarnation and never leave.
-/
namespace DistributedSystems.Gossip
open Runs Dissemination

variable {V T C : Type} {cfg : GossipConfig V T}

/-- The address of a node, or that of a seed under the name made of it. -/
def GossipConfig.Locates (cfg : GossipConfig V T) (nodeId : String) (address : Address) : Prop :=
  address = cfg.address nodeId ∨ nodeId = GossipNode.seedId address

/-- What a record of a membership says while nobody suspects anybody. -/
structure MemberData.Trusted (cfg : GossipConfig V T) (data : MemberData) : Prop where
  status : data.status = MemberStatus.alive.value
  incarnation : data.incarnation = 0
  located : cfg.Locates data.nodeId (data.host,data.port)

namespace Membership

/-- The nodes that a membership knows, its own one among them. -/
def ids (s : Membership) : Set String := {x | x = s.localNodeId ∨ ∃ m, s.getMember x = some m}

/-- Every member is alive in its first incarnation, where it can be reached. -/
structure Trusting (cfg : GossipConfig V T) (s : Membership) : Prop where
  noSelf : s.getMember s.localNodeId = none
  members : ∀ nodeId m, s.getMember nodeId = some m →
    m.nodeId = nodeId ∧ m.status = .alive ∧ m.incarnation = 0 ∧ cfg.Locates nodeId m.address

namespace Trusting
variable {s : Membership}

/-- One more node is known, unless it was known. -/
theorem updateMember (h : s.Trusting cfg) (nodeId : String) (address : Address) (hlocated : cfg.Locates nodeId address) :
    (s.updateMember nodeId address .alive 0).1.Trusting cfg ∧
      (s.updateMember nodeId address .alive 0).1.ids = insert nodeId s.ids := by
  have hold (hmem : nodeId ∈ s.ids) : s.ids = insert nodeId s.ids := (Set.insert_eq_of_mem hmem).symm
  unfold Membership.updateMember
  by_cases hself : nodeId = s.localNodeId
  · have hnone : s.members.get? nodeId = none := hself ▸ h.noSelf
    rw [if_pos hself,hnone]
    exact ⟨h,hold (Or.inl hself)⟩
  rw [if_neg hself]
  cases hget : s.members.get? nodeId with
  | none =>
    have hput : ∀ x, (s.put nodeId ⟨nodeId,address,.alive,0⟩).getMember x =
        if x = nodeId then some ⟨nodeId,address,.alive,0⟩ else s.getMember x := fun x => s.members.get?_insert nodeId x _
    refine ⟨⟨?_,fun x m hm => ?_⟩,?_⟩
    · exact (hput s.localNodeId).trans ((if_neg (Ne.symm hself)).trans h.noSelf)
    · rw [hput] at hm
      split at hm
      · rename_i hx
        subst hx
        rw [← Option.some.inj hm]
        exact ⟨rfl,rfl,rfl,hlocated⟩
      · exact h.members x m hm
    · ext x
      simp only [ids,Set.mem_ofPred_eq,Set.mem_insert_iff,hput]
      by_cases hx : x = nodeId
      · simp [hx]
      · simp [hx,put]
  | some current =>
    obtain ⟨-,hstatus,hincarnation,-⟩ := h.members nodeId current hget
    simp only [hincarnation,lt_irrefl,if_false,if_true,hstatus]
    exact ⟨h,hold (Or.inr ⟨current,hget⟩)⟩

theorem mergeMembershipList (h : s.Trusting cfg) {remoteMembers : List MemberData}
    (htrusted : ∀ d ∈ remoteMembers, d.Trusted cfg) : (s.mergeMembershipList remoteMembers).1.Trusting cfg ∧
      (s.mergeMembershipList remoteMembers).1.ids = s.ids ∪ {x | ∃ d ∈ remoteMembers, d.nodeId = x} := by
  induction remoteMembers generalizing s with
  | nil => exact ⟨h,by simp [Membership.mergeMembershipList]⟩
  | cons data rest ih =>
    have hdata := htrusted data List.mem_cons_self
    unfold Membership.mergeMembershipList
    rw [hdata.status,MemberStatus.ofValue_value,hdata.incarnation]
    obtain ⟨hfirst,hids⟩ := h.updateMember data.nodeId (data.host,data.port) hdata.located
    obtain ⟨hrest,hids'⟩ := ih hfirst fun d hd => htrusted d (List.mem_cons_of_mem _ hd)
    refine ⟨hrest,?_⟩
    rw [hids',hids]
    ext x
    simp only [Set.mem_union,Set.mem_insert_iff,Set.mem_ofPred_eq,List.exists_mem_cons_iff,eq_comm (a := data.nodeId)]
    tauto

theorem data (h : s.Trusting cfg) : ∀ d ∈ s.getAllMembersData, d.Trusted cfg := by
  intro d hd
  obtain ⟨e,he,rfl⟩ := List.mem_map.mp hd
  obtain ⟨hkey,hstatus,hincarnation,hlocated⟩ := h.members e.1 e.2 (Dict.mem_entries_iff.mp he)
  exact ⟨congrArg MemberStatus.value hstatus,hincarnation,by rw [hkey]; exact hlocated⟩

/-- What is sent names all nodes known but the sender. -/
theorem mem_data (h : s.Trusting cfg) {x : String} (hx : x ∈ s.ids) :
    x = s.localNodeId ∨ ∃ d ∈ s.getAllMembersData, d.nodeId = x := by
  refine hx.imp_right ?_
  rintro ⟨m,hm⟩
  exact ⟨_,List.mem_map_of_mem (Dict.mem_entries_iff.mpr hm),(h.members x m hm).1⟩

theorem mem_getAliveMembers_iff (h : s.Trusting cfg) {x : String} :
    x ∈ s.getAliveMembers.map Member.nodeId ↔ x ≠ s.localNodeId ∧ x ∈ s.ids := by
  simp only [getAliveMembers,List.mem_map,List.mem_filter,decide_eq_true_eq,ids,Set.mem_ofPred_eq]
  constructor
  · rintro ⟨m,⟨⟨e,he,rfl⟩,-,hne⟩,rfl⟩
    have hm := Dict.mem_entries_iff.mp he
    rw [(h.members e.1 e.2 hm).1] at hne ⊢
    exact ⟨hne,Or.inr ⟨e.2,hm⟩⟩
  · rintro ⟨hne,heq | ⟨m,hm⟩⟩
    · exact absurd heq hne
    · obtain ⟨hkey,hstatus,-,-⟩ := h.members x m hm
      exact ⟨m,⟨⟨(x,m),Dict.mem_entries_iff.mpr hm,rfl⟩,hstatus,hkey ▸ hne⟩,hkey⟩

/-- The seeds that a start adds. -/
theorem start (h : s.Trusting cfg) (seeds : List Address) (own : Address) :
    let joined := seeds.foldl
      (fun s seed => if seed = own then s else (s.updateMember (GossipNode.seedId seed) seed .alive 0).1) s
    joined.Trusting cfg ∧ joined.localNodeId = s.localNodeId ∧ s.ids ⊆ joined.ids := by
  induction seeds generalizing s with
  | nil => exact ⟨h,rfl,subset_rfl⟩
  | cons seed rest ih =>
    rw [List.foldl_cons]
    split
    · exact ih h
    · obtain ⟨hfirst,hids⟩ := h.updateMember (GossipNode.seedId seed) seed (Or.inr rfl)
      obtain ⟨hrest,hlocal,hsub⟩ := ih hfirst
      refine ⟨hrest,hlocal.trans (s.updateMember_localNodeId _ _ _ _),subset_trans ?_ hsub⟩
      rw [hids]
      exact Set.subset_insert _ _

end Trusting

end Membership

@[simp] theorem GossipMessage.senderId_reread (json : V → V) (msg : GossipMessage V T) :
    (msg.reread json).senderId = msg.senderId := rfl

@[simp] theorem GossipMessage.members_reread (json : V → V) (msg : GossipMessage V T) :
    (msg.reread json).payload.members = msg.payload.members := by
  unfold GossipMessage.reread
  cases msg.payload <;> rfl

/-- The nodes that a packet tells of. -/
def Packet.ids (p : Packet V T) : Set String :=
  {x | x = p.message.senderId ∨ ∃ d ∈ p.message.payload.members, d.nodeId = x}

namespace GossipNode
variable (n : GossipNode V T C)

/-- A message makes its sender known, and whom it tells of. -/
theorem handleMessage_membership [Sub T] (now : T) (msg : GossipMessage V T) (source : Address) :
    (n.handleMessage now msg source).node.membership =
      ((n.membership.updateMember msg.senderId source .alive 0).1.mergeMembershipList msg.payload.members).1 := by
  unfold handleMessage
  cases msg.payload with
  | push | pullResponse | pullRequest | ping | ack | pingReq => rfl

theorem handleMessage_self [Sub T] (now : T) (msg : GossipMessage V T) (source : Address) :
    (n.handleMessage now msg source).node.nodeId = n.nodeId ∧
      (n.handleMessage now msg source).node.address = n.address := by
  unfold handleMessage
  cases msg.payload with
  | push | pullResponse | pullRequest | ping | ack | pingReq => exact ⟨rfl,rfl⟩

/-- Packets say where they come from, and tell of members of their sender. -/
def Honest (n : GossipNode V T C) (p : Packet V T) : Prop :=
  p.source = n.address ∧ p.message.senderId = n.nodeId ∧
    ∀ d ∈ p.message.payload.members, d ∈ n.membership.getAllMembersData

theorem performGossipRound_honest (peers : List Member) : ∀ p ∈ (n.performGossipRound peers).packets, n.Honest p := by
  intro p hp
  obtain ⟨m,hm,rfl⟩ := List.mem_map.mp hp
  refine ⟨rfl,rfl,fun d hd => ?_⟩
  obtain ⟨peer,-,hm⟩ := List.mem_flatMap.mp hm
  rcases List.mem_append.mp hm with hm | hm
  · split at hm
    · rw [List.mem_singleton.mp hm] at hd
      exact hd
    · exact absurd hm List.not_mem_nil
  · split at hm
    · rw [List.mem_singleton.mp hm] at hd
      exact absurd hd List.not_mem_nil
    · exact absurd hm List.not_mem_nil

theorem handleMessage_honest [Sub T] (now : T) (msg : GossipMessage V T) (source : Address) :
    ∀ p ∈ (n.handleMessage now msg source).packets, (n.handleMessage now msg source).node.Honest p := by
  unfold handleMessage
  cases msg.payload with
  | push | pullResponse | ack | pingReq => exact fun _ hp => absurd hp List.not_mem_nil
  | pullRequest | ping =>
    intro p hp
    rw [List.mem_singleton.mp hp]
    exact ⟨rfl,rfl,fun _ hd => by first | exact hd | exact absurd hd List.not_mem_nil⟩

end GossipNode

/-- Every node believes all nodes alive, and says so. -/
structure GossipNodes.Believing (cfg : GossipConfig V T) (g : GossipNodes V T C) : Prop where
  self : ∀ i, (g.nodes i).nodeId = i ∧ (g.nodes i).address = cfg.address i ∧ (g.nodes i).membership.localNodeId = i
  trusting : ∀ i, (g.nodes i).membership.Trusting cfg
  packets : ∀ p ∈ g.network, p.source = cfg.address p.message.senderId ∧ ∀ d ∈ p.message.payload.members, d.Trusted cfg

/-- What a call does to the beliefs of its node. -/
structure Heeds (cfg : GossipConfig V T) (n : GossipNode V T C) (e : Effect V T C) : Prop where
  self : e.node.nodeId = n.nodeId ∧ e.node.address = n.address ∧ e.node.membership.localNodeId = n.membership.localNodeId
  trusting : e.node.membership.Trusting cfg
  grows : n.membership.ids ⊆ e.node.membership.ids
  honest : ∀ p ∈ e.packets, e.node.Honest p

namespace GossipNodes.Believing
variable {g : GossipNodes V T C}

theorem deliver [Sub T] (h : g.Believing cfg) (i : String) (now : T) {p : Packet V T} (hp : p ∈ g.network) :
    Heeds cfg (g.nodes i) ((g.nodes i).handleMessage now (p.message.reread cfg.json) p.source) ∧
      p.ids ⊆ ((g.nodes i).handleMessage now (p.message.reread cfg.json) p.source).node.membership.ids := by
  obtain ⟨hsource,hdata⟩ := h.packets p hp
  obtain ⟨hfirst,hids⟩ := (h.trusting i).updateMember p.message.senderId p.source (Or.inl hsource)
  obtain ⟨hrest,hids'⟩ := hfirst.mergeMembershipList hdata
  have hmembership := (g.nodes i).handleMessage_membership now (p.message.reread cfg.json) p.source
  obtain ⟨hnodeId,haddress⟩ := (g.nodes i).handleMessage_self now (p.message.reread cfg.json) p.source
  rw [GossipMessage.members_reread,GossipMessage.senderId_reread] at hmembership
  rw [hids] at hids'
  refine ⟨⟨⟨hnodeId,haddress,?_⟩,hmembership ▸ hrest,?_,(g.nodes i).handleMessage_honest now _ p.source⟩,?_⟩
  · rw [hmembership,Membership.mergeMembershipList_localNodeId,Membership.updateMember_localNodeId]
  · rw [hmembership,hids']
    exact fun x hx => Or.inl (Or.inr hx)
  · rw [hmembership,hids']
    exact fun x hx => hx.imp Or.inl id

/-- A call that leaves the membership alone. -/
theorem keep (h : g.Believing cfg) {i : String} {e : Effect V T C} (hnodeId : e.node.nodeId = (g.nodes i).nodeId)
    (haddress : e.node.address = (g.nodes i).address) (hmembership : e.node.membership = (g.nodes i).membership)
    (hhonest : ∀ p ∈ e.packets, (g.nodes i).Honest p) : Heeds cfg (g.nodes i) e := by
  refine ⟨⟨hnodeId,haddress,by rw [hmembership]⟩,hmembership ▸ h.trusting i,by rw [hmembership],fun p hp => ?_⟩
  unfold GossipNode.Honest
  rw [hnodeId,haddress,hmembership]
  exact hhonest p hp

theorem effect [Sub T] (h : g.Believing cfg) {a : NodeAction V T C} {e : Effect V T C} (he : g.effect cfg a = some e) :
    Heeds cfg (g.nodes (GossipNodes.actor a)) e := by
  cases a with
  | start i =>
    cases he
    obtain ⟨htrusting,hlocal,hsub⟩ := (h.trusting i).start (g.nodes i).seedNodes (g.nodes i).address
    exact ⟨⟨rfl,rfl,hlocal⟩,htrusting,hsub,fun _ hp => absurd hp List.not_mem_nil⟩
  | set | delete | subscribe =>
    cases he
    exact h.keep rfl rfl rfl fun _ hp => absurd hp List.not_mem_nil
  | gossipRound i peers =>
    simp only [GossipNodes.effect] at he
    split at he
    · cases he
      exact h.keep rfl rfl rfl ((g.nodes i).performGossipRound_honest peers)
    · cases he
  | swim i target =>
    simp only [GossipNodes.effect] at he
    split at he
    · cases he
      refine h.keep rfl rfl rfl fun p hp => ?_
      rw [List.mem_singleton.mp hp]
      exact ⟨rfl,rfl,fun _ hd => absurd hd List.not_mem_nil⟩
    · cases he
  | deliver i k now =>
    simp only [GossipNodes.effect] at he
    cases hk : g.network[k]? with
    | none =>
      rw [hk] at he
      cases he
    | some p =>
      simp only [hk] at he
      split at he
      · cases he
        exact (h.deliver i now (List.mem_of_getElem? hk)).1
      · cases he

theorem put (h : g.Believing cfg) {i : String} {e : Effect V T C} (he : Heeds cfg (g.nodes i) e) :
    (g.put i e).Believing cfg := by
  obtain ⟨hnodeId,haddress,hlocal⟩ := h.self i
  obtain ⟨hnodeId',haddress',hlocal'⟩ := he.self
  constructor
  · intro j
    by_cases hj : j = i
    · subst hj
      simpa [GossipNodes.put] using ⟨hnodeId'.trans hnodeId,haddress'.trans haddress,hlocal'.trans hlocal⟩
    · simpa [GossipNodes.put,hj] using h.self j
  · intro j
    by_cases hj : j = i
    · subst hj
      simpa [GossipNodes.put] using he.trusting
    · simpa [GossipNodes.put,hj] using h.trusting j
  · intro p hp
    rcases List.mem_append.mp hp with hp | hp
    · exact h.packets p hp
    · obtain ⟨hsource,hsender,hmembers⟩ := he.honest p hp
      refine ⟨?_,fun d hd => he.trusting.data d (hmembers d hd)⟩
      rw [hsource,hsender,haddress',haddress,hnodeId',hnodeId]

theorem step [Sub T] (h : g.Believing cfg) (a : NodeAction V T C) : (g.step cfg a).Believing cfg := by
  unfold GossipNodes.step
  split
  · cases he : g.effect cfg a with
    | none => exact h
    | some e => exact h.put (h.effect he)
  · exact h

theorem init (cfg : GossipConfig V T) : (GossipNodes.init cfg : GossipNodes V T C).Believing cfg := by
  have hinit : ∀ i, Membership.init i (cfg.address i) = ⟨i,cfg.address i,Dict.empty⟩ := by
    intro i
    simp [Membership.init,Membership.updateMember,Dict.get?,Dict.empty,lookupEntry]
  constructor
  · intro i
    simp [GossipNodes.init,GossipNode.init,hinit]
  · intro i
    simp only [GossipNodes.init,GossipNode.init,hinit]
    refine ⟨rfl,fun _ _ hm => ?_⟩
    cases hm
  · exact fun _ hp => absurd hp List.not_mem_nil

/-- What a node knows spreads like the rest. -/
theorem tracks [Sub T] (h : g.Believing cfg) {n : Dissemination.News String} {start : String → Set String}
    (htracks : Tracks start (fun j => (g.nodes j).membership.ids) (g.network.map Packet.ids) n) (a : NodeAction V T C) :
    Tracks start (fun j => ((g.step cfg a).nodes j).membership.ids) ((g.step cfg a).network.map Packet.ids)
      (n.steps (GossipNodes.events cfg g a)) := by
  refine tracks_step (fun node => node.membership.ids) Packet.ids cfg ?_ ?_ ?_ htracks
  · exact fun e he => (h.effect he).grows
  · intro e he p hp hput x hx
    have hheeds := h.effect he
    unfold Packet.ids
    rw [(effect_push he hp hput).2]
    rcases hheeds.trusting.mem_data hx with hx | hx
    · refine Or.inl (hx.trans ?_)
      rw [hheeds.self.2.2,hheeds.self.1,(h.self _).2.2,(h.self _).1]
    · exact Or.inr hx
  · exact fun i k now p _ hk => (h.deliver i now (List.mem_of_getElem? hk)).2

theorem ids_run [Sub T] (h : g.Believing cfg) (schedule : List (NodeAction V T C)) :
    (run (GossipNodes.step cfg) g schedule).Believing cfg ∧
    ∀ i, (g.nodes i).membership.ids ⊆ ((run (GossipNodes.step cfg) g schedule).nodes i).membership.ids := by
  refine run_invariant_of_step (I := fun g' : GossipNodes V T C => g'.Believing cfg ∧
    ∀ i, (g.nodes i).membership.ids ⊆ (g'.nodes i).membership.ids) ?_ ⟨h,fun _ => subset_rfl⟩ schedule
  rintro g' a ⟨h',hsub⟩
  refine ⟨h'.step a,fun i => (hsub i).trans ?_⟩
  unfold GossipNodes.step
  split
  · cases he : g'.effect cfg a with
    | none => exact subset_rfl
    | some e =>
      by_cases hi : i = GossipNodes.actor a
      · subst hi
        simpa [GossipNodes.put] using (h'.effect he).grows
      · simp [GossipNodes.put,hi]
  · exact subset_rfl

/-- The nodes that a node knows after a schedule: those that anybody knew whose news reached it. -/
theorem news_run [Sub T] (h : g.Believing cfg) (schedule : List (NodeAction V T C)) {i w : String}
    (hw : w ∈ (GossipNodes.news cfg g schedule).heard i) :
    (g.nodes w).membership.ids ⊆ ((run (GossipNodes.step cfg) g schedule).nodes i).membership.ids := by
  have hinit : g.Believing cfg ∧ Tracks (fun j => (g.nodes j).membership.ids) (fun j => (g.nodes j).membership.ids)
      (g.network.map Packet.ids) (Dissemination.News.init String g.network.length) := by
    refine ⟨h,?_⟩
    have htracks := Tracks.init (fun j => (g.nodes j).membership.ids) (g.network.map Packet.ids)
    rwa [List.length_map] at htracks
  rw [← GossipNodes.run_informed_fst cfg (g,Dissemination.News.init String g.network.length)]
  exact (run_invariant_of_step (I := fun s : GossipNodes V T C × Dissemination.News String => s.1.Believing cfg ∧
      Tracks (fun j => (g.nodes j).membership.ids) (fun j => (s.1.nodes j).membership.ids) (s.1.network.map Packet.ids) s.2)
    (fun s a hs => ⟨hs.1.step a,hs.1.tracks hs.2 a⟩) hinit schedule).2.heard i w hw

end GossipNodes.Believing

/-- All members stay alive in their first incarnation and are never dropped, and a node that
the news of another reached since some moment has that one and all its members of then. -/
theorem membership_spreads [Sub T] (cfg : GossipConfig V T) (before rest : List (NodeAction V T C)) (i : String) :
    let earlier : GossipNodes V T C := run (GossipNodes.step cfg) (GossipNodes.init cfg) before
    let later := run (GossipNodes.step cfg) earlier rest
    (∀ nodeId m, (later.nodes i).membership.getMember nodeId = some m →
      m.nodeId = nodeId ∧ m.status = .alive ∧ m.incarnation = 0 ∧ cfg.Locates nodeId m.address) ∧
    (∀ x ∈ (earlier.nodes i).getMembers, x ∈ (later.nodes i).getMembers) ∧
    ∀ w ∈ (GossipNodes.news cfg earlier rest).heard i,
      ∀ x, x = w ∨ x ∈ (earlier.nodes w).getMembers → x ≠ i → x ∈ (later.nodes i).getMembers := by
  intro earlier later
  have hearlier : earlier.Believing cfg := ((GossipNodes.Believing.init cfg).ids_run before).1
  obtain ⟨hlater,hkept⟩ := hearlier.ids_run rest
  have hmember : ∀ x, x ∈ (later.nodes i).getMembers ↔ x ≠ i ∧ x ∈ (later.nodes i).membership.ids := by
    intro x
    have hx := (hlater.trusting i).mem_getAliveMembers_iff (x := x)
    rwa [(hlater.self i).2.2] at hx
  refine ⟨(hlater.trusting i).members,fun x hx => ?_,fun w hw x hx hne => ?_⟩
  · obtain ⟨hne,hids⟩ := (hearlier.trusting i).mem_getAliveMembers_iff.mp hx
    rw [(hearlier.self i).2.2] at hne
    exact (hmember x).mpr ⟨hne,hkept i hids⟩
  · refine (hmember x).mpr ⟨hne,hearlier.news_run rest hw ?_⟩
    rcases hx with rfl | hx
    · exact Or.inl (hearlier.self x).2.2.symm
    · exact ((hearlier.trusting w).mem_getAliveMembers_iff.mp hx).2

end DistributedSystems.Gossip
