import DistributedSystems.Election.Ring
import DistributedSystems.Protocol.RingOrder
import DistributedSystems.Protocol.Runs

/-! # Agreement on a ring

The candidates of an election message are the arc that ends before its receiver. So the
receiver finds itself in the list exactly after one turn, when the list has all members. An
ELECTED message has informed everybody on its way from the node that sent it first.
-/
namespace DistributedSystems.Election
open Runs

variable {ν : Type} [LinearOrder ν]

namespace RingElection

theorem mem_sortIds {ids : List ν} {x : ν} : x ∈ sortIds ids ↔ x ∈ ids := by simp [sortIds]

theorem nodup_sortIds (ids : List ν) : (sortIds ids).Nodup :=
  (List.perm_insertionSort _ _).nodup_iff.mpr ids.nodup_dedup

/-- The ring depends on the set of the ids only. -/
theorem sortIds_eq {ids ids' : List ν} (h : ∀ x, x ∈ ids ↔ x ∈ ids') : sortIds ids = sortIds ids' := by
  have hperm : (sortIds ids).Perm (sortIds ids') := by
    rw [List.perm_ext_iff_of_nodup (nodup_sortIds _) (nodup_sortIds _)]
    exact fun x => mem_sortIds.trans ((h x).trans mem_sortIds.symm)
  exact hperm.eq_of_pairwise' (List.pairwise_insertionSort _ _) (List.pairwise_insertionSort _ _)

/-- A node adds itself to its peers. -/
theorem sortIds_cons_filter {i : ν} {ids : List ν} (h : i ∈ ids) : sortIds (i :: ids.filter (· ≠ i)) = sortIds ids := by
  refine sortIds_eq fun x => ?_
  by_cases hx : x = i
  · simp [hx,h]
  · simp [hx]

end RingElection

namespace RingConfig

/-- The ring that every node computes for itself. -/
def order (cfg : RingConfig ν) : RingOrder ν where
  members := RingElection.sortIds cfg.members
  nonempty := by
    obtain ⟨x,hx⟩ := List.exists_mem_of_ne_nil _ cfg.nonempty
    exact List.ne_nil_of_mem (RingElection.mem_sortIds.mpr hx)
  nodup := RingElection.nodup_sortIds _

/-- The largest id. -/
def IsTop (cfg : RingConfig ν) (w : ν) : Prop := w ∈ cfg.members ∧ ∀ m ∈ cfg.members, m ≤ w

instance (cfg : RingConfig ν) (w : ν) : Decidable (cfg.IsTop w) := inferInstanceAs (Decidable (_ ∧ _))

variable {cfg : RingConfig ν}

theorem mem_order {x : ν} : x ∈ cfg.order.members ↔ x ∈ cfg.members := RingElection.mem_sortIds

theorem place_mem (i : ℕ) : cfg.order.place i ∈ cfg.members := mem_order.mp (cfg.order.place_mem i)

/-- The largest candidate after one turn. -/
theorem isTop_max {s : ℕ} {w : ν} (h : (cfg.order.arc s cfg.order.size).max? = some w) : cfg.IsTop w := by
  obtain ⟨hmem,hle⟩ := List.max?_eq_some_iff.mp h
  refine ⟨mem_order.mp (cfg.order.mem_arc_size.mp hmem),fun m hm => ?_⟩
  exact hle m (cfg.order.mem_arc_size.mpr (mem_order.mpr hm))

/-- On a ring of one place there is one node. -/
theorem eq_place (hsize : cfg.order.size = 1) {m : ν} (hm : m ∈ cfg.members) (i : ℕ) : m = cfg.order.place i := by
  obtain ⟨j,rfl⟩ := cfg.order.exists_place (mem_order.mpr hm)
  exact cfg.order.place_eq_iff.mpr (by simp [hsize,Nat.mod_one])

theorem isTop_place (hsize : cfg.order.size = 1) (i : ℕ) : cfg.IsTop (cfg.order.place i) :=
  ⟨place_mem i,fun _ hm => (eq_place hsize hm i).le⟩

end RingConfig

namespace RingElection

def Informed (n : RingElection ν) : Prop := n.currentLeader ≠ none

omit [LinearOrder ν] in
theorem informed_start (n : RingElection ν) : n.start.Informed ↔ n.Informed := by
  unfold start Informed
  split <;> rfl

omit [LinearOrder ν] in
theorem informed_stop (n : RingElection ν) : n.stop.Informed ↔ n.Informed := by
  unfold stop Informed
  dsimp only
  split <;> rfl

end RingElection

namespace RingCluster
variable {cfg : RingConfig ν} {c : RingCluster ν}

/-- A node knows its place, and no leader but the largest id. -/
structure NodeOk (cfg : RingConfig ν) (i : ν) (n : RingElection ν) : Prop where
  nodeId : n.nodeId = i
  nextNode : ∀ j, cfg.order.place j = i → n.nextNode = cfg.order.place (j + 1)
  leader : ∀ w ∈ n.currentLeader, cfg.IsTop w
  flag : n.isLeaderFlag = true → cfg.IsTop i

/-- An election message that started at place `s` and is `k` places further. -/
def ElectionOk (cfg : RingConfig ν) (p : RingPacket ν) : Prop :=
  ∃ s k, 0 < k ∧ k ≤ cfg.order.size ∧ p.destination = cfg.order.place (s + k) ∧
    p.message.candidates = cfg.order.arc s k

/-- An ELECTED message that the node at place `s` sent first and that is `k` places further. -/
def ElectedOk (cfg : RingConfig ν) (c : RingCluster ν) (p : RingPacket ν) : Prop :=
  ∃ s k w, 0 < k ∧ k ≤ cfg.order.size ∧ p.destination = cfg.order.place (s + k) ∧
    p.message.senderId = cfg.order.place s ∧ p.message.candidates = [w] ∧ cfg.IsTop w ∧
    ∀ j < k, (c.nodes (cfg.order.place (s + j))).Informed

def PacketOk (cfg : RingConfig ν) (c : RingCluster ν) (p : RingPacket ν) : Prop :=
  match p.message.type with
  | .election => ElectionOk cfg p
  | .elected => c.ElectedOk cfg p

structure Sound (cfg : RingConfig ν) (c : RingCluster ν) : Prop where
  nodes : ∀ i ∈ cfg.members, NodeOk cfg i (c.nodes i)
  packets : ∀ p ∈ c.network, c.PacketOk cfg p

/-- Once an election has been initiated, messages are in flight until everybody is informed. -/
def Busy (cfg : RingConfig ν) (c : RingCluster ν) : Prop :=
  c.elections ≠ 0 → c.network ≠ [] ∨ ∀ i ∈ cfg.members, (c.nodes i).Informed

theorem PacketOk.mono {c' : RingCluster ν} {p : RingPacket ν} (h : c.PacketOk cfg p)
    (hinformed : ∀ i, (c.nodes i).Informed → (c'.nodes i).Informed) : c'.PacketOk cfg p := by
  unfold PacketOk at h ⊢
  split
  · rename_i ht
    rw [ht] at h
    exact h
  · rename_i ht
    rw [ht] at h
    obtain ⟨s,k,w,hpos,hk,hd,hs,hc,htop,hall⟩ := h
    exact ⟨s,k,w,hpos,hk,hd,hs,hc,htop,fun j hj => hinformed _ (hall j hj)⟩

theorem nodeOk_init {i : ν} (hi : i ∈ cfg.members) : NodeOk cfg i (.init i (cfg.members.filter (· ≠ i))) where
  nodeId := rfl
  nextNode := by
    rintro j rfl
    unfold RingElection.init
    rw [RingElection.sortIds_cons_filter hi]
    exact cfg.order.getD_succ j _
  leader _ hw := absurd hw (Option.not_mem_none _)
  flag h := nomatch h

theorem sound_init (cfg : RingConfig ν) : (init cfg).Sound cfg where
  nodes _ hi := nodeOk_init hi
  packets _ hp := absurd hp List.not_mem_nil

/-- A completed election leaves a node that knows the largest id. -/
theorem NodeOk.electionComplete {i : ν} {n : RingElection ν} (h : NodeOk cfg i n) {w : ν} (hw : cfg.IsTop w) :
    NodeOk cfg i (n.electionComplete w).node ∧ (n.electionComplete w).node.Informed ∧
      (n.electionComplete w).node.nextNode = n.nextNode ∧ (n.electionComplete w).sent = [] := by
  obtain ⟨notified,heq⟩ := n.electionComplete_eq w
  rw [heq]
  refine ⟨⟨h.nodeId,h.nextNode,?_,?_⟩,Option.some_ne_none w,rfl,rfl⟩
  · intro w' hw'
    cases hw'
    exact hw
  · intro hflag
    rw [← h.nodeId,← of_decide_eq_true hflag]
    exact hw

/-- Only on a ring of one place a node is its own successor. -/
theorem NodeOk.size_eq_one {s : ℕ} {n : RingElection ν} (h : NodeOk cfg (cfg.order.place s) n)
    (hself : n.nextNode = n.nodeId) : cfg.order.size = 1 := by
  rw [h.nextNode s rfl,h.nodeId] at hself
  exact ((cfg.order.place_add_eq_iff Nat.one_pos cfg.order.size_pos).mp hself.symm).2.symm

/-- What a node does in one step: it keeps what it knows, sends well formed messages, and sends
one unless everybody is informed. -/
structure Proper (cfg : RingConfig ν) (c : RingCluster ν) (i : ν) (r : RingReaction ν) : Prop where
  node : NodeOk cfg i r.node
  informed : (c.nodes i).Informed → r.node.Informed
  sent : ∀ p ∈ r.sent, (c.react i r).PacketOk cfg p
  busy : r.sent ≠ [] ∨ ∀ m ∈ cfg.members, ((c.react i r).nodes m).Informed

@[simp] theorem react_self (c : RingCluster ν) (i : ν) (r : RingReaction ν) : (c.react i r).nodes i = r.node :=
  Function.update_self ..

theorem react_ne (c : RingCluster ν) {i j : ν} (r : RingReaction ν) (h : j ≠ i) : (c.react i r).nodes j = c.nodes j :=
  Function.update_of_ne h _ _

/-- A node that neither changes nor sends leaves the cluster as it was. -/
theorem react_silent (c : RingCluster ν) (i : ν) : c.react i ⟨c.nodes i,[],[]⟩ = c := by simp [RingCluster.react,setNode]

theorem react_informed {i : ν} {r : RingReaction ν} (h : (c.nodes i).Informed → r.node.Informed) (j : ν)
    (hj : (c.nodes j).Informed) : ((c.react i r).nodes j).Informed := by
  by_cases hji : j = i
  · subst j
    rw [react_self]
    exact h hj
  · rw [react_ne c r hji]
    exact hj

/-- A node that appends itself to the arc before it. -/
theorem NodeOk.sendElectionMessage {n : RingElection ν} {s k : ℕ} (h : NodeOk cfg (cfg.order.place (s + k)) n)
    (hinformed : (c.nodes (cfg.order.place (s + k))).Informed → n.Informed) (hk : k + 1 ≤ cfg.order.size) :
    Proper cfg c (cfg.order.place (s + k)) (n.sendElectionMessage (cfg.order.arc s (k + 1))) := by
  have hnext := h.nextNode (s + k) rfl
  unfold RingElection.sendElectionMessage
  split
  · rename_i hself
    have hsize := h.size_eq_one hself
    rw [h.nodeId]
    obtain ⟨hnode,hknows,-,hsent⟩ := h.electionComplete (RingConfig.isTop_place hsize (s + k))
    refine ⟨hnode,fun _ => hknows,by simp [hsent],Or.inr fun m hm => ?_⟩
    rw [RingConfig.eq_place hsize hm (s + k),react_self]
    exact hknows
  · refine ⟨h,hinformed,?_,Or.inl (List.cons_ne_nil _ _)⟩
    intro p hp
    cases List.mem_singleton.mp hp
    exact ⟨s,k + 1,Nat.succ_pos k,hk,hnext,rfl⟩

/-- The winner of a completed election starts on its way round, or it is the only node. -/
theorem NodeOk.sendElectedMessage {r : RingReaction ν} {s : ℕ} {w : ν} (h : NodeOk cfg (cfg.order.place s) r.node)
    (htop : cfg.IsTop w) (hknows : r.node.Informed) :
    Proper cfg c (cfg.order.place s) { r with sent := r.node.sendElectedMessage w } := by
  have hnext := h.nextNode s rfl
  unfold RingElection.sendElectedMessage
  split
  · rename_i hself
    have hsize := h.size_eq_one hself
    refine ⟨h,fun _ => hknows,fun p hp => absurd hp List.not_mem_nil,Or.inr fun m hm => ?_⟩
    rw [RingConfig.eq_place hsize hm s,react_self]
    exact hknows
  · refine ⟨h,fun _ => hknows,?_,Or.inl (List.cons_ne_nil _ _)⟩
    intro p hp
    cases List.mem_singleton.mp hp
    refine ⟨s,1,w,Nat.one_pos,cfg.order.size_pos,hnext,h.nodeId,rfl,htop,fun j hj => ?_⟩
    cases Nat.lt_one_iff.mp hj
    rw [Nat.add_zero,react_self]
    exact hknows

theorem NodeOk.start {i : ν} {n : RingElection ν} (h : NodeOk cfg i n) : NodeOk cfg i n.start := by
  unfold RingElection.start
  split
  · exact h
  · exact ⟨h.nodeId,h.nextNode,h.leader,h.flag⟩

theorem NodeOk.stop {i : ν} {n : RingElection ν} (h : NodeOk cfg i n) : NodeOk cfg i n.stop := by
  unfold RingElection.stop
  dsimp only
  split
  · exact ⟨h.nodeId,h.nextNode,h.leader,fun hflag => nomatch hflag⟩
  · exact ⟨h.nodeId,h.nextNode,h.leader,h.flag⟩

theorem NodeOk.participate {i : ν} {n : RingElection ν} (h : NodeOk cfg i n) :
    NodeOk cfg i { n with inElection := true } := ⟨h.nodeId,h.nextNode,h.leader,h.flag⟩

theorem Sound.startElection (h : c.Sound cfg) {i : ν} (hi : i ∈ cfg.members) (hidle : (c.nodes i).inElection = false) :
    Proper cfg c i (c.nodes i).startElection := by
  have hnode := h.nodes i hi
  obtain ⟨s,rfl⟩ := cfg.order.exists_place (RingConfig.mem_order.mpr hi)
  have harc : [(c.nodes (cfg.order.place s)).nodeId] = cfg.order.arc s 1 := by
    rw [hnode.nodeId]
    exact (cfg.order.arc_one s).symm
  unfold RingElection.startElection
  rw [if_neg (by simp [hidle]),harc]
  exact NodeOk.sendElectionMessage (s := s) (k := 0) hnode.participate id cfg.order.size_pos

/-- After one turn the receiver finds itself among the candidates, and before that it does not. -/
theorem Sound.handleElectionMessage (h : c.Sound cfg) {p : RingPacket ν} (hp : ElectionOk cfg p)
    (hrunning : (c.nodes p.destination).running = true) :
    Proper cfg c p.destination ((c.nodes p.destination).handleElectionMessage p.message) := by
  obtain ⟨s,k,hpos,hk,hd,hcandidates⟩ := hp
  have hnode := h.nodes p.destination (hd ▸ RingConfig.place_mem _)
  rw [hd] at hnode hrunning ⊢
  have hturn : (c.nodes (cfg.order.place (s + k))).nodeId ∈ p.message.candidates ↔ k = cfg.order.size := by
    rw [hnode.nodeId,hcandidates]
    exact cfg.order.place_mem_arc hpos hk
  unfold RingElection.handleElectionMessage
  rw [if_neg (by simp [hrunning])]
  by_cases hfull : k = cfg.order.size
  · rw [if_pos (hturn.mpr hfull)]
    cases hmax : p.message.candidates.max? with
    | none =>
      have hmem := hturn.mpr hfull
      rw [List.max?_eq_none_iff.mp hmax] at hmem
      exact absurd hmem List.not_mem_nil
    | some w =>
      rw [hcandidates,hfull] at hmax
      have htop := RingConfig.isTop_max hmax
      obtain ⟨hok,hknows,hnext,-⟩ := hnode.electionComplete htop
      exact hok.sendElectedMessage htop hknows
  · have harc : p.message.candidates ++ [(c.nodes (cfg.order.place (s + k))).nodeId] = cfg.order.arc s (k + 1) := by
      rw [hnode.nodeId,hcandidates,cfg.order.arc_succ]
    rw [if_neg fun hmem => hfull (hturn.mp hmem),harc]
    exact NodeOk.sendElectionMessage hnode.participate id (by omega)

/-- An ELECTED message is back at the node that sent it first after exactly one turn. -/
theorem Sound.handleElectedMessage (h : c.Sound cfg) {p : RingPacket ν} (hp : c.ElectedOk cfg p)
    (ht : p.message.type = .elected) :
    Proper cfg c p.destination ((c.nodes p.destination).handleElectedMessage p.message) := by
  obtain ⟨s,k,w,hpos,hk,hd,hs,hcandidates,htop,hall⟩ := hp
  have hnode := h.nodes p.destination (hd ▸ RingConfig.place_mem _)
  rw [hd] at hnode ⊢
  have hback : p.message.senderId = (c.nodes (cfg.order.place (s + k))).nodeId ↔ k = cfg.order.size := by
    rw [hnode.nodeId,hs]
    exact (cfg.order.place_add_eq_iff hpos hk).trans (and_iff_right rfl)
  unfold RingElection.handleElectedMessage
  rw [hcandidates]
  dsimp only
  by_cases hfull : k = cfg.order.size
  · rw [if_pos (hback.mpr hfull)]
    refine ⟨hnode,id,fun p hp => absurd hp List.not_mem_nil,Or.inr fun m hm => ?_⟩
    obtain ⟨j,hj,rfl⟩ := cfg.order.mem_arc.mp ((cfg.order.mem_arc_size (s := s)).mpr (RingConfig.mem_order.mpr hm))
    exact react_informed id _ (hall j (hfull ▸ hj))
  · rw [if_neg fun heq => hfull (hback.mp heq)]
    obtain ⟨hok,hknows,-,-⟩ := hnode.electionComplete htop
    refine ⟨hok,fun _ => hknows,?_,Or.inl (List.cons_ne_nil _ _)⟩
    intro p' hp'
    cases List.mem_singleton.mp hp'
    unfold PacketOk
    rw [ht]
    refine ⟨s,k + 1,w,Nat.succ_pos k,by omega,hnode.nextNode (s + k) rfl,hs,hcandidates,htop,fun j hj => ?_⟩
    rcases Nat.lt_succ_iff_lt_or_eq.mp hj with hj | rfl
    · exact react_informed (fun _ => hknows) _ (hall j hj)
    · rw [react_self]
      exact hknows

/-- A message that is delivered to a running node, or is an ELECTED message, is acted upon. -/
theorem Sound.handleMessage (h : c.Sound cfg) {p : RingPacket ν} (hp : c.PacketOk cfg p)
    (hrunning : (c.nodes p.destination).running = true) :
    Proper cfg c p.destination ((c.nodes p.destination).handleMessage p.message) := by
  unfold PacketOk at hp
  unfold RingElection.handleMessage
  cases ht : p.message.type with
  | election =>
    rw [ht] at hp
    exact h.handleElectionMessage hp hrunning
  | elected =>
    rw [ht] at hp
    exact h.handleElectedMessage hp ht

theorem Sound.react {c : RingCluster ν} (h : c.Sound cfg) {i : ν} {r : RingReaction ν} (hnode : NodeOk cfg i r.node)
    (hinformed : (c.nodes i).Informed → r.node.Informed) (hsent : ∀ p ∈ r.sent, (c.react i r).PacketOk cfg p) :
    (c.react i r).Sound cfg := by
  constructor
  · intro j hj
    by_cases hji : j = i
    · subst j
      rw [react_self]
      exact hnode
    · rw [react_ne c r hji]
      exact h.nodes j hj
  · intro p hp
    rcases List.mem_append.mp hp with hp | hp
    · exact (h.packets p hp).mono (react_informed hinformed)
    · exact hsent p hp

theorem startElection_busy {n : RingElection ν} (h : n.inElection = true) : n.startElection = ⟨n,[],[]⟩ := if_pos h

/-- A stopped node ignores an election message. -/
theorem handleMessage_stopped {n : RingElection ν} {message : RingMessage ν} (ht : message.type = .election)
    (hstopped : n.running = false) : n.handleMessage message = ⟨n,[],[]⟩ := by
  unfold RingElection.handleMessage RingElection.handleElectionMessage
  simp [ht,hstopped]

theorem Sound.setNetwork (h : c.Sound cfg) (network : List (RingPacket ν)) (hsub : ∀ p ∈ network, p ∈ c.network) :
    ({ c with network := network } : RingCluster ν).Sound cfg :=
  ⟨h.nodes,fun p hp => (h.packets p (hsub p hp)).mono fun _ hi => hi⟩

theorem Sound.deliver (h : c.Sound cfg) {p : RingPacket ν} (hp : c.PacketOk cfg p) :
    (c.react p.destination ((c.nodes p.destination).handleMessage p.message)).Sound cfg := by
  cases hrunning : (c.nodes p.destination).running with
  | true =>
    have hproper := h.handleMessage hp hrunning
    exact h.react hproper.node hproper.informed hproper.sent
  | false =>
    cases ht : p.message.type with
    | election =>
      rw [handleMessage_stopped ht hrunning,react_silent]
      exact h
    | elected =>
      unfold PacketOk at hp
      unfold RingElection.handleMessage
      rw [ht] at hp ⊢
      have hproper := h.handleElectedMessage hp ht
      exact h.react hproper.node hproper.informed hproper.sent

theorem Sound.step {c : RingCluster ν} (h : c.Sound cfg) (a : RingAction ν) : (c.step cfg a).Sound cfg := by
  have hset : ∀ {i : ν} {n : RingElection ν}, NodeOk cfg i n → ((c.nodes i).Informed → n.Informed) →
      (c.setNode i n).Sound cfg := by
    intro i n hn hinformed
    have hreact := h.react (r := ⟨n,[],[]⟩) hn hinformed fun _ hp => absurd hp List.not_mem_nil
    simpa [RingCluster.react,setNode] using hreact
  unfold RingCluster.step
  cases a with
  | start i =>
    dsimp only
    split
    · rename_i hi
      exact hset (h.nodes i hi).start (by rw [RingElection.informed_start]; exact id)
    · exact h
  | startElection i =>
    dsimp only
    split
    · rename_i hi
      cases hidle : (c.nodes i).inElection with
      | false =>
        have hproper := h.startElection hi hidle
        have hreact := h.react hproper.node hproper.informed hproper.sent
        exact ⟨hreact.nodes,hreact.packets⟩
      | true =>
        rw [startElection_busy hidle,react_silent]
        exact ⟨h.nodes,h.packets⟩
    · exact h
  | stop i =>
    dsimp only
    split
    · rename_i hi
      exact hset (h.nodes i hi).stop (by rw [RingElection.informed_stop]; exact id)
    · exact h
  | deliver k =>
    dsimp only
    split
    · rename_i p hp
      have hrest := h.setNetwork (c.network.eraseIdx k) fun _ hq => List.mem_of_mem_eraseIdx hq
      exact hrest.deliver ((h.packets p (List.mem_of_getElem? hp)).mono fun _ hi => hi)
    · exact h
  | duplicate k =>
    refine h.setNetwork _ fun p hp => ?_
    rcases List.mem_append.mp hp with hp | hp
    · exact hp
    · exact List.mem_of_getElem? (Option.mem_toList.mp hp)
  | drop k => exact h.setNetwork _ fun _ hp => List.mem_of_mem_eraseIdx hp

/-- No message is lost, neither on its way nor at a node that has stopped. -/
def Lossless (c : RingCluster ν) : RingAction ν → Prop
  | .deliver k => ∀ p ∈ c.network[k]?, (c.nodes p.destination).running = true
  | .drop k => c.network[k]? = none
  | _ => True

instance (c : RingCluster ν) : ∀ a, Decidable (c.Lossless a)
  | .deliver k => inferInstanceAs (Decidable (∀ p ∈ c.network[k]?, (c.nodes p.destination).running = true))
  | .drop k => inferInstanceAs (Decidable (c.network[k]? = none))
  | .start _ | .startElection _ | .stop _ | .duplicate _ => isTrue trivial

/-- A node that acts sends a message or is the last to be informed. -/
theorem Proper.inFlight {c : RingCluster ν} {i : ν} {r : RingReaction ν} (h : Proper cfg c i r) :
    (c.react i r).network ≠ [] ∨ ∀ m ∈ cfg.members, ((c.react i r).nodes m).Informed :=
  h.busy.imp_left fun hsent hempty => hsent (List.append_eq_nil_iff.mp hempty).2

theorem Busy.setNode {c : RingCluster ν} (h : c.Busy cfg) {i : ν} {n : RingElection ν}
    (hn : n.Informed ↔ (c.nodes i).Informed) : (c.setNode i n).Busy cfg := by
  intro helections
  refine (h helections).imp_right fun hall j hj => ?_
  exact react_informed (r := ⟨n,[],[]⟩) hn.mpr j (hall j hj)

theorem Busy.step {c : RingCluster ν} (h : c.Sound cfg) (hbusy : c.Busy cfg) {a : RingAction ν}
    (hguard : c.Lossless a) : (c.step cfg a).Busy cfg := by
  unfold RingCluster.step
  cases a with
  | start i =>
    dsimp only
    split
    · exact hbusy.setNode (c.nodes i).informed_start
    · exact hbusy
  | startElection i =>
    dsimp only
    split
    · rename_i hi
      intro helections
      cases hidle : (c.nodes i).inElection with
      | false => exact (h.startElection hi hidle).inFlight
      | true =>
        simp only [hidle,if_true] at helections
        rw [startElection_busy hidle,react_silent]
        exact hbusy helections
    · exact hbusy
  | stop i =>
    dsimp only
    split
    · exact hbusy.setNode (c.nodes i).informed_stop
    · exact hbusy
  | deliver k =>
    dsimp only
    split
    · rename_i p hp
      intro _
      have hrest := h.setNetwork (c.network.eraseIdx k) fun _ hq => List.mem_of_mem_eraseIdx hq
      exact (hrest.handleMessage ((h.packets p (List.mem_of_getElem? hp)).mono fun _ hi => hi) (hguard p hp)).inFlight
    · exact hbusy
  | duplicate k =>
    exact fun helections => (hbusy helections).imp_left fun hne hempty => hne (List.append_eq_nil_iff.mp hempty).1
  | drop k =>
    have hsame : c.network.eraseIdx k = c.network := List.eraseIdx_of_length_le (List.getElem?_eq_none_iff.mp hguard)
    simpa [Busy,hsame] using hbusy

/-- Nobody knows another leader than the largest id, and nobody else has the flag of a leader. -/
def Safe (cfg : RingConfig ν) (c : RingCluster ν) : Prop :=
  ∀ i ∈ cfg.members, (∀ w ∈ (c.nodes i).currentLeader, cfg.IsTop w) ∧ ((c.nodes i).isLeaderFlag = true → cfg.IsTop i)

def Agreed (cfg : RingConfig ν) (c : RingCluster ν) : Prop :=
  ∀ i ∈ cfg.members, ∃ w ∈ (c.nodes i).currentLeader, cfg.IsTop w

/-- Every known leader is the largest id, and where no message is lost everybody knows it when
no message is in flight after an election has been initiated. -/
theorem ring_agreement (cfg : RingConfig ν) (schedule : List (RingAction ν)) :
    (run (step cfg) (init cfg) schedule).Safe cfg ∧
    (Along (step cfg) Lossless (init cfg) schedule → (run (step cfg) (init cfg) schedule).elections ≠ 0 →
      (run (step cfg) (init cfg) schedule).network = [] → (run (step cfg) (init cfg) schedule).Agreed cfg) := by
  have hsound := run_invariant_of_step (I := Sound cfg) (fun _ a hs => hs.step a) (sound_init cfg) schedule
  refine ⟨fun i hi => ⟨(hsound.nodes i hi).leader,(hsound.nodes i hi).flag⟩,fun hguard helections hempty i hi => ?_⟩
  have hbusy := run_invariant (I := fun c => c.Sound cfg ∧ c.Busy cfg)
    (fun _ a hs ha => ⟨hs.1.step a,hs.2.step hs.1 ha⟩) ⟨sound_init cfg,fun hz => absurd rfl hz⟩ hguard
  have hall := (hbusy.2 helections).resolve_left fun hne => hne hempty
  obtain ⟨w,hw⟩ := Option.ne_none_iff_exists'.mp (hall i hi)
  exact ⟨w,hw,(hsound.nodes i hi).leader w hw⟩

/-- Two elections at once on three nodes, with a duplicate of the first message. -/
theorem ring_agreement_two_elections :
    let cfg : RingConfig ℕ := ⟨[2,3,1],by decide⟩
    let schedule := [.start 1,.start 2,.start 3,.startElection 1,.startElection 3,.duplicate 0] ++
      List.replicate 18 (.deliver 0)
    (run (step cfg) (init cfg) schedule).Agreed cfg := by
  intro cfg schedule
  have hguard : Along (step cfg) Lossless (init cfg) schedule := by decide +kernel
  exact (ring_agreement cfg schedule).2 hguard (by decide +kernel) (by decide +kernel)

end RingCluster

end DistributedSystems.Election
