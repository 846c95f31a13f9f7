import DistributedSystems.Gossip.GossipNode
import DistributedSystems.Gossip.Push

/-! # Nodes refine stores

To the stores, a run of nodes is a run of stores that push all they have and merge entries one
by one: a packet with entries is some of what its sender could have pushed. Values that JSON
gives back unchanged arrive as they were written.
-/
namespace DistributedSystems.Gossip
open Runs

variable {V T C : Type}

/-- The entries that a message carries. -/
def Payload.entries : Payload V T → List (StateEntry String String V T)
  | .push entries _ => entries
  | .pullResponse entries _ => entries
  | _ => []

/-- The membership records that a message carries. -/
def Payload.members : Payload V T → List MemberData
  | .push _ membership => membership
  | .pullResponse _ membership => membership
  | _ => []

/-- JSON gives the value of an entry back unchanged. -/
def StateEntry.Plain (json : V → V) (e : StateEntry String String V T) : Prop := e.value.map json = e.value

theorem StateEntry.Plain.reread_eq {json : V → V} {e : StateEntry String String V T} (h : e.Plain json) :
    e.reread json = e := by
  unfold StateEntry.reread
  rw [h]

theorem StateEntry.map_reread {json : V → V} {entries : List (StateEntry String String V T)}
    (h : ∀ e ∈ entries, e.Plain json) : entries.map (StateEntry.reread json) = entries :=
  (List.map_congr_left fun e he => (h e he).reread_eq).trans (List.map_id _)

theorem GossipMessage.reread_of_plain {json : V → V} {msg : GossipMessage V T}
    (h : ∀ e ∈ msg.payload.entries, e.Plain json) : msg.reread json = msg := by
  obtain ⟨senderId,payload⟩ := msg
  cases payload with
  | push entries membership =>
    exact congrArg (fun entries => (⟨senderId,.push entries membership⟩ : GossipMessage V T)) (StateEntry.map_reread h)
  | pullResponse entries membership =>
    exact congrArg (fun entries => (⟨senderId,.pullResponse entries membership⟩ : GossipMessage V T))
      (StateEntry.map_reread h)
  | pullRequest | ping | ack | pingReq => rfl

theorem StateStore.mem_getDelta {s : StateStore String String V T} {digest : Dict String ℕ}
    {entry : StateEntry String String V T} (h : entry ∈ s.getDelta digest) : entry ∈ s.getAllEntries := by
  obtain ⟨e,he,rfl⟩ := List.mem_map.mp h
  exact List.mem_map_of_mem (List.mem_filter.mp he).1

namespace GossipNode
variable (n : GossipNode V T C)

theorem handleEntries_stateStore (entries : List (StateEntry String String V T)) (remoteMembers : List MemberData) :
    (n.handleEntries entries remoteMembers).node.stateStore = n.stateStore.mergeEntries entries := rfl

/-- A message leaves the store with its entries merged. -/
theorem handleMessage_stateStore [Sub T] (now : T) (msg : GossipMessage V T) (source : Address) :
    (n.handleMessage now msg source).node.stateStore = n.stateStore.mergeEntries msg.payload.entries := by
  unfold handleMessage
  cases msg.payload with
  | push entries membership => exact handleEntries_stateStore _ entries membership
  | pullResponse entries membership => exact handleEntries_stateStore _ entries membership
  | pullRequest | ping | ack | pingReq => rfl

/-- An answer carries entries of the store that a message with no entries has left alone. -/
theorem handleMessage_packets [Sub T] (now : T) (msg : GossipMessage V T) (source : Address) :
    ∀ p ∈ (n.handleMessage now msg source).packets, msg.payload.entries = [] ∧
      ∀ e ∈ p.message.payload.entries, e ∈ n.stateStore.getAllEntries := by
  unfold handleMessage
  cases msg.payload with
  | push | pullResponse | ack | pingReq => exact fun _ hp => absurd hp List.not_mem_nil
  | pullRequest digest =>
    intro p hp
    rw [List.mem_singleton.mp hp]
    exact ⟨rfl,fun e he => StateStore.mem_getDelta he⟩
  | ping =>
    intro p hp
    rw [List.mem_singleton.mp hp]
    exact ⟨rfl,fun e he => absurd he List.not_mem_nil⟩

/-- A round sends whole stores and digests. -/
theorem performGossipRound_packets (peers : List Member) :
    ∀ p ∈ (n.performGossipRound peers).packets, ∀ e ∈ p.message.payload.entries, e ∈ n.stateStore.getAllEntries := by
  intro p hp e he
  obtain ⟨m,hm,rfl⟩ := List.mem_map.mp hp
  obtain ⟨peer,-,hm⟩ := List.mem_flatMap.mp hm
  rcases List.mem_append.mp hm with hm | hm
  · split at hm
    · rw [List.mem_singleton.mp hm] at he
      exact he
    · exact absurd hm List.not_mem_nil
  · split at hm
    · rw [List.mem_singleton.mp hm] at he
      exact absurd he List.not_mem_nil
    · exact absurd hm List.not_mem_nil

end GossipNode

/-- The stores are those of the nodes, and all entries on their way in packets are on theirs. -/
structure Simulates (json : V → V) (g : GossipNodes V T C) (c : GossipCluster String String V T) : Prop where
  stores : ∀ i, (g.nodes i).stateStore = c.stores i
  network : ∀ p ∈ g.network, ∀ e ∈ p.message.payload.entries, e ∈ c.network
  plain : ∀ e ∈ c.written, e.Plain json

/-- A call that sets no value but one that JSON gives back unchanged. -/
def NodeAction.Plain (json : V → V) : NodeAction V T C → Prop
  | .set _ _ _ value => value.map json = value
  | _ => True

namespace GossipCluster
variable {c : GossipCluster String String V T}

/-- Entries on their way can be merged one after the other. -/
theorem exists_merges (i : String) {entries : List (StateEntry String String V T)} (h : ∀ e ∈ entries, e ∈ c.network) :
    ∃ schedule, (run step c schedule).stores = Function.update c.stores i ((c.stores i).mergeEntries entries) ∧
      (run step c schedule).network = c.network ∧ (run step c schedule).written = c.written := by
  induction entries generalizing c with
  | nil => exact ⟨[],(Function.update_eq_self i c.stores).symm,rfl,rfl⟩
  | cons entry rest ih =>
    obtain ⟨k,hk⟩ := List.getElem?_of_mem (h entry List.mem_cons_self)
    have hstep : c.step (.merge i k) = c.offer i ((c.stores i).merge entry).1 entry := by simp only [step,hk]
    obtain ⟨schedule,hstores,hnetwork,hwritten⟩ :=
      ih (c := c.step (.merge i k)) fun e he => by rw [hstep]; exact h e (List.mem_cons_of_mem _ he)
    refine ⟨.merge i k :: schedule,?_,hnetwork.trans (by rw [hstep]; rfl),hwritten.trans (by rw [hstep]; rfl)⟩
    rw [run_cons,hstores,hstep]
    simp [offer,StateStore.mergeEntries]

theorem step_delete (c : GossipCluster String String V T) (i : String) (now : T) (key : String) :
    (c.step (.delete i now key)).stores = Function.update c.stores i ((c.stores i).delete now key).1 ∧
      (c.step (.delete i now key)).network = c.network ∧
      ∀ e ∈ (c.step (.delete i now key)).written, e ∈ c.written ∨ e.value = none := by
  cases h : (c.stores i).getEntry key with
  | none => simpa [step,StateStore.delete,h] using fun _ he => Or.inl he
  | some existing =>
    cases ht : existing.tombstone with
    | true => simpa [step,StateStore.delete,h,ht] using fun _ he => Or.inl he
    | false =>
      simp only [step,StateStore.delete,h,ht,wrote,offer]
      refine ⟨rfl,rfl,fun e he => ?_⟩
      rcases List.mem_append.mp he with he | he
      · exact Or.inl he
      · rw [List.mem_singleton.mp he]
        exact Or.inr rfl

end GossipCluster

namespace Simulates
variable {json : V → V} {g : GossipNodes V T C} {c : GossipCluster String String V T}

theorem init (cfg : GossipConfig V T) :
    Simulates cfg.json (GossipNodes.init cfg : GossipNodes V T C) (.init String String V T) :=
  ⟨fun _ => rfl,fun _ hp => absurd hp List.not_mem_nil,fun _ he => absurd he List.not_mem_nil⟩

theorem put {c' : GossipCluster String String V T} (h : Simulates json g c) {i : String} {e : Effect V T C}
    (hstores : c'.stores = Function.update c.stores i e.node.stateStore) (hold : ∀ x ∈ c.network, x ∈ c'.network)
    (hnew : ∀ p ∈ e.packets, ∀ x ∈ p.message.payload.entries, x ∈ c'.network)
    (hplain : ∀ x ∈ c'.written, x.Plain json) : Simulates json (g.put i e) c' := by
  refine ⟨?_,?_,hplain⟩
  · intro j
    rw [hstores]
    by_cases hj : j = i
    · subst hj
      simp [GossipNodes.put]
    · simp [GossipNodes.put,hj,h.stores j]
  · intro p hp x hx
    rcases List.mem_append.mp hp with hp | hp
    · exact hold x (h.network p hp x hx)
    · exact hnew p hp x hx

/-- A call that keeps the store, and sends some of it. -/
theorem keep (h : Simulates json g c) {i : String} {e : Effect V T C} (hstore : e.node.stateStore = (g.nodes i).stateStore)
    (hnew : ∀ p ∈ e.packets, ∀ x ∈ p.message.payload.entries, x ∈ (g.nodes i).stateStore.getAllEntries) :
    ∃ schedule, Simulates json (g.put i e) (run GossipCluster.step c schedule) := by
  refine ⟨[.push i],h.put ?_ (fun x hx => List.mem_append_left _ hx) (fun p hp x hx => List.mem_append_right _ ?_) h.plain⟩
  · rw [hstore,h.stores,Function.update_eq_self]
    rfl
  · rw [← h.stores]
    exact hnew p hp x hx

/-- A call that writes to the store as an action of the stores does. -/
theorem write (h : Simulates json g c) {i : String} {e : Effect V T C} (a : GossipAction String String V T)
    (hstores : (c.step a).stores = Function.update c.stores i e.node.stateStore) (hnetwork : (c.step a).network = c.network)
    (hwritten : ∀ x ∈ (c.step a).written, x ∈ c.written ∨ x.Plain json) (hnone : e.packets = []) :
    ∃ schedule, Simulates json (g.put i e) (run GossipCluster.step c schedule) :=
  ⟨[a],h.put hstores (fun _ hx => hnetwork ▸ hx) (fun _ hp => absurd hp (hnone ▸ List.not_mem_nil))
    fun x hx => (hwritten x hx).elim (h.plain x) id⟩

/-- The run of the stores goes on as the nodes do. -/
theorem step [Sub T] {cfg : GossipConfig V T} (h : Simulates cfg.json g c) (hc : c.Stamped) {a : NodeAction V T C}
    (ha : a.Plain cfg.json) : ∃ schedule, Simulates cfg.json (g.step cfg a) (run GossipCluster.step c schedule) := by
  unfold GossipNodes.step
  split
  case isFalse => exact ⟨[],h⟩
  cases a with
  | start i => exact h.keep (i := i) rfl fun _ hp => absurd hp List.not_mem_nil
  | set i now key value =>
    refine h.write (.set i now key value) ?_ rfl (fun x hx => ?_) rfl
    · change Function.update c.stores i ((c.stores i).set now key value).1 = _
      rw [← h.stores]
      rfl
    · rcases List.mem_append.mp hx with hx | hx
      · exact Or.inl hx
      · rw [List.mem_singleton.mp hx]
        exact Or.inr ha
  | delete i now key =>
    obtain ⟨hstores,hnetwork,hwritten⟩ := c.step_delete i now key
    refine h.write (.delete i now key) (hstores.trans ?_) hnetwork (fun x hx => ?_) rfl
    · rw [← h.stores]
      rfl
    · refine (hwritten x hx).imp_right fun hnone => ?_
      rw [StateEntry.Plain,hnone]
      rfl
  | subscribe i pattern callback => exact h.keep (i := i) rfl fun _ hp => absurd hp List.not_mem_nil
  | gossipRound i peers =>
    simp only [GossipNodes.effect]
    by_cases hpeers : (g.nodes i).membership.Sampled (g.nodes i).gossipFanout peers
    · rw [if_pos hpeers]
      exact h.keep rfl ((g.nodes i).performGossipRound_packets peers)
    · rw [if_neg hpeers]
      exact ⟨[],h⟩
  | swim i target =>
    simp only [GossipNodes.effect]
    by_cases htarget : target ∈ (g.nodes i).membership.getAliveMembers
    · rw [if_pos htarget]
      refine h.keep rfl fun p hp x hx => ?_
      rw [List.mem_singleton.mp hp] at hx
      exact absurd hx List.not_mem_nil
    · rw [if_neg htarget]
      exact ⟨[],h⟩
  | deliver i k now =>
    simp only [GossipNodes.effect]
    cases hk : g.network[k]? with
    | none => exact ⟨[],h⟩
    | some p =>
      by_cases htarget : p.target = (g.nodes i).address
      · have hentries := h.network p (List.mem_of_getElem? hk)
        have hreread := GossipMessage.reread_of_plain fun e he => h.plain e (hc.network e (hentries e he))
        simp only [htarget,if_true,hreread]
        have hpackets := (g.nodes i).handleMessage_packets now p.message p.source
        have hstore := (g.nodes i).handleMessage_stateStore now p.message p.source
        by_cases hnone : ((g.nodes i).handleMessage now p.message p.source).packets = []
        · obtain ⟨schedule,hstores,hnetwork,hwritten⟩ := GossipCluster.exists_merges i hentries
          refine ⟨schedule,h.put ?_ (fun _ hx => hnetwork ▸ hx) (fun _ hp => absurd hp (hnone ▸ List.not_mem_nil))
            fun x hx => h.plain x (hwritten ▸ hx)⟩
          change _ = Function.update c.stores i _
          rw [hstores,hstore,h.stores]
        · obtain ⟨answer,hanswer⟩ := List.exists_mem_of_ne_nil _ hnone
          refine h.keep ?_ fun p hp => (hpackets p hp).2
          rw [hstore,(hpackets answer hanswer).1]
          rfl
      · simp only [htarget,if_false]
        exact ⟨[],h⟩

end Simulates

/-- Every run of nodes is one of stores. -/
theorem simulates_run [Sub T] (cfg : GossipConfig V T) {schedule : List (NodeAction V T C)}
    (hplain : ∀ a ∈ schedule, a.Plain cfg.json) :
    ∃ c, GossipCluster.Stamped c ∧ Simulates cfg.json (run (GossipNodes.step cfg) (GossipNodes.init cfg) schedule) c := by
  refine run_invariant (I := fun g => ∃ c, GossipCluster.Stamped c ∧ Simulates cfg.json g c) ?_
    ⟨_,GossipCluster.stamped_init,Simulates.init cfg⟩ (along_of_forall hplain _)
  rintro g a ⟨c,hc,h⟩ ha
  obtain ⟨schedule',h'⟩ := h.step hc ha
  exact ⟨_,run_invariant_of_step (fun _ a hs => hs.step a) hc schedule',h'⟩

end DistributedSystems.Gossip
