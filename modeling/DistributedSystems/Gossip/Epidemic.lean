import DistributedSystems.Gossip.NodeRefinement
import DistributedSystems.Gossip.Pull
import DistributedSystems.Protocol.Dissemination
import Mathlib.Order.CompletePartialOrder

/-! # Epidemic convergence

While nobody writes, stores only take over what others hold. News of a node travels with push
messages; pulls and answers bring less, and do no harm. A node that news of all has reached
holds the newest entry that anybody held for each key, if JSON gives all values back unchanged.
-/
namespace DistributedSystems.Gossip
open Runs Dissemination

variable {V T C : Type}

/-- The keys with the stamps up to the entry of each: what a store has caught up with. -/
def StateStore.covered (s : StateStore String String V T) : Set (String × (ℕ ×ₗ String)) :=
  {x | ∃ e, s.getEntry x.1 = some e ∧ x.2 ≤ e.stamp}

/-- The same of entries that are sent. -/
def coveredBy (entries : List (StateEntry String String V T)) : Set (String × (ℕ ×ₗ String)) :=
  {x | ∃ e ∈ entries, e.key = x.1 ∧ x.2 ≤ e.stamp}

namespace StateStore
variable (s : StateStore String String V T)

theorem covered_merge (entry : StateEntry String String V T) :
    (s.merge entry).1.covered = s.covered ∪ coveredBy [entry] := by
  ext x
  simp only [covered,coveredBy,Set.mem_ofPred_eq,Set.mem_union,List.mem_singleton,exists_eq_left,getEntry_merge]
  by_cases hk : x.1 = entry.key
  · rw [if_pos hk]
    cases hx : s.getEntry x.1 with
    | none => simp [hk]
    | some existing =>
      simp only [Option.merge_some_some,Option.some.injEq,exists_eq_left',hk,true_and]
      constructor
      · intro hle
        rcases newest_eq_or StateEntry.stamp existing entry with heq | heq
        · exact Or.inl (heq ▸ hle)
        · exact Or.inr (heq ▸ hle)
      · rintro (hle | hle)
        · exact hle.trans (le_newest StateEntry.stamp existing entry)
        · exact hle.trans (right_le_newest StateEntry.stamp existing entry)
  · rw [if_neg hk]
    simp [Ne.symm hk]

theorem covered_mergeEntries (entries : List (StateEntry String String V T)) :
    (s.mergeEntries entries).covered = s.covered ∪ coveredBy entries := by
  induction entries generalizing s with
  | nil => simp [mergeEntries,coveredBy]
  | cons entry rest ih =>
    have hcons : coveredBy (entry :: rest) = coveredBy [entry] ∪ coveredBy rest := by
      ext x
      simp [coveredBy]
    rw [hcons,← Set.union_assoc,← covered_merge]
    exact ih _

variable {s}

/-- All entries of a store cover what the store covers. -/
theorem Keyed.covered_eq (h : s.Keyed) : s.covered = coveredBy s.getAllEntries := by
  ext x
  constructor
  · rintro ⟨e,he,hle⟩
    exact ⟨e,List.mem_map_of_mem (Dict.mem_entries_iff.mpr he),h _ e he,hle⟩
  · rintro ⟨e,he,hkey,hle⟩
    obtain ⟨key,hget⟩ := mem_getAllEntries he
    rw [h key e hget] at hkey
    exact ⟨e,hkey ▸ hget,hle⟩

theorem Keyed.merge (h : s.Keyed) (entry : StateEntry String String V T) : (s.merge entry).1.Keyed := by
  intro key e he
  rw [getEntry_merge] at he
  split at he
  · rename_i hk
    rcases Option.merge_eq_or_eq (newest_eq_or StateEntry.stamp) (s.getEntry key) (some entry) with hl | hr
    · exact h key e (hl ▸ he)
    · rw [hr] at he
      rw [← Option.some.inj he,hk]
  · exact h key e he

theorem Keyed.mergeEntries (h : s.Keyed) (entries : List (StateEntry String String V T)) :
    (s.mergeEntries entries).Keyed := by
  induction entries generalizing s with
  | nil => exact h
  | cons entry rest ih => exact ih (h.merge entry)

end StateStore

/-- JSON leaves keys and stamps alone. -/
@[simp] theorem coveredBy_reread (json : V → V) (msg : GossipMessage V T) :
    coveredBy (msg.reread json).payload.entries = coveredBy msg.payload.entries := by
  have hmap : ∀ entries : List (StateEntry String String V T),
      coveredBy (entries.map (StateEntry.reread json)) = coveredBy entries := by
    intro entries
    ext x
    simp [coveredBy,StateEntry.reread,StateEntry.stamp]
  unfold GossipMessage.reread
  cases msg.payload with
  | push entries membership | pullResponse entries membership => exact hmap entries
  | pullRequest | ping | ack | pingReq => rfl

theorem coveredBy_mono {entries entries' : List (StateEntry String String V T)} (h : ∀ e ∈ entries, e ∈ entries') :
    coveredBy entries ⊆ coveredBy entries' := fun _ ⟨e,he,hx⟩ => ⟨e,h e he,hx⟩

/-- A push message has the news of its sender. -/
def Packet.event (i : String) (p : Packet V T) : Event String :=
  match p.message.payload with
  | .push _ _ => .put i
  | _ => .blank

/-- A call that no key changes by. -/
def NodeAction.Writes : NodeAction V T C → Prop
  | .set .. => True
  | .delete .. => True
  | _ => False

theorem NodeAction.plain_of_quiet {json : V → V} {a : NodeAction V T C} (h : ¬a.Writes) : a.Plain json := by
  cases a with
  | set => exact absurd trivial h
  | start | delete | subscribe | gossipRound | swim | deliver => trivial

namespace GossipNodes

/-- The message that an action takes in, then those it sends. -/
def events [Sub T] (cfg : GossipConfig V T) (g : GossipNodes V T C) (a : NodeAction V T C) : List (Event String) :=
  if actor a ∈ cfg.members then
    match g.effect cfg a with
    | none => []
    | some e =>
      (match a with
        | .deliver i k _ => [.get i k]
        | _ => []) ++ e.packets.map (Packet.event (actor a))
  else []

/-- The cluster, together with who has heard of whom. -/
def informed [Sub T] (cfg : GossipConfig V T) (s : GossipNodes V T C × News String) (a : NodeAction V T C) :
    GossipNodes V T C × News String := (s.1.step cfg a,s.2.steps (events cfg s.1 a))

/-- Who has heard of whom since the cluster was in a state. -/
def news [Sub T] (cfg : GossipConfig V T) (g : GossipNodes V T C) (schedule : List (NodeAction V T C)) : News String :=
  (run (informed cfg) (g,News.init String g.network.length) schedule).2

theorem run_informed_fst [Sub T] (cfg : GossipConfig V T) (s : GossipNodes V T C × News String)
    (schedule : List (NodeAction V T C)) : (run (informed cfg) s schedule).1 = run (step cfg) s.1 schedule := by
  induction schedule generalizing s with
  | nil => rfl
  | cons a rest ih => exact ih _

end GossipNodes

section Spreading
variable {σ : Type*} [Preorder σ] (known : GossipNode V T C → σ) (value : Packet V T → σ) {start : String → σ}
  {g : GossipNodes V T C} {n : News String}

/-- Packets of a node whose push messages carry what it knows. -/
theorem tracks_packets {messages : List σ} {nodes : String → GossipNode V T C} (i : String)
    (h : Tracks start (fun j => known (nodes j)) messages n) {packets : List (Packet V T)}
    (hpush : ∀ p ∈ packets, p.event i = .put i → known (nodes i) ≤ value p) :
    Tracks start (fun j => known (nodes j)) (messages ++ packets.map value) (n.steps (packets.map (Packet.event i))) := by
  induction packets generalizing messages n with
  | nil => simpa using h
  | cons p rest ih =>
    have hfirst : Tracks start (fun j => known (nodes j)) (messages ++ [value p]) (n.step (p.event i)) := by
      cases hp : p.event i with
      | put j =>
        obtain rfl : j = i := by
          unfold Packet.event at hp
          split at hp
          · exact (Event.put.inj hp).symm
          · cases hp
        exact h.put (hpush p List.mem_cons_self hp)
      | blank => exact h.blank _
      | get j k =>
        unfold Packet.event at hp
        split at hp <;> cases hp
    have hrest := ih hfirst fun q hq => hpush q (List.mem_cons_of_mem _ hq)
    simpa using hrest

/-- A step spreads knowledge of a kind that calls do not lose, that push messages carry, and that
receivers take over. -/
theorem tracks_step [Sub T] (cfg : GossipConfig V T) {a : NodeAction V T C}
    (hgrow : ∀ e, g.effect cfg a = some e → known (g.nodes (GossipNodes.actor a)) ≤ known e.node)
    (hpush : ∀ e, g.effect cfg a = some e → ∀ p ∈ e.packets,
      p.event (GossipNodes.actor a) = .put (GossipNodes.actor a) → known e.node ≤ value p)
    (hget : ∀ i k now p, a = .deliver i k now → g.network[k]? = some p →
      value p ≤ known ((g.nodes i).handleMessage now (p.message.reread cfg.json) p.source).node)
    (h : Tracks start (fun j => known (g.nodes j)) (g.network.map value) n) :
    Tracks start (fun j => known ((g.step cfg a).nodes j)) ((g.step cfg a).network.map value)
      (n.steps (GossipNodes.events cfg g a)) := by
  unfold GossipNodes.step GossipNodes.events
  split
  case isFalse => exact h
  cases heffect : g.effect cfg a with
  | none => exact h
  | some e =>
    have hgrows : ∀ j, known (g.nodes j) ≤ known ((g.put (GossipNodes.actor a) e).nodes j) := by
      intro j
      by_cases hj : j = GossipNodes.actor a
      · subst hj
        simpa [GossipNodes.put] using hgrow e heffect
      · simp [GossipNodes.put,hj]
    have hself : (g.put (GossipNodes.actor a) e).nodes (GossipNodes.actor a) = e.node := by simp [GossipNodes.put]
    have hnetwork : (g.put (GossipNodes.actor a) e).network = g.network ++ e.packets := rfl
    rw [hnetwork,List.map_append,News.steps_append]
    refine tracks_packets known value (GossipNodes.actor a) ?_ fun p hp hput => hself ▸ hpush e heffect p hp hput
    cases a with
    | deliver i k now =>
      simp only [GossipNodes.effect] at heffect
      cases hk : g.network[k]? with
      | none => rw [hk] at heffect; cases heffect
      | some p =>
        simp only [hk] at heffect
        split at heffect
        · have hnode := hget i k now p rfl hk
          rw [Option.some.inj heffect] at hnode
          exact h.get (by simp [hk]) hgrows (hnode.trans_eq (congrArg known hself.symm))
        · cases heffect
    | start | set | delete | subscribe | gossipRound | swim => exact h.grow hgrows

end Spreading

/-- A call of a quiet phase merges the entries of a message or none, and what it sends it holds. -/
theorem effect_quiet [Sub T] {cfg : GossipConfig V T} {g : GossipNodes V T C} {a : NodeAction V T C}
    (hquiet : ¬a.Writes) {e : Effect V T C} (he : g.effect cfg a = some e) :
    (∃ entries, (entries = [] ∨ ∃ p ∈ g.network, entries = (p.message.reread cfg.json).payload.entries) ∧
      e.node.stateStore = (g.nodes (GossipNodes.actor a)).stateStore.mergeEntries entries) ∧
    ∀ p ∈ e.packets, ∀ x ∈ p.message.payload.entries,
      x ∈ (g.nodes (GossipNodes.actor a)).stateStore.getAllEntries := by
  cases a with
  | set | delete => exact absurd trivial hquiet
  | start | subscribe =>
    cases he
    exact ⟨⟨[],Or.inl rfl,rfl⟩,fun _ hp => absurd hp List.not_mem_nil⟩
  | gossipRound i peers =>
    simp only [GossipNodes.effect] at he
    split at he
    · cases he
      exact ⟨⟨[],Or.inl rfl,rfl⟩,(g.nodes i).performGossipRound_packets peers⟩
    · cases he
  | swim i target =>
    simp only [GossipNodes.effect] at he
    split at he
    · cases he
      refine ⟨⟨[],Or.inl rfl,rfl⟩,fun p hp x hx => ?_⟩
      rw [List.mem_singleton.mp hp] at hx
      exact absurd hx List.not_mem_nil
    · cases he
  | deliver i k now =>
    simp only [GossipNodes.effect] at he
    cases hk : g.network[k]? with
    | none =>
      rw [hk] at he
      cases he
    | some p =>
      simp only [hk] at he
      split at he
      · cases he
        exact ⟨⟨_,Or.inr ⟨p,List.mem_of_getElem? hk,rfl⟩,
          (g.nodes i).handleMessage_stateStore now (p.message.reread cfg.json) p.source⟩,
          fun q hq => ((g.nodes i).handleMessage_packets now (p.message.reread cfg.json) p.source q hq).2⟩
      · cases he

namespace GossipNode
variable (n : GossipNode V T C) {i : String} {p : Packet V T}

theorem performGossipRound_push {peers : List Member} (hp : p ∈ (n.performGossipRound peers).packets)
    (hput : p.event i = .put i) : p.source = n.address ∧
      p.message = ⟨n.nodeId,.push n.stateStore.getAllEntries n.membership.getAllMembersData⟩ := by
  obtain ⟨m,hm,rfl⟩ := List.mem_map.mp hp
  obtain ⟨peer,-,hm⟩ := List.mem_flatMap.mp hm
  rcases List.mem_append.mp hm with hm | hm
  · split at hm
    · rw [List.mem_singleton.mp hm]
      exact ⟨rfl,rfl⟩
    · exact absurd hm List.not_mem_nil
  · split at hm
    · rw [List.mem_singleton.mp hm] at hput
      cases hput
    · exact absurd hm List.not_mem_nil

theorem handleMessage_event [Sub T] {now : T} {msg : GossipMessage V T} {source : Address}
    (hp : p ∈ (n.handleMessage now msg source).packets) : p.event i = .blank := by
  unfold handleMessage at hp
  cases hmsg : msg.payload with
  | push | pullResponse | ack | pingReq =>
    rw [hmsg] at hp
    exact absurd hp List.not_mem_nil
  | pullRequest | ping =>
    rw [hmsg] at hp
    rw [List.mem_singleton.mp hp]
    rfl

end GossipNode

/-- Push messages are sent by rounds, with all that the node has. -/
theorem effect_push [Sub T] {cfg : GossipConfig V T} {g : GossipNodes V T C} {a : NodeAction V T C} {e : Effect V T C}
    (he : g.effect cfg a = some e) {p : Packet V T} (hp : p ∈ e.packets) {i : String} (hput : p.event i = .put i) :
    p.source = (g.nodes (GossipNodes.actor a)).address ∧ p.message =
      ⟨e.node.nodeId,.push e.node.stateStore.getAllEntries e.node.membership.getAllMembersData⟩ := by
  cases a with
  | start | subscribe | set | delete =>
    cases he
    exact absurd hp List.not_mem_nil
  | gossipRound i peers =>
    simp only [GossipNodes.effect] at he
    split at he
    · cases he
      exact (g.nodes i).performGossipRound_push hp hput
    · cases he
  | swim i target =>
    simp only [GossipNodes.effect] at he
    split at he
    · cases he
      rw [List.mem_singleton.mp hp] at hput
      cases hput
    · cases he
  | deliver i k now =>
    simp only [GossipNodes.effect] at he
    split at he
    · cases he
    · split at he
      · cases he
        rw [GossipNode.handleMessage_event _ hp] at hput
        cases hput
      · cases he

namespace GossipCluster

theorem written_subset_step (c : GossipCluster String String V T) (a : GossipAction String String V T) :
    ∀ e ∈ c.written, e ∈ (c.step a).written := by
  intro e he
  rcases c.step_cases a with h | ⟨i,entry,-,-,h⟩ | ⟨i,h⟩ | ⟨i,entry,-,h⟩
  · rwa [h]
  · rw [h]
    exact List.mem_append_left _ he
  · rwa [h]
  · rwa [h]

theorem written_subset_run (c : GossipCluster String String V T) (schedule : List (GossipAction String String V T)) :
    ∀ e ∈ c.written, e ∈ (run step c schedule).written :=
  run_invariant_of_step (I := fun c' : GossipCluster String String V T => ∀ e ∈ c.written, e ∈ c'.written)
    (fun c' a h e he => c'.written_subset_step a e (h e he)) (fun _ he => he) schedule

end GossipCluster

/-- The entry of a key that is the newest of those that any node holds. -/
def GossipNodes.Newest (g : GossipNodes V T C) (key : String) (e : StateEntry String String V T) : Prop :=
  (∃ w, (g.nodes w).stateStore.getEntry key = some e) ∧
    ∀ w e', (g.nodes w).stateStore.getEntry key = some e' → e'.stamp ≤ e.stamp

/-- What all nodes together cover. -/
def GossipNodes.coveredByAll (g : GossipNodes V T C) : Set (String × (ℕ ×ₗ String)) :=
  ⋃ w, (g.nodes w).stateStore.covered

/-- A state of a quiet phase that began in `g`: nodes know what they have heard of, and nothing
that nobody knew at the beginning. -/
structure Quiet (json : V → V) (g : GossipNodes V T C) (c : GossipCluster String String V T) (g' : GossipNodes V T C)
    (n : News String) : Prop where
  stamped : ∃ c', GossipCluster.Stamped c' ∧ Simulates json g' c' ∧ ∀ e ∈ c.written, e ∈ c'.written
  tracks : Tracks (fun j => (g.nodes j).stateStore.covered) (fun j => (g'.nodes j).stateStore.covered)
    (g'.network.map fun p => coveredBy p.message.payload.entries) n
  stores : ∀ j, (g'.nodes j).stateStore.covered ⊆ g.coveredByAll
  packets : ∀ p ∈ g'.network, coveredBy p.message.payload.entries ⊆ g.coveredByAll

namespace Quiet
variable {json : V → V} {g g' : GossipNodes V T C} {c : GossipCluster String String V T} {n : News String}

theorem keyed {c : GossipCluster String String V T} (h : Simulates json g c) (hc : c.Stamped) (i : String) :
    (g.nodes i).stateStore.Keyed := by
  intro key e he
  rw [h.stores] at he
  exact (hc.held i key e he).1

/-- Every entry on its way is covered by the node that wrote it. -/
theorem init (h : Simulates json g c) (hc : c.Stamped) : Quiet json g c g (News.init String g.network.length) where
  stamped := ⟨c,hc,h,fun _ he => he⟩
  tracks := by
    have htracks := Tracks.init (fun j => (g.nodes j).stateStore.covered)
      (g.network.map fun p => coveredBy p.message.payload.entries)
    rwa [List.length_map] at htracks
  stores j := Set.subset_iUnion (fun w => (g.nodes w).stateStore.covered) j
  packets p hp := by
    rintro x ⟨e,he,hkey,hle⟩
    obtain ⟨held,hheld,hstamp⟩ := hc.newest _ e (hc.own e (hc.network e (h.network p hp e he)))
    refine Set.mem_iUnion.mpr ⟨e.nodeId,held,?_,hle.trans hstamp⟩
    rw [h.stores,← hkey]
    exact hheld

theorem step [Sub T] {cfg : GossipConfig V T} (h : Quiet cfg.json g c g' n) {a : NodeAction V T C}
    (hquiet : ¬a.Writes) : Quiet cfg.json g c (g'.step cfg a) (n.steps (GossipNodes.events cfg g' a)) := by
  obtain ⟨c',hc',hsim,hwritten⟩ := h.stamped
  obtain ⟨schedule,hsim'⟩ := hsim.step hc' (NodeAction.plain_of_quiet hquiet)
  have hupper : ∀ e, g'.effect cfg a = some e → e.node.stateStore.covered ⊆ g.coveredByAll ∧
      ∀ p ∈ e.packets, coveredBy p.message.payload.entries ⊆ g.coveredByAll := by
    intro e he
    obtain ⟨⟨entries,hentries,hstore⟩,hpackets⟩ := effect_quiet hquiet he
    constructor
    · rw [hstore,StateStore.covered_mergeEntries]
      refine Set.union_subset (h.stores _) ?_
      rcases hentries with rfl | ⟨p,hp,rfl⟩
      · rintro x ⟨e,he,-⟩
        exact absurd he List.not_mem_nil
      · rw [coveredBy_reread]
        exact h.packets p hp
    · intro p hp
      have hsub := coveredBy_mono (hpackets p hp)
      rw [← (keyed hsim hc' _).covered_eq] at hsub
      exact hsub.trans (h.stores _)
  refine ⟨⟨_,run_invariant_of_step (fun _ a hs => hs.step a) hc' schedule,hsim',
    fun e he => c'.written_subset_run schedule e (hwritten e he)⟩,?_,?_,?_⟩
  · refine tracks_step (fun node => node.stateStore.covered) (fun p => coveredBy p.message.payload.entries) cfg
      ?_ ?_ ?_ h.tracks
    · intro e he
      obtain ⟨⟨entries,-,hstore⟩,-⟩ := effect_quiet hquiet he
      rw [hstore,StateStore.covered_mergeEntries]
      exact Set.subset_union_left
    · intro e he p hp hput
      obtain ⟨⟨entries,-,hstore⟩,-⟩ := effect_quiet hquiet he
      have hkeyed : e.node.stateStore.Keyed := hstore ▸ (keyed hsim hc' _).mergeEntries entries
      rw [(effect_push he hp hput).2,hkeyed.covered_eq]
      exact le_refl _
    · intro i k now p _ _
      rw [GossipNode.handleMessage_stateStore,StateStore.covered_mergeEntries,coveredBy_reread]
      exact Set.subset_union_right
  all_goals
    unfold GossipNodes.step
    split
    case isFalse => first | exact h.stores | exact h.packets
    cases he : g'.effect cfg a with
    | none => first | exact h.stores | exact h.packets
    | some e => ?_
  · intro j
    by_cases hj : j = GossipNodes.actor a
    · subst hj
      simpa [GossipNodes.put] using (hupper e he).1
    · simpa [GossipNodes.put,hj] using h.stores j
  · intro p hp
    rcases List.mem_append.mp hp with hp | hp
    · exact h.packets p hp
    · exact (hupper e he).2 p hp

theorem run [Sub T] {cfg : GossipConfig V T} (h : Quiet cfg.json g c g' n) {schedule : List (NodeAction V T C)}
    (hquiet : ∀ a ∈ schedule, ¬a.Writes) :
    Quiet cfg.json g c (Runs.run (GossipNodes.informed cfg) (g',n) schedule).1
      (Runs.run (GossipNodes.informed cfg) (g',n) schedule).2 := by
  induction schedule generalizing g' n with
  | nil => exact h
  | cons a rest ih => exact ih (h.step (hquiet a List.mem_cons_self)) fun b hb => hquiet b (List.mem_cons_of_mem _ hb)

/-- A node that has heard of all who hold anything holds the newest entries. -/
theorem getEntry_iff (h : Quiet json g c g' n) (hsim : Simulates json g c) (hc : c.Stamped) {i : String}
    (hi : ∀ w, w ∈ n.heard i ∨ (g.nodes w).stateStore.covered = ∅) (key : String) (e : StateEntry String String V T) :
    (g'.nodes i).stateStore.getEntry key = some e ↔ g.Newest key e := by
  obtain ⟨c',hc',hsim',hwritten⟩ := h.stamped
  have hbelow : ∀ w e', (g.nodes w).stateStore.getEntry key = some e' →
      ∃ held, (g'.nodes i).stateStore.getEntry key = some held ∧ e'.stamp ≤ held.stamp := by
    intro w e' he'
    have hmem : (key,e'.stamp) ∈ (g.nodes w).stateStore.covered := ⟨e',he',le_refl _⟩
    rcases hi w with hw | hw
    · exact h.tracks.heard i w hw hmem
    · rw [hw] at hmem
      exact absurd hmem (Set.notMem_empty _)
  have habove : ∀ held, (g'.nodes i).stateStore.getEntry key = some held → g.Newest key held := by
    intro held hheld
    have hmax : ∀ w e', (g.nodes w).stateStore.getEntry key = some e' → e'.stamp ≤ held.stamp := by
      intro w e' he'
      obtain ⟨held',hheld',hle⟩ := hbelow w e' he'
      rw [hheld] at hheld'
      exact Option.some.inj hheld' ▸ hle
    obtain ⟨w,e',he',hle⟩ := Set.mem_iUnion.mp (h.stores i ⟨held,hheld,le_refl _⟩ : (key,held.stamp) ∈ g.coveredByAll)
    refine ⟨⟨w,?_⟩,hmax⟩
    -- the same key and stamp: the same entry
    have hkey := keyed hsim hc w key e' he'
    have hkey' := keyed hsim' hc' i key held hheld
    rw [hsim.stores] at he'
    rw [hsim'.stores] at hheld
    have hold := hwritten e' (hc.offered w e' (hc.held w key e' he').2)
    have hnew := hc'.offered i held (hc'.held i key held hheld).2
    rw [← hc'.unique e' hold held hnew (hkey.trans hkey'.symm)
      (le_antisymm (hmax w e' (by rwa [hsim.stores])) hle),hsim.stores]
    exact he'
  constructor
  · exact habove e
  · rintro ⟨⟨w,hw⟩,hmax⟩
    obtain ⟨held,hheld,hle⟩ := hbelow w e hw
    obtain ⟨⟨w',hw'⟩,-⟩ := habove held hheld
    have hkey := keyed hsim hc w key e hw
    have hkey' := keyed hsim hc w' key held hw'
    have hstamp := le_antisymm hle (hmax w' held hw')
    rw [hsim.stores] at hw hw'
    rw [hc.unique e (hc.offered w e (hc.held w key e hw).2) held (hc.offered w' held (hc.held w' key held hw').2)
      (hkey.trans hkey'.symm) hstamp]
    exact hheld

end Quiet

/-- Nodes that are no members do nothing. -/
theorem GossipNodes.nodes_run_of_notMem [Sub T] (cfg : GossipConfig V T) {w : String} (hw : w ∉ cfg.members)
    (g : GossipNodes V T C) (schedule : List (NodeAction V T C)) : (run (step cfg) g schedule).nodes w = g.nodes w := by
  refine run_invariant_of_step (I := fun g' : GossipNodes V T C => g'.nodes w = g.nodes w) (fun g' a h => ?_) rfl schedule
  unfold GossipNodes.step
  split
  · rename_i hactor
    split
    · exact h
    · have hne : w ≠ actor a := fun heq => hw (heq ▸ hactor)
      simpa [GossipNodes.put,hne] using h
  · exact h

/-- Where JSON gives all values back unchanged, nodes that the news of all members has reached
since the last write hold the newest entry that anybody held then, and answer alike. -/
theorem epidemic_convergence [Sub T] (cfg : GossipConfig V T) (before quiet : List (NodeAction V T C))
    (hplain : ∀ a ∈ before, a.Plain cfg.json) (hquiet : ∀ a ∈ quiet, ¬a.Writes) {i j : String}
    (hi : ∀ w ∈ cfg.members, w ∈ (GossipNodes.news cfg
      (run (GossipNodes.step cfg) (GossipNodes.init cfg) before) quiet).heard i)
    (hj : ∀ w ∈ cfg.members, w ∈ (GossipNodes.news cfg
      (run (GossipNodes.step cfg) (GossipNodes.init cfg) before) quiet).heard j) :
    let written := run (GossipNodes.step cfg) (GossipNodes.init cfg) before
    let quiescent := run (GossipNodes.step cfg) written quiet
    (∀ key e, (quiescent.nodes i).stateStore.getEntry key = some e ↔ written.Newest key e) ∧
      ∀ key, (quiescent.nodes i).get key = (quiescent.nodes j).get key := by
  intro written quiescent
  obtain ⟨c,hc,hsim⟩ := simulates_run (C := C) cfg hplain
  have hphase := (Quiet.init hsim hc).run hquiet
  rw [GossipNodes.run_informed_fst] at hphase
  have hempty : ∀ w, w ∉ cfg.members → (written.nodes w).stateStore.covered = ∅ := by
    intro w hw
    rw [GossipNodes.nodes_run_of_notMem cfg hw]
    exact Set.eq_empty_of_forall_notMem fun x ⟨e,he,_⟩ => nomatch he
  have hentry : ∀ i, (∀ w ∈ cfg.members, w ∈ (GossipNodes.news cfg written quiet).heard i) →
      ∀ key e, (quiescent.nodes i).stateStore.getEntry key = some e ↔ written.Newest key e := by
    intro i hi
    exact hphase.getEntry_iff hsim hc fun w => (Classical.em (w ∈ cfg.members)).imp (hi w) (hempty w)
  refine ⟨hentry i hi,fun key => ?_⟩
  have hsame : (quiescent.nodes i).stateStore.getEntry key = (quiescent.nodes j).stateStore.getEntry key := by
    ext e
    rw [hentry i hi,hentry j hj]
  unfold GossipNode.get StateStore.get
  rw [hsame]

/-- JSON has arrays only: a tuple comes back as a list. -/
inductive Sequence
  | list (items : List ℕ)
  | tuple (items : List ℕ)
  deriving DecidableEq

def Sequence.json : Sequence → Sequence
  | .list items => .list items
  | .tuple items => .list items

/-- Two nodes; only the first has a seed. -/
def pairConfig : GossipConfig Sequence ℤ where
  json := Sequence.json
  members := {"a","b"}
  address i := if i = "a" then ("h",1) else ("h",2)
  seedNodes i := if i = "a" then [("h",2)] else []
  mode _ := .push
  gossipFanout _ := 1
  failureDetector _ := .init 8 1000 0

/-- The seed gets the store of the first node and pushes back. -/
def pushAndBack : List (NodeAction Sequence ℤ ℕ) :=
  [.gossipRound "a" [⟨GossipNode.seedId ("h",2),("h",2),.alive,0⟩],.deliver "b" 0 1,
    .gossipRound "b" [⟨"a",("h",1),.alive,0⟩],.deliver "a" 1 2]

theorem epidemic_convergence_two_nodes :
    let written := run (GossipNodes.step pairConfig) (GossipNodes.init pairConfig)
      [.start "a",.set "a" 0 "k" (some (.list [1,2]))]
    ((run (GossipNodes.step pairConfig) written pushAndBack).nodes "a").get "k" =
      ((run (GossipNodes.step pairConfig) written pushAndBack).nodes "b").get "k" :=
  (epidemic_convergence pairConfig [.start "a",.set "a" 0 "k" (some (.list [1,2]))] pushAndBack
    (by simp [NodeAction.Plain,pairConfig,Sequence.json]) (by simp [pushAndBack,NodeAction.Writes])
    (by decide) (by decide)).2 "k"
example : ((run (GossipNodes.step pairConfig) (GossipNodes.init pairConfig)
      ([.start "a",.set "a" 0 "k" (some (.tuple [1,2]))] ++ pushAndBack)).nodes "b").get "k" = some (.list [1,2]) := by
  decide

end DistributedSystems.Gossip
