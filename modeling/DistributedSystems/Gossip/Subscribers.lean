import DistributedSystems.Gossip.Epidemic
import DistributedSystems.Gossip.Notifications

/-! # Subscribers of gossip nodes

A subscriber that is called in the order of the changes can follow the store of a node by its
calls; a call that is overtaken leaves it with an older value.
-/
namespace DistributedSystems.Gossip
open Runs

variable {V T C : Type}

/-- Entries of deleted keys have no value. -/
def StateEntry.Cleared (e : StateEntry String String V T) : Prop := e.tombstone = true → e.value = none

/-- A key changes when all calls about it are over, an entry that is applied is cleared if it is
deleted, and a subscriber comes when all calls are over. -/
def NotifyingNode.Orderly (s : NotifyingNode V T C) : NotifyAction V T C → Prop
  | .set _ key _ => ∀ loop ∈ s.loops, loop.key ≠ key
  | .delete _ key => ∀ loop ∈ s.loops, loop.key ≠ key
  | .merge entry =>
    (s.node.stateStore.merge entry).2 = true → entry.Cleared ∧ ∀ loop ∈ s.loops, loop.key ≠ entry.key
  | .subscribe _ _ => s.loops = []
  | .advance _ => True

instance (s : NotifyingNode V T C) : ∀ a, Decidable (s.Orderly a)
  | .set _ key _ => inferInstanceAs (Decidable (∀ loop ∈ s.loops, loop.key ≠ key))
  | .delete _ key => inferInstanceAs (Decidable (∀ loop ∈ s.loops, loop.key ≠ key))
  | .merge entry => inferInstanceAs (Decidable ((s.node.stateStore.merge entry).2 = true →
      (entry.tombstone = true → entry.value = none) ∧ ∀ loop ∈ s.loops, loop.key ≠ entry.key))
  | .subscribe _ _ => inferInstanceAs (Decidable (s.loops = []))
  | .advance _ => inferInstanceAs (Decidable True)

/-- What a subscriber takes for the value of a key after some calls. -/
def lastCall [DecidableEq C] (callback : C) (key : String) (value : Option V) (calls : List (Notification V C)) :
    Option V :=
  calls.foldl (fun value call => if call.callback = callback ∧ call.key = key then call.value else value) value

theorem lastCall_append [DecidableEq C] (callback : C) (key : String) (value : Option V)
    (calls more : List (Notification V C)) :
    lastCall callback key value (calls ++ more) = lastCall callback key (lastCall callback key value calls) more :=
  List.foldl_append

namespace StateStore
variable (s : StateStore String String V T)

theorem get_put {entry : StateEntry String String V T} (h : entry.Cleared) (key : String) :
    (s.put entry).get key = if key = entry.key then entry.value else s.get key := by
  unfold get
  rw [getEntry_put]
  split_ifs with hkey
  · cases ht : entry.tombstone with
    | true => simp [h ht,ht]
    | false => simp [ht]
  · rfl

theorem get_set (now : T) (key : String) (value : Option V) (key' : String) :
    (s.set now key value).1.get key' = if key' = key then value else s.get key' := by
  have hcleared : (⟨key,value,s.nextVersion key,now,s.nodeId,false⟩ : StateEntry String String V T).Cleared :=
    fun ht => absurd ht Bool.false_ne_true
  exact s.get_put hcleared key'

/-- A deleted key reads as absent, whether or not it was there. -/
theorem get_delete (now : T) (key key' : String) :
    (s.delete now key).1.get key' = if key' = key then none else s.get key' := by
  unfold delete
  cases hget : s.getEntry key with
  | none =>
    split_ifs with hkey
    · simp [get,hkey,hget]
    · rfl
  | some existing =>
    cases ht : existing.tombstone with
    | true =>
      simp only [ht,if_true]
      split_ifs with hkey
      · simp [get,hkey,hget,ht]
      · rfl
    | false =>
      simp only [ht,if_false,Bool.false_eq_true]
      have hcleared : (⟨key,none,existing.version + 1,now,s.nodeId,true⟩ : StateEntry String String V T).Cleared :=
        fun _ => rfl
      exact s.get_put hcleared key'

/-- An entry that is applied is read from then on. -/
theorem get_merge {entry : StateEntry String String V T} (hupdated : (s.merge entry).2 = true) (h : entry.Cleared)
    (key : String) : (s.merge entry).1.get key = if key = entry.key then entry.value else s.get key := by
  have hmerge : s.merge entry = (s.put entry,true) ∨ s.merge entry = (s,false) := by
    unfold merge
    split
    · exact Or.inl rfl
    · split_ifs
      · exact Or.inl rfl
      · exact Or.inl rfl
      · exact Or.inr rfl
      · exact Or.inr rfl
  rcases hmerge with hmerge | hmerge
  · rw [hmerge]
    exact s.get_put h key
  · rw [hmerge] at hupdated
    exact absurd hupdated Bool.false_ne_true

end StateStore

/-- A store with no value left for a deleted key. -/
def StateStore.Cleared (s : StateStore String String V T) : Prop := ∀ key e, s.getEntry key = some e → e.Cleared

namespace StateStore.Cleared
variable {s : StateStore String String V T}

theorem put (h : s.Cleared) {entry : StateEntry String String V T} (hentry : entry.Cleared) : (s.put entry).Cleared := by
  intro key e he
  rw [getEntry_put] at he
  split at he
  · exact Option.some.inj he ▸ hentry
  · exact h key e he

theorem delete (h : s.Cleared) (now : T) (key : String) : (s.delete now key).1.Cleared := by
  unfold StateStore.delete
  split
  · exact h
  · split
    · exact h
    · exact h.put fun _ => rfl

theorem mergeEntries (h : s.Cleared) {entries : List (StateEntry String String V T)}
    (hentries : ∀ e ∈ entries, e.Cleared) : (s.mergeEntries entries).Cleared := by
  induction entries generalizing s with
  | nil => exact h
  | cons entry rest ih =>
    refine ih ?_ fun e he => hentries e (List.mem_cons_of_mem _ he)
    intro key e he
    rw [getEntry_merge] at he
    split at he
    · rcases Option.merge_eq_or_eq (newest_eq_or StateEntry.stamp) (s.getEntry key) (some entry) with hl | hr
      · exact h key e (hl ▸ he)
      · rw [hr] at he
        exact Option.some.inj he ▸ hentries entry List.mem_cons_self
    · exact h key e he

theorem getAllEntries (h : s.Cleared) : ∀ e ∈ s.getAllEntries, e.Cleared := by
  intro e he
  obtain ⟨key,hkey⟩ := mem_getAllEntries he
  exact h key e hkey

end StateStore.Cleared

/-- Reading JSON brings no value back. -/
theorem GossipMessage.cleared_reread (json : V → V) {msg : GossipMessage V T}
    (h : ∀ e ∈ msg.payload.entries, e.Cleared) : ∀ e ∈ (msg.reread json).payload.entries, e.Cleared := by
  have hmap : ∀ entries : List (StateEntry String String V T), (∀ e ∈ entries, e.Cleared) →
      ∀ e ∈ entries.map (StateEntry.reread json), e.Cleared := by
    intro entries hentries e he
    obtain ⟨e',he',rfl⟩ := List.mem_map.mp he
    exact fun ht => by rw [StateEntry.reread,hentries e' he' ht]; rfl
  unfold GossipMessage.reread
  cases hmsg : msg.payload with
  | push entries membership | pullResponse entries membership =>
    rw [hmsg] at h
    exact hmap entries h
  | pullRequest | ping | ack | pingReq => exact fun _ he => absurd he List.not_mem_nil

/-- Stores and packets of a cluster hold no value for a deleted key. -/
def GossipNodes.Cleared (g : GossipNodes V T C) : Prop :=
  (∀ i, (g.nodes i).stateStore.Cleared) ∧ ∀ p ∈ g.network, ∀ e ∈ p.message.payload.entries, e.Cleared

namespace GossipNodes.Cleared
variable {g : GossipNodes V T C}

theorem effect [Sub T] (h : g.Cleared) {cfg : GossipConfig V T} {a : NodeAction V T C} {e : Effect V T C}
    (he : g.effect cfg a = some e) :
    e.node.stateStore.Cleared ∧ ∀ p ∈ e.packets, ∀ x ∈ p.message.payload.entries, x.Cleared := by
  by_cases hquiet : a.Writes
  · cases a with
    | set i now key value =>
      cases he
      exact ⟨(h.1 i).put fun ht => absurd ht Bool.false_ne_true,fun _ hp => absurd hp List.not_mem_nil⟩
    | delete i now key =>
      cases he
      exact ⟨(h.1 i).delete now key,fun _ hp => absurd hp List.not_mem_nil⟩
    | start | subscribe | gossipRound | swim | deliver => exact absurd hquiet id
  · obtain ⟨⟨entries,hentries,hstore⟩,hpackets⟩ := effect_quiet hquiet he
    refine ⟨?_,fun p hp x hx => (h.1 _).getAllEntries x (hpackets p hp x hx)⟩
    rw [hstore]
    refine (h.1 _).mergeEntries ?_
    rcases hentries with rfl | ⟨p,hp,rfl⟩
    · exact fun _ he => absurd he List.not_mem_nil
    · exact p.message.cleared_reread cfg.json (h.2 p hp)

theorem step [Sub T] (h : g.Cleared) (cfg : GossipConfig V T) (a : NodeAction V T C) : (g.step cfg a).Cleared := by
  unfold GossipNodes.step
  split
  case isFalse => exact h
  cases he : g.effect cfg a with
  | none => exact h
  | some e =>
    obtain ⟨hstore,hpackets⟩ := h.effect he
    constructor
    · intro j
      by_cases hj : j = actor a
      · subst hj
        simpa [put] using hstore
      · simpa [put,hj] using h.1 j
    · intro p hp
      rcases List.mem_append.mp hp with hp | hp
      · exact h.2 p hp
      · exact hpackets p hp

end GossipNodes.Cleared

/-- Entries that reach a node in any run of a cluster are cleared if they are deleted, as orderly
runs of the node ask. -/
theorem GossipNodes.arrives_cleared [Sub T] (cfg : GossipConfig V T) (schedule : List (NodeAction V T C)) :
    ∀ p ∈ (run (step cfg) (init cfg) schedule).network,
      ∀ e ∈ (p.message.reread cfg.json).payload.entries, e.Cleared := by
  have hinit : (init cfg : GossipNodes V T C).Cleared := by
    refine ⟨fun i key e he => ?_,fun _ hp => absurd hp List.not_mem_nil⟩
    cases he
  have hrun : (run (step cfg) (init cfg : GossipNodes V T C) schedule).Cleared :=
    run_invariant_of_step (I := Cleared) (fun _ a h => h.step cfg a) hinit schedule
  exact fun p hp => p.message.cleared_reread cfg.json (hrun.2 p hp)

namespace NotifyingNode
variable {s : NotifyingNode V T C}

theorem orderly_cases {a : NotifyAction V T C} (h : s.Orderly a) : s.step a = s ∨
    (∃ node key value, s.step a = s.store node key value ∧ node.subscribers = s.node.subscribers ∧
      (∀ loop ∈ s.loops, loop.key ≠ key) ∧ ∀ key', node.get key' = if key' = key then value else s.node.get key') ∨
    (∃ pattern callback, s.loops = [] ∧ s.step a = { s with node := s.node.subscribe pattern callback }) ∨
    ∃ before loop after, s.loops = before ++ loop :: after ∧ s.step a = { s with
      loops := before ++ (loop.advance s.node.subscribers).1.toList ++ after
      told := s.told ++ (loop.advance s.node.subscribers).2.toList } := by
  cases a with
  | set now key value => exact Or.inr (Or.inl ⟨_,key,value,rfl,rfl,h,s.node.stateStore.get_set now key value⟩)
  | delete now key => exact Or.inr (Or.inl ⟨_,key,none,rfl,rfl,h,s.node.stateStore.get_delete now key⟩)
  | merge entry =>
    cases hupdated : (s.node.stateStore.merge entry).2 with
    | false => exact Or.inl (by simp [step,hupdated])
    | true =>
      obtain ⟨hcleared,hkey⟩ := h hupdated
      refine Or.inr (Or.inl ⟨{ s.node with stateStore := (s.node.stateStore.merge entry).1 },entry.key,entry.value,
        ?_,rfl,hkey,s.node.stateStore.get_merge hupdated hcleared⟩)
      simp [step,hupdated]
  | subscribe pattern callback => exact Or.inr (Or.inr (Or.inl ⟨pattern,callback,h,rfl⟩))
  | advance j =>
    cases hj : s.loops[j]? with
    | none => exact Or.inl (by simp [step,hj])
    | some loop =>
      obtain ⟨hlt,hget⟩ := List.getElem?_eq_some_iff.mp hj
      refine Or.inr (Or.inr (Or.inr ⟨s.loops.take j,loop,s.loops.drop (j + 1),?_,?_⟩))
      · rw [← hget,List.getElem_cons_drop,List.take_append_drop]
      · simp [step,hj]

/-- A subscriber whose calls so far leave it with a value for a key. Either that is the value of
the key, or it is about to be called with it. -/
structure InSync (s : NotifyingNode V T C) (pattern : String) (callback : C) (key : String)
    (heard : Option V) : Prop where
  subscribed : s.node.Subscribed pattern callback
  current : ∀ loop ∈ s.loops, loop.key = key → loop.value = s.node.get key
  sized : ∀ loop ∈ s.loops, loop.Sized s.node.subscribers
  heard : heard = s.node.get key ∨ ∃ p c, callbackAt s.node.subscribers key p c = some callback ∧
    ∃ loop ∈ s.loops, loop.key = key ∧ loop.Before p c

namespace InSync
variable {pattern key : String} {callback : C} {heard : Option V}

theorem store (h : s.InSync pattern callback key heard) (hmatch : matchesPattern key pattern = true)
    {node : GossipNode V T C} {key' : String} {value : Option V} (hsubscribers : node.subscribers = s.node.subscribers)
    (hloops : ∀ loop ∈ s.loops, loop.key ≠ key')
    (hget : ∀ k, node.get k = if k = key' then value else s.node.get k) :
    (s.store node key' value).InSync pattern callback key heard := by
  have hsubscribed : node.Subscribed pattern callback := by
    unfold GossipNode.Subscribed
    rw [hsubscribers]
    exact h.subscribed
  refine ⟨hsubscribed,?_,?_,?_⟩
  · intro loop hloop hkey
    change loop.value = node.get key
    rw [hget]
    rcases List.mem_append.mp hloop with hloop | hloop
    · rw [if_neg fun heq => hloops loop hloop (hkey.trans heq)]
      exact h.current loop hloop hkey
    · rw [List.mem_singleton.mp hloop] at hkey ⊢
      rw [if_pos hkey.symm]
  · intro loop hloop
    change loop.Sized node.subscribers
    rw [hsubscribers]
    rcases List.mem_append.mp hloop with hloop | hloop
    · exact h.sized loop hloop
    · rw [List.mem_singleton.mp hloop]
      trivial
  · by_cases hkey : key = key'
    · obtain ⟨p,c,hplace⟩ := hsubscribed.exists_callbackAt
      exact Or.inr ⟨p,c,hplace key hmatch,_,List.mem_append_right _ List.mem_cons_self,hkey.symm,trivial⟩
    · change heard = node.get key ∨ _
      rw [hget,if_neg hkey]
      refine h.heard.imp_right ?_
      rintro ⟨p,c,hplace,loop,hloop,hfor⟩
      refine ⟨p,c,?_,loop,List.mem_append_left _ hloop,hfor⟩
      change callbackAt node.subscribers key p c = some callback
      rw [hsubscribers]
      exact hplace

theorem subscribe (h : s.InSync pattern callback key heard) (hnone : s.loops = []) (pattern' : String) (callback' : C) :
    InSync { s with node := s.node.subscribe pattern' callback' } pattern callback key heard := by
  refine ⟨s.node.subscribed_subscribe.mpr (Or.inl h.subscribed),h.current,?_,Or.inl ?_⟩
  · intro loop hloop
    rw [show s.loops = [] from hnone] at hloop
    exact absurd hloop List.not_mem_nil
  · rcases h.heard with heard | ⟨p,c,-,loop,hloop,-⟩
    · exact heard
    · rw [hnone] at hloop
      exact absurd hloop List.not_mem_nil

theorem advance [DecidableEq C] (h : s.InSync pattern callback key heard) {before after : List (NotifyLoop V)}
    {loop : NotifyLoop V} (hloops : s.loops = before ++ loop :: after) :
    InSync { s with
      loops := before ++ (loop.advance s.node.subscribers).1.toList ++ after
      told := s.told ++ (loop.advance s.node.subscribers).2.toList } pattern callback key
      (lastCall callback key heard (loop.advance s.node.subscribers).2.toList) := by
  have hloop : loop ∈ s.loops := hloops ▸ List.mem_append_right _ List.mem_cons_self
  have hmem : ∀ l ∈ before ++ (loop.advance s.node.subscribers).1.toList ++ after,
      l ∈ s.loops ∨ l ∈ (loop.advance s.node.subscribers).1 := by
    intro l hl
    rw [hloops]
    rcases List.mem_append.mp hl with hl | hl
    · rcases List.mem_append.mp hl with hl | hl
      · exact Or.inl (List.mem_append_left _ hl)
      · exact Or.inr (Option.mem_toList.mp hl)
    · exact Or.inl (List.mem_append_right _ (List.mem_cons_of_mem _ hl))
  refine ⟨h.subscribed,?_,?_,?_⟩
  · intro l hl hkey
    rcases hmem l hl with hl | hl
    · exact h.current l hl hkey
    · obtain ⟨hkey',hvalue,-⟩ := NotifyLoop.of_mem_advance hl
      rw [hvalue]
      exact h.current loop hloop (hkey'.symm.trans hkey)
  · intro l hl
    rcases hmem l hl with hl | hl
    · exact h.sized l hl
    · exact (NotifyLoop.of_mem_advance hl).2.2 (h.sized loop hloop)
  · -- a call about this key brings its value
    have hcall : ∀ call ∈ (loop.advance s.node.subscribers).2, call.key = key → call.value = s.node.get key := by
      intro call hcall hkey
      obtain ⟨hkey',hvalue,-⟩ := NotifyLoop.of_mem_call hcall
      rw [hvalue]
      exact h.current loop hloop (hkey'.symm.trans hkey)
    have hkept : lastCall callback key heard (loop.advance s.node.subscribers).2.toList = s.node.get key ∨
        lastCall callback key heard (loop.advance s.node.subscribers).2.toList = heard ∧
          (loop.advance s.node.subscribers).2 ≠ some ⟨callback,key,s.node.get key⟩ := by
      cases hsome : (loop.advance s.node.subscribers).2 with
      | none => exact Or.inr ⟨rfl,by simp⟩
      | some call =>
        change (if call.callback = callback ∧ call.key = key then call.value else heard) = _ ∨ _
        split
        · rename_i hfor
          exact Or.inl (hcall call hsome hfor.2)
        · rename_i hfor
          refine Or.inr ⟨if_neg hfor,fun heq => hfor ?_⟩
          rw [Option.some.inj heq]
          exact ⟨rfl,rfl⟩
    rcases hkept with hkept | ⟨hkept,hother⟩
    · exact Or.inl hkept
    · rw [hkept]
      refine h.heard.imp_right ?_
      rintro ⟨p,c,hplace,l,hl,hkey,hbefore⟩
      refine ⟨p,c,hplace,?_⟩
      rw [hloops] at hl
      rcases List.mem_append.mp hl with hl | hl
      · exact ⟨l,List.mem_append_left _ (List.mem_append_left _ hl),hkey,hbefore⟩
      rcases List.mem_cons.mp hl with rfl | hl
      · rcases hbefore.advance (h.sized l hloop) (hkey ▸ hplace) with ⟨rest,hrest,hbefore⟩ | hcalled
        · exact ⟨rest,List.mem_append_left _ (List.mem_append_right _ (Option.mem_toList.mpr hrest)),
            (NotifyLoop.of_mem_advance hrest).1.trans hkey,hbefore⟩
        · rw [h.current l hloop hkey,hkey] at hcalled
          exact absurd hcalled hother
      · exact ⟨l,List.mem_append_right _ hl,hkey,hbefore⟩

/-- One step, with the calls that it makes. -/
theorem step [DecidableEq C] (h : s.InSync pattern callback key heard) (hmatch : matchesPattern key pattern = true)
    {a : NotifyAction V T C} (ha : s.Orderly a) {calls : List (Notification V C)}
    (htold : (s.step a).told = s.told ++ calls) : (s.step a).InSync pattern callback key (lastCall callback key heard calls) := by
  rcases orderly_cases ha with hs | ⟨node,key',value,hs,hsubscribers,hloops,hget⟩ | ⟨pattern',callback',hnone,hs⟩ |
    ⟨before,loop,after,hloops,hs⟩
  · rw [hs] at htold ⊢
    rw [List.self_eq_append_right.mp htold]
    exact h
  · rw [hs] at htold ⊢
    rw [List.self_eq_append_right.mp htold]
    exact h.store hmatch hsubscribers hloops hget
  · rw [hs] at htold ⊢
    rw [List.self_eq_append_right.mp htold]
    exact h.subscribe hnone pattern' callback'
  · rw [hs] at htold ⊢
    rw [← List.append_cancel_left htold]
    exact h.advance hloops

end InSync

end NotifyingNode

/-- From its subscription on, the calls that a subscriber gets give it the value of every key that
its pattern matches, unless a call about the key is still to come, as long as changes of a key
wait for the calls about the last one. Nobody is ever called about a key that no pattern of his
matches. -/
theorem subscribers_in_sync [DecidableEq C] (s : NotifyingNode V T C) (pattern : String) (callback : C)
    (schedule : List (NotifyAction V T C)) :
    let later := run NotifyingNode.step s (.subscribe pattern callback :: schedule)
    ∃ calls, later.told = s.told ++ calls ∧
      (∀ call ∈ calls, ∃ pattern', matchesPattern call.key pattern' = true ∧
        later.node.Subscribed pattern' call.callback) ∧
      (Along NotifyingNode.step NotifyingNode.Orderly s (.subscribe pattern callback :: schedule) →
        ∀ key, matchesPattern key pattern = true → (∀ loop ∈ later.loops, loop.key ≠ key) →
          lastCall callback key (s.node.get key) calls = later.node.get key) := by
  intro later
  have hcalls : ∃ calls, later.told = s.told ++ calls ∧ ∀ call ∈ calls, ∃ pattern',
      matchesPattern call.key pattern' = true ∧ later.node.Subscribed pattern' call.callback := by
    refine run_invariant_of_step (I := fun s' : NotifyingNode V T C => ∃ calls, s'.told = s.told ++ calls ∧
      ∀ call ∈ calls, ∃ pattern', matchesPattern call.key pattern' = true ∧
        s'.node.Subscribed pattern' call.callback) ?_
      ⟨[],(List.append_nil _).symm,fun _ hcall => absurd hcall List.not_mem_nil⟩ _
    rintro s' a ⟨calls,htold,hasked⟩
    obtain ⟨hkept,more,hmore,hasked'⟩ := s'.step_calls a
    refine ⟨calls ++ more,by rw [hmore,htold,List.append_assoc],fun call hcall => ?_⟩
    rcases List.mem_append.mp hcall with hcall | hcall
    · obtain ⟨pattern',hmatch,hsub⟩ := hasked call hcall
      exact ⟨pattern',hmatch,hkept _ _ hsub⟩
    · obtain ⟨pattern',hmatch,hsub⟩ := hasked' call hcall
      exact ⟨pattern',hmatch,hkept _ _ hsub⟩
  obtain ⟨calls,htold,hasked⟩ := hcalls
  refine ⟨calls,htold,hasked,?_⟩
  rintro ⟨hnone,hrest⟩ key hmatch hover
  have hstart : (s.step (.subscribe pattern callback)).InSync pattern callback key (s.node.get key) := by
    refine ⟨s.node.subscribed_subscribe.mpr (Or.inr ⟨rfl,rfl⟩),?_,?_,Or.inl rfl⟩
    · intro loop hloop
      exact absurd (hnone ▸ hloop : loop ∈ []) List.not_mem_nil
    · intro loop hloop
      exact absurd (hnone ▸ hloop : loop ∈ []) List.not_mem_nil
  obtain ⟨calls',htold',hsync⟩ : ∃ calls', later.told = s.told ++ calls' ∧
      later.InSync pattern callback key (lastCall callback key (s.node.get key) calls') := by
    refine run_invariant (I := fun s' : NotifyingNode V T C => ∃ calls', s'.told = s.told ++ calls' ∧
      s'.InSync pattern callback key (lastCall callback key (s.node.get key) calls')) ?_ (s := s.step _)
      ⟨[],(List.append_nil _).symm,hstart⟩ hrest
    rintro s' a ⟨calls',htold',hsync⟩ ha
    obtain ⟨-,more,hmore,-⟩ := s'.step_calls a
    refine ⟨calls' ++ more,by rw [hmore,htold',List.append_assoc],?_⟩
    rw [lastCall_append]
    exact hsync.step hmatch ha hmore
  rw [List.append_cancel_left (htold.symm.trans htold')]
  refine hsync.heard.resolve_right ?_
  rintro ⟨p,c,-,loop,hloop,hkey,-⟩
  exact hover loop hloop hkey

/-- A node on its own. -/
def soloNode : NotifyingNode ℕ ℤ ℕ := .init (GossipNode.init "a" ("h",1) [] .push 1 (.init 8 1000 0))

/-- One key changes here and another one by a message, and the calls about both take turns. -/
def overlapping : List (NotifyAction ℕ ℤ ℕ) :=
  [.set 1 "k2" (some 4),.merge ⟨"k1",some 5,7,0,"b",false⟩,.advance 1,.advance 0,.advance 0,.advance 1,.advance 0,
    .advance 0,.delete 2 "k2",.advance 0,.advance 0,.advance 0]

theorem subscribers_in_sync_solo :
    let later := run NotifyingNode.step soloNode (.subscribe "k*" 9 :: overlapping)
    ∃ calls, later.told = soloNode.told ++ calls ∧ ∀ key, matchesPattern key "k*" = true →
      lastCall 9 key (soloNode.node.get key) calls = later.node.get key := by
  intro later
  have hover : later.loops = [] := by decide +kernel
  obtain ⟨calls,htold,-,hsync⟩ := subscribers_in_sync soloNode "k*" 9 overlapping
  refine ⟨calls,htold,fun key hmatch => hsync (by decide +kernel) key hmatch fun loop hloop => ?_⟩
  exact absurd (hover ▸ hloop : loop ∈ []) List.not_mem_nil

/-- A message brings a newer value before the call about the older one is made. -/
example :
    let later := run NotifyingNode.step soloNode [.subscribe "k" 9,.set 1 "k" (some 10),
      .merge ⟨"k",some 20,2,0,"b",false⟩,.advance 1,.advance 1,.advance 1,.advance 0,.advance 0,.advance 0]
    later.loops = [] ∧ lastCall 9 "k" none later.told = some 10 ∧ later.node.get "k" = some 20 := by decide +kernel

end DistributedSystems.Gossip
