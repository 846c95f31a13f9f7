import DistributedSystems.Gossip.GossipNode
import DistributedSystems.Protocol.Runs

/-! # Notifications of gossip nodes

A node changes its store under the lock of the store and calls the subscribers when the lock is
free again, from any thread, in a loop over the dictionary of patterns that anybody may extend
meanwhile. Calls of `subscribe` do not overlap each other.
-/
namespace DistributedSystems.Gossip
open Runs

variable {V T C : Type}

/-- A call of a subscriber. -/
structure Notification (V C : Type) where
  callback : C
  key : String
  value : Option V

/-- `_matches_pattern`: a star anywhere makes the pattern the start of a key. -/
def matchesPattern (key pattern : String) : Bool :=
  if '*' ∈ pattern.toList then decide (pattern.toList.rdropWhile (· = '*') <+: key.toList)
  else decide (key = pattern)

/-- How far a thread is: before `_notify_subscribers`, or in its loops, at a pattern of a
dictionary that had `size` of them and at a callback of that pattern. -/
inductive NotifyPhase
  | stored
  | iterating (size pattern callback : ℕ)

/-- A change of the store about which the subscribers are being called. -/
structure NotifyLoop (V : Type) where
  key : String
  value : Option V
  phase : NotifyPhase

/-- A node with its changes of which not everybody is told yet, and all calls so far. -/
structure NotifyingNode (V T C : Type) where
  node : GossipNode V T C
  loops : List (NotifyLoop V)
  told : List (Notification V C)

/-- `advance j`: the thread of change `j` takes one step. -/
inductive NotifyAction (V T C : Type)
  | set (now : T) (key : String) (value : Option V)
  | delete (now : T) (key : String)
  | merge (entry : StateEntry String String V T)
  | subscribe (pattern : String) (callback : C)
  | advance (j : ℕ)

/-- The callback at a place of the dictionary, if a key matches its pattern. -/
def callbackAt (subscribers : Dict String (List C)) (key : String) (pattern callback : ℕ) : Option C :=
  match subscribers.entries[pattern]? with
  | none => none
  | some e => if matchesPattern key e.1 then e.2[callback]? else none

namespace NotifyLoop

/-- The next pattern. A dictionary that has grown ends the loop as its end does, with an error. -/
def fetch (loop : NotifyLoop V) (subscribers : Dict String (List C)) (size pattern : ℕ) : Option (NotifyLoop V) :=
  if subscribers.entries.length = size ∧ pattern < size then some { loop with phase := .iterating size pattern 0 }
  else none

/-- One step of the loops, with the call that it makes. -/
def advance (loop : NotifyLoop V) (subscribers : Dict String (List C)) :
    Option (NotifyLoop V) × Option (Notification V C) :=
  match loop.phase with
  | .stored => (loop.fetch subscribers subscribers.entries.length 0,none)
  | .iterating size pattern callback =>
    match callbackAt subscribers loop.key pattern callback with
    | none => (loop.fetch subscribers size (pattern + 1),none)
    | some c => (some { loop with phase := .iterating size pattern (callback + 1) },some ⟨c,loop.key,loop.value⟩)

end NotifyLoop

namespace NotifyingNode

def init (node : GossipNode V T C) : NotifyingNode V T C := ⟨node,[],[]⟩

/-- The node with a change, of which nobody is told yet. -/
def store (s : NotifyingNode V T C) (node : GossipNode V T C) (key : String) (value : Option V) : NotifyingNode V T C :=
  { s with
    node := node
    loops := s.loops ++ [⟨key,value,.stored⟩] }

/-- `set` and `delete`, which tells of a key that it does not find too, an entry of
`_merge_entries`, and the steps of their loops. -/
def step (s : NotifyingNode V T C) : NotifyAction V T C → NotifyingNode V T C
  | .set now key value => s.store (s.node.set now key value) key value
  | .delete now key => s.store (s.node.delete now key) key none
  | .merge entry =>
    let (store,updated) := s.node.stateStore.merge entry
    if updated then s.store { s.node with stateStore := store } entry.key entry.value else s
  | .subscribe pattern callback => { s with node := s.node.subscribe pattern callback }
  | .advance j =>
    match s.loops[j]? with
    | none => s
    | some loop =>
      let (rest,call) := loop.advance s.node.subscribers
      { s with
        loops := s.loops.take j ++ rest.toList ++ s.loops.drop (j + 1)
        told := s.told ++ call.toList }

end NotifyingNode

namespace GossipNode
variable (n : GossipNode V T C)

/-- A callback is on the list of a pattern. -/
def Subscribed (pattern : String) (callback : C) : Prop :=
  ∃ callbacks, n.subscribers.get? pattern = some callbacks ∧ callback ∈ callbacks

theorem subscribed_subscribe {pattern pattern' : String} {callback callback' : C} :
    (n.subscribe pattern' callback').Subscribed pattern callback ↔
      n.Subscribed pattern callback ∨ pattern = pattern' ∧ callback = callback' := by
  have hget : (n.subscribe pattern' callback').subscribers.get? pattern = if pattern = pattern' then
      some ((n.subscribers.get? pattern').getD [] ++ [callback']) else n.subscribers.get? pattern :=
    n.subscribers.get?_insert pattern' pattern _
  unfold Subscribed
  rw [hget]
  split
  · rename_i hpattern
    subst hpattern
    cases n.subscribers.get? pattern with
    | none => simp
    | some callbacks => simp
  · rename_i hpattern
    simp [hpattern]

/-- Subscribers are found at a place of the dictionary. -/
theorem Subscribed.exists_callbackAt {n : GossipNode V T C} {pattern : String} {callback : C}
    (h : n.Subscribed pattern callback) :
    ∃ p c, ∀ key, matchesPattern key pattern = true → callbackAt n.subscribers key p c = some callback := by
  obtain ⟨callbacks,hget,hmem⟩ := h
  obtain ⟨p,hp⟩ := List.getElem?_of_mem (Dict.mem_entries_iff.mpr hget)
  obtain ⟨c,hc⟩ := List.getElem?_of_mem hmem
  refine ⟨p,c,fun key hmatch => ?_⟩
  simp only [callbackAt,hp,hmatch,if_true,hc]

theorem subscribed_of_callbackAt {key : String} {p c : ℕ} {callback : C}
    (h : callbackAt n.subscribers key p c = some callback) :
    ∃ pattern, matchesPattern key pattern = true ∧ n.Subscribed pattern callback := by
  unfold callbackAt at h
  split at h
  · cases h
  · rename_i e he
    split at h
    · rename_i hmatch
      exact ⟨e.1,hmatch,e.2,Dict.get?_of_mem (List.mem_of_getElem? he),List.mem_of_getElem? h⟩
    · cases h

end GossipNode

namespace NotifyLoop
variable {loop rest : NotifyLoop V} {subscribers : Dict String (List C)}

/-- A loop is over the dictionary as it is. -/
def Sized (loop : NotifyLoop V) (subscribers : Dict String (List C)) : Prop :=
  match loop.phase with
  | .stored => True
  | .iterating size _ _ => subscribers.entries.length = size

/-- A loop has not come past a place. -/
def Before (loop : NotifyLoop V) (p c : ℕ) : Prop :=
  match loop.phase with
  | .stored => True
  | .iterating _ pattern callback => pattern < p ∨ pattern = p ∧ callback ≤ c

theorem of_mem_fetch {size pattern : ℕ} (h : rest ∈ loop.fetch subscribers size pattern) :
    rest = { loop with phase := .iterating size pattern 0 } ∧ subscribers.entries.length = size := by
  unfold fetch at h
  split at h
  · rename_i hsize
    exact ⟨(Option.some.inj h).symm,hsize.1⟩
  · cases h

/-- What is left of a loop is about the same change. -/
theorem of_mem_advance (h : rest ∈ (loop.advance subscribers).1) :
    rest.key = loop.key ∧ rest.value = loop.value ∧ (loop.Sized subscribers → rest.Sized subscribers) := by
  unfold advance at h
  cases hphase : loop.phase with
  | stored =>
    simp only [hphase] at h
    obtain ⟨rfl,hsize⟩ := of_mem_fetch h
    exact ⟨rfl,rfl,fun _ => hsize⟩
  | iterating size pattern callback =>
    simp only [hphase] at h
    split at h
    · obtain ⟨rfl,hsize⟩ := of_mem_fetch h
      exact ⟨rfl,rfl,fun _ => hsize⟩
    · rw [← Option.some.inj h]
      refine ⟨rfl,rfl,fun hsized => ?_⟩
      simpa [Sized,hphase] using hsized

theorem of_mem_call {call : Notification V C} (h : call ∈ (loop.advance subscribers).2) :
    call.key = loop.key ∧ call.value = loop.value ∧
      ∃ p c, callbackAt subscribers loop.key p c = some call.callback := by
  unfold advance at h
  cases hphase : loop.phase with
  | stored =>
    simp only [hphase] at h
    cases h
  | iterating size pattern callback =>
    simp only [hphase] at h
    split at h
    · cases h
    · rename_i c hc
      rw [← Option.some.inj h]
      exact ⟨rfl,rfl,pattern,callback,hc⟩

/-- A loop does not leave a callback behind without calling it. -/
theorem Before.advance {p c : ℕ} {callback : C} (h : loop.Before p c) (hsized : loop.Sized subscribers)
    (hplace : callbackAt subscribers loop.key p c = some callback) :
    (∃ rest ∈ (loop.advance subscribers).1, rest.Before p c) ∨
      (loop.advance subscribers).2 = some ⟨callback,loop.key,loop.value⟩ := by
  have hlength : p < subscribers.entries.length := by
    unfold callbackAt at hplace
    split at hplace
    · cases hplace
    · rename_i e he
      exact (List.getElem?_eq_some_iff.mp he).1
  have hfetch : ∀ pattern, pattern ≤ p →
      ∃ rest ∈ loop.fetch subscribers subscribers.entries.length pattern, rest.Before p c := by
    intro pattern hle
    refine ⟨{ loop with phase := .iterating subscribers.entries.length pattern 0 },?_,?_⟩
    · exact if_pos ⟨rfl,lt_of_le_of_lt hle hlength⟩
    · exact (lt_or_eq_of_le hle).imp_right fun heq => ⟨heq,Nat.zero_le c⟩
  unfold Before at h
  unfold Sized at hsized
  unfold NotifyLoop.advance
  cases hphase : loop.phase with
  | stored => exact Or.inl (hfetch 0 (Nat.zero_le p))
  | iterating size pattern current =>
    simp only [hphase] at h hsized ⊢
    subst hsized
    by_cases hhere : pattern = p ∧ current = c
    · obtain ⟨rfl,rfl⟩ := hhere
      simp only [hplace]
      exact Or.inr trivial
    left
    split
    · rename_i hnone
      refine hfetch (pattern + 1) ?_
      rcases h with hlt | ⟨rfl,hle⟩
      · exact hlt
      · -- a pattern is left at the end of its callbacks
        exfalso
        have hlt : current < c := lt_of_le_of_ne hle fun heq => hhere ⟨rfl,heq⟩
        unfold callbackAt at hnone hplace
        split at hplace
        · cases hplace
        · rename_i e he
          simp only [he] at hnone
          split at hplace
          · rename_i hmatch
            rw [if_pos hmatch] at hnone
            have hend := List.getElem?_eq_none_iff.mp hnone
            have hc := (List.getElem?_eq_some_iff.mp hplace).1
            omega
          · cases hplace
    · refine ⟨_,rfl,h.imp_right fun hp => ⟨hp.1,?_⟩⟩
      exact lt_of_le_of_ne hp.2 fun heq => hhere ⟨hp.1,heq⟩

end NotifyLoop

namespace NotifyingNode

/-- Subscribers stay, and calls are about keys that a pattern of the callback matches. -/
theorem step_calls (s : NotifyingNode V T C) (a : NotifyAction V T C) :
    (∀ pattern callback, s.node.Subscribed pattern callback → (s.step a).node.Subscribed pattern callback) ∧
    ∃ calls, (s.step a).told = s.told ++ calls ∧
      ∀ call ∈ calls, ∃ pattern, matchesPattern call.key pattern = true ∧ s.node.Subscribed pattern call.callback := by
  have hnone : ∃ calls, s.told = s.told ++ calls ∧
      ∀ call ∈ calls, ∃ pattern, matchesPattern call.key pattern = true ∧ s.node.Subscribed pattern call.callback :=
    ⟨[],(List.append_nil _).symm,fun _ hcall => absurd hcall List.not_mem_nil⟩
  cases a with
  | set | delete => exact ⟨fun _ _ h => h,hnone⟩
  | merge entry =>
    cases hupdated : (s.node.stateStore.merge entry).2 with
    | false =>
      have hs : s.step (.merge entry) = s := by simp [step,hupdated]
      rw [hs]
      exact ⟨fun _ _ h => h,hnone⟩
    | true =>
      have hs : s.step (.merge entry) = s.store { s.node with stateStore := (s.node.stateStore.merge entry).1 }
          entry.key entry.value := by simp [step,hupdated]
      rw [hs]
      exact ⟨fun _ _ h => h,hnone⟩
  | subscribe pattern callback => exact ⟨fun _ _ h => s.node.subscribed_subscribe.mpr (Or.inl h),hnone⟩
  | advance j =>
    cases hj : s.loops[j]? with
    | none =>
      have hs : s.step (.advance j) = s := by simp [step,hj]
      rw [hs]
      exact ⟨fun _ _ h => h,hnone⟩
    | some loop =>
      simp only [step,hj]
      refine ⟨fun _ _ h => h,(loop.advance s.node.subscribers).2.toList,rfl,fun call hcall => ?_⟩
      obtain ⟨hkey,-,p,c,hplace⟩ := NotifyLoop.of_mem_call (Option.mem_toList.mp hcall)
      rw [hkey]
      exact s.node.subscribed_of_callbackAt hplace

end NotifyingNode

/-- All calls about a change, in order. -/
def notifySubscribers (subscribers : Dict String (List C)) (key : String) (value : Option V) :
    List (Notification V C) :=
  subscribers.entries.flatMap fun e =>
    if matchesPattern key e.1 then e.2.map fun callback => ⟨callback,key,value⟩ else []

namespace NotifyingNode
variable {s : NotifyingNode V T C}

/-- The only loop goes on for some steps. -/
def Advances (s s' : NotifyingNode V T C) : Prop := ∃ n, run step s (List.replicate n (.advance 0)) = s'

theorem Advances.trans {s' s'' : NotifyingNode V T C} (h : s.Advances s') (h' : s'.Advances s'') : s.Advances s'' := by
  obtain ⟨n,rfl⟩ := h
  obtain ⟨m,rfl⟩ := h'
  exact ⟨n + m,by rw [List.replicate_add,run_append]⟩

theorem Advances.of_step {loop : NotifyLoop V} (h : s.loops = [loop]) : s.Advances { s with
    loops := (loop.advance s.node.subscribers).1.toList
    told := s.told ++ (loop.advance s.node.subscribers).2.toList } :=
  ⟨1,by simp [step,h]⟩

/-- The loop comes to the end of the callbacks of its pattern. -/
theorem advances_pattern {loop : NotifyLoop V} (h : s.loops = [loop]) {pattern callback : ℕ}
    (hphase : loop.phase = .iterating s.node.subscribers.entries.length pattern callback) {e : String × List C}
    (he : s.node.subscribers.entries[pattern]? = some e) : s.Advances { s with
      loops := (loop.fetch s.node.subscribers s.node.subscribers.entries.length (pattern + 1)).toList
      told := s.told ++ if matchesPattern loop.key e.1 then
        (e.2.drop callback).map fun c => ⟨c,loop.key,loop.value⟩ else [] } := by
  induction hleft : e.2.length - callback generalizing s loop callback with
  | zero =>
    have hnone : callbackAt s.node.subscribers loop.key pattern callback = none := by
      simp [callbackAt,he,Nat.sub_eq_zero_iff_le.mp hleft]
    have hstep := Advances.of_step h
    simp only [NotifyLoop.advance,hphase,hnone] at hstep
    simpa [List.drop_eq_nil_of_le (Nat.sub_eq_zero_iff_le.mp hleft)] using hstep
  | succ left ih =>
    have hstep := Advances.of_step h
    simp only [NotifyLoop.advance,hphase] at hstep
    by_cases hmatch : matchesPattern loop.key e.1 = true
    · have hlt : callback < e.2.length := by omega
      have hplace : callbackAt s.node.subscribers loop.key pattern callback = some e.2[callback] := by
        simp [callbackAt,he,hmatch,hlt]
      simp only [hplace] at hstep
      have hrest := ih (s := { s with
        loops := [{ loop with phase := .iterating s.node.subscribers.entries.length pattern (callback + 1) }]
        told := s.told ++ [⟨e.2[callback],loop.key,loop.value⟩] }) rfl rfl he (by omega)
      refine (hstep.trans hrest).trans ⟨0,?_⟩
      simp only [hmatch,if_true,List.drop_eq_getElem_cons hlt,List.map_cons,List.append_assoc]
      rfl
    · have hnone : callbackAt s.node.subscribers loop.key pattern callback = none := by simp [callbackAt,he,hmatch]
      simp only [hnone] at hstep
      simpa [hmatch] using hstep

/-- The loop comes to the end of the patterns. -/
theorem advances_patterns {loop : NotifyLoop V} {pattern : ℕ}
    (h : s.loops = (loop.fetch s.node.subscribers s.node.subscribers.entries.length pattern).toList) :
    s.Advances { s with
      loops := []
      told := s.told ++ (s.node.subscribers.entries.drop pattern).flatMap fun e =>
        if matchesPattern loop.key e.1 then e.2.map fun callback => ⟨callback,loop.key,loop.value⟩ else [] } := by
  induction hleft : s.node.subscribers.entries.length - pattern generalizing s pattern with
  | zero =>
    have hend := Nat.sub_eq_zero_iff_le.mp hleft
    rw [NotifyLoop.fetch,if_neg (by omega)] at h
    refine ⟨0,?_⟩
    have hloops : [] = s.loops := h.symm
    simp only [List.drop_eq_nil_of_le hend,List.flatMap_nil,List.append_nil,hloops]
    rfl
  | succ left ih =>
    have hlt : pattern < s.node.subscribers.entries.length := by omega
    rw [NotifyLoop.fetch,if_pos ⟨rfl,hlt⟩] at h
    have hpattern := advances_pattern h rfl (List.getElem?_eq_getElem hlt)
    have hless : s.node.subscribers.entries.length - (pattern + 1) = left := by omega
    have hrest := ih (s := { s with
      loops := (loop.fetch s.node.subscribers s.node.subscribers.entries.length (pattern + 1)).toList
      told := s.told ++ if matchesPattern loop.key s.node.subscribers.entries[pattern].1 then
        s.node.subscribers.entries[pattern].2.map fun c => ⟨c,loop.key,loop.value⟩ else [] }) rfl hless
    refine (hpattern.trans hrest).trans ⟨0,?_⟩
    simp only [List.drop_eq_getElem_cons hlt,List.flatMap_cons,List.append_assoc]
    rfl

/-- A change that nothing disturbs is told to everybody who asked for it. -/
theorem advances_notifySubscribers {key : String} {value : Option V} (h : s.loops = [⟨key,value,.stored⟩]) :
    s.Advances { s with
      loops := []
      told := s.told ++ notifySubscribers s.node.subscribers key value } := by
  have hfirst := Advances.of_step h
  have hrest := advances_patterns (s := { s with
    loops := ((⟨key,value,.stored⟩ : NotifyLoop V).fetch s.node.subscribers
      s.node.subscribers.entries.length 0).toList
    told := s.told ++ [] }) rfl
  refine (hfirst.trans hrest).trans ⟨0,?_⟩
  simp only [List.append_nil,List.drop_zero]
  rfl

end NotifyingNode

end DistributedSystems.Gossip
