import DistributedSystems.Protocol.Runs
import Mathlib.Data.Finset.Card
import Mathlib.Data.Finset.Range
import Mathlib.Logic.Function.Basic
import Mathlib.Logic.Relation

/-! # Logical clocks and happened-before

Nodes take local, sending and receiving events, and a clock stamps each of them. A message
carries the stamp of its sending event. It may arrive late, out of order, several times or not
at all, so any earlier sending event may be received at any time.
-/
namespace DistributedSystems.HappenedBefore
open Runs
variable {ι R σ T : Type*}

/-- A clock: its start at each node, its three events, each with a reading taken by the node,
and the stamp an event gets from the clock it leaves. A receiving event has the sender and
the stamp of the message. -/
structure Clock (ι R σ T : Type*) where
  init : ι → σ
  tick : σ → R → σ
  send : σ → R → σ
  receive : σ → ι → T → R → σ
  stamp : σ → T

/-- A recorded event; `received` is the position of the sending event of its message. -/
structure Event (ι R T : Type*) where
  node : ι
  sent : Bool
  received : Option ℕ
  reading : R
  stamp : T

/-- The events at positions `k` and `l` are of one node, or a message goes from the first to
the second. -/
def Direct (events : List (Event ι R T)) (k l : ℕ) : Prop :=
  k < l ∧ ∃ e f, events[k]? = some e ∧ events[l]? = some f ∧ (e.node = f.node ∨ f.received = some k)

def Precedes (events : List (Event ι R T)) : ℕ → ℕ → Prop := Relation.TransGen (Direct events)

/-- The event at `k` is in the causal past of the event at `l`, which is its own past too. -/
def InPast (events : List (Event ι R T)) : ℕ → ℕ → Prop := Relation.ReflTransGen (Direct events)

section Order
variable {events : List (Event ι R T)} {f : Event ι R T} {k l : ℕ}

theorem lt_of_getElem? {e : Event ι R T} (h : events[l]? = some e) : l < events.length :=
  (List.getElem?_eq_some_iff.mp h).1

theorem eventAt_append {e : Event ι R T} :
    (events ++ [f])[l]? = some e ↔ events[l]? = some e ∨ l = events.length ∧ f = e := by
  rcases lt_trichotomy l events.length with hl | rfl | hl
  · simp [List.getElem?_append_left hl,hl.ne]
  · simp
  · simp [List.getElem?_append_right hl.le,List.getElem?_eq_none hl.le,hl.ne',show l - events.length ≠ 0 by omega]

theorem Precedes.lt (h : Precedes events k l) : k < l := by
  induction h with
  | single h => exact h.1
  | tail _ h ih => exact ih.trans h.1

theorem InPast.le (h : InPast events k l) : k ≤ l := by
  induction h with
  | refl => exact le_rfl
  | tail _ h ih => exact ih.trans h.1.le

theorem inPast_iff : InPast events k l ↔ k = l ∨ Precedes events k l := by
  rw [InPast,Relation.reflTransGen_iff_eq_or_transGen,eq_comm]
  exact Iff.rfl

theorem precedes_iff : Precedes events k l ↔ InPast events k l ∧ ¬InPast events l k := by
  constructor
  · intro h
    exact ⟨h.to_reflTransGen,fun h' => absurd h.lt (not_lt.mpr h'.le)⟩
  · rintro ⟨h,hnot⟩
    rcases inPast_iff.mp h with rfl | h
    · exact absurd Relation.ReflTransGen.refl hnot
    · exact h

theorem direct_append (h : l < events.length) : Direct (events ++ [f]) k l ↔ Direct events k l := by
  refine and_congr_right fun hkl => ?_
  rw [List.getElem?_append_left h,List.getElem?_append_left (hkl.trans h)]

/-- Later events change nothing about the past. -/
theorem inPast_append (h : l < events.length) : InPast (events ++ [f]) k l ↔ InPast events k l := by
  constructor
  · intro hp
    induction hp with
    | refl => exact Relation.ReflTransGen.refl
    | tail _ hd ih => exact (ih (hd.1.trans h)).tail ((direct_append h).mp hd)
  · intro hp
    induction hp with
    | refl => exact Relation.ReflTransGen.refl
    | tail _ hd ih => exact (ih (hd.1.trans h)).tail ((direct_append h).mpr hd)

theorem direct_last : Direct (events ++ [f]) k events.length ↔
    ∃ e, events[k]? = some e ∧ (e.node = f.node ∨ f.received = some k) := by
  constructor
  · rintro ⟨hk,e,f',he,hf,hor⟩
    rw [List.getElem?_append_left hk] at he
    rw [List.getElem?_concat_length] at hf
    cases hf
    exact ⟨e,he,hor⟩
  · rintro ⟨e,he,hor⟩
    have hk := lt_of_getElem? he
    exact ⟨hk,e,f,by rw [List.getElem?_append_left hk,he],List.getElem?_concat_length,hor⟩

/-- The past of a new event: itself and the pasts of the events just before it. -/
theorem inPast_last : InPast (events ++ [f]) k events.length ↔ k = events.length ∨
    ∃ m e, events[m]? = some e ∧ (e.node = f.node ∨ f.received = some m) ∧ InPast events k m := by
  constructor
  · intro h
    rcases Relation.ReflTransGen.cases_tail h with h | ⟨m,hkm,hm⟩
    · exact Or.inl h.symm
    · obtain ⟨e,he,hor⟩ := direct_last.mp hm
      exact Or.inr ⟨m,e,he,hor,(inPast_append hm.1).mp hkm⟩
  · rintro (rfl | ⟨m,e,he,hor,hkm⟩)
    · exact Relation.ReflTransGen.refl
    · have hm := direct_last.mpr ⟨e,he,hor⟩
      exact ((inPast_append hm.1).mpr hkm).tail hm

end Order

section Known
open Classical in
/-- The causal past of an event as a set of positions. -/
noncomputable def past (events : List (Event ι R T)) (l : ℕ) : Finset ℕ :=
  (Finset.range events.length).filter fun k => InPast events k l

open Classical in
/-- What a node knows: the pasts of its events. -/
noncomputable def known (events : List (Event ι R T)) (i : ι) : Finset ℕ :=
  (Finset.range events.length).filter fun k => ∃ l e, events[l]? = some e ∧ e.node = i ∧ InPast events k l

variable {events : List (Event ι R T)} {f : Event ι R T} {i : ι} {k l : ℕ}

theorem mem_past (h : l < events.length) : k ∈ past events l ↔ InPast events k l := by
  simp only [past,Finset.mem_filter,Finset.mem_range,and_iff_right_iff_imp]
  exact fun hk => hk.le.trans_lt h

theorem mem_known : k ∈ known events i ↔ ∃ l e, events[l]? = some e ∧ e.node = i ∧ InPast events k l := by
  simp only [known,Finset.mem_filter,Finset.mem_range,and_iff_right_iff_imp]
  rintro ⟨l,e,he,-,hk⟩
  exact hk.le.trans_lt (lt_of_getElem? he)

theorem past_append (h : l < events.length) : past (events ++ [f]) l = past events l := by
  ext k
  rw [mem_past h,mem_past (by simp; omega),inPast_append h]

/-- The past of a local event is the event and what its node knew. -/
theorem past_last (h : f.received = none) :
    past (events ++ [f]) events.length = insert events.length (known events f.node) := by
  ext k
  rw [mem_past (by simp),inPast_last,Finset.mem_insert,mem_known]
  simp [h]

/-- A receiving event also has the past of the sending event. -/
theorem past_last_received {m : ℕ} (h : f.received = some m) (hm : m < events.length) :
    past (events ++ [f]) events.length = insert events.length (known events f.node ∪ past events m) := by
  ext k
  rw [mem_past (by simp),inPast_last,Finset.mem_insert,Finset.mem_union,mem_known,mem_past hm]
  refine or_congr Iff.rfl ⟨?_,?_⟩
  · rintro ⟨l,e,he,hnode | hrec,hk⟩
    · exact Or.inl ⟨l,e,he,hnode,hk⟩
    · rw [h] at hrec
      cases hrec
      exact Or.inr hk
  · rintro (⟨l,e,he,hnode,hk⟩ | hk)
    · exact ⟨l,e,he,Or.inl hnode,hk⟩
    · exact ⟨m,events[m],List.getElem?_eq_getElem hm,Or.inr h,hk⟩

theorem known_append_ne (h : i ≠ f.node) : known (events ++ [f]) i = known events i := by
  ext k
  rw [mem_known,mem_known]
  constructor
  · rintro ⟨l,e,he,hi,hk⟩
    rcases eventAt_append.mp he with he | ⟨-,rfl⟩
    · exact ⟨l,e,he,hi,(inPast_append (lt_of_getElem? he)).mp hk⟩
    · exact absurd hi.symm h
  · rintro ⟨l,e,he,hi,hk⟩
    exact ⟨l,e,eventAt_append.mpr (Or.inl he),hi,(inPast_append (lt_of_getElem? he)).mpr hk⟩

/-- A node knows the past of its last event. -/
theorem known_append_self : known (events ++ [f]) f.node = past (events ++ [f]) events.length := by
  ext k
  rw [mem_known,mem_past (by simp)]
  constructor
  · rintro ⟨l,e,he,hnode,hk⟩
    rcases eventAt_append.mp he with he | ⟨rfl,-⟩
    · have hl := lt_of_getElem? he
      exact inPast_last.mpr (Or.inr ⟨l,e,he,Or.inl hnode,(inPast_append hl).mp hk⟩)
    · exact hk
  · intro hk
    exact ⟨events.length,f,eventAt_append.mpr (Or.inr ⟨rfl,rfl⟩),rfl,hk⟩

/-- A set of events with the past of each of them. -/
structure Closed (events : List (Event ι R T)) (K : Finset ℕ) : Prop where
  recorded : ∀ k ∈ K, k < events.length
  direct : ∀ l ∈ K, ∀ k, Direct events k l → k ∈ K

theorem closed_past (h : l < events.length) : Closed events (past events l) := by
  refine ⟨fun k hk => ((mem_past h).mp hk).le.trans_lt h,fun m hm k hkm => ?_⟩
  exact (mem_past h).mpr (Relation.ReflTransGen.head hkm ((mem_past h).mp hm))

theorem closed_known (i : ι) : Closed events (known events i) := by
  constructor
  · intro k hk
    obtain ⟨l,e,he,-,hkl⟩ := mem_known.mp hk
    exact hkl.le.trans_lt (lt_of_getElem? he)
  · intro m hm k hkm
    obtain ⟨l,e,he,hi,hml⟩ := mem_known.mp hm
    exact mem_known.mpr ⟨l,e,he,hi,Relation.ReflTransGen.head hkm hml⟩

/-- A known event, by the node it is of. -/
def ofNode [DecidableEq ι] (events : List (Event ι R T)) (K : Finset ℕ) (i : ι) : Finset ℕ :=
  K.filter fun k => events[k]?.map Event.node = some i

theorem mem_ofNode [DecidableEq ι] {K : Finset ℕ} :
    k ∈ ofNode events K i ↔ k ∈ K ∧ ∃ e, events[k]? = some e ∧ e.node = i := by
  simp [ofNode]

/-- Of the events of one node two closed sets have the same, except that one may end earlier. -/
theorem Closed.comparable [DecidableEq ι] {K K' : Finset ℕ} (h : Closed events K) (h' : Closed events K') (i : ι) :
    ofNode events K i ⊆ ofNode events K' i ∨ ofNode events K' i ⊆ ofNode events K i := by
  refine or_iff_not_imp_left.mpr fun hnot l hl => ?_
  obtain ⟨k,hk,hk'⟩ := Finset.not_subset.mp hnot
  obtain ⟨hkK,e,he,hei⟩ := mem_ofNode.mp hk
  obtain ⟨hlK',f,hf,hfi⟩ := mem_ofNode.mp hl
  refine mem_ofNode.mpr ⟨?_,f,hf,hfi⟩
  rcases lt_trichotomy k l with hkl | rfl | hlk
  · have hmem := h'.direct l hlK' k ⟨hkl,e,f,he,hf,Or.inl (hei.trans hfi.symm)⟩
    exact absurd (mem_ofNode.mpr ⟨hmem,e,he,hei⟩) hk'
  · exact hkK
  · exact h.direct k hkK l ⟨hlk,f,e,hf,he,Or.inl (hfi.trans hei.symm)⟩

section OfNode
variable [DecidableEq ι] {K K' : Finset ℕ}

theorem ofNode_append (h : ∀ k ∈ K, k < events.length) (i : ι) : ofNode (events ++ [f]) K i = ofNode events K i := by
  refine Finset.filter_congr fun k hk => ?_
  rw [List.getElem?_append_left (h k hk)]

/-- A new event counts for its own node only. -/
theorem card_ofNode_insert (h : ∀ k ∈ K, k < events.length) (i : ι) :
    (ofNode (events ++ [f]) (insert events.length K) i).card =
      (ofNode events K i).card + if i = f.node then 1 else 0 := by
  have hnew : events.length ∉ ofNode events K i := by
    intro hmem
    exact absurd (h _ (mem_ofNode.mp hmem).1) (lt_irrefl _)
  unfold ofNode at *
  rw [Finset.filter_insert,List.getElem?_concat_length]
  change Finset.card (if some f.node = some i then insert events.length (ofNode (events ++ [f]) K i)
    else ofNode (events ++ [f]) K i) = _
  rw [ofNode_append h]
  by_cases hi : i = f.node
  · subst i
    rw [if_pos rfl,if_pos rfl]
    exact Finset.card_insert_of_notMem hnew
  · rw [if_neg hi,if_neg fun heq => hi (Option.some_injective _ heq).symm]
    rfl

theorem Closed.card_ofNode_union (h : Closed events K) (h' : Closed events K') (i : ι) :
    (ofNode events (K ∪ K') i).card = max (ofNode events K i).card (ofNode events K' i).card := by
  have hunion : ofNode events (K ∪ K') i = ofNode events K i ∪ ofNode events K' i := Finset.filter_union _ _ _
  rw [hunion]
  rcases h.comparable h' i with hsub | hsub
  · rw [Finset.union_eq_right.mpr hsub,max_eq_right (Finset.card_le_card hsub)]
  · rw [Finset.union_eq_left.mpr hsub,max_eq_left (Finset.card_le_card hsub)]

/-- An event is in the past of another exactly if of no node it has more events in its past. -/
theorem inPast_iff_card_le {e : Event ι R T} (he : events[k]? = some e) (hl : l < events.length) :
    InPast events k l ↔ ∀ i, (ofNode events (past events k) i).card ≤ (ofNode events (past events l) i).card := by
  have hk := lt_of_getElem? he
  constructor
  · intro h i
    refine Finset.card_le_card (Finset.filter_subset_filter _ fun m hm => ?_)
    exact (mem_past hl).mpr (((mem_past hk).mp hm).trans h)
  · intro h
    have hself : k ∈ ofNode events (past events k) e.node :=
      mem_ofNode.mpr ⟨(mem_past hk).mpr Relation.ReflTransGen.refl,e,he,rfl⟩
    rcases (closed_past hk).comparable (closed_past hl) e.node with hsub | hsub
    · exact (mem_past hl).mp (mem_ofNode.mp (hsub hself)).1
    · rw [← Finset.eq_of_subset_of_card_le hsub (h e.node)] at hself
      exact (mem_past hl).mp (mem_ofNode.mp hself).1

end OfNode
end Known

/-- The clocks of all nodes, and the events recorded so far. -/
structure System (ι R σ T : Type*) where
  clocks : ι → σ
  events : List (Event ι R T)

/-- `receive i k r`: node `i` receives the message of the sending event at position `k`. -/
inductive Action (ι R : Type*)
  | tick (i : ι) (r : R)
  | send (i : ι) (r : R)
  | receive (i : ι) (k : ℕ) (r : R)

namespace System
variable [DecidableEq ι]

def init (C : Clock ι R σ T) : System ι R σ T := ⟨C.init,[]⟩

/-- Node `i` goes to a new clock, and the event with its stamp is recorded. -/
def record (C : Clock ι R σ T) (s : System ι R σ T) (i : ι) (sent : Bool) (received : Option ℕ) (r : R) (c : σ) :
    System ι R σ T where
  clocks := Function.update s.clocks i c
  events := s.events ++ [⟨i,sent,received,r,C.stamp c⟩]

@[simp] theorem record_clocks_self (C : Clock ι R σ T) (s : System ι R σ T) (i : ι) (sent : Bool)
    (received : Option ℕ) (r : R) (c : σ) : (s.record C i sent received r c).clocks i = c := by
  simp [record]

theorem record_clocks_ne (C : Clock ι R σ T) (s : System ι R σ T) {i j : ι} (sent : Bool) (received : Option ℕ)
    (r : R) (c : σ) (h : j ≠ i) : (s.record C i sent received r c).clocks j = s.clocks j := by
  simp [record,h]

def step (C : Clock ι R σ T) (s : System ι R σ T) : Action ι R → System ι R σ T
  | .tick i r => s.record C i false none r (C.tick (s.clocks i) r)
  | .send i r => s.record C i true none r (C.send (s.clocks i) r)
  | .receive i k r =>
    match s.events[k]? with
    | none => s
    | some e => if e.sent then s.record C i false (some k) r (C.receive (s.clocks i) e.node e.stamp r) else s

/-- Everything a step can do. -/
theorem step_cases (C : Clock ι R σ T) (s : System ι R σ T) (a : Action ι R) :
    s.step C a = s ∨
    (∃ i sent r c, (c = C.tick (s.clocks i) r ∨ c = C.send (s.clocks i) r) ∧
      s.step C a = s.record C i sent none r c) ∨
    ∃ i k e r, s.events[k]? = some e ∧
      s.step C a = s.record C i false (some k) r (C.receive (s.clocks i) e.node e.stamp r) := by
  cases a with
  | tick i r => exact Or.inr (Or.inl ⟨i,false,r,_,Or.inl rfl,rfl⟩)
  | send i r => exact Or.inr (Or.inl ⟨i,true,r,_,Or.inr rfl,rfl⟩)
  | receive i k r =>
    cases hk : s.events[k]? with
    | none => exact Or.inl (by simp [step,hk])
    | some e =>
      by_cases he : e.sent
      · exact Or.inr (Or.inr ⟨i,k,e,r,hk,by simp [step,hk,he]⟩)
      · exact Or.inl (by simp [step,hk,he])

end System

/-- The events recorded in a run. -/
abbrev Clock.history [DecidableEq ι] (C : Clock ι R σ T) (schedule : List (Action ι R)) : List (Event ι R T) :=
  (run (System.step C) (System.init C) schedule).events

/-- A relation between what a node knows and its clock that every event keeps; a message
brings what its sender knew. -/
structure Clock.Keeps (C : Clock ι R σ T) (Q : List (Event ι R T) → ι → Finset ℕ → σ → Prop) : Prop where
  init : ∀ i, Q [] i ∅ (C.init i)
  append : ∀ events f i K c, Closed events K → Q events i K c → Q (events ++ [f]) i K c
  tick : ∀ events i K c sent r, Closed events K → Q events i K c →
    Q (events ++ [⟨i,sent,none,r,C.stamp (C.tick c r)⟩]) i (insert events.length K) (C.tick c r)
  send : ∀ events i K c sent r, Closed events K → Q events i K c →
    Q (events ++ [⟨i,sent,none,r,C.stamp (C.send c r)⟩]) i (insert events.length K) (C.send c r)
  receive : ∀ events i j k K K' c c' r, Closed events K → Closed events K' → Q events i K c → Q events j K' c' →
    Q (events ++ [⟨i,false,some k,r,C.stamp (C.receive c j (C.stamp c') r)⟩]) i (insert events.length (K ∪ K'))
      (C.receive c j (C.stamp c') r)

namespace System
variable [DecidableEq ι] {C : Clock ι R σ T} {Q : List (Event ι R T) → ι → Finset ℕ → σ → Prop}

/-- The relation holds of every clock, and of the clock that stamped each event. -/
structure Holds (C : Clock ι R σ T) (Q : List (Event ι R T) → ι → Finset ℕ → σ → Prop) (s : System ι R σ T) : Prop where
  clocks : ∀ i, Q s.events i (known s.events i) (s.clocks i)
  events : ∀ l e, s.events[l]? = some e → ∃ c, Q s.events e.node (past s.events l) c ∧ C.stamp c = e.stamp

omit [DecidableEq ι] in
theorem holds_init (hQ : C.Keeps Q) : Holds C Q (init C) := by
  constructor
  · intro i
    have hknown : known ([] : List (Event ι R T)) i = ∅ := by simp [known]
    simpa [init,hknown] using hQ.init i
  · intro l e he
    simp [init] at he

theorem Holds.record (hQ : C.Keeps Q) {s : System ι R σ T} (h : Holds C Q s) {i : ι} {sent : Bool} {received : Option ℕ}
    {r : R} {c : σ} (hc : Q (s.record C i sent received r c).events i
      (past (s.record C i sent received r c).events s.events.length) c) :
    Holds C Q (s.record C i sent received r c) := by
  constructor
  · intro j
    by_cases hj : j = i
    · subst j
      have hself : known (s.record C i sent received r c).events i = _ :=
        known_append_self (f := ⟨i,sent,received,r,C.stamp c⟩)
      rw [hself,record_clocks_self]
      exact hc
    · have hne : known (s.record C i sent received r c).events j = known s.events j := known_append_ne hj
      rw [hne,record_clocks_ne C s sent received r c hj]
      exact hQ.append s.events _ j _ _ (closed_known j) (h.clocks j)
  · intro l e he
    rcases eventAt_append.mp he with he | ⟨rfl,rfl⟩
    · obtain ⟨c',hc',hstamp⟩ := h.events l e he
      have hl := lt_of_getElem? he
      refine ⟨c',?_,hstamp⟩
      have hpast : past (s.record C i sent received r c).events l = past s.events l := past_append hl
      rw [hpast]
      exact hQ.append s.events _ e.node _ _ (closed_past hl) hc'
    · exact ⟨c,hc,rfl⟩

theorem Holds.step (hQ : C.Keeps Q) {s : System ι R σ T} (h : Holds C Q s) (a : Action ι R) :
    Holds C Q (s.step C a) := by
  rcases s.step_cases C a with hs | ⟨i,sent,r,c,hc,hs⟩ | ⟨i,k,e,r,he,hs⟩
  · rw [hs]
    exact h
  · rw [hs]
    refine h.record hQ ?_
    have hpast : past (s.record C i sent none r c).events s.events.length = _ := past_last rfl
    rw [hpast]
    rcases hc with rfl | rfl
    · exact hQ.tick s.events i _ _ sent r (closed_known i) (h.clocks i)
    · exact hQ.send s.events i _ _ sent r (closed_known i) (h.clocks i)
  · rw [hs]
    have hk := lt_of_getElem? he
    obtain ⟨c',hc',hstamp⟩ := h.events k e he
    refine h.record hQ ?_
    rw [← hstamp]
    have hpast : past (s.record C i false (some k) r (C.receive (s.clocks i) e.node (C.stamp c') r)).events
        s.events.length = _ := past_last_received rfl hk
    rw [hpast]
    exact hQ.receive s.events i e.node k _ _ _ c' r (closed_known i) (closed_past hk) (h.clocks i) hc'

theorem holds_run (hQ : C.Keeps Q) (schedule : List (Action ι R)) : Holds C Q (run (step C) (init C) schedule) :=
  run_invariant_of_step (fun _ a h => h.step hQ a) (holds_init hQ) schedule

end System

/-- A relation that does not look at what a node knows. -/
theorem Clock.Keeps.of_forall {C : Clock ι R σ T} {I : ι → σ → Prop} (hinit : ∀ i, I i (C.init i))
    (htick : ∀ i c r, I i c → I i (C.tick c r)) (hsend : ∀ i c r, I i c → I i (C.send c r))
    (hreceive : ∀ i j c c' r, I i c → I j c' → I i (C.receive c j (C.stamp c') r)) : C.Keeps fun _ i _ c => I i c where
  init := hinit
  append _ _ _ _ _ _ h := h
  tick _ i _ c _ r _ h := htick i c r h
  send _ i _ c _ r _ h := hsend i c r h
  receive _ i j _ _ _ c c' r _ _ h h' := hreceive i j c c' r h h'

/-- Every event makes the stamp grow, beyond the one of a received message too. -/
structure Clock.Increasing {P : Type*} [Preorder P] (C : Clock ι R σ T) (I : ι → σ → Prop) (view : T → P) : Prop where
  tick : ∀ i c r, I i c → view (C.stamp c) < view (C.stamp (C.tick c r))
  send : ∀ i c r, I i c → view (C.stamp c) < view (C.stamp (C.send c r))
  receive : ∀ i j c c' r, I i c → I j c' → view (C.stamp c) < view (C.stamp (C.receive c j (C.stamp c') r)) ∧
    view (C.stamp c') < view (C.stamp (C.receive c j (C.stamp c') r))

namespace System
variable [DecidableEq ι] {C : Clock ι R σ T} {I : ι → σ → Prop} {P : Type*} [Preorder P] {view : T → P}

/-- No event is later than the clock of its node, and an event is later than those just
before it. -/
structure Ascending (C : Clock ι R σ T) (view : T → P) (s : System ι R σ T) : Prop where
  clocks : ∀ (k : ℕ) e, s.events[k]? = some e → view e.stamp ≤ view (C.stamp (s.clocks e.node))
  direct : ∀ k l e f, Direct s.events k l → s.events[k]? = some e → s.events[l]? = some f → view e.stamp < view f.stamp

theorem Ascending.record {s : System ι R σ T} (h : Ascending C view s) {i : ι} {sent : Bool} {received : Option ℕ}
    {r : R} {c : σ} (hown : view (C.stamp (s.clocks i)) < view (C.stamp c))
    (hmessage : ∀ k e, received = some k → s.events[k]? = some e → view e.stamp < view (C.stamp c)) :
    Ascending C view (s.record C i sent received r c) := by
  constructor
  · intro k e he
    rcases eventAt_append.mp he with he | ⟨-,rfl⟩
    · have hle := h.clocks k e he
      by_cases hi : e.node = i
      · subst hi
        rw [record_clocks_self]
        exact hle.trans hown.le
      · rw [record_clocks_ne C s sent received r c hi]
        exact hle
    · rw [record_clocks_self]
  · intro k l e f hkl he hf
    rcases eventAt_append.mp hf with hf | ⟨rfl,rfl⟩
    · have hl := lt_of_getElem? hf
      rcases eventAt_append.mp he with he | ⟨rfl,-⟩
      · exact h.direct k l e f ((direct_append hl).mp hkl) he hf
      · exact absurd (hkl.1.trans hl) (lt_irrefl _)
    · obtain ⟨e',he',hor⟩ := direct_last.mp hkl
      rcases eventAt_append.mp he with he | ⟨rfl,-⟩
      · obtain rfl : e = e' := Option.some_injective _ (he.symm.trans he')
        rcases hor with hnode | hrec
        · have hle := h.clocks k e he
          rw [hnode] at hle
          exact hle.trans_lt hown
        · exact hmessage k e hrec he
      · exact absurd hkl.1 (lt_irrefl _)

theorem Ascending.step (hC : C.Increasing I view) {s : System ι R σ T} (hI : Holds C (fun _ i _ c => I i c) s)
    (h : Ascending C view s) (a : Action ι R) : Ascending C view (s.step C a) := by
  rcases s.step_cases C a with hs | ⟨i,sent,r,c,hc,hs⟩ | ⟨i,k,e,r,he,hs⟩
  · rw [hs]
    exact h
  · rw [hs]
    refine h.record ?_ (fun _ _ hnone => by cases hnone)
    rcases hc with rfl | rfl
    · exact hC.tick i _ r (hI.clocks i)
    · exact hC.send i _ r (hI.clocks i)
  · rw [hs]
    obtain ⟨c',hc',hstamp⟩ := hI.events k e he
    obtain ⟨hown,hmessage⟩ := hC.receive i e.node (s.clocks i) c' r (hI.clocks i) hc'
    rw [hstamp] at hown hmessage
    refine h.record hown ?_
    rintro k' e' ⟨⟩ he'
    obtain rfl : e = e' := Option.some_injective _ (he.symm.trans he')
    exact hmessage

/-- The clock condition: an event that precedes another has the smaller stamp. -/
theorem clock_condition (hI : C.Keeps fun _ i _ c => I i c) (hC : C.Increasing I view) (schedule : List (Action ι R))
    {k l : ℕ} {e f : Event ι R T} (hkl : Precedes (C.history schedule) k l) (he : (C.history schedule)[k]? = some e)
    (hf : (C.history schedule)[l]? = some f) : view e.stamp < view f.stamp := by
  have hrun : Holds C (fun _ i _ c => I i c) (run (step C) (init C) schedule) ∧
      Ascending C view (run (step C) (init C) schedule) := by
    refine run_invariant_of_step (I := fun s => Holds C (fun _ i _ c => I i c) s ∧ Ascending C view s)
      (fun s a h => ⟨h.1.step hI a,h.2.step hC h.1 a⟩) ⟨holds_init hI,?_,?_⟩ schedule
    · intro k e he
      simp [init] at he
    · intro k l e f _ he
      simp [init] at he
  induction hkl generalizing f with
  | single hd => exact hrun.2.direct k _ e f hd he hf
  | tail _ hd ih =>
    obtain ⟨-,m,-,hm,-,-⟩ := id hd
    exact (ih hm).trans (hrun.2.direct _ _ m f hd hm hf)

end System
end DistributedSystems.HappenedBefore
