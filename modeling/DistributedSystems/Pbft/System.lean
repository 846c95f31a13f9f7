import DistributedSystems.Protocol.Runs
import DistributedSystems.Pbft.Node

/-! # A PBFT cluster with Byzantine nodes

Messages stay in the network for ever and are delivered late, repeatedly or never.
Honest nodes run the handlers; Byzantine nodes put any message into the network that
names one of them as its sender.
-/
namespace DistributedSystems.Pbft

/-- A cluster of nodes `0, …, totalNodes - 1`, few enough of them Byzantine. -/
structure Config where
  totalNodes : ℕ
  byzantine : Finset ℕ
  members : ∀ i ∈ byzantine, i < totalNodes
  bound : byzantine.card ≤ (totalNodes - 1) / 3

/-- A message in the network. A broadcast has no destination and reaches all other nodes. -/
structure Envelope (Op Dig : Type) where
  source : ℕ
  destination : Option ℕ
  message : Message Op Dig

structure System (Op Dig : Type) where
  nodes : ℕ → PBFTNode Op Dig
  network : List (Envelope Op Dig)

inductive Action (Op Dig : Type)
  | propose (i : ℕ) (operation : Op) (reqId : ℤ)
  | triggerViewChange (i : ℕ)
  | deliver (k i : ℕ)
  | inject (envelope : Envelope Op Dig)

variable {Op Dig : Type} [DecidableEq Op] [DecidableEq Dig]

def Config.honest (cfg : Config) (i : ℕ) : Prop := i < cfg.totalNodes ∧ i ∉ cfg.byzantine

instance (cfg : Config) (i : ℕ) : Decidable (cfg.honest i) := inferInstanceAs (Decidable (_ ∧ _))

/-- Whether a node may receive a message. -/
def Envelope.reaches (envelope : Envelope Op Dig) (i : ℕ) : Prop :=
  match envelope.destination with
  | none => i ≠ envelope.source
  | some destination => i = destination

instance (envelope : Envelope Op Dig) (i : ℕ) : Decidable (envelope.reaches i) := by
  unfold Envelope.reaches
  split <;> infer_instance

def Outgoing.envelope (source : ℕ) : Outgoing Op Dig → Envelope Op Dig
  | .broadcast message => ⟨source,none,message⟩
  | .send message destination => ⟨source,some destination,message⟩

def Outgoing.message : Outgoing Op Dig → Message Op Dig
  | .broadcast message => message
  | .send message _ => message

omit [DecidableEq Op] [DecidableEq Dig] in
@[simp] theorem Outgoing.envelope_message (o : Outgoing Op Dig) (i : ℕ) : (o.envelope i).message = o.message := by
  cases o <;> rfl

namespace System

def init (Op Dig : Type) (cfg : Config) : System Op Dig where
  nodes i := PBFTNode.init i cfg.totalNodes
  network := []

/-- A node finished a handler: it is replaced, and what it sent joins the network. -/
def update (c : System Op Dig) (i : ℕ) (out : PBFTNode Op Dig × List (Outgoing Op Dig)) : System Op Dig where
  nodes := Function.update c.nodes i out.1
  network := c.network ++ out.2.map (Outgoing.envelope i)

def step (cfg : Config) (digest : Op → Option Dig) (c : System Op Dig) : Action Op Dig → System Op Dig
  | .propose i operation reqId =>
    if cfg.honest i then c.update i ((c.nodes i).propose digest operation reqId) else c
  | .triggerViewChange i => if cfg.honest i then c.update i (c.nodes i).triggerViewChange else c
  | .deliver k i =>
    match c.network[k]? with
    | none => c
    | some envelope =>
      if cfg.honest i ∧ envelope.reaches i then c.update i ((c.nodes i).receive digest envelope.message)
      else c
  | .inject envelope =>
    if envelope.source ∈ cfg.byzantine ∧ envelope.message.sender = envelope.source then
      { c with network := c.network ++ [envelope] }
    else c

omit [DecidableEq Op] [DecidableEq Dig] in
@[simp] theorem update_self (c : System Op Dig) (i : ℕ) (out : PBFTNode Op Dig × List (Outgoing Op Dig)) :
    (c.update i out).nodes i = out.1 := Function.update_self ..

omit [DecidableEq Op] [DecidableEq Dig] in
theorem update_ne (c : System Op Dig) {i j : ℕ} (out : PBFTNode Op Dig × List (Outgoing Op Dig)) (h : j ≠ i) :
    (c.update i out).nodes j = c.nodes j := Function.update_of_ne h _ _

omit [DecidableEq Op] [DecidableEq Dig] in
/-- What holds of the new node and of all old ones holds of every node. -/
theorem forall_nodes_update {c : System Op Dig} {i : ℕ} {out : PBFTNode Op Dig × List (Outgoing Op Dig)}
    {P : ℕ → PBFTNode Op Dig → Prop} (hi : P i out.1) (h : ∀ j, P j (c.nodes j)) (j : ℕ) :
    P j ((c.update i out).nodes j) :=
  (Function.forall_update_iff c.nodes P).mpr ⟨hi,fun j _ => h j⟩ j

omit [DecidableEq Op] [DecidableEq Dig] in
theorem mem_update_network {c : System Op Dig} {i : ℕ} {out : PBFTNode Op Dig × List (Outgoing Op Dig)}
    {e : Envelope Op Dig} (h : e ∈ (c.update i out).network) :
    e ∈ c.network ∨ ∃ o ∈ out.2, e = o.envelope i := by
  rcases List.mem_append.mp h with h | h
  · exact Or.inl h
  · obtain ⟨o,ho,rfl⟩ := List.mem_map.mp h
    exact Or.inr ⟨o,ho,rfl⟩

omit [DecidableEq Op] [DecidableEq Dig] in
theorem mem_network_update {c : System Op Dig} {i : ℕ} {out : PBFTNode Op Dig × List (Outgoing Op Dig)}
    {e : Envelope Op Dig} (h : e ∈ c.network) : e ∈ (c.update i out).network := List.mem_append_left _ h

theorem step_deliver {cfg : Config} {digest : Op → Option Dig} {c : System Op Dig} {e : Envelope Op Dig} {k i : ℕ}
    (hk : c.network[k]? = some e) (hi : cfg.honest i) (hr : e.reaches i) :
    c.step cfg digest (.deliver k i) = c.update i ((c.nodes i).receive digest e.message) := by
  unfold step
  dsimp only
  rw [hk]
  exact if_pos ⟨hi,hr⟩

/-- The handlers an action can start. -/
inductive Handler (digest : Op → Option Dig) (c : System Op Dig) :
    Action Op Dig → ℕ → PBFTNode Op Dig × List (Outgoing Op Dig) → Prop
  | propose (i : ℕ) (operation : Op) (reqId : ℤ) :
      Handler digest c (.propose i operation reqId) i ((c.nodes i).propose digest operation reqId)
  | triggerViewChange (i : ℕ) : Handler digest c (.triggerViewChange i) i (c.nodes i).triggerViewChange
  | deliver (k i : ℕ) (envelope : Envelope Op Dig) (hk : c.network[k]? = some envelope) (hi : envelope.reaches i) :
      Handler digest c (.deliver k i) i ((c.nodes i).receive digest envelope.message)

/-- A step does nothing, runs one handler on an honest node, or adds a message of a
Byzantine sender. -/
theorem step_cases (cfg : Config) (digest : Op → Option Dig) (c : System Op Dig) (a : Action Op Dig) :
    c.step cfg digest a = c ∨
    (∃ i out, cfg.honest i ∧ Handler digest c a i out ∧ c.step cfg digest a = c.update i out) ∨
    (∃ envelope : Envelope Op Dig, (envelope.source ∈ cfg.byzantine ∧ envelope.message.sender = envelope.source) ∧
      c.step cfg digest a = { c with network := c.network ++ [envelope] }) := by
  cases a with
  | propose i operation reqId =>
    by_cases hi : cfg.honest i
    · exact Or.inr (Or.inl ⟨i,_,hi,.propose i operation reqId,if_pos hi⟩)
    · exact Or.inl (if_neg hi)
  | triggerViewChange i =>
    by_cases hi : cfg.honest i
    · exact Or.inr (Or.inl ⟨i,_,hi,.triggerViewChange i,if_pos hi⟩)
    · exact Or.inl (if_neg hi)
  | deliver k i =>
    unfold step
    dsimp only
    cases hk : c.network[k]? with
    | none => exact Or.inl rfl
    | some envelope =>
      dsimp only
      by_cases ht : cfg.honest i ∧ envelope.reaches i
      · exact Or.inr (Or.inl ⟨i,_,ht.1,.deliver k i envelope hk ht.2,if_pos ht⟩)
      · exact Or.inl (if_neg ht)
  | inject envelope =>
    by_cases he : envelope.source ∈ cfg.byzantine ∧ envelope.message.sender = envelope.source
    · exact Or.inr (Or.inr ⟨envelope,he,if_pos he⟩)
    · exact Or.inl (if_neg he)

/-- What the handlers of honest nodes and Byzantine messages establish, a step keeps. -/
theorem step_keeps {cfg : Config} {digest : Op → Option Dig} {c : System Op Dig} {a : Action Op Dig}
    {P : System Op Dig → Prop} (h : P c)
    (hupdate : ∀ i out, cfg.honest i → Handler digest c a i out → P (c.update i out))
    (hinject : ∀ e : Envelope Op Dig, e.message.sender ∈ cfg.byzantine → P { c with network := c.network ++ [e] }) :
    P (c.step cfg digest a) := by
  rcases step_cases cfg digest c a with hc | ⟨i,out,hi,hh,hc⟩ | ⟨e,he,hc⟩
  · rw [hc]
    exact h
  · rw [hc]
    exact hupdate i out hi hh
  · rw [hc]
    exact hinject e (by rw [he.2]; exact he.1)

end System

end DistributedSystems.Pbft
