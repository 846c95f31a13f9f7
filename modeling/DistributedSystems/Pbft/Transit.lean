import DistributedSystems.Protocol.Runs
import DistributedSystems.Pbft.System

/-! # Delivery exactly once

All nodes are honest. A broadcast puts one copy for each other node into the network,
and a delivery takes its copy out, in any order.
-/
namespace DistributedSystems.Pbft
variable {Op Dig : Type}

/-- The nodes and the messages in flight, each with its destination. The last field is a
history: the callers of `trigger_view_change`, in order. -/
structure Transit (Op Dig : Type) where
  nodes : ℕ → PBFTNode Op Dig
  inFlight : List (ℕ × Message Op Dig)
  triggered : List ℕ

inductive Event (Op : Type)
  | propose (i : ℕ) (operation : Op) (reqId : ℤ)
  | triggerViewChange (i : ℕ)
  | deliver (k : ℕ)

/-- The copies of a message that node `source` of `totalNodes` hands to the network. -/
def Outgoing.copies (totalNodes source : ℕ) : Outgoing Op Dig → List (ℕ × Message Op Dig)
  | .broadcast message => ((List.range totalNodes).filter (· ≠ source)).map (·,message)
  | .send message destination => if destination < totalNodes then [(destination,message)] else []

theorem Outgoing.mem_copies {totalNodes source : ℕ} {o : Outgoing Op Dig} {p : ℕ × Message Op Dig}
    (h : p ∈ o.copies totalNodes source) : p.1 < totalNodes ∧ p.2 = o.message := by
  cases o with
  | broadcast message =>
    obtain ⟨j,hj,rfl⟩ := List.mem_map.mp h
    exact ⟨List.mem_range.mp (List.mem_filter.mp hj).1,rfl⟩
  | send message destination =>
    change p ∈ if destination < totalNodes then [(destination,message)] else [] at h
    by_cases hd : destination < totalNodes
    · rw [if_pos hd] at h
      rw [List.mem_singleton.mp h]
      exact ⟨hd,rfl⟩
    · rw [if_neg hd] at h
      exact absurd h List.not_mem_nil

theorem Outgoing.broadcast_copies {totalNodes source j : ℕ} (hj : j < totalNodes) (hne : j ≠ source)
    (message : Message Op Dig) : (j,message) ∈ (Outgoing.broadcast message).copies totalNodes source :=
  List.mem_map_of_mem (List.mem_filter.mpr ⟨List.mem_range.mpr hj,by simpa using hne⟩)

namespace Transit

def init (Op Dig : Type) (totalNodes : ℕ) : Transit Op Dig where
  nodes i := PBFTNode.init i totalNodes
  inFlight := []
  triggered := []

/-- A node finished a handler: it is replaced, and the copies of what it sent are in flight. -/
def update (totalNodes : ℕ) (c : Transit Op Dig) (i : ℕ) (out : PBFTNode Op Dig × List (Outgoing Op Dig)) :
    Transit Op Dig :=
  { c with
    nodes := Function.update c.nodes i out.1
    inFlight := c.inFlight ++ out.2.flatMap (Outgoing.copies totalNodes i) }

/-- The message at position `k` leaves the network. -/
def take (c : Transit Op Dig) (k : ℕ) : Transit Op Dig := { c with inFlight := c.inFlight.eraseIdx k }

def step [DecidableEq Op] [DecidableEq Dig] (totalNodes : ℕ) (digest : Op → Option Dig) (c : Transit Op Dig) :
    Event Op → Transit Op Dig
  | .propose i operation reqId =>
    if i < totalNodes then c.update totalNodes i ((c.nodes i).propose digest operation reqId) else c
  | .triggerViewChange i =>
    if i < totalNodes then
      { c.update totalNodes i (c.nodes i).triggerViewChange with triggered := c.triggered ++ [i] }
    else c
  | .deliver k =>
    match c.inFlight[k]? with
    | none => c
    | some (i,message) => (c.take k).update totalNodes i ((c.nodes i).receive digest message)

variable {totalNodes : ℕ} {c : Transit Op Dig} {i : ℕ} {out : PBFTNode Op Dig × List (Outgoing Op Dig)}

@[simp] theorem update_self : (c.update totalNodes i out).nodes i = out.1 := Function.update_self ..

theorem update_ne {j : ℕ} (h : j ≠ i) : (c.update totalNodes i out).nodes j = c.nodes j := Function.update_of_ne h _ _

/-- What holds of the new node and of all old ones holds of every node. -/
theorem forall_nodes_update {P : ℕ → PBFTNode Op Dig → Prop} (hi : P i out.1) (h : ∀ j, P j (c.nodes j)) (j : ℕ) :
    P j ((c.update totalNodes i out).nodes j) :=
  (Function.forall_update_iff c.nodes P).mpr ⟨hi,fun j _ => h j⟩ j

theorem forall_lt_update {P : ℕ → PBFTNode Op Dig → Prop} (hi : i < totalNodes → P i out.1)
    (h : ∀ j < totalNodes, P j (c.nodes j)) : ∀ j < totalNodes, P j ((c.update totalNodes i out).nodes j) :=
  forall_nodes_update (P := fun j n => j < totalNodes → P j n) hi h

theorem mem_update_inFlight {p : ℕ × Message Op Dig} (h : p ∈ (c.update totalNodes i out).inFlight) :
    p ∈ c.inFlight ∨ ∃ o ∈ out.2, p.1 < totalNodes ∧ p.2 = o.message := by
  rcases List.mem_append.mp h with h | h
  · exact Or.inl h
  · obtain ⟨o,ho,hp⟩ := List.mem_flatMap.mp h
    exact Or.inr ⟨o,ho,Outgoing.mem_copies hp⟩

theorem mem_update_of_mem {p : ℕ × Message Op Dig} (h : p ∈ c.inFlight) : p ∈ (c.update totalNodes i out).inFlight :=
  List.mem_append_left _ h

theorem mem_update_of_broadcast {j : ℕ} {message : Message Op Dig} (h : .broadcast message ∈ out.2)
    (hj : j < totalNodes) (hne : j ≠ i) : (j,message) ∈ (c.update totalNodes i out).inFlight :=
  List.mem_append_right _ (List.mem_flatMap.mpr ⟨_,h,Outgoing.broadcast_copies hj hne message⟩)

/-- Every message but the one taken stays in flight. -/
theorem mem_take {k : ℕ} {p q : ℕ × Message Op Dig} (hk : c.inFlight[k]? = some q) (hp : p ∈ c.inFlight) :
    p ∈ (c.take k).inFlight ∨ p = q := by
  obtain ⟨l,hl⟩ := List.getElem?_of_mem hp
  by_cases hlk : l = k
  · subst l
    exact Or.inr (Option.some.inj (hl.symm.trans hk))
  · exact Or.inl (List.mem_eraseIdx_iff_getElem?.mpr ⟨l,hlk,hl⟩)

theorem mem_of_mem_take {k : ℕ} {p : ℕ × Message Op Dig} (h : p ∈ (c.take k).inFlight) : p ∈ c.inFlight :=
  List.mem_of_mem_eraseIdx h

theorem step_deliver [DecidableEq Op] [DecidableEq Dig] {digest : Op → Option Dig} {k : ℕ} {message : Message Op Dig}
    (hk : c.inFlight[k]? = some (i,message)) : c.step totalNodes digest (.deliver k) =
      (c.take k).update totalNodes i ((c.nodes i).receive digest message) := by
  unfold step
  dsimp only
  rw [hk]

end Transit

end DistributedSystems.Pbft
