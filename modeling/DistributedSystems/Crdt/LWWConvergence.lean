import DistributedSystems.Crdt.LWWMap
import DistributedSystems.Protocol.Runs

/-! # Convergence of last-write-wins maps

Each node has a replica. A merge copies a register with the node that made it, and later
writes to the copy go out in the name of that node. As long as no replica writes in the name
of another, timestamp and writer together identify one value.
-/
namespace DistributedSystems.Crdt
open Runs

variable {ι K V T : Type} [LinearOrder ι] [DecidableEq K] [LinearOrder T]

/-- The replicas, and all states of them so far. -/
structure LWWReplicas (ι K V T : Type) where
  replicas : ι → LWWMap ι K V T
  history : List (ι → LWWMap ι K V T)

/-- A merge takes the state that the other replica has then. -/
inductive LWWAction (ι K V T : Type)
  | put (i : ι) (key : K) (value : Option V) (timestamp : T)
  | remove (i : ι) (key : K) (timestamp : T)
  | merge (i j : ι)

namespace LWWReplicas

def init (ι K V T : Type) : LWWReplicas ι K V T := ⟨fun i => .init i,[fun i => .init i]⟩

def advance (s : LWWReplicas ι K V T) (i : ι) (m : LWWMap ι K V T) : LWWReplicas ι K V T where
  replicas := Function.update s.replicas i m
  history := s.history ++ [Function.update s.replicas i m]

omit [DecidableEq K] [LinearOrder T] in
@[simp] theorem advance_self (s : LWWReplicas ι K V T) (i : ι) (m : LWWMap ι K V T) :
    (s.advance i m).replicas i = m :=
  Function.update_self ..

omit [DecidableEq K] [LinearOrder T] in
theorem advance_ne (s : LWWReplicas ι K V T) {i j : ι} (m : LWWMap ι K V T) (h : j ≠ i) :
    (s.advance i m).replicas j = s.replicas j :=
  Function.update_of_ne h _ _

def step (json : V → Option V) (s : LWWReplicas ι K V T) : LWWAction ι K V T → LWWReplicas ι K V T
  | .put i key value timestamp => s.advance i ((s.replicas i).put key value timestamp)
  | .remove i key timestamp => s.advance i ((s.replicas i).remove key timestamp)
  | .merge i j => s.advance i ((s.replicas i).merge json (s.replicas j)).1

/-- The map is a state of some replica, at some time. -/
def Occurs (s : LWWReplicas ι K V T) (m : LWWMap ι K V T) : Prop := ∃ g ∈ s.history, ∃ i, m = g i

/-- Values that JSON gives back unchanged are written, and registers accept writes only at the
replica that made them. -/
def WritesOwn (json : V → Option V) (s : LWWReplicas ι K V T) : LWWAction ι K V T → Prop
  | .put i key value timestamp => LWWRegister.Stable json value ∧
      ∀ r ∈ (s.replicas i).registers.get? key, r.shouldUpdate timestamp r.nodeId → r.nodeId = i
  | .remove i key timestamp =>
      ∀ r ∈ (s.replicas i).registers.get? key, r.shouldUpdate timestamp r.nodeId → r.nodeId = i
  | .merge _ _ => True

instance [DecidableEq V] (json : V → Option V) (s : LWWReplicas ι K V T) : ∀ a, Decidable (s.WritesOwn json a)
  | .put _ _ _ _ => inferInstanceAs (Decidable (_ ∧ _))
  | .remove i key timestamp => inferInstanceAs (Decidable (∀ r ∈ (s.replicas i).registers.get? key,
      r.shouldUpdate timestamp r.nodeId → r.nodeId = i))
  | .merge _ _ => isTrue trivial

/-- Timestamp and writer identify the value, and no writer has fallen behind its own writes. -/
structure Coherent (json : V → Option V) (s : LWWReplicas ι K V T) : Prop where
  nodeId : ∀ i, (s.replicas i).nodeId = i
  current : s.replicas ∈ s.history
  stable : ∀ m, s.Occurs m → m.Stable json
  stamp : ∀ m m', s.Occurs m → s.Occurs m' → ∀ key, ∀ x ∈ m.content key, ∀ y ∈ m'.content key, x.1 = y.1 → x = y
  own : ∀ m, s.Occurs m → ∀ key, ∀ x ∈ m.content key, ∃ y ∈ (s.replicas (ofLex x.1).2).content key, x.1 ≤ y.1

theorem coherent_init (json : V → Option V) : Coherent json (init ι K V T) := by
  have hnone : ∀ m, (init ι K V T).Occurs m → ∀ key, m.content key = none := by
    rintro m ⟨g,hg,i,rfl⟩ key
    cases List.mem_singleton.mp hg
    rfl
  refine ⟨fun _ => rfl,List.mem_cons_self,?_,?_,?_⟩
  · intro m hm key x hx
    rw [hnone m hm] at hx
    cases hx
  · intro m m' hm _ key x hx
    rw [hnone m hm] at hx
    cases hx
  · intro m hm key x hx
    rw [hnone m hm] at hx
    cases hx

theorem Coherent.occurs {json : V → Option V} {s : LWWReplicas ι K V T} (h : Coherent json s) (i : ι) :
    s.Occurs (s.replicas i) := ⟨_,h.current,i,rfl⟩

theorem Coherent.occurs_advance {json : V → Option V} {s : LWWReplicas ι K V T} (h : Coherent json s) {i : ι}
    {m' m : LWWMap ι K V T} (hm : (s.advance i m').Occurs m) : s.Occurs m ∨ m = m' := by
  obtain ⟨g,hg,j,rfl⟩ := hm
  rcases List.mem_append.mp hg with hg | hg
  · exact Or.inl ⟨g,hg,j,rfl⟩
  cases List.mem_singleton.mp hg
  by_cases hj : j = i
  · subst j
    exact Or.inr (Function.update_self ..)
  · rw [Function.update_of_ne hj]
    exact Or.inl (h.occurs j)

/-- A replica may take over what occurs anywhere, and write in its own name what is newer than
all it has. -/
theorem Coherent.advance {json : V → Option V} {s : LWWReplicas ι K V T} (h : Coherent json s) {i : ι}
    {m' : LWWMap ι K V T} (hid : m'.nodeId = i)
    (hgrow : ∀ key, ∀ x ∈ (s.replicas i).content key, ∃ y ∈ m'.content key, x.1 ≤ y.1)
    (horigin : ∀ key, ∀ y ∈ m'.content key, (∃ m, s.Occurs m ∧ y ∈ m.content key) ∨
      ((ofLex y.1).2 = i ∧ LWWRegister.Stable json y.2 ∧ ∀ x ∈ (s.replicas i).content key, x.1 < y.1)) :
    Coherent json (s.advance i m') := by
  -- Content of the new state occurred before, or is new content of the replica.
  have hsource : ∀ m, (s.advance i m').Occurs m → ∀ key, ∀ y ∈ m.content key, (∃ m, s.Occurs m ∧ y ∈ m.content key) ∨
      (y ∈ m'.content key ∧ (ofLex y.1).2 = i ∧ LWWRegister.Stable json y.2 ∧
        ∀ x ∈ (s.replicas i).content key, x.1 < y.1) := by
    intro m hm key y hy
    rcases h.occurs_advance hm with hm | rfl
    · exact Or.inl ⟨m,hm,hy⟩
    · exact (horigin key y hy).imp id fun hfresh => ⟨hy,hfresh⟩
  -- New content carries a stamp that has not occurred.
  have hfresh : ∀ m, s.Occurs m → ∀ key, ∀ x ∈ m.content key, ∀ y : (T ×ₗ ι) × Option V, (ofLex y.1).2 = i →
      (∀ x ∈ (s.replicas i).content key, x.1 < y.1) → x.1 ≠ y.1 := by
    intro m hm key x hx y hwriter hlt heq
    obtain ⟨z,hz,hle⟩ := h.own m hm key x hx
    rw [heq,hwriter] at hz
    rw [heq] at hle
    exact absurd (hlt z hz) (not_lt.mpr hle)
  refine ⟨?_,List.mem_append_right _ List.mem_cons_self,?_,?_,?_⟩
  · intro j
    by_cases hj : j = i
    · subst j
      rw [advance_self]
      exact hid
    · rw [advance_ne s m' hj]
      exact h.nodeId j
  · intro m hm key y hy
    rcases hsource m hm key y hy with ⟨m,hm,hy⟩ | ⟨-,-,hstable,-⟩
    · exact h.stable m hm key y hy
    · exact hstable
  · intro m₁ m₂ hm₁ hm₂ key x hx y hy heq
    rcases hsource m₁ hm₁ key x hx with ⟨m,hm,hx⟩ | ⟨hx,hwx,-,hltx⟩
    · rcases hsource m₂ hm₂ key y hy with ⟨n,hn,hy⟩ | ⟨-,hwy,-,hlty⟩
      · exact h.stamp m n hm hn key x hx y hy heq
      · exact absurd heq (hfresh m hm key x hx y hwy hlty)
    · rcases hsource m₂ hm₂ key y hy with ⟨n,hn,hy⟩ | ⟨hy,-,-,-⟩
      · exact absurd heq.symm (hfresh n hn key y hy x hwx hltx)
      · exact Option.some.inj (hx.symm.trans hy)
  · intro m hm key x hx
    rcases hsource m hm key x hx with ⟨m,hm,hx⟩ | ⟨hx,hwx,-,-⟩
    · obtain ⟨y,hy,hle⟩ := h.own m hm key x hx
      by_cases hw : (ofLex x.1).2 = i
      · rw [hw] at hy ⊢
        obtain ⟨z,hz,hyz⟩ := hgrow key y hy
        rw [advance_self]
        exact ⟨z,hz,hle.trans hyz⟩
      · rw [advance_ne s m' hw]
        exact ⟨y,hy,hle⟩
    · rw [hwx,advance_self]
      exact ⟨x,hx,le_refl _⟩

theorem Coherent.put {json : V → Option V} {s : LWWReplicas ι K V T} (h : Coherent json s) {i : ι} {key : K}
    {value : Option V} {timestamp : T} (hstable : LWWRegister.Stable json value)
    (hown : ∀ r ∈ (s.replicas i).registers.get? key, r.shouldUpdate timestamp r.nodeId → r.nodeId = i) :
    Coherent json (s.advance i ((s.replicas i).put key value timestamp)) := by
  refine h.advance ((LWWMap.put_nodeId ..).trans (h.nodeId i)) ?_ ?_
  · intro key' x hx
    rcases (s.replicas i).put_cases key value timestamp with hc | ⟨node,-,hnew,hc⟩
    · rw [hc]
      exact ⟨x,hx,le_refl _⟩
    · rw [hc]
      by_cases hk : key' = key
      · subst key'
        exact ⟨_,Function.update_self ..,(hnew x hx).le⟩
      · rw [Function.update_of_ne hk]
        exact ⟨x,hx,le_refl _⟩
  · intro key' y hy
    rcases (s.replicas i).put_cases key value timestamp with hc | ⟨node,hnode,hnew,hc⟩
    · rw [hc] at hy
      exact Or.inl ⟨_,h.occurs i,hy⟩
    · rw [hc] at hy
      by_cases hk : key' = key
      · subst key'
        rw [Function.update_self] at hy
        cases hy
        refine Or.inr ⟨?_,hstable,hnew⟩
        rcases hnode with rfl | ⟨r,hr,hu,rfl⟩
        · exact h.nodeId i
        · exact hown r hr hu
      · rw [Function.update_of_ne hk] at hy
        exact Or.inl ⟨_,h.occurs i,hy⟩

theorem Coherent.merge {json : V → Option V} {s : LWWReplicas ι K V T} (h : Coherent json s) (i j : ι) :
    Coherent json (s.advance i ((s.replicas i).merge json (s.replicas j)).1) := by
  have hcontent := (LWWMap.merge_content (h.stable _ (h.occurs j)) (s.replicas i)).2
  refine h.advance ((LWWMap.mergeEntries_nodeId ..).trans (h.nodeId i)) ?_ ?_
  · intro key x hx
    rw [hcontent,Option.mem_def.mp hx]
    cases (s.replicas j).content key with
    | none => exact ⟨x,rfl,le_refl _⟩
    | some y => exact ⟨_,rfl,le_newest Prod.fst x y⟩
  · intro key y hy
    rw [hcontent] at hy
    left
    rcases Option.merge_eq_or_eq (newest_eq_or Prod.fst) ((s.replicas i).content key)
      ((s.replicas j).content key) with hl | hr
    · rw [hl] at hy
      exact ⟨_,h.occurs i,hy⟩
    · rw [hr] at hy
      exact ⟨_,h.occurs j,hy⟩

theorem Coherent.step {json : V → Option V} {s : LWWReplicas ι K V T} {a : LWWAction ι K V T} (h : Coherent json s)
    (hguard : s.WritesOwn json a) : Coherent json (s.step json a) := by
  cases a with
  | put i key value timestamp => exact h.put hguard.1 hguard.2
  | remove i key timestamp => exact h.put nofun hguard
  | merge i j => exact h.merge i j

/-- Merges of states of the run succeed and are commutative, associative and idempotent up to
the value, and replicas that have merged each other agree. -/
structure Converges (json : V → Option V) (s : LWWReplicas ι K V T) : Prop where
  ok : ∀ a b, s.Occurs a → s.Occurs b → (a.merge json b).2 = .ok ()
  mutually : ∀ i j, ((run (step json) s [.merge i j,.merge j i]).replicas i).value =
    ((run (step json) s [.merge i j,.merge j i]).replicas j).value
  comm : ∀ a b, s.Occurs a → s.Occurs b → (a.merge json b).1.value = (b.merge json a).1.value
  assoc : ∀ a b c, s.Occurs a → s.Occurs b → s.Occurs c →
    ((a.merge json b).1.merge json c).1.value = (a.merge json (b.merge json c).1).1.value
  idem : ∀ a, s.Occurs a → (a.merge json a).1.value = a.value

theorem Coherent.content_comm {json : V → Option V} {s : LWWReplicas ι K V T} (h : Coherent json s)
    {a b : LWWMap ι K V T} (ha : s.Occurs a) (hb : s.Occurs b) :
    (a.merge json b).1.content = (b.merge json a).1.content := by
  funext key
  rw [(LWWMap.merge_content (h.stable b hb) a).2,(LWWMap.merge_content (h.stable a ha) b).2]
  exact merge_newest_comm (h.stamp a b ha hb key)

/-- Of two replicas that merge each other, the first already has what the second gets. -/
theorem Coherent.content_mutually {json : V → Option V} {s : LWWReplicas ι K V T} (h : Coherent json s) (i j : ι) :
    ((run (LWWReplicas.step json) s [.merge i j,.merge j i]).replicas i).content =
      ((run (LWWReplicas.step json) s [.merge i j,.merge j i]).replicas j).content := by
  by_cases hij : i = j
  · rw [hij]
  set a := s.replicas i with ha
  set b := s.replicas j with hb
  set a' := (a.merge json b).1 with ha'
  have hrun : run (LWWReplicas.step json) s [.merge i j,.merge j i] =
      (s.advance i a').advance j (((s.advance i a').replicas j).merge json ((s.advance i a').replicas i)).1 := rfl
  have hri : (s.advance i a').replicas i = a' := advance_self ..
  have hrj : (s.advance i a').replicas j = b := advance_ne s a' (Ne.symm hij)
  have hstable : a'.Stable json := (h.merge i j).stable a' (hri ▸ (h.merge i j).occurs i)
  rw [hrun,hri,hrj,advance_self,advance_ne _ _ hij,hri]
  funext key
  have hcontent := (LWWMap.merge_content (h.stable b (h.occurs j)) a).2 key
  rw [(LWWMap.merge_content hstable b).2,hcontent]
  exact (merge_newest_absorb (h.stamp a b (h.occurs i) (h.occurs j) key)).symm

theorem Coherent.converges {json : V → Option V} {s : LWWReplicas ι K V T} (h : Coherent json s) :
    Converges json s where
  ok a b _ hb := (LWWMap.merge_content (h.stable b hb) a).1
  mutually i j := LWWMap.value_congr (h.content_mutually i j)
  comm a b ha hb := LWWMap.value_congr (h.content_comm ha hb)
  assoc a b c _ hb hc := by
    refine LWWMap.value_congr (funext fun key => ?_)
    have hbc := LWWMap.merge_content (h.stable c hc) b
    have hstable := (h.stable b hb).merge (h.stable c hc)
    rw [(LWWMap.merge_content (h.stable c hc) _).2,(LWWMap.merge_content (h.stable b hb) a).2,
      (LWWMap.merge_content hstable a).2,hbc.2]
    exact (Option.associative_merge (newest Prod.fst)).assoc _ _ _
  idem a ha := by
    refine LWWMap.value_congr (funext fun key => ?_)
    rw [(LWWMap.merge_content (h.stable a ha) a).2]
    exact (Option.idempotentOp_merge (newest Prod.fst)).idempotent _

/-- In runs in which replicas write in their own name, and values that JSON gives back
unchanged, the replicas converge. -/
theorem lwwMap_converges (json : V → Option V) {schedule : List (LWWAction ι K V T)}
    (hguard : Along (step json) (WritesOwn json) (init ι K V T) schedule) :
    Converges json (run (step json) (init ι K V T) schedule) :=
  (run_invariant (I := Coherent json) (fun _ _ h hg => h.step hg) (coherent_init json) hguard).converges

/-- Two replicas write one key at the same time, before they have merged. -/
theorem lwwMap_converges_tie : ∃ schedule : List (LWWAction ℕ ℕ ℕ ℕ), schedule.length = 4 ∧
    Converges some (run (step some) (init ℕ ℕ ℕ ℕ) schedule) :=
  ⟨[.put 0 0 (some 10) 2,.put 1 0 (some 20) 2,.merge 0 1,.remove 0 1 3],rfl,lwwMap_converges some (by decide)⟩

/-- Replica 1 merges the register that replica 0 has made. Then both write the key at the
same time, and both writes carry the name of node 0. -/
theorem lwwMap_diverges :
    ¬ ∀ (schedule : List (LWWAction ℕ ℕ ℕ ℕ)) (i j : ℕ),
      ((run (step some) (init ℕ ℕ ℕ ℕ) (schedule ++ [.merge i j,.merge j i])).replicas i).value =
        ((run (step some) (init ℕ ℕ ℕ ℕ) (schedule ++ [.merge i j,.merge j i])).replicas j).value := by
  intro h
  have hvalue := congrFun (h [.put 0 0 (some 10) 1,.merge 1 0,.put 0 0 (some 20) 2,.put 1 0 (some 30) 2] 0 1) 0
  exact absurd hvalue (by decide)

end LWWReplicas

end DistributedSystems.Crdt
