import DistributedSystems.Protocol.Dict
import DistributedSystems.Protocol.SetsByKey
import Mathlib.Order.ConditionallyCompleteLattice.Basic
import Mathlib.Data.Int.ConditionallyCompleteOrder
import Mathlib.Order.WithBot

/-! # Interval tree clocks

A clock is a tree of counters, with the children of a node under their identifiers. What a path
is worth is the largest counter that it meets, so a child that is no larger than its parent says
nothing. A join keeps the maximum of each path, and a pruned tree keeps what its paths are worth.
-/
namespace DistributedSystems.Clocks

inductive IntervalTreeClock
  | mk (id : String) (counter : ℤ) (children : List (String × IntervalTreeClock))

namespace IntervalTreeClock

/-- What holds of a tree when it holds of all its children holds of every tree. -/
@[induction_eliminator]
theorem ind {motive : IntervalTreeClock → Prop}
    (mk : ∀ id counter children, (∀ e ∈ children, motive e.2) → motive (.mk id counter children))
    (t : IntervalTreeClock) : motive t := by
  refine @IntervalTreeClock.rec motive (fun children => ∀ e ∈ children, motive e.2) (fun e => motive e.2) mk ?_ ?_
    (fun _ _ ih => ih) t
  · exact fun e he => absurd he List.not_mem_nil
  · intro e children ih ihs e' he'
    rcases List.mem_cons.mp he' with rfl | he'
    · exact ih
    · exact ihs e' he'

def id : IntervalTreeClock → String
  | mk id _ _ => id

def counter : IntervalTreeClock → ℤ
  | mk _ counter _ => counter

def children : IntervalTreeClock → List (String × IntervalTreeClock)
  | mk _ _ children => children

def keys (t : IntervalTreeClock) : List String := t.children.map Prod.fst

/-- `self.children.get(key)` -/
def child (t : IntervalTreeClock) (key : String) : Option IntervalTreeClock := lookupEntry key t.children

@[simp] theorem children_mk (id : String) (counter : ℤ) (children : List (String × IntervalTreeClock)) :
    (mk id counter children).children = children := rfl

structure ValueError where
  message : String

def init (id : String) : IntervalTreeClock := mk id 0 []

/-- The clock with the new child, and the child. -/
def fork (t : IntervalTreeClock) (childId : String) : Except ValueError (IntervalTreeClock × IntervalTreeClock) :=
  if childId ∈ t.keys then .error ⟨"Child " ++ childId ++ " already exists"⟩
  else
    let child := mk childId t.counter []
    .ok (mk t.id t.counter (putEntry childId child t.children),child)

def increment (t : IntervalTreeClock) : IntervalTreeClock := mk t.id (t.counter + 1) t.children

mutual
def copy : IntervalTreeClock → IntervalTreeClock
  | mk id counter children => mk id counter (copyChildren children)

def copyChildren : List (String × IntervalTreeClock) → List (String × IntervalTreeClock)
  | [] => []
  | (key,child) :: rest => (key,copy child) :: copyChildren rest
end

mutual
/-- Children are removed after all of them have been pruned. -/
def prune : IntervalTreeClock → IntervalTreeClock
  | mk id counter children =>
    let children := pruneChildren children
    let toRemove := (children.filter fun e => e.2.counter ≤ counter ∧ e.2.children.isEmpty).map Prod.fst
    mk id counter (children.filter fun e => e.1 ∉ toRemove)

def pruneChildren : List (String × IntervalTreeClock) → List (String × IntervalTreeClock)
  | [] => []
  | (key,child) :: rest => (key,prune child) :: pruneChildren rest
end

mutual
/-- The equality of the data class; the order of the children does not matter. -/
def eq : IntervalTreeClock → IntervalTreeClock → Bool
  | mk id counter children, other =>
    id = other.id ∧ counter = other.counter ∧ children.length = other.children.length ∧
      eqChildren children other.children

def eqChildren : List (String × IntervalTreeClock) → List (String × IntervalTreeClock) → Bool
  | [], _ => true
  | (key,child) :: rest, others =>
    (match lookupEntry key others with
      | some other => eq child other
      | none => false) && eqChildren rest others
end

theorem sizeOf_child {t c : IntervalTreeClock} {key : String} (h : t.child key = some c) : sizeOf c < sizeOf t := by
  obtain ⟨id,counter,children⟩ := t
  obtain ⟨e,he,rfl⟩ := Option.map_eq_some_iff.mp h
  have hmem := List.sizeOf_lt_of_mem (List.mem_of_find?_eq_some he)
  have hsnd : sizeOf e.2 < sizeOf e := by
    obtain ⟨key,c⟩ := e
    change sizeOf c < sizeOf (key,c)
    rw [Prod.mk.sizeOf_spec]
    omega
  rw [mk.sizeOf_spec]
  rw [children_mk] at hmem
  omega

/-- The order in which the union of two key sets is iterated. -/
abbrev KeyUnionOrder := ∀ mine theirs : List String, Listing (mine.toFinset ∪ theirs.toFinset)

def join (order : KeyUnionOrder) (self other : IntervalTreeClock) : IntervalTreeClock :=
  mk self.id (max self.counter other.counter) ((order self.keys other.keys).items.filterMap fun key =>
    match _hself : self.child key, other.child key with
    | some childSelf, some childOther => some (key,join order childSelf childOther)
    | some childSelf, none => some (key,childSelf.copy)
    | none, some childOther => some (key,childOther.copy)
    | none, none => none)
termination_by self
decreasing_by exact sizeOf_child _hself

/-- The counter at the end of a path, if the path exists. -/
def view : IntervalTreeClock → List String → WithBot ℤ
  | t, [] => t.counter
  | t, key :: path =>
    match t.child key with
    | some c => c.view path
    | none => ⊥

/-- The largest counter on the existing part of a path. -/
def effective : IntervalTreeClock → List String → ℤ
  | t, [] => t.counter
  | t, key :: path =>
    match t.child key with
    | some c => max t.counter (c.effective path)
    | none => t.counter

/-- The node at the end of a path. -/
def find : IntervalTreeClock → List String → Option IntervalTreeClock
  | t, [] => some t
  | t, key :: path =>
    match t.child key with
    | some c => c.find path
    | none => none

/-- No node without children has a counter that is at most its parent's. -/
def Pruned (t : IntervalTreeClock) : Prop := ∀ path parent key c, t.find path = some parent →
  parent.child key = some c → c.children = [] → parent.counter < c.counter

/-- A dictionary has no key twice, and every child is stored under its own identifier. -/
inductive WellFormed : IntervalTreeClock → Prop
  | mk {id : String} {counter : ℤ} {children : List (String × IntervalTreeClock)}
    (nodup : (children.map Prod.fst).Nodup) (id_eq : ∀ e ∈ children, e.2.id = e.1)
    (sub : ∀ e ∈ children, WellFormed e.2) : WellFormed (mk id counter children)

variable {t u v c : IntervalTreeClock} {key : String} {path : List String} {order : KeyUnionOrder}

theorem WellFormed.nodup (h : t.WellFormed) : t.keys.Nodup := by
  cases h with
  | mk nodup _ _ => exact nodup

theorem WellFormed.child (h : t.WellFormed) (hc : t.child key = some c) : c.id = key ∧ c.WellFormed := by
  cases h with
  | mk nodup id_eq sub =>
    have hmem := (lookupEntry_eq_some nodup).mp hc
    exact ⟨id_eq _ hmem,sub _ hmem⟩

theorem WellFormed.of_child (hnodup : t.keys.Nodup)
    (h : ∀ key c, t.child key = some c → c.id = key ∧ c.WellFormed) : t.WellFormed := by
  obtain ⟨id,counter,children⟩ := t
  refine ⟨hnodup,fun e he => ?_,fun e he => ?_⟩
  · exact (h e.1 e.2 (lookupEntry_of_mem hnodup he)).1
  · exact (h e.1 e.2 (lookupEntry_of_mem hnodup he)).2

theorem mem_keys : key ∈ t.keys ↔ ∃ c, t.child key = some c := by
  have hnone : t.child key = none ↔ key ∉ t.keys := lookupEntry_eq_none
  rw [← not_iff_not]
  refine hnone.symm.trans ?_
  rw [not_exists,Option.eq_none_iff_forall_ne_some]

/-- What a path is worth is the largest counter along it. -/
theorem isGreatest_effective (t : IntervalTreeClock) (path : List String) :
    IsGreatest {n | ∃ before, before <+: path ∧ t.view before = n} (t.effective path : WithBot ℤ) := by
  induction path generalizing t with
  | nil =>
    refine ⟨⟨[], List.nil_prefix,rfl⟩,?_⟩
    rintro n ⟨before,hbefore,rfl⟩
    rw [List.prefix_nil.mp hbefore]
    exact le_rfl
  | cons key path ih =>
    unfold effective
    cases hc : t.child key with
    | none =>
      refine ⟨⟨[], List.nil_prefix,rfl⟩,?_⟩
      rintro n ⟨before,hbefore,rfl⟩
      cases before with
      | nil => exact le_rfl
      | cons key' before =>
        obtain ⟨rfl,-⟩ := List.cons_prefix_cons.mp hbefore
        unfold view
        rw [hc]
        exact bot_le
    | some c =>
      obtain ⟨⟨before,hbefore,hview⟩,hupper⟩ := ih c
      rw [WithBot.coe_max]
      refine ⟨?_,?_⟩
      · rcases max_choice (t.counter : WithBot ℤ) (c.effective path) with hmax | hmax
        · exact ⟨[], List.nil_prefix,hmax.symm⟩
        · refine ⟨key :: before,List.cons_prefix_cons.mpr ⟨rfl,hbefore⟩,?_⟩
          unfold view
          rw [hc,hmax]
          exact hview
      · rintro n ⟨before,hbefore,rfl⟩
        cases before with
        | nil => exact le_max_left _ _
        | cons key' before =>
          obtain ⟨rfl,hrest⟩ := List.cons_prefix_cons.mp hbefore
          unfold view
          rw [hc]
          exact (hupper ⟨before,hrest,rfl⟩).trans (le_max_right _ _)

theorem effective_of_childless (h : t.children = []) (path : List String) : t.effective path = t.counter := by
  cases path with
  | nil => rfl
  | cons key path =>
    unfold effective child
    rw [h]
    rfl

section Fork

theorem wellFormed_init (id : String) : (init id).WellFormed :=
  .mk List.nodup_nil (fun _ he => absurd he List.not_mem_nil) fun _ he => absurd he List.not_mem_nil

theorem WellFormed.increment (h : t.WellFormed) : t.increment.WellFormed := .of_child h.nodup fun _ _ hc => h.child hc

theorem fork_eq_ok {childId : String} (hfork : t.fork childId = .ok (u,c)) :
    childId ∉ t.keys ∧ c = mk childId t.counter [] ∧ u = mk t.id t.counter (putEntry childId c t.children) := by
  unfold fork at hfork
  split at hfork
  · cases hfork
  · rename_i hnew
    obtain ⟨rfl,rfl⟩ := Prod.mk.inj (Except.ok.inj hfork)
    exact ⟨hnew,rfl,rfl⟩

theorem child_fork {childId : String} (hfork : t.fork childId = .ok (u,c)) (key : String) :
    u.child key = if key = childId then some c else t.child key := by
  obtain ⟨-,-,rfl⟩ := fork_eq_ok hfork
  exact lookupEntry_putEntry _ _ _ _

theorem WellFormed.fork {childId : String} (h : t.WellFormed) (hfork : t.fork childId = .ok (u,c)) :
    u.WellFormed ∧ c.WellFormed := by
  obtain ⟨hnew,hc,hu⟩ := fork_eq_ok hfork
  have hchild : c.id = childId ∧ c.WellFormed := by
    rw [hc]
    exact ⟨rfl,.mk List.nodup_nil (fun _ he => absurd he List.not_mem_nil) fun _ he => absurd he List.not_mem_nil⟩
  refine ⟨.of_child ?_ fun key d hd => ?_,hchild.2⟩
  · rw [hu]
    exact nodup_putEntry h.nodup
  · rw [child_fork hfork] at hd
    split at hd
    · rename_i hkey
      obtain rfl := Option.some.inj hd
      exact hkey ▸ hchild
    · exact h.child hd

/-- The child is worth what its parent is. -/
theorem effective_fork {childId : String} (hfork : t.fork childId = .ok (u,c)) (path : List String) :
    u.effective path = t.effective path := by
  obtain ⟨hnew,hc,hu⟩ := fork_eq_ok hfork
  have hcounter : u.counter = t.counter := by rw [hu]; rfl
  cases path with
  | nil => exact hcounter
  | cons key path =>
    unfold effective
    rw [child_fork hfork,hcounter]
    by_cases hkey : key = childId
    · have hnone : t.child key = none := lookupEntry_eq_none.mpr (hkey ▸ hnew)
      have hchildless : c.children = [] := by rw [hc]; rfl
      have hworth : c.counter = t.counter := by rw [hc]; rfl
      rw [if_pos hkey,hnone]
      dsimp only
      rw [effective_of_childless hchildless,hworth,max_self]
    · rw [if_neg hkey]

end Fork

section Copy

theorem copyChildren_eq (children : List (String × IntervalTreeClock)) :
    copyChildren children = children.map fun e => (e.1,e.2.copy) := by
  induction children with
  | nil => rfl
  | cons e rest ih => rw [copyChildren,ih,List.map_cons]

/-- A copy has the same value. -/
theorem copy_eq (t : IntervalTreeClock) : t.copy = t := by
  induction t with
  | mk id counter children ih =>
    rw [copy,copyChildren_eq]
    refine congrArg (mk id counter) ((List.map_congr_left fun e he => ?_).trans children.map_id)
    rw [ih e he]
    rfl

end Copy

section Join

@[simp] theorem id_join (order : KeyUnionOrder) (t u : IntervalTreeClock) : (join order t u).id = t.id := by
  rw [join]
  rfl

@[simp] theorem counter_join (order : KeyUnionOrder) (t u : IntervalTreeClock) :
    (join order t u).counter = max t.counter u.counter := by
  rw [join]
  rfl

/-- The child of a join for the children of the two clocks. -/
def joinedChild (order : KeyUnionOrder) : Option IntervalTreeClock → Option IntervalTreeClock → Option IntervalTreeClock
  | some childSelf, some childOther => some (join order childSelf childOther)
  | some childSelf, none => some childSelf
  | none, childOther => childOther

theorem join_eq (order : KeyUnionOrder) (t u : IntervalTreeClock) :
    join order t u = mk t.id (max t.counter u.counter) ((order t.keys u.keys).items.filterMap fun key =>
      (joinedChild order (t.child key) (u.child key)).map (Prod.mk key)) := by
  rw [join]
  refine congrArg (mk _ _) (List.filterMap_congr fun key _ => ?_)
  cases hself : t.child key with
  | none => cases hother : u.child key <;> simp [joinedChild,copy_eq]
  | some childSelf => cases hother : u.child key <;> simp [joinedChild,copy_eq]

theorem children_join (order : KeyUnionOrder) (t u : IntervalTreeClock) : (join order t u).children =
    (order t.keys u.keys).items.filterMap fun key =>
      (joinedChild order (t.child key) (u.child key)).map (Prod.mk key) := by
  rw [join_eq,children_mk]

theorem child_join (order : KeyUnionOrder) (t u : IntervalTreeClock) (key : String) :
    (join order t u).child key = joinedChild order (t.child key) (u.child key) := by
  rw [child,children_join,lookupEntry_filterMap]
  split
  · rfl
  · rename_i hkey
    rw [Listing.mem_items,Finset.mem_union,List.mem_toFinset,List.mem_toFinset,not_or] at hkey
    have hself : t.child key = none := lookupEntry_eq_none.mpr hkey.1
    have hother : u.child key = none := lookupEntry_eq_none.mpr hkey.2
    rw [hself,hother]
    rfl

/-- A join takes the maximum of the two counters of each path. -/
theorem view_join (order : KeyUnionOrder) (t u : IntervalTreeClock) (path : List String) :
    (join order t u).view path = t.view path ⊔ u.view path := by
  induction path generalizing t u with
  | nil =>
    change (((join order t u).counter : ℤ) : WithBot ℤ) = _
    rw [counter_join]
    exact WithBot.coe_max _ _
  | cons key path ih =>
    unfold view
    rw [child_join]
    cases t.child key with
    | none => exact (bot_sup_eq _).symm
    | some childSelf =>
      cases u.child key with
      | none => exact (sup_bot_eq _).symm
      | some childOther => exact ih childSelf childOther

theorem effective_join (order : KeyUnionOrder) (t u : IntervalTreeClock) (path : List String) :
    (join order t u).effective path = max (t.effective path) (u.effective path) := by
  induction path generalizing t u with
  | nil => exact counter_join order t u
  | cons key path ih =>
    unfold effective
    rw [child_join,counter_join]
    cases t.child key with
    | none =>
      cases u.child key with
      | none => rfl
      | some childOther => exact max_assoc _ _ _
    | some childSelf =>
      cases u.child key with
      | none => exact max_right_comm _ _ _
      | some childOther =>
        change max (max t.counter u.counter) ((join order childSelf childOther).effective path) = _
        rw [ih]
        exact max_max_max_comm _ _ _ _

theorem WellFormed.join (order : KeyUnionOrder) (ht : t.WellFormed) (hu : u.WellFormed) :
    (join order t u).WellFormed := by
  induction t generalizing u with
  | mk id counter children ih =>
    refine .of_child ?_ fun key c hc => ?_
    · rw [keys,children_join,keys_filterMap]
      exact (Listing.nodup _).filter _
    · rw [child_join] at hc
      cases hself : (IntervalTreeClock.mk id counter children).child key with
      | none =>
        rw [hself] at hc
        exact hu.child hc
      | some childSelf =>
        have hmem := (lookupEntry_eq_some ht.nodup).mp hself
        rw [hself] at hc
        cases hother : u.child key with
        | none =>
          rw [hother] at hc
          exact Option.some.inj hc ▸ ht.child hself
        | some childOther =>
          rw [hother] at hc
          obtain rfl := Option.some.inj hc
          exact ⟨(id_join order _ _).trans (ht.child hself).1,ih _ hmem (ht.child hself).2 (hu.child hother).2⟩

end Join

section Equality

theorem eqChildren_iff {children others : List (String × IntervalTreeClock)} : eqChildren children others = true ↔
    ∀ e ∈ children, ∃ other, lookupEntry e.1 others = some other ∧ e.2.eq other = true := by
  induction children with
  | nil => simp [eqChildren]
  | cons e rest ih =>
    rw [eqChildren,Bool.and_eq_true,ih,List.forall_mem_cons]
    refine and_congr_left fun _ => ?_
    cases lookupEntry e.1 others with
    | none => simp
    | some other => simp

theorem eq_iff_children (ht : t.WellFormed) : t.eq u = true ↔ t.id = u.id ∧ t.counter = u.counter ∧
    t.children.length = u.children.length ∧
    ∀ key c, t.child key = some c → ∃ other, u.child key = some other ∧ c.eq other = true := by
  obtain ⟨id,counter,children⟩ := t
  rw [eq,decide_eq_true_iff,eqChildren_iff]
  refine and_congr_right fun _ => and_congr_right fun _ => and_congr_right fun _ => ?_
  constructor
  · exact fun h key c hc => h (key,c) ((lookupEntry_eq_some ht.nodup).mp hc)
  · exact fun h e he => h e.1 e.2 ((lookupEntry_eq_some ht.nodup).mpr he)

theorem view_singleton_ne_bot : t.view [key] ≠ ⊥ ↔ key ∈ t.keys := by
  rw [mem_keys]
  unfold view
  cases h : t.child key with
  | none => simp
  | some c => simp [view]

theorem keys_perm_of_length_eq (ht : t.WellFormed) (hlength : t.children.length = u.children.length)
    (hsub : ∀ key c, t.child key = some c → ∃ other, u.child key = some other) : t.keys.Perm u.keys := by
  have hkeys : t.keys ⊆ u.keys := fun key hkey => by
    obtain ⟨c,hc⟩ := mem_keys.mp hkey
    exact mem_keys.mpr (hsub key c hc)
  refine (List.subperm_of_subset ht.nodup hkeys).perm_of_length_le ?_
  rw [keys,keys,List.length_map,List.length_map,hlength]

/-- Equal clocks have the same counters on all paths. -/
theorem view_eq_of_eq (ht : t.WellFormed) (hu : u.WellFormed) (h : t.eq u = true) (path : List String) :
    t.view path = u.view path := by
  induction path generalizing t u with
  | nil => exact congrArg (fun n : ℤ => (n : WithBot ℤ)) ((eq_iff_children ht).mp h).2.1
  | cons key path ih =>
    obtain ⟨-,-,hlength,hchildren⟩ := (eq_iff_children ht).mp h
    unfold view
    cases hself : t.child key with
    | none =>
      have hperm := keys_perm_of_length_eq ht hlength fun key c hc => (hchildren key c hc).imp fun _ h => h.1
      have hkey : key ∉ t.keys := lookupEntry_eq_none.mp hself
      have hother : u.child key = none := lookupEntry_eq_none.mpr fun hmem => hkey (hperm.mem_iff.mpr hmem)
      rw [hother]
    | some c =>
      obtain ⟨other,hother,heq⟩ := hchildren key c hself
      rw [hother]
      exact ih (ht.child hself).2 (hu.child hother).2 heq

theorem eq_of_view_eq (ht : t.WellFormed) (hu : u.WellFormed) (hid : t.id = u.id) (h : t.view = u.view) :
    t.eq u = true := by
  induction t generalizing u with
  | mk id counter children ih =>
    have hkeys : ∀ key, key ∈ (mk id counter children).keys ↔ key ∈ u.keys := fun key => by
      rw [← view_singleton_ne_bot,← view_singleton_ne_bot,h]
    have hlength := ((List.perm_ext_iff_of_nodup ht.nodup hu.nodup).mpr hkeys).length_eq
    rw [keys,keys,List.length_map,List.length_map] at hlength
    refine (eq_iff_children ht).mpr ⟨hid,WithBot.coe_injective (congrFun h []),hlength,fun key c hc => ?_⟩
    obtain ⟨other,hother⟩ := mem_keys.mp ((hkeys key).mp (mem_keys.mpr ⟨c,hc⟩))
    have hmem := (lookupEntry_eq_some ht.nodup).mp hc
    have hid' : c.id = other.id := (ht.child hc).1.trans (hu.child hother).1.symm
    refine ⟨other,hother,ih _ hmem (ht.child hc).2 (hu.child hother).2 hid' (funext fun path => ?_)⟩
    have hpath := congrFun h (key :: path)
    unfold view at hpath
    rw [hc,hother] at hpath
    exact hpath

/-- Two clocks are equal when they have the same identifier and the same counters on all paths. -/
theorem eq_iff_view (ht : t.WellFormed) (hu : u.WellFormed) : t.eq u = true ↔ t.id = u.id ∧ t.view = u.view :=
  ⟨fun h => ⟨((eq_iff_children ht).mp h).1,funext (view_eq_of_eq ht hu h)⟩,fun h => eq_of_view_eq ht hu h.1 h.2⟩

theorem eq_join_comm (order order' : KeyUnionOrder) (ht : t.WellFormed) (hu : u.WellFormed) (hid : t.id = u.id) :
    (join order t u).eq (join order' u t) = true := by
  refine (eq_iff_view (ht.join order hu) (hu.join order' ht)).mpr ⟨?_,funext fun path => ?_⟩
  · rw [id_join,id_join,hid]
  · rw [view_join,view_join,sup_comm]

theorem eq_join_assoc (order order' : KeyUnionOrder) (ht : t.WellFormed) (hu : u.WellFormed) (hv : v.WellFormed) :
    (join order (join order t u) v).eq (join order' t (join order' u v)) = true := by
  refine (eq_iff_view ((ht.join order hu).join order hv) (ht.join order' (hu.join order' hv))).mpr
    ⟨?_,funext fun path => ?_⟩
  · rw [id_join,id_join,id_join]
  · rw [view_join,view_join,view_join,view_join,sup_assoc]

theorem eq_join_self (order : KeyUnionOrder) (ht : t.WellFormed) : (join order t t).eq t = true := by
  refine (eq_iff_view (ht.join order ht) ht).mpr ⟨id_join order t t,funext fun path => ?_⟩
  rw [view_join,sup_idem]

end Equality

section Prune

theorem pruneChildren_eq (children : List (String × IntervalTreeClock)) :
    pruneChildren children = children.map fun e => (e.1,e.2.prune) := by
  induction children with
  | nil => rfl
  | cons e rest ih => rw [pruneChildren,ih,List.map_cons]

theorem keys_pruneChildren (children : List (String × IntervalTreeClock)) :
    (pruneChildren children).map Prod.fst = children.map Prod.fst := by
  rw [pruneChildren_eq,List.map_map]
  rfl

@[simp] theorem id_prune (t : IntervalTreeClock) : t.prune.id = t.id := by
  cases t
  rfl

@[simp] theorem counter_prune (t : IntervalTreeClock) : t.prune.counter = t.counter := by
  cases t
  rfl

/-- The test of the loop on a child that has been pruned. -/
def Redundant (parent child : IntervalTreeClock) : Prop := child.counter ≤ parent.counter ∧ child.children = []

instance (parent child : IntervalTreeClock) : Decidable (Redundant parent child) :=
  decidable_of_iff (child.counter ≤ parent.counter ∧ child.children.isEmpty = true) (by
    rw [Redundant,List.isEmpty_iff])

/-- The keys that the loop collects. -/
theorem mem_toRemove {children : List (String × IntervalTreeClock)} (hnodup : (children.map Prod.fst).Nodup)
    (hmem : (key,c) ∈ children) (id : String) (counter : ℤ) : key ∈ (children.filter fun e =>
      e.2.counter ≤ counter ∧ e.2.children.isEmpty).map Prod.fst ↔ Redundant (mk id counter children) c := by
  constructor
  · intro h
    obtain ⟨e,he,rfl⟩ := List.mem_map.mp h
    obtain ⟨he,hredundant⟩ := List.mem_filter.mp he
    obtain rfl : e.2 = c :=
      Option.some.inj (((lookupEntry_eq_some hnodup).mpr he).symm.trans ((lookupEntry_eq_some hnodup).mpr hmem))
    obtain ⟨hle,hnone⟩ := of_decide_eq_true hredundant
    exact ⟨hle,List.isEmpty_iff.mp hnone⟩
  · rintro ⟨hle,hnone⟩
    exact List.mem_map.mpr ⟨(key,c),List.mem_filter.mpr ⟨hmem,decide_eq_true ⟨hle,List.isEmpty_iff.mpr hnone⟩⟩,rfl⟩

/-- A child is removed if it is redundant after it has been pruned. -/
theorem child_prune (hnodup : t.keys.Nodup) (key : String) : t.prune.child key =
    ((t.child key).map prune).filter fun c => ¬Redundant t c := by
  obtain ⟨id,counter,children⟩ := t
  have hnodup' : ((pruneChildren children).map Prod.fst).Nodup := by
    rw [keys_pruneChildren]
    exact hnodup
  have hchild : lookupEntry key (pruneChildren children) = (lookupEntry key children).map prune := by
    rw [pruneChildren_eq]
    exact lookupEntry_map (fun _ => prune) key children
  rw [prune,child,children_mk,lookupEntry_filter _ _ hnodup',hchild]
  change Option.filter _ ((lookupEntry key children).map prune) = Option.filter _ ((lookupEntry key children).map prune)
  cases hc : (lookupEntry key children).map prune with
  | none => rfl
  | some c =>
    have hmem := (lookupEntry_eq_some hnodup').mp (hchild.trans hc)
    have hremoved : _ ↔ Redundant (mk id counter children) c := mem_toRemove hnodup' hmem id counter
    simp only [Option.filter_some,hremoved]

theorem child_prune_eq_some (hnodup : t.keys.Nodup) :
    t.prune.child key = some c ↔ ∃ d, t.child key = some d ∧ d.prune = c ∧ ¬Redundant t c := by
  rw [child_prune hnodup,Option.filter_eq_some_iff,Option.map_eq_some_iff]
  simp only [decide_eq_true_eq]
  constructor
  · rintro ⟨⟨d,hd,heq⟩,hkept⟩
    exact ⟨d,hd,heq,hkept⟩
  · rintro ⟨d,hd,heq,hkept⟩
    exact ⟨⟨d,hd,heq⟩,hkept⟩

theorem WellFormed.prune (h : t.WellFormed) : t.prune.WellFormed := by
  induction t with
  | mk id counter children ih =>
    refine .of_child ?_ fun key c hc => ?_
    · have hnodup : ((pruneChildren children).map Prod.fst).Nodup := by
        rw [keys_pruneChildren]
        exact h.nodup
      exact hnodup.sublist (List.filter_sublist.map _)
    · obtain ⟨d,hd,rfl,-⟩ := (child_prune_eq_some h.nodup).mp hc
      have hmem := (lookupEntry_eq_some h.nodup).mp hd
      exact ⟨(id_prune d).trans (h.child hd).1,ih _ hmem (h.child hd).2⟩

theorem effective_prune (h : t.WellFormed) (path : List String) : t.prune.effective path = t.effective path := by
  induction path generalizing t with
  | nil => exact counter_prune t
  | cons key path ih =>
    unfold effective
    rw [child_prune h.nodup,counter_prune]
    cases hc : t.child key with
    | none => rfl
    | some c =>
      have hpath := ih (h.child hc).2
      rw [Option.map_some,Option.filter_some]
      by_cases hredundant : Redundant t c.prune
      · -- the path is worth the counter of the child, which is no more than that of the parent
        rw [effective_of_childless hredundant.2] at hpath
        simp only [hredundant,not_true,decide_false]
        exact (max_eq_left (hpath ▸ hredundant.1)).symm
      · simp only [hredundant,not_false_eq_true,decide_true]
        exact congrArg (max t.counter) hpath

theorem find_prune (h : t.WellFormed) {parent : IntervalTreeClock} (hfind : t.prune.find path = some parent) :
    ∃ d : IntervalTreeClock, d.WellFormed ∧ parent = d.prune := by
  induction path generalizing t with
  | nil => exact ⟨t,h,(Option.some.inj hfind).symm⟩
  | cons key path ih =>
    unfold find at hfind
    cases hc : t.prune.child key with
    | none =>
      rw [hc] at hfind
      cases hfind
    | some c =>
      rw [hc] at hfind
      obtain ⟨d,hd,rfl,-⟩ := (child_prune_eq_some h.nodup).mp hc
      exact ih (h.child hd).2 hfind

theorem WellFormed.pruned (h : t.WellFormed) : t.prune.Pruned := by
  intro path parent key c hfind hc hnone
  obtain ⟨d,hd,rfl⟩ := find_prune h hfind
  obtain ⟨-,-,-,hkept⟩ := (child_prune_eq_some hd.nodup).mp hc
  rw [counter_prune]
  exact not_le.mp fun hle => hkept ⟨hle,hnone⟩

end Prune

end IntervalTreeClock
end DistributedSystems.Clocks
