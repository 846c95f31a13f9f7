import DistributedSystems.Crdt.GSet
import DistributedSystems.Crdt.ORSet
import DistributedSystems.Protocol.PyValue

/-! # JSON documents of sets

A replica written to a document and read back is the same replica, as long as none of its
elements is a tuple.
-/
namespace DistributedSystems.Crdt

/-- Reading back does not raise, shows the value of the original, and merging that in
changes nothing. -/
def Restores {S V : Type} (value : S → V) (merge : S → S → S) (s : S) (restored : Option S) : Prop :=
  ∃ r, restored = some r ∧ value r = value s ∧ value (merge r s) = value r

/-- A set that comes back as it was, or not at all. -/
theorem restores_iff {S V : Type} {value : S → V} {merge : S → S → S} {s : S} (hmerge : merge s s = s) (bad : Prop)
    [Decidable bad] {restored : Option S} (h : restored = if bad then none else some s) :
    Restores value merge s restored ↔ ¬bad := by
  rw [h]
  constructor
  · rintro ⟨r,hr,-⟩ hb
    rw [if_pos hb] at hr
    cases hr
  · intro hb
    exact ⟨s,if_neg hb,rfl,by rw [hmerge]⟩

/-- Two sets are both read, unless one of them has a bad member. -/
theorem read_both {α β S : Type} [DecidableEq α] {s t : Finset α} (bad : α → Bool) (x y : β) (make : β → β → S) :
    ((if ∃ a ∈ s, bad a then none else some x).bind fun x' =>
        (if ∃ a ∈ t, bad a then none else some y).bind fun y' => some (make x' y')) =
      if ∃ a ∈ s ∪ t, bad a then none else some (make x y) := by
  simp only [Finset.mem_union,or_and_right,exists_or]
  by_cases hs : ∃ a ∈ s, bad a
  · rw [if_pos hs,if_pos (Or.inl hs)]
    rfl
  · rw [if_neg hs,Option.bind_some]
    by_cases ht : ∃ a ∈ t, bad a
    · rw [if_pos ht,if_pos (Or.inr ht)]
      rfl
    · rw [if_neg ht,if_neg (not_or.mpr ⟨hs,ht⟩)]
      rfl

/-- Members of a set as they are written and compared. -/
abbrev Members (s : Finset PyElement) : Type := Iteration (fun v : PyValue => (⟦v⟧ : PyElement)) s

/-- The same for the instances of an `ORSet`. -/
abbrev Instances (s : Finset (PyElement × String)) : Type :=
  Iteration (fun p : PyValue × String => ((⟦p.1⟧ : PyElement),p.2)) s

namespace GSet

/-- Given the members in the order of `list(self._elements)`. -/
def toJson (items : List PyValue) : Json := .list (items.map PyValue.dumps)

def fromJson (data : Json) : Option (GSet PyElement) := do
  let elements ← data.toSet
  some ⟨elements⟩

theorem fromJson_toJson (s : GSet PyElement) (members : Members s.elements) :
    fromJson (toJson members.items) = if ∃ e ∈ s.elements, PyElement.isTuple e then none else some s := by
  have h := members.toSetWith_list PyElement.isTuple Json.hashed_dumps
  change ((Json.list _).toSetWith Json.hashed).bind (fun elements => some (⟨elements⟩ : GSet PyElement)) = _
  rw [h]
  split
  · rfl
  · rfl

end GSet

namespace TwoPhaseSet

/-- Given the members of both sets. The inner documents are loaded and written again. -/
def toJson (added removed : List PyValue) : Json := .dict [("added",GSet.toJson added),("removed",GSet.toJson removed)]

def fromJson (data : Json) : Option (TwoPhaseSet PyElement) := do
  let added ← GSet.fromJson (← data.get? "added")
  let removed ← GSet.fromJson (← data.get? "removed")
  some ⟨added,removed⟩

theorem fromJson_toJson (s : TwoPhaseSet PyElement) (added : Members s.added.elements)
    (removed : Members s.removed.elements) : fromJson (toJson added.items removed.items) =
      if ∃ e ∈ s.added.elements ∪ s.removed.elements, PyElement.isTuple e then none else some s := by
  change (GSet.fromJson (GSet.toJson added.items)).bind (fun a =>
    (GSet.fromJson (GSet.toJson removed.items)).bind fun r => some (⟨a,r⟩ : TwoPhaseSet PyElement)) = _
  rw [GSet.fromJson_toJson,GSet.fromJson_toJson]
  exact read_both PyElement.isTuple s.added s.removed TwoPhaseSet.mk

end TwoPhaseSet

namespace ORSet

def writeInstance (p : PyValue × String) : Json := .list [p.1.dumps,.str p.2]

/-- Given the instances of both sets. -/
def toJson (nodeId : String) (added removed : List (PyValue × String)) : Json :=
  .dict [("node_id",.str nodeId),("add_set",.list (added.map writeInstance)),
    ("remove_set",.list (removed.map writeInstance))]

/-- `tuple(x)` as a member of a set. Anything but an element with its tag is left out, as
no document of a set contains it. -/
def readInstance (x : Json) : Option (PyElement × String) := do
  match ← x.iterate with
  | [element,.str tag] =>
    let element ← element.hashed
    some (element,tag)
  | _ => none

def readInstances (data : Json) : Option (Finset (PyElement × String)) :=
  if data.truthy then data.toSetWith readInstance else some ∅

/-- The id of the node with its set. -/
def fromJson (data : Json) : Option (Json × ORSet PyElement String) := do
  let nodeId ← data.get? "node_id"
  let addSet ← readInstances (← data.get? "add_set")
  let removeSet ← readInstances (← data.get? "remove_set")
  some (nodeId,⟨addSet,removeSet⟩)

theorem readInstance_write (p : PyValue × String) : readInstance (writeInstance p) =
    if PyElement.isTuple ⟦p.1⟧ then none else some (⟦p.1⟧,p.2) := by
  change p.1.dumps.hashed.bind (fun element => some (element,p.2)) = _
  rw [Json.hashed_dumps]
  change _ = if p.1.isTuple = true then none else _
  split
  · rfl
  · rfl

/-- The empty list is skipped, which gives the empty set all the same. -/
theorem readInstances_list {s : Finset (PyElement × String)} (instances : Instances s) :
    readInstances (.list (instances.items.map writeInstance)) =
      if ∃ p ∈ s, PyElement.isTuple p.1 then none else some s := by
  rw [← instances.toSetWith_list (fun p => PyElement.isTuple p.1) readInstance_write]
  cases instances.items with
  | nil => rfl
  | cons p rest => rfl

theorem fromJson_toJson (nodeId : String) (s : ORSet PyElement String) (added : Instances s.addSet)
    (removed : Instances s.removeSet) : fromJson (toJson nodeId added.items removed.items) =
      if ∃ p ∈ s.addSet ∪ s.removeSet, PyElement.isTuple p.1 then none else some (.str nodeId,s) := by
  change (readInstances (.list (added.items.map writeInstance))).bind (fun a =>
    (readInstances (.list (removed.items.map writeInstance))).bind fun r =>
      some (Json.str nodeId,(⟨a,r⟩ : ORSet PyElement String))) = _
  rw [readInstances_list,readInstances_list]
  exact read_both (fun p : PyElement × String => PyElement.isTuple p.1) s.addSet s.removeSet
    fun a r => (Json.str nodeId,ORSet.mk a r)

end ORSet

/-- The sets of all three classes come back exactly when no element in them, live or
removed, is a tuple. -/
theorem documents_restore_iff (g : GSet PyElement) (members : Members g.elements) (t : TwoPhaseSet PyElement)
    (added : Members t.added.elements) (removed : Members t.removed.elements) (nodeId : String)
    (s : ORSet PyElement String) (live : Instances s.addSet) (dead : Instances s.removeSet) :
    (Restores GSet.value GSet.merge g (GSet.fromJson (GSet.toJson members.items)) ↔
      ¬∃ e ∈ g.elements, PyElement.isTuple e) ∧
    (Restores TwoPhaseSet.value TwoPhaseSet.merge t (TwoPhaseSet.fromJson (TwoPhaseSet.toJson added.items removed.items)) ↔
      ¬∃ e ∈ t.added.elements ∪ t.removed.elements, PyElement.isTuple e) ∧
    (Restores ORSet.value ORSet.merge s ((ORSet.fromJson (ORSet.toJson nodeId live.items dead.items)).map Prod.snd) ↔
      ¬∃ p ∈ s.addSet ∪ s.removeSet, PyElement.isTuple p.1) := by
  refine ⟨restores_iff ?_ _ (g.fromJson_toJson members),restores_iff ?_ _ (t.fromJson_toJson added removed),?_⟩
  · unfold GSet.merge
    rw [Finset.union_self]
  · unfold TwoPhaseSet.merge GSet.merge
    rw [Finset.union_self,Finset.union_self]
  · refine restores_iff ?_ (∃ p ∈ s.addSet ∪ s.removeSet, PyElement.isTuple p.1) ?_
    · unfold ORSet.merge
      rw [Finset.union_self,Finset.union_self]
    · rw [ORSet.fromJson_toJson]
      split
      · rfl
      · rfl

/-- One pair in a grow-only set. -/
theorem tuple_not_restored :
    ¬ ∀ (v : PyValue) (members : Members ((GSet.init PyElement).add ⟦v⟧).elements),
      Restores GSet.value GSet.merge ((GSet.init PyElement).add ⟦v⟧) (GSet.fromJson (GSet.toJson members.items)) := by
  intro h
  obtain ⟨r,hr,-⟩ := h (.tuple (.cons (.int 1) (.cons (.int 2) .nil)))
    ⟨[.tuple (.cons (.int 1) (.cons (.int 2) .nil))],by decide,fun a => by simp [GSet.add,GSet.init]⟩
  cases hr

end DistributedSystems.Crdt
