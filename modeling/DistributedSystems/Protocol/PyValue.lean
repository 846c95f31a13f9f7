import Mathlib.Data.Finset.Image
import Mathlib.Data.Int.Notation

/-! # Python values, sets of them, and JSON documents

The values that are hashable and can be written to a JSON document. A set keeps one value
of each class of equal ones. A document has arrays only, so a tuple is read back as a list,
which has no hash.
-/
namespace DistributedSystems

mutual
inductive PyValue
  | none
  | bool (b : Bool)
  | int (n : ℤ)
  | str (s : String)
  | tuple (items : PyTuple)
  deriving DecidableEq

inductive PyTuple
  | nil
  | cons (first : PyValue) (rest : PyTuple)
  deriving DecidableEq
end

mutual
/-- Equal values have one normal form: a Boolean equals a number, and tuples are compared
item by item. -/
def PyValue.norm : PyValue → PyValue
  | .none => .none
  | .bool b => .int (if b then 1 else 0)
  | .int n => .int n
  | .str s => .str s
  | .tuple items => .tuple items.norm

def PyTuple.norm : PyTuple → PyTuple
  | .nil => .nil
  | .cons first rest => .cons first.norm rest.norm
end

def PyValue.isTuple : PyValue → Bool
  | .tuple _ => true
  | _ => false

/-- `==` -/
instance PyValue.setoid : Setoid PyValue where
  r a b := a.norm = b.norm
  iseqv := ⟨fun _ => rfl,fun h => h.symm,fun h h' => h.trans h'⟩

instance (a b : PyValue) : Decidable (a ≈ b) := inferInstanceAs (Decidable (a.norm = b.norm))

/-- What a set keeps of a value. -/
abbrev PyElement : Type := Quotient PyValue.setoid

theorem PyValue.isTuple_norm (v : PyValue) : v.norm.isTuple = v.isTuple := by
  cases v <;> rfl

def PyElement.isTuple : PyElement → Bool :=
  Quotient.lift PyValue.isTuple fun a b h => by
    rw [← a.isTuple_norm,← b.isTuple_norm]
    exact congrArg PyValue.isTuple h

/-- The members of a set, one of each class, in the order in which an iteration meets them. -/
structure Iteration {V α : Type*} (rep : V → α) (s : Finset α) where
  items : List V
  nodup : (items.map rep).Nodup
  complete : ∀ a, a ∈ items.map rep ↔ a ∈ s

/-- JSON documents, and what `json.loads` returns for them: lists and dictionaries. -/
inductive Json
  | null
  | bool (b : Bool)
  | int (n : ℤ)
  | str (s : String)
  | list (items : List Json)
  | dict (fields : List (String × Json))

mutual
/-- `json.dumps` -/
def PyValue.dumps : PyValue → Json
  | .none => .null
  | .bool b => .bool b
  | .int n => .int n
  | .str s => .str s
  | .tuple items => .list items.dumps

def PyTuple.dumps : PyTuple → List Json
  | .nil => []
  | .cons first rest => first.dumps :: rest.dumps
end

namespace Json

/-- A loaded value as a member of a set. Lists and dictionaries have no hash. -/
def hashed : Json → Option PyElement
  | .null => some ⟦.none⟧
  | .bool b => some ⟦.bool b⟧
  | .int n => some ⟦.int n⟧
  | .str s => some ⟦.str s⟧
  | .list _ => none
  | .dict _ => none

def iterate : Json → Option (List Json)
  | .str s => some (s.toList.map fun c => .str (String.singleton c))
  | .list items => some items
  | .dict fields => some (fields.map fun field => .str field.1)
  | _ => none

def get? (data : Json) (key : String) : Option Json :=
  match data with
  | .dict fields => (fields.find? (·.1 = key)).map Prod.snd
  | _ => none

/-- The value in a condition. -/
def truthy : Json → Bool
  | .null => false
  | .bool b => b
  | .int n => n ≠ 0
  | .str s => s ≠ ""
  | .list items => !items.isEmpty
  | .dict fields => !fields.isEmpty

/-- The set of what is read from each item. -/
def toSetWith {α : Type} [DecidableEq α] (read : Json → Option α) (data : Json) : Option (Finset α) := do
  let items ← data.iterate
  let elements ← items.mapM read
  some elements.toFinset

/-- `set(data)` -/
def toSet (data : Json) : Option (Finset PyElement) := data.toSetWith hashed

theorem hashed_dumps (v : PyValue) : v.dumps.hashed = if v.isTuple then none else some ⟦v⟧ := by
  cases v <;> rfl

/-- Members that are read back one by one are read back all, unless one of them cannot be. -/
theorem mapM_eq {V α β : Type} {write : V → β} {read : β → Option α} {rep : V → α} (bad : V → Bool)
    (h : ∀ v, read (write v) = if bad v then none else some (rep v)) (items : List V) :
    (items.map write).mapM read = if items.any bad then none else some (items.map rep) := by
  induction items with
  | nil => rfl
  | cons v rest ih =>
    rw [List.map_cons,List.mapM_cons,h,ih,List.any_cons]
    cases bad v with
    | true => rfl
    | false =>
      cases rest.any bad with
      | true => rfl
      | false => rfl

end Json

namespace Iteration
variable {V α : Type} [DecidableEq α] {rep : V → α} {s : Finset α}

theorem toFinset (it : Iteration rep s) : (it.items.map rep).toFinset = s :=
  Finset.ext fun a => List.mem_toFinset.trans (it.complete a)

/-- What is read back of an iteration is the set itself. -/
theorem toSetWith_list (it : Iteration rep s) {write : V → Json} {read : Json → Option α} (bad : α → Bool)
    (h : ∀ v, read (write v) = if bad (rep v) then none else some (rep v)) :
    (Json.list (it.items.map write)).toSetWith read = if ∃ a ∈ s, bad a then none else some s := by
  have hany : (it.items.any fun v => bad (rep v)) = true ↔ ∃ a ∈ s, bad a := by
    rw [List.any_eq_true]
    constructor
    · rintro ⟨v,hv,hb⟩
      exact ⟨rep v,(it.complete _).mp (List.mem_map_of_mem hv),hb⟩
    · rintro ⟨a,ha,hb⟩
      obtain ⟨v,hv,rfl⟩ := List.mem_map.mp ((it.complete a).mpr ha)
      exact ⟨v,hv,hb⟩
  change ((it.items.map write).mapM read).bind (fun elements => some elements.toFinset) = _
  rw [Json.mapM_eq (fun v => bad (rep v)) h]
  by_cases hbad : ∃ a ∈ s, bad a
  · rw [if_pos (hany.mpr hbad),if_pos hbad]
    rfl
  · rw [if_neg (fun hh => hbad (hany.mp hh)),if_neg hbad,Option.bind_some,it.toFinset]

end Iteration

end DistributedSystems
