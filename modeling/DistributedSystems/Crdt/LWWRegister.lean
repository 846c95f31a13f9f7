import DistributedSystems.Protocol.Newest
import Mathlib.Data.Prod.Lex

/-! # Last-write-wins registers

Node ids are compared like strings, by a linear order. A value that is `None` is `none`.
Python values go through JSON when a register is copied: `json v` is what `json.loads`
makes of `json.dumps v`, or `none` where that raises.
-/
namespace DistributedSystems.Crdt

structure LWWRegister (ι V T : Type) where
  nodeId : ι
  value : Option V
  timestamp : T
  writerNode : ι

namespace LWWRegister
variable {ι V T : Type} [LinearOrder ι] [LinearOrder T]

def init (nodeId : ι) (initialValue : Option V) (initialTs : T) : LWWRegister ι V T :=
  ⟨nodeId,initialValue,initialTs,nodeId⟩

def shouldUpdate (r : LWWRegister ι V T) (otherTs : T) (otherNode : ι) : Prop :=
  r.timestamp < otherTs ∨ (¬otherTs < r.timestamp ∧ r.writerNode < otherNode)

instance (r : LWWRegister ι V T) (otherTs : T) (otherNode : ι) : Decidable (r.shouldUpdate otherTs otherNode) :=
  inferInstanceAs (Decidable (_ ∨ _))

def write (r : LWWRegister ι V T) (value : Option V) (timestamp : T) : LWWRegister ι V T :=
  if r.shouldUpdate timestamp r.nodeId then
    { r with value := value, timestamp := timestamp, writerNode := r.nodeId }
  else r

def merge (r other : LWWRegister ι V T) : LWWRegister ι V T :=
  if r.shouldUpdate other.timestamp other.writerNode then
    { r with value := other.value, timestamp := other.timestamp, writerNode := other.writerNode }
  else r

/-- `from_json(other.to_json())`. -/
def copy (json : V → Option V) (r : LWWRegister ι V T) : Option (LWWRegister ι V T) :=
  match r.value with
  | none => some r
  | some v => (json v).map fun v' => { r with value := some v' }

/-- What orders the writes: the timestamp, then the writer. -/
def stamp (r : LWWRegister ι V T) : T ×ₗ ι := toLex (r.timestamp,r.writerNode)

/-- What a register says, without the node that keeps it. -/
def content (r : LWWRegister ι V T) : (T ×ₗ ι) × Option V := (r.stamp,r.value)

theorem shouldUpdate_iff (r : LWWRegister ι V T) (otherTs : T) (otherNode : ι) :
    r.shouldUpdate otherTs otherNode ↔ r.stamp < toLex (otherTs,otherNode) := by
  unfold shouldUpdate stamp
  rw [Prod.Lex.toLex_lt_toLex]
  constructor
  · rintro (h | ⟨hge,h⟩)
    · exact Or.inl h
    · exact (lt_or_eq_of_le (not_lt.mp hge)).imp id fun heq => ⟨heq,h⟩
  · rintro (h | ⟨heq,h⟩)
    · exact Or.inl h
    · exact Or.inr ⟨not_lt.mpr heq.le,h⟩

/-- A merge keeps the newer content, and the node. -/
theorem content_merge (r other : LWWRegister ι V T) :
    (r.merge other).content = newest Prod.fst r.content other.content := by
  unfold merge
  split
  · rename_i h
    exact (newest_of_lt Prod.fst ((r.shouldUpdate_iff _ _).mp h)).symm
  · rename_i h
    refine (newest_of_le Prod.fst (not_lt.mp fun hlt => h ?_)).symm
    exact (r.shouldUpdate_iff _ _).mpr hlt

/-- A value that JSON gives back unchanged. -/
def Stable (json : V → Option V) (value : Option V) : Prop := ∀ v ∈ value, json v = some v

instance [DecidableEq V] (json : V → Option V) (value : Option V) : Decidable (Stable json value) :=
  inferInstanceAs (Decidable (∀ v ∈ value, json v = some v))

omit [LinearOrder ι] [LinearOrder T] in
theorem copy_of_stable {json : V → Option V} {r : LWWRegister ι V T} (h : Stable json r.value) :
    r.copy json = some r := by
  obtain ⟨nodeId,value,timestamp,writerNode⟩ := r
  cases value with
  | none => rfl
  | some v =>
    change (json v).map _ = _
    rw [h v rfl]
    rfl

end LWWRegister

end DistributedSystems.Crdt
