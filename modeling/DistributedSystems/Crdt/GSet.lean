import Mathlib.Data.Finset.SDiff

/-! # Grow-only and two-phase sets -/
namespace DistributedSystems.Crdt
variable {E : Type} [DecidableEq E]

structure GSet (E : Type) where
  elements : Finset E

namespace GSet

def init (E : Type) : GSet E := ⟨∅⟩

def add (s : GSet E) (element : E) : GSet E := ⟨insert element s.elements⟩

def value (s : GSet E) : Finset E := s.elements

def merge (s other : GSet E) : GSet E := ⟨s.elements ∪ other.elements⟩

end GSet

structure TwoPhaseSet (E : Type) where
  added : GSet E
  removed : GSet E

namespace TwoPhaseSet

def value (s : TwoPhaseSet E) : Finset E := s.added.value \ s.removed.value

def merge (s other : TwoPhaseSet E) : TwoPhaseSet E := ⟨s.added.merge other.added,s.removed.merge other.removed⟩

end TwoPhaseSet

end DistributedSystems.Crdt
