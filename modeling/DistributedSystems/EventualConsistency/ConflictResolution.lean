import DistributedSystems.Protocol.Newest
import Mathlib.Data.List.Basic

/-! # Last write wins

A stored value carries the time it was written at. Of several versions the one with the
largest timestamp is taken, and among equal timestamps the one that came first.
-/
namespace DistributedSystems.EventualConsistency

/-- A value with the metadata of the write that made it. -/
structure VersionedValue (V T C : Type) where
  value : V
  timestamp : T
  vectorClock : C
  deriving DecidableEq

variable {V T C : Type} [LinearOrder T]

def resolveLww (v1 v2 : VersionedValue V T C) : VersionedValue V T C :=
  if v1.timestamp > v2.timestamp then v1
  else if v2.timestamp > v1.timestamp then v2
  else v1

theorem resolveLww_eq_newest : resolveLww = newest (VersionedValue.timestamp (V := V) (T := T) (C := C)) := by
  funext v1 v2
  rcases lt_or_ge v1.timestamp v2.timestamp with h | h
  · rw [newest_of_lt _ h,resolveLww,if_neg h.not_gt,if_pos h]
  · rw [newest_of_le _ h,resolveLww,if_neg h.not_gt,ite_self]

/-- The fold of `resolve_lww` over a list of versions. -/
def resolveAll : List (VersionedValue V T C) → Option (VersionedValue V T C)
  | [] => none
  | v :: rest => some (rest.foldl resolveLww v)

theorem resolveAll_eq_none_iff {vs : List (VersionedValue V T C)} : resolveAll vs = none ↔ vs = [] := by
  cases vs <;> simp [resolveAll]

theorem resolveAll_mem {vs : List (VersionedValue V T C)} {v : VersionedValue V T C} (h : resolveAll vs = some v) :
    v ∈ vs := by
  cases vs with
  | nil => contradiction
  | cons x xs =>
    obtain rfl := Option.some.inj h
    rw [resolveLww_eq_newest]
    exact foldl_newest_mem _ x xs

theorem le_resolveAll {vs : List (VersionedValue V T C)} {v : VersionedValue V T C} (h : resolveAll vs = some v) :
    ∀ w ∈ vs, w.timestamp ≤ v.timestamp := by
  cases vs with
  | nil => contradiction
  | cons x xs =>
    obtain rfl := Option.some.inj h
    rw [resolveLww_eq_newest]
    exact le_foldl_newest _ x xs

end DistributedSystems.EventualConsistency
