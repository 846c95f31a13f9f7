import DistributedSystems.Protocol.Quorum
import Mathlib.Logic.Function.Basic
import Mathlib.Order.Lattice

/-! # Cells that expire

A store of cells, each of which holds at most one value until a time. A cell is written
only when it is free and emptied only by who names its value, so a value that has been
written stays until it expires or somebody who knows it takes it out.
-/
namespace DistributedSystems
variable {κ V T : Type*}

/-- Each cell with its value and the time at which that expires. -/
abbrev ExpiringCells (κ V T : Type*) := κ → Option (V × T)

namespace ExpiringCells
variable [LinearOrder T]

/-- The value that a reader finds. -/
def read (c : ExpiringCells κ V T) (now : T) (k : κ) : Option V :=
  (c k).bind fun e => if now < e.2 then some e.1 else none

/-- Until the end, the cell holds the value. -/
def Holds (c : ExpiringCells κ V T) (now : T) (k : κ) (v : V) (finish : T) : Prop :=
  now < finish → ∃ expiry, c k = some (v,expiry) ∧ finish ≤ expiry

variable {c : ExpiringCells κ V T} {now finish : T} {k : κ} {v : V}

theorem Holds.read (h : c.Holds now k v finish) (hlt : now < finish) : c.read now k = some v := by
  obtain ⟨expiry,hk,hle⟩ := h hlt
  simp [ExpiringCells.read,hk,lt_of_lt_of_le hlt hle]

theorem Holds.elapse (h : c.Holds now k v finish) {later : T} (hle : now ≤ later) : c.Holds later k v finish :=
  fun hlt => h (lt_of_le_of_lt hle hlt)

/-- Two sets of positions that outnumber the universe share a cell, which holds one value. -/
theorem Holds.unique {N : Type*} [DecidableEq N] {cell : N → κ} {U A B : Finset N} {w : V} {finish' : T}
    (hA : A ⊆ U) (hB : B ⊆ U) (hcard : U.card < A.card + B.card)
    (hv : ∀ i ∈ A, c.Holds now (cell i) v finish) (hw : ∀ i ∈ B, c.Holds now (cell i) w finish')
    (hlt : now < finish) (hlt' : now < finish') : v = w := by
  obtain ⟨i,hi⟩ := inter_nonempty_of_card hA hB hcard
  obtain ⟨hiA,hiB⟩ := Finset.mem_inter.mp hi
  have hreadv := (hv i hiA).read hlt
  have hreadw := (hw i hiB).read hlt'
  exact Option.some.inj (hreadv.symm.trans hreadw)

section Write
variable [DecidableEq κ]

/-- Writes a free cell. -/
def setIfFree (c : ExpiringCells κ V T) (now expiry : T) (k : κ) (v : V) : ExpiringCells κ V T × Bool :=
  if c.read now k = none then (Function.update c k (some (v,expiry)),true) else (c,false)

/-- A cell that holds a value is not free. -/
theorem Holds.setIfFree (h : c.Holds now k v finish) (expiry : T) (k' : κ) (v' : V) :
    (c.setIfFree now expiry k' v').1.Holds now k v finish := by
  intro hlt
  unfold ExpiringCells.setIfFree
  split
  · rename_i hfree
    have hne : k ≠ k' := by
      rintro rfl
      rw [h.read hlt] at hfree
      cases hfree
    simpa [hne] using h hlt
  · exact h hlt

theorem holds_setIfFree {expiry : T} (hset : (c.setIfFree now expiry k v).2 = true) (hle : finish ≤ expiry) :
    (c.setIfFree now expiry k v).1.Holds now k v finish := by
  intro _
  unfold setIfFree at hset ⊢
  split at hset
  · rename_i hfree
    simp [hfree,hle]
  · cases hset

variable [DecidableEq V]

/-- Empties a cell that holds the value. -/
def deleteIf (c : ExpiringCells κ V T) (now : T) (k : κ) (v : V) : ExpiringCells κ V T :=
  if c.read now k = some v then Function.update c k none else c

/-- Only who names its value empties a cell. -/
theorem Holds.deleteIf (h : c.Holds now k v finish) (k' : κ) {v' : V} (hne : v' ≠ v) :
    (c.deleteIf now k' v').Holds now k v finish := by
  intro hlt
  unfold ExpiringCells.deleteIf
  split
  · rename_i hread
    have hk : k ≠ k' := by
      rintro rfl
      rw [h.read hlt] at hread
      exact hne (Option.some.inj hread).symm
    simpa [hk] using h hlt
  · exact h hlt

end Write

end ExpiringCells

end DistributedSystems
