import Mathlib.Data.List.Basic
import Mathlib.Data.List.Nodup
import Mathlib.Tactic.Linarith

/-! # Ring order

The places of a ring are numbered without end and come round after one turn. An arc is what
a token collects on its way, and a token meets an earlier stop after exactly one turn.
-/
namespace DistributedSystems

/-- Different members in the order of the ring. -/
structure RingOrder (α : Type*) where
  members : List α
  nonempty : members ≠ []
  nodup : members.Nodup

namespace RingOrder
variable {α : Type*} (r : RingOrder α)

def size : ℕ := r.members.length

theorem size_pos : 0 < r.size := List.length_pos_iff.mpr r.nonempty

def place (i : ℕ) : α := r.members.get ⟨i % r.size,Nat.mod_lt i r.size_pos⟩

/-- `k` places from place `s` on. -/
def arc (s k : ℕ) : List α := (List.range k).map fun j => r.place (s + j)

theorem place_eq_iff {i j : ℕ} : r.place i = r.place j ↔ i % r.size = j % r.size := by
  simp only [place,List.get_eq_getElem]
  exact r.nodup.getElem_inj_iff

theorem place_mem (i : ℕ) : r.place i ∈ r.members := List.get_mem _ _

theorem exists_place {x : α} (h : x ∈ r.members) : ∃ i, r.place i = x := by
  obtain ⟨i,hi,rfl⟩ := List.mem_iff_getElem.mp h
  refine ⟨i,?_⟩
  simp [place,size,Nat.mod_eq_of_lt hi]

/-- The member behind a place is at the next place. -/
theorem getD_succ [DecidableEq α] (i : ℕ) (d : α) :
    r.members.getD ((r.members.idxOf (r.place i) + 1) % r.members.length) d = r.place (i + 1) := by
  have hpos : 0 < r.members.length := r.size_pos
  have hidx : r.members.idxOf (r.place i) = i % r.members.length := by
    simpa [place,size] using r.nodup.idxOf_getElem (i % r.members.length) (Nat.mod_lt i hpos)
  rw [hidx,List.getD_eq_getElem?_getD,List.getElem?_eq_getElem (Nat.mod_lt _ hpos)]
  simp [place,size,Nat.add_mod]

@[simp] theorem arc_one (s : ℕ) : r.arc s 1 = [r.place s] := rfl

theorem arc_succ (s k : ℕ) : r.arc s (k + 1) = r.arc s k ++ [r.place (s + k)] := by simp [arc,List.range_succ]

theorem mem_arc {s k : ℕ} {x : α} : x ∈ r.arc s k ↔ ∃ j < k, r.place (s + j) = x := by simp [arc]

/-- One turn meets every member. -/
theorem mem_arc_size {s : ℕ} {x : α} : x ∈ r.arc s r.size ↔ x ∈ r.members := by
  rw [mem_arc]
  constructor
  · rintro ⟨j,-,rfl⟩
    exact r.place_mem _
  · intro hx
    obtain ⟨i,rfl⟩ := r.exists_place hx
    have hpos := r.size_pos
    -- From place `s` on it is this many places to the one that is `i` modulo the size.
    refine ⟨(i + (r.size - s % r.size)) % r.size,Nat.mod_lt _ hpos,r.place_eq_iff.mpr ?_⟩
    have hs := Nat.mod_lt s hpos
    rw [Nat.add_mod_mod,← Nat.mod_add_mod]
    have heq : s % r.size + (i + (r.size - s % r.size)) = i + r.size := by omega
    rw [heq,Nat.add_mod_right]

/-- Within one turn a place comes again only at its end. -/
theorem place_add_eq_iff {s j k : ℕ} (hjk : j < k) (hk : k ≤ r.size) :
    r.place (s + j) = r.place (s + k) ↔ j = 0 ∧ k = r.size := by
  constructor
  · intro heq
    have hsub := Nat.sub_mod_eq_zero_of_mod_eq (r.place_eq_iff.mp heq).symm
    rw [Nat.add_sub_add_left] at hsub
    have hle := Nat.le_of_dvd (by omega) (Nat.dvd_of_mod_eq_zero hsub)
    omega
  · rintro ⟨rfl,rfl⟩
    exact r.place_eq_iff.mpr (by simp)

/-- Behind an arc of at most one turn comes a member of the arc exactly if the turn is complete. -/
theorem place_mem_arc {s k : ℕ} (hpos : 0 < k) (hk : k ≤ r.size) : r.place (s + k) ∈ r.arc s k ↔ k = r.size := by
  rw [mem_arc]
  constructor
  · rintro ⟨j,hj,heq⟩
    exact ((r.place_add_eq_iff hj hk).mp heq).2
  · intro hfull
    exact ⟨0,hpos,(r.place_add_eq_iff hpos hk).mpr ⟨rfl,hfull⟩⟩

end RingOrder

end DistributedSystems
