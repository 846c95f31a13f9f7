import DistributedSystems.Bloom.BloomFilter
import Mathlib.Algebra.Order.Floor.Semiring
import Mathlib.Analysis.SpecialFunctions.Log.Basic

/-! # The size of a filter

With exact logarithms a filter has a position exactly when the quotient of its size is at least
one. Rates of one half and below leave no filter without positions; rates near one do.
-/
namespace DistributedSystems.Bloom

section Size
variable {n n' : ℤ} {p p' : ℝ}

theorem sq_log_two_pos : 0 < Real.log 2 ^ 2 := pow_pos (Real.log_pos one_lt_two) 2

theorem one_le_optimalSize_iff (hp : 0 < p) : 1 ≤ optimalSize Real.log n p ↔ HasPosition Real.log n p := by
  unfold optimalSize HasPosition
  rw [if_neg hp.ne',Nat.one_le_floor_iff,one_le_div sq_log_two_pos]

/-- More elements and smaller rates need more bits. -/
theorem HasPosition.mono (h : HasPosition Real.log n p) (hn : 0 < n) (hle : n ≤ n') (hp : 0 < p') (hp' : p' ≤ p)
    (hp1 : p < 1) : HasPosition Real.log n' p' := by
  have hlog : Real.log p' ≤ Real.log p := Real.log_le_log hp hp'
  have hneg : Real.log p ≤ 0 := Real.log_nonpos (hp.le.trans hp') hp1.le
  have hn' : (0 : ℝ) < n := Int.cast_pos.mpr hn
  have hcast : (n : ℝ) ≤ n' := Int.cast_le.mpr hle
  refine le_trans h ?_
  rw [neg_mul_comm,neg_mul_comm]
  exact mul_le_mul hcast (neg_le_neg hlog) (neg_nonneg.mpr hneg) (hn'.le.trans hcast)

theorem hasPosition_of_le_half (hn : 0 < n) (hp : 0 < p) (hp' : p ≤ 1 / 2) : HasPosition Real.log n p := by
  have hone : HasPosition Real.log 1 (1 / 2) := by
    have hle : Real.log 2 ≤ 1 := by
      have := Real.log_le_sub_one_of_pos (two_pos : (0 : ℝ) < 2)
      linarith
    have hlog : Real.log (1 / 2) = -Real.log 2 := by rw [one_div,Real.log_inv]
    unfold HasPosition
    rw [hlog,Int.cast_one,neg_mul_neg,one_mul,sq]
    exact mul_le_of_le_one_left (Real.log_pos one_lt_two).le hle
  exact hone.mono one_pos (Int.add_one_le_of_lt hn) hp hp' one_half_lt_one

/-- One element at a rate of nine tenths needs less than a bit. -/
theorem not_hasPosition_nine_tenths : ¬HasPosition Real.log 1 (9 / 10) := by
  have hten : -Real.log (9 / 10) ≤ 1 / 9 := by
    have hinv := Real.log_le_sub_one_of_pos (show (0 : ℝ) < (9 / 10)⁻¹ by norm_num)
    rw [Real.log_inv] at hinv
    exact hinv.trans (by norm_num)
  have htwo : 1 / 2 ≤ Real.log 2 := by
    have := Real.one_sub_inv_le_log_of_pos (two_pos : (0 : ℝ) < 2)
    linarith
  unfold HasPosition
  rw [Int.cast_one,neg_one_mul]
  nlinarith

end Size

section Accepted
variable {K : Type} [Field K] [LinearOrder K] [FloorSemiring K] {log : K → K} {n : ℤ} {rate : K} {p : Parameters K}

/-- What the constructor accepts, and what it computes of it. -/
theorem Parameters.init_ok (h : Parameters.init log n rate = .ok p) :
    (0 < n ∧ 0 < rate ∧ rate < 1) ∧ p.size = optimalSize log n rate ∧ 0 < p.numHashes := by
  unfold Parameters.init at h
  split at h
  · cases h
  · rename_i hn
    split at h
    · cases h
    · rename_i hrate
      cases h
      exact ⟨⟨not_le.mp hn,not_not.mp hrate⟩,rfl,Nat.lt_of_lt_of_le one_pos (le_max_left _ _)⟩

omit [Field K] [LinearOrder K] [FloorSemiring K] in
theorem Parameters.usable_iff (hhashes : 0 < p.numHashes) : p.Usable ↔ 1 ≤ p.size := by
  rw [Usable,Nat.one_le_iff_ne_zero]
  exact ⟨fun h hsize => hhashes.ne' (h hsize),fun h hsize => absurd hsize h⟩

end Accepted

namespace BloomFilter
variable {E : Type} {n : ℤ} {rate : ℝ} {f : BloomFilter ℝ}

/-- A filter with accepted parameters takes no remainder by zero exactly when it has a position. -/
theorem usable_iff_hasPosition (hashSeeds : E → ℕ × ℕ) (h : Parameters.init Real.log n rate = .ok f.toParameters) :
    (1 ≤ f.size ∧ ∀ element, f.add hashSeeds element ≠ .error .zeroDivisionError ∧
      f.contains hashSeeds element ≠ .error .zeroDivisionError) ↔ HasPosition Real.log n rate := by
  obtain ⟨⟨-,hrate,-⟩,hsize,hhashes⟩ := Parameters.init_ok h
  rw [← one_le_optimalSize_iff hrate,← hsize,and_iff_left_iff_imp]
  intro hpos element
  have husable := (Parameters.usable_iff hhashes).mpr hpos
  obtain ⟨found,hfound,-⟩ := contains_eq hashSeeds husable element
  rw [add_eq husable,hfound]
  exact ⟨nofun,nofun⟩

end BloomFilter
end DistributedSystems.Bloom
