import Mathlib.Analysis.SpecialFunctions.Gaussian.GaussianIntegral
import Mathlib.MeasureTheory.Integral.IntervalIntegral.Basic

/-! # The error function and the normal distribution

The error function is the integral of the Gaussian from 0 on, scaled to end at 1.
-/
namespace DistributedSystems
open Real MeasureTheory Filter

/-- The error function. -/
noncomputable def erf (x : ℝ) : ℝ := 2.0 / √π * ∫ t in (0 : ℝ)..x, exp (-1 * t ^ 2)

theorem integrable_gaussian : Integrable fun t : ℝ => exp (-1 * t ^ 2) := integrable_exp_neg_mul_sq one_pos

theorem erf_monotone : Monotone erf := by
  intro x y hxy
  refine mul_le_mul_of_nonneg_left ?_ (by positivity)
  rw [← intervalIntegral.integral_add_adjacent_intervals integrable_gaussian.intervalIntegrable
    (integrable_gaussian.intervalIntegrable (a := x) (b := y))]
  exact le_add_of_nonneg_right (intervalIntegral.integral_nonneg hxy fun t _ => (exp_pos _).le)

theorem tendsto_erf : Tendsto erf atTop (nhds 1) := by
  have hlim := (intervalIntegral_tendsto_integral_Ioi 0 integrable_gaussian.integrableOn tendsto_id).const_mul (2.0 / √π)
  rw [integral_gaussian_Ioi,div_one] at hlim
  have hone : 2.0 / √π * (√π / 2) = 1 := by
    have hpos : √π ≠ 0 := (sqrt_pos.mpr pi_pos).ne'
    field_simp
    norm_num
  rwa [hone] at hlim

end DistributedSystems
