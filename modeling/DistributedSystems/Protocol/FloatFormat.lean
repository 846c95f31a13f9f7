import Mathlib.Algebra.Order.Field.Rat
import Mathlib.Data.Int.Log
import Mathlib.Data.Rat.Floor

/-! # Rounding to a floating-point format

A format has a number of fraction bits and a smallest exponent. A number is rounded to the nearest multiple of
the quantum of its binade, ties to even; there is no largest exponent.
-/
namespace DistributedSystems

/-- The nearest integer, the even one of two. -/
def roundHalfEven (x : ℚ) : ℤ :=
  if x - ⌊x⌋ < 1 / 2 ∨ x - ⌊x⌋ = 1 / 2 ∧ Even ⌊x⌋ then ⌊x⌋ else ⌊x⌋ + 1

theorem roundHalfEven_intCast (n : ℤ) : roundHalfEven n = n := by
  simp [roundHalfEven]

theorem roundHalfEven_le_roundHalfEven {x y : ℚ} (hxy : x ≤ y) : roundHalfEven x ≤ roundHalfEven y := by
  have hbounds : ∀ z : ℚ, ⌊z⌋ ≤ roundHalfEven z ∧ roundHalfEven z ≤ ⌊z⌋ + 1 := by
    intro z
    unfold roundHalfEven
    split <;> omega
  rcases (Int.floor_mono hxy).lt_or_eq with hlt | heq
  · exact (hbounds x).2.trans ((Int.add_one_le_of_lt hlt).trans (hbounds y).1)
  · unfold roundHalfEven
    rw [heq]
    split
    · split <;> omega
    · rename_i hx
      rw [if_neg]
      rintro (hy | ⟨hy,heven⟩)
      · exact hx (Or.inl ((sub_le_sub_right hxy _).trans_lt hy))
      · rcases (sub_le_sub_right hxy (⌊y⌋ : ℚ)).lt_or_eq with hlt | hsame
        · exact hx (Or.inl (hlt.trans_eq hy))
        · exact hx (Or.inr ⟨hsame.trans hy,heven⟩)

/-- A leading bit with some fraction bits after it, none of them below the smallest exponent. -/
structure FloatFormat where
  fractionBits : ℕ
  minExponent : ℤ

namespace FloatFormat
variable (F : FloatFormat)

/-- The exponent of the last place of a number. -/
def exponent (x : ℚ) : ℤ := max (Int.log 2 |x| - F.fractionBits) F.minExponent

def quantum (x : ℚ) : ℚ := 2 ^ F.exponent x

def round (x : ℚ) : ℚ := roundHalfEven (x / F.quantum x) * F.quantum x

variable {F} {x y : ℚ}

theorem quantum_pos : 0 < F.quantum x := zpow_pos two_pos _

/-- A multiple of the quantum is never passed. -/
theorem round_le {n : ℤ} (h : x ≤ n * F.quantum x) : F.round x ≤ n * F.quantum x := by
  refine mul_le_mul_of_nonneg_right ?_ quantum_pos.le
  have hround := roundHalfEven_le_roundHalfEven ((div_le_iff₀ quantum_pos).mpr h)
  rw [roundHalfEven_intCast] at hround
  exact_mod_cast hround

theorem le_round {n : ℤ} (h : n * F.quantum x ≤ x) : n * F.quantum x ≤ F.round x := by
  refine mul_le_mul_of_nonneg_right ?_ quantum_pos.le
  have hround := roundHalfEven_le_roundHalfEven ((le_div_iff₀ quantum_pos).mpr h)
  rw [roundHalfEven_intCast] at hround
  exact_mod_cast hround

/-- A multiple of both quanta between two numbers stays between them. -/
theorem round_le_round {b : ℚ} {m n : ℤ} (hm : b = m * F.quantum x) (hn : b = n * F.quantum y) (hx : x ≤ b)
    (hy : b ≤ y) : F.round x ≤ F.round y :=
  calc F.round x ≤ b := hm ▸ round_le (hm ▸ hx)
    _ ≤ F.round y := hn ▸ le_round (hn ▸ hy)

theorem exists_mul_quantum {k : ℤ} (h : F.exponent x ≤ k) : ∃ n : ℤ, (2 : ℚ) ^ k = n * F.quantum x := by
  refine ⟨2 ^ (k - F.exponent x).toNat,?_⟩
  rw [quantum,Int.cast_pow,Int.cast_ofNat,← zpow_natCast,← zpow_add₀ two_ne_zero,Int.toNat_of_nonneg (by omega)]
  congr 1
  omega

/-- Between positive numbers with different quanta lies a power of two that both quanta divide. -/
theorem exists_between (hx : 0 < x) (hy : 0 < y) (h : F.exponent x < F.exponent y) :
    ∃ k, F.exponent x ≤ k ∧ F.exponent y ≤ k ∧ x ≤ 2 ^ k ∧ (2 : ℚ) ^ k ≤ y := by
  unfold exponent at h ⊢
  rw [abs_of_pos hx,abs_of_pos hy] at h ⊢
  have hlog : Int.log 2 x + 1 ≤ Int.log 2 y := by omega
  refine ⟨Int.log 2 y,by omega,by omega,?_,Int.zpow_log_le_self one_lt_two hy⟩
  calc x ≤ 2 ^ (Int.log 2 x + 1) := (Int.lt_zpow_succ_log_self one_lt_two x).le
    _ ≤ 2 ^ Int.log 2 y := zpow_le_zpow_right₀ one_le_two hlog

theorem exponent_mono (hx : 0 < |x|) (h : |x| ≤ |y|) : F.exponent x ≤ F.exponent y :=
  max_le_max (sub_le_sub_right (Int.log_mono_right hx h) _) le_rfl

@[simp] theorem exponent_neg (x : ℚ) : F.exponent (-x) = F.exponent x := by
  rw [exponent,abs_neg,exponent]

theorem round_mono : Monotone F.round := by
  intro x y hxy
  by_cases hq : F.exponent x = F.exponent y
  · have hquantum : F.quantum x = F.quantum y := congrArg (2 ^ ·) hq
    unfold round
    rw [hquantum]
    refine mul_le_mul_of_nonneg_right ?_ quantum_pos.le
    exact_mod_cast roundHalfEven_le_roundHalfEven ((div_le_div_iff_of_pos_right quantum_pos).mpr hxy)
  · rcases le_or_gt x 0 with hx | hx
    · rcases le_or_gt 0 y with hy | hy
      · exact round_le_round (b := 0) (m := 0) (n := 0) (by simp) (by simp) hx hy
      · have hlt : F.exponent (-y) < F.exponent (-x) := by
          rw [exponent_neg,exponent_neg]
          refine lt_of_le_of_ne (exponent_mono (abs_pos.mpr hy.ne) ?_) (Ne.symm hq)
          rw [abs_of_neg hy,abs_of_nonpos hx]
          exact neg_le_neg hxy
        obtain ⟨k,hky,hkx,hle,hge⟩ := exists_between (neg_pos.mpr hy) (neg_pos.mpr (hxy.trans_lt hy)) hlt
        rw [exponent_neg] at hkx hky
        obtain ⟨m,hm⟩ := exists_mul_quantum hkx
        obtain ⟨n,hn⟩ := exists_mul_quantum hky
        refine round_le_round (b := -2 ^ k) (m := -m) (n := -n) ?_ ?_ (le_neg_of_le_neg hge) (neg_le_of_neg_le hle)
        · rw [hm,Int.cast_neg,neg_mul]
        · rw [hn,Int.cast_neg,neg_mul]
    · have hy := hx.trans_le hxy
      have hlt : F.exponent x < F.exponent y := by
        refine lt_of_le_of_ne (exponent_mono (abs_pos.mpr hx.ne') ?_) hq
        rwa [abs_of_pos hx,abs_of_pos hy]
      obtain ⟨k,hkx,hky,hle,hge⟩ := exists_between hx hy hlt
      obtain ⟨m,hm⟩ := exists_mul_quantum hkx
      obtain ⟨n,hn⟩ := exists_mul_quantum hky
      exact round_le_round hm hn hle hge

end FloatFormat

/-- The doubles of IEEE 754. -/
def binary64 : FloatFormat := ⟨52,-1074⟩

end DistributedSystems
