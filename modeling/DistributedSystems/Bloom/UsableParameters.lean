import DistributedSystems.Bloom.ScalableBloomFilter

/-! # Usable parameters

The constructors accept every rate below one, also where no position is left. A filter of layers
opens such a layer exactly when its parameters name one before it is refused.
-/
namespace DistributedSystems.Bloom.ScalableBloomFilter
open Runs

variable {E : Type} {hashSeeds : E → ℕ × ℕ} {s s₀ : ScalableBloomFilter ℝ}

/-- Every layer that can be opened has a position. -/
def LayersHavePositions (s₀ : ScalableBloomFilter ℝ) : Prop :=
  ∀ k, (∀ j ≤ k, s₀.Valid j) → HasPosition Real.log (s₀.capacity k) (s₀.fpRate k)

/-- No call takes a remainder by zero. -/
def Safe (hashSeeds : E → ℕ × ℕ) (s : ScalableBloomFilter ℝ) : Prop :=
  (∀ f ∈ s.filters, 1 ≤ f.size) ∧ ∀ element, (s.add Real.log hashSeeds element).2 ≠ some .zeroDivisionError ∧
    s.contains hashSeeds element ≠ .error .zeroDivisionError

theorem Layered.size_of_mem (h : s.Layered Real.log) (hgrown : s₀.Grown s) (hpositions : s₀.LayersHavePositions)
    {f : BloomFilter ℝ} (hf : f ∈ s.filters) : 1 ≤ f.size := by
  obtain ⟨k,hk,hparameters⟩ := h.mem_layers hf
  have hvalid := h.valid
  obtain ⟨filters,count,rfl⟩ := hgrown
  have hposition := hpositions k fun j hj => hvalid j (hj.trans_lt hk)
  rw [hparameters]
  exact (one_le_optimalSize_iff (hvalid k hk).2.1).mpr hposition

/-- States of a filter whose layers have positions are safe. -/
theorem Layered.safe (h : s.Layered Real.log) (hgrown : s₀.Grown s) (hpositions : s₀.LayersHavePositions) :
    s.Safe hashSeeds := by
  have husable : ∀ {s : ScalableBloomFilter ℝ}, s.Layered Real.log → s₀.Grown s → ∀ f ∈ s.filters, f.Usable :=
    fun h hgrown f hf hzero => absurd hzero (Nat.one_le_iff_ne_zero.mp (h.size_of_mem hgrown hpositions hf))
  refine ⟨fun f hf => h.size_of_mem hgrown hpositions hf,fun element => ⟨?_,?_⟩⟩
  · rcases h.add_cases hashSeeds element with ⟨message,heq,-⟩ | ⟨filters,heq,-⟩ | ⟨filters,heq,hlayered,-,f,hf,hnot⟩
    · rw [heq]
      nofun
    · rw [heq]
      nofun
    · exact absurd (husable hlayered (hgrown.trans ⟨filters,s.count,rfl⟩) f hf) hnot
  · obtain ⟨found,heq,-⟩ := contains_eq hashSeeds (husable h hgrown) element
    rw [heq]
    nofun

/-- A filter holds no more elements than its layers expect. -/
theorem Layered.count_le (h : s.Layered Real.log) :
    (s.count : ℤ) ≤ ∑ k ∈ Finset.range s.filters.length, s.capacity k := by
  obtain ⟨older,current,hfilters,hfull,hcurrent⟩ := h.full
  have hcounts : ∀ f ∈ s.filters, (f.count : ℤ) ≤ f.expectedElements := by
    intro f hf
    rw [hfilters,List.mem_append,List.mem_singleton] at hf
    rcases hf with hf | rfl
    · exact (hfull f hf).le
    · exact hcurrent
  have hexpected : s.filters.map (fun f => f.expectedElements) = (List.range s.filters.length).map s.capacity := by
    have hmap := congrArg (List.map Parameters.expectedElements) h.layers
    rwa [List.map_map,List.map_map] at hmap
  calc (s.count : ℤ) = (s.filters.map fun f => (f.count : ℤ)).sum := by
        rw [h.count,Nat.cast_list_sum,List.map_map]
        rfl
    _ ≤ (s.filters.map fun f => f.expectedElements).sum := List.sum_le_sum hcounts
    _ = ∑ k ∈ Finset.range s.filters.length, s.capacity k := by
        rw [hexpected]
        rfl

theorem layered_run (hlayered : s₀.Layered Real.log) (hashSeeds : E → ℕ × ℕ) (schedule : List E) :
    (run (step Real.log hashSeeds) s₀ schedule).Layered Real.log ∧
      s₀.Grown (run (step Real.log hashSeeds) s₀ schedule) := by
  have hstep : ∀ (s : ScalableBloomFilter ℝ) (element : E), s.Layered Real.log ∧ s₀.Grown s →
      (s.step Real.log hashSeeds element).Layered Real.log ∧ s₀.Grown (s.step Real.log hashSeeds element) :=
    fun s element h => ⟨h.1.step hashSeeds element,h.2.trans (h.1.grown_step hashSeeds element)⟩
  exact run_invariant_of_step hstep ⟨hlayered,s₀.filters,s₀.count,rfl⟩ schedule

/-- While all calls are safe and no layer is refused, additions are counted. -/
theorem count_replicate (hlayered : s₀.Layered Real.log) (hcount : s₀.count = 0) {k : ℕ} (hvalid : ∀ j ≤ k, s₀.Valid j)
    (hsafe : ∀ schedule, (run (step Real.log hashSeeds) s₀ schedule).Safe hashSeeds)
    (hfew : ∀ schedule, (run (step Real.log hashSeeds) s₀ schedule).filters.length ≤ k) (element : E) (n : ℕ) :
    (run (step Real.log hashSeeds) s₀ (List.replicate n element)).count = n := by
  induction n with
  | zero => exact hcount
  | succ n ih =>
    obtain ⟨hreached,filters,count,hgrown⟩ := layered_run hlayered hashSeeds (List.replicate n element)
    rw [List.replicate_succ',run_append,run_cons,run_nil]
    have hk := hfew (List.replicate n element)
    have hdone := ((hsafe (List.replicate n element)).2 element).1
    generalize run (step Real.log hashSeeds) s₀ (List.replicate n element) = s at *
    unfold step
    rcases hreached.add_cases hashSeeds element with ⟨message,heq,hnot⟩ | ⟨filters,heq,-⟩ | ⟨filters,heq,-⟩
    · subst hgrown
      exact absurd (hvalid _ hk) hnot
    · rw [heq]
      exact congrArg (· + 1) ih
    · exact absurd (congrArg Prod.snd heq) hdone

/-- While all calls are safe, enough additions open every layer with accepted parameters. -/
theorem exists_opened (hlayered : s₀.Layered Real.log) (hcount : s₀.count = 0) {k : ℕ} (hvalid : ∀ j ≤ k, s₀.Valid j)
    (hsafe : ∀ schedule, (run (step Real.log hashSeeds) s₀ schedule).Safe hashSeeds) (element : E) :
    ∃ schedule, k < (run (step Real.log hashSeeds) s₀ schedule).filters.length := by
  by_contra! hnone
  -- more elements than the first layers expect
  set capacities := ∑ j ∈ Finset.range (k + 1), s₀.capacity j
  obtain ⟨hreached,filters,count,hgrown⟩ := layered_run hlayered hashSeeds
    (List.replicate (capacities.toNat + 1) element)
  have hfew := hnone (List.replicate (capacities.toNat + 1) element)
  have hcounted := count_replicate hlayered hcount hvalid hsafe hnone element (capacities.toNat + 1)
  generalize run (step Real.log hashSeeds) s₀ (List.replicate (capacities.toNat + 1) element) = s at *
  have hle : ∑ j ∈ Finset.range s.filters.length, s₀.capacity j ≤ capacities :=
    Finset.sum_le_sum_of_subset_of_nonneg (Finset.range_mono (hfew.trans (Nat.le_succ k)))
      fun j hj _ => (hvalid j (Nat.lt_succ_iff.mp (Finset.mem_range.mp hj))).1.le
  have hsum : (s.count : ℤ) ≤ ∑ j ∈ Finset.range s.filters.length, s₀.capacity j := by
    have hcount := hreached.count_le
    rw [hgrown] at hcount ⊢
    exact hcount
  omega

/-- With layers that grow at rates that shrink, the first layer is the smallest. -/
theorem layersHavePositions_iff (hscale : 1 ≤ s₀.scale) (hratio : 0 < s₀.ratio) (hratio' : s₀.ratio < 1)
    (hvalid : s₀.Valid 0) : s₀.LayersHavePositions ↔ HasPosition Real.log (s₀.capacity 0) (s₀.fpRate 0) := by
  constructor
  · intro h
    refine h 0 fun j hj => ?_
    rwa [Nat.le_zero.mp hj]
  · intro h k hall
    have hpow : (1 : ℤ) ≤ s₀.scale ^ k := one_le_pow₀ hscale
    have hpow' : s₀.ratio ^ k ≤ 1 := pow_le_one₀ hratio.le hratio'.le
    have hcapacity : s₀.capacity 0 ≤ s₀.capacity k := by
      have hinitial := hvalid.1
      simp only [capacity,pow_zero,mul_one] at hinitial ⊢
      exact le_mul_of_one_le_right hinitial.le hpow
    have hrate : s₀.fpRate k ≤ s₀.fpRate 0 := by
      have hpositive := hvalid.2.1
      have heq : s₀.fpRate k = s₀.fpRate 0 * s₀.ratio ^ k := by
        simp only [fpRate,pow_zero]
        ring
      rw [heq]
      exact mul_le_of_le_one_right hpositive.le hpow'
    exact h.mono hvalid.1 hcapacity (hall k le_rfl).2.1 hrate hvalid.2.2

/-- Filters of accepted parameters take no remainder by zero exactly when the elements need at
least a bit at their rate; filters of layers exactly when those of every layer do that can be
opened, and for shrinking rates exactly when those of the first layer do. -/
theorem usable_parameters_iff [Inhabited E] (hashSeeds : E → ℕ × ℕ) :
    (∀ (n : ℤ) (rate : ℝ) (f : BloomFilter ℝ), Parameters.init Real.log n rate = .ok f.toParameters →
      ((1 ≤ f.size ∧ ∀ element, f.add hashSeeds element ≠ .error .zeroDivisionError ∧
        f.contains hashSeeds element ≠ .error .zeroDivisionError) ↔ HasPosition Real.log n rate)) ∧
    ∀ (initialSize scale : ℤ) (targetFpRate ratio : ℝ) (s₀ : ScalableBloomFilter ℝ),
      init Real.log initialSize targetFpRate ratio scale = .ok s₀ →
      ((∀ schedule, (run (step Real.log hashSeeds) s₀ schedule).Safe hashSeeds) ↔
        ∀ k : ℕ, (∀ j ≤ k, s₀.Valid j) →
          HasPosition Real.log (initialSize * scale ^ k) (targetFpRate * ratio ^ k * (1 - ratio))) ∧
      (1 ≤ scale → 0 < ratio → ratio < 1 →
        ((∀ schedule, (run (step Real.log hashSeeds) s₀ schedule).Safe hashSeeds) ↔
          HasPosition Real.log initialSize (targetFpRate * (1 - ratio)))) := by
  refine ⟨fun n rate f h => f.usable_iff_hasPosition hashSeeds h,?_⟩
  intro initialSize scale targetFpRate ratio s₀ h
  have hvalid := valid_of_init h
  obtain ⟨hinit,hlayered⟩ := @init_eq ℝ _ _ _ Real.log _ _ _ _ hvalid
  obtain rfl : _ = s₀ := Except.ok.inj (hinit.symm.trans h)
  set s₀ := (empty initialSize targetFpRate ratio scale).opened Real.log
  have hsafe : (∀ schedule, (run (step Real.log hashSeeds) s₀ schedule).Safe hashSeeds) ↔ s₀.LayersHavePositions := by
    constructor
    · intro hsafe k hall
      obtain ⟨schedule,hk⟩ := exists_opened hlayered rfl hall hsafe default
      obtain ⟨hreached,filters,count,hgrown⟩ := layered_run hlayered hashSeeds schedule
      obtain ⟨f,hf,hparameters⟩ := hreached.exists_layer hk
      have hsize := (hsafe schedule).1 f hf
      rw [hparameters,hgrown] at hsize
      exact (one_le_optimalSize_iff (hall k le_rfl).2.1).mp hsize
    · intro hpositions schedule
      obtain ⟨hreached,hgrown⟩ := layered_run hlayered hashSeeds schedule
      exact hreached.safe hgrown hpositions
  refine ⟨hsafe,fun hscale hratio hratio' => hsafe.trans ?_⟩
  have hfirst := @layersHavePositions_iff s₀ hscale hratio hratio' hvalid
  have hcapacity : s₀.capacity 0 = initialSize := by
    change initialSize * scale ^ 0 = initialSize
    rw [pow_zero,mul_one]
  have hrate : s₀.fpRate 0 = targetFpRate * (1 - ratio) := by
    change targetFpRate * ratio ^ 0 * (1 - ratio) = targetFpRate * (1 - ratio)
    rw [pow_zero,mul_one]
  rwa [hcapacity,hrate] at hfirst

/-- One element at a rate of nine tenths is accepted, and has no position. -/
theorem accepted_without_position : ¬((∀ (n : ℤ) (rate : ℝ) (f : BloomFilter ℝ),
      Parameters.init Real.log n rate = .ok f.toParameters →
      1 ≤ f.size ∧ ∀ element, f.add sampleSeeds element ≠ .error .zeroDivisionError ∧
        f.contains sampleSeeds element ≠ .error .zeroDivisionError) ∧
    ∀ (initialSize scale : ℤ) (targetFpRate ratio : ℝ) (s₀ : ScalableBloomFilter ℝ),
      init Real.log initialSize targetFpRate ratio scale = .ok s₀ →
      ∀ schedule, (run (step Real.log sampleSeeds) s₀ schedule).Safe sampleSeeds) := by
  rintro ⟨h,-⟩
  have hinit : Parameters.init Real.log 1 (9 / 10) = .ok ⟨1,9 / 10,optimalSize Real.log 1 (9 / 10),
      optimalHashes Real.log (optimalSize Real.log 1 (9 / 10)) 1⟩ := by
    rw [Parameters.init,if_neg (by norm_num),if_neg (by norm_num)]
  have hsize := (h 1 (9 / 10) ⟨_,0,0⟩ hinit).1
  exact not_hasPosition_nine_tenths ((one_le_optimalSize_iff (by norm_num)).mp hsize)

end DistributedSystems.Bloom.ScalableBloomFilter
