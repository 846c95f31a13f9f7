import DistributedSystems.Protocol.Windows
import DistributedSystems.RateLimiting.TokenBucket
import Mathlib.MeasureTheory.Integral.IntervalIntegral.Basic

/-! # Adaptive rates

The rate of a token bucket is adjusted to the load. An adjustment does not refill the bucket, so
the next request refills it with the new rate for all the time since the last one.
-/
namespace DistributedSystems.RateLimiting
open Runs

structure AdaptiveRateLimiter (K : Type) where
  baseRate : K
  currentRate : K
  minRate : K
  maxRate : K
  limiter : TokenBucketLimiter K

namespace AdaptiveRateLimiter
section Model
variable {K : Type} [Field K] [LinearOrder K]

/-- Without a maximal rate, or with 0, it is ten times the base rate. -/
def init (baseRate minRate : K) (maxRate : Option K) (now : K) : AdaptiveRateLimiter K where
  baseRate := baseRate
  currentRate := baseRate
  minRate := minRate
  maxRate := match maxRate with
    | some maxRate => if maxRate = 0 then baseRate * (10 : ℕ) else maxRate
    | none => baseRate * (10 : ℕ)
  limiter := TokenBucketLimiter.init baseRate (baseRate * (2 : ℕ)) 1 now

def adjustRate (a : AdaptiveRateLimiter K) (loadFactor : K) : AdaptiveRateLimiter K :=
  let currentRate :=
    if loadFactor > 0.9 then max a.minRate (a.currentRate * 0.9)
    else if loadFactor < 0.5 then min a.maxRate (a.currentRate * 1.1)
    else a.currentRate
  { a with currentRate := currentRate, limiter := { a.limiter with rate := currentRate } }

def allowRequest (a : AdaptiveRateLimiter K) (now : K) : AdaptiveRateLimiter K × Bool :=
  let r := a.limiter.allowRequest 1 now
  ({ a with limiter := r.1 },r.2)

end Model
end AdaptiveRateLimiter

/-- The calls with the time of each; an adjustment does not read it. -/
inductive AdaptiveCall (K : Type)
  | adjustRate (loadFactor now : K)
  | allowRequest (now : K)

def AdaptiveCall.now {K : Type} : AdaptiveCall K → K
  | adjustRate _ now => now
  | allowRequest now => now

/-- A call as it is seen afterwards, with the tokens and the time of the refill that it leaves. -/
structure AdaptiveRecord (K : Type) where
  now : K
  granted : Bool
  level : K
  lastRefill : K

namespace AdaptiveRateLimiter
section Calls
variable {K : Type} [Field K] [LinearOrder K]

def step (a : AdaptiveRateLimiter K) : AdaptiveCall K → AdaptiveRateLimiter K
  | .adjustRate loadFactor _ => a.adjustRate loadFactor
  | .allowRequest now => (a.allowRequest now).1

def record (a : AdaptiveRateLimiter K) : AdaptiveCall K → AdaptiveRecord K
  | .adjustRate loadFactor now =>
    let b := (a.adjustRate loadFactor).limiter
    ⟨now,false,b.tokens,b.lastRefill⟩
  | .allowRequest now =>
    let r := a.allowRequest now
    ⟨now,r.2,r.1.limiter.tokens,r.1.limiter.lastRefill⟩

def records (a : AdaptiveRateLimiter K) (calls : List (AdaptiveCall K)) : List (AdaptiveRecord K) :=
  observed step record a calls

/-- The calls come in the order of their times, after the bucket is created. -/
def Ordered (created : K) (calls : List (AdaptiveCall K)) : Prop :=
  (created :: calls.map AdaptiveCall.now).Pairwise (· ≤ ·)

/-- The rate that was in force at a time, after the calls up to then. -/
def rateInForce (a : AdaptiveRateLimiter K) (calls : List (AdaptiveCall K)) (u : K) : K :=
  (run step a (calls.filter fun call => call.now ≤ u)).currentRate

/-- What the calls keep. -/
structure Sound (minRate maxRate capacity : K) (a : AdaptiveRateLimiter K) : Prop where
  minRate_eq : a.minRate = minRate
  maxRate_eq : a.maxRate = maxRate
  min_le : minRate ≤ a.currentRate
  le_max : a.currentRate ≤ maxRate
  rate_eq : a.limiter.rate = a.currentRate
  capacity_eq : a.limiter.capacity = capacity
  refillInterval_eq : a.limiter.refillInterval = 1
  tokens_le : a.limiter.tokens ≤ capacity

variable [IsStrictOrderedRing K] {minRate maxRate capacity : K} {a : AdaptiveRateLimiter K}

theorem Sound.adjustRate (h : a.Sound minRate maxRate capacity) (hmin : 0 < minRate) (loadFactor : K) :
    (a.adjustRate loadFactor).Sound minRate maxRate capacity := by
  have hpos : 0 ≤ a.currentRate := hmin.le.trans h.min_le
  have hbounds : minRate ≤ (a.adjustRate loadFactor).currentRate ∧ (a.adjustRate loadFactor).currentRate ≤ maxRate := by
    unfold AdaptiveRateLimiter.adjustRate
    dsimp only
    rw [h.minRate_eq,h.maxRate_eq]
    split
    · refine ⟨le_max_left _ _,max_le (h.min_le.trans h.le_max) ?_⟩
      linarith [h.le_max]
    · split
      · refine ⟨le_min (h.min_le.trans h.le_max) ?_,min_le_left _ _⟩
        linarith [h.min_le]
      · exact ⟨h.min_le,h.le_max⟩
  exact ⟨h.minRate_eq,h.maxRate_eq,hbounds.1,hbounds.2,rfl,h.capacity_eq,h.refillInterval_eq,h.tokens_le⟩

theorem Sound.allowRequest (h : a.Sound minRate maxRate capacity) (now : K) :
    (a.allowRequest now).1.Sound minRate maxRate capacity := by
  obtain ⟨-,-,hcapacity,hrate,hinterval⟩ := a.limiter.allowRequest_cases 1 now
  exact ⟨h.minRate_eq,h.maxRate_eq,h.min_le,h.le_max,hrate.trans h.rate_eq,hcapacity.trans h.capacity_eq,
    hinterval.trans h.refillInterval_eq,h.capacity_eq ▸ a.limiter.tokens_allowRequest_le zero_le_one now⟩

theorem Sound.step (h : a.Sound minRate maxRate capacity) (hmin : 0 < minRate) (call : AdaptiveCall K) :
    (a.step call).Sound minRate maxRate capacity := by
  cases call with
  | adjustRate loadFactor now => exact h.adjustRate hmin loadFactor
  | allowRequest now => exact h.allowRequest now

theorem sound_init {baseRate : K} (hmin : 0 < minRate) (hbase : minRate ≤ baseRate) {maxRate : Option K}
    (hmax : ∀ m ∈ maxRate, baseRate ≤ m) (created : K) :
    (init baseRate minRate maxRate created).Sound minRate (maxRate.getD (baseRate * 10)) (baseRate * 2) := by
  have hpos : 0 < baseRate := hmin.trans_le hbase
  have hcapacity : (init baseRate minRate maxRate created).limiter.capacity = baseRate * 2 :=
    congrArg (baseRate * ·) (Nat.cast_ofNat (n := 2))
  refine ⟨rfl,?_,hbase,?_,rfl,hcapacity,rfl,hcapacity.le⟩
  · cases maxRate with
    | none => exact congrArg (baseRate * ·) (Nat.cast_ofNat (n := 10))
    | some m => exact if_neg (hpos.trans_le (hmax m rfl)).ne'
  · cases maxRate with
    | none =>
      change baseRate ≤ baseRate * 10
      linarith
    | some m => exact hmax m rfl

theorem sound_run {baseRate : K} (hmin : 0 < minRate) (hbase : minRate ≤ baseRate) {maxRate : Option K}
    (hmax : ∀ m ∈ maxRate, baseRate ≤ m) (created : K) (calls : List (AdaptiveCall K)) :
    (run AdaptiveRateLimiter.step (init baseRate minRate maxRate created) calls).Sound minRate
      (maxRate.getD (baseRate * 10)) (baseRate * 2) :=
  run_invariant_of_step (fun _ call h => h.step hmin call) (sound_init hmin hbase hmax created) calls

end Calls

section Integral
open MeasureTheory
variable {minRate maxRate capacity : ℝ} {a : AdaptiveRateLimiter ℝ}

/-- The rate changes with the calls only. -/
theorem measurable_rateInForce (a : AdaptiveRateLimiter ℝ) (calls : List (AdaptiveCall ℝ)) :
    Measurable (a.rateInForce calls) := by
  induction calls generalizing a with
  | nil =>
    have heq : a.rateInForce [] = fun _ => a.currentRate := rfl
    rw [heq]
    exact measurable_const
  | cons call calls ih =>
    have heq : a.rateInForce (call :: calls) =
        fun u => if u ∈ Set.Ici call.now then (a.step call).rateInForce calls u else a.rateInForce calls u := by
      funext u
      unfold rateInForce
      rw [List.filter_cons]
      by_cases hu : call.now ≤ u
      · rw [if_pos (decide_eq_true hu),if_pos (Set.mem_Ici.mpr hu),run_cons]
      · rw [if_neg (by simpa using hu),if_neg fun hmem => hu (Set.mem_Ici.mp hmem)]
    rw [heq]
    exact Measurable.ite measurableSet_Ici (ih _) (ih _)

theorem intervalIntegrable_rateInForce (h : a.Sound minRate maxRate capacity) (hmin : 0 < minRate)
    (calls : List (AdaptiveCall ℝ)) (s t : ℝ) : IntervalIntegrable (a.rateInForce calls) volume s t := by
  refine intervalIntegrable_const.mono_fun' (g := fun _ => maxRate)
    (measurable_rateInForce a calls).aestronglyMeasurable (Filter.Eventually.of_forall fun u => ?_)
  have hrun : (run step a (calls.filter fun call => call.now ≤ u)).Sound minRate maxRate capacity :=
    run_invariant_of_step (fun _ call h => h.step hmin call) h _
  change ‖a.rateInForce calls u‖ ≤ maxRate
  rw [rateInForce,Real.norm_eq_abs,abs_of_nonneg (hmin.le.trans hrun.min_le)]
  exact hrun.le_max

/-- A request is supplied when the current rate gives no more for the time since the last refill
than the rates in force then, or these have filled the bucket. -/
def Supplied (rate : ℝ → ℝ) (a : AdaptiveRateLimiter ℝ) : AdaptiveCall ℝ → Prop
  | .adjustRate _ _ => True
  | .allowRequest now =>
    a.currentRate * (now - a.limiter.lastRefill) ≤ ∫ u in a.limiter.lastRefill..now, rate u ∨
      a.limiter.capacity ≤ a.limiter.tokens + ∫ u in a.limiter.lastRefill..now, rate u

/-- As long as the rate was not lower since the last refill, a request is supplied. -/
theorem supplied_of_le {rate : ℝ → ℝ} {now : ℝ} (hle : a.limiter.lastRefill ≤ now)
    (hrate : IntervalIntegrable rate volume a.limiter.lastRefill now)
    (h : ∀ u ∈ Set.Icc a.limiter.lastRefill now, a.currentRate ≤ rate u) : Supplied rate a (.allowRequest now) := by
  refine Or.inl ?_
  calc a.currentRate * (now - a.limiter.lastRefill)
      = ∫ _ in a.limiter.lastRefill..now, a.currentRate := by
        rw [intervalIntegral.integral_const,smul_eq_mul,mul_comm]
    _ ≤ ∫ u in a.limiter.lastRefill..now, rate u :=
        intervalIntegral.integral_mono_on hle intervalIntegrable_const hrate h

/-- The allowance is what the rates in force have given up to the last refill. -/
noncomputable def account (rate : ℝ → ℝ) (created : ℝ) : Account (AdaptiveRecord ℝ) ℝ where
  allotted r := ∫ u in created..r.lastRefill, rate u
  spent r := if r.granted then 1 else 0
  level := AdaptiveRecord.level

/-- With what it takes, a request leaves the refilled level. -/
theorem level_add_spent (rate : ℝ → ℝ) (created : ℝ) (a : AdaptiveRateLimiter ℝ) (now : ℝ) :
    (a.record (.allowRequest now)).level + (account rate created).spent (a.record (.allowRequest now)) =
      (a.limiter.refill now).tokens := a.limiter.level_add_granted ⟨1,now⟩

/-- A supplied request finds no more than what the rates in force have added. -/
theorem Sound.tokens_refill_le (h : a.Sound minRate maxRate capacity) {rate : ℝ → ℝ} {now : ℝ}
    (hsupplied : Supplied rate a (.allowRequest now)) :
    (a.limiter.refill now).tokens ≤ a.limiter.tokens + ∫ u in a.limiter.lastRefill..now, rate u := by
  rcases hsupplied with hrate | hfull
  · have hadd := a.limiter.tokens_refill_le_add now
    rw [h.refillInterval_eq,div_one,h.rate_eq,← mul_sub] at hadd
    linarith
  · exact (a.limiter.tokens_refill_le now).trans hfull

theorem Sound.follows (h : a.Sound minRate maxRate capacity) {rate : ℝ → ℝ}
    (hrate : ∀ s t, IntervalIntegrable rate volume s t) (created : ℝ) {call : AdaptiveCall ℝ}
    (hsupplied : Supplied rate a call) {r : AdaptiveRecord ℝ} (hlevel : r.level = a.limiter.tokens)
    (hlast : r.lastRefill = a.limiter.lastRefill) : (account rate created).Follows r (a.record call) := by
  unfold Account.Follows
  cases call with
  | adjustRate loadFactor now =>
    change a.limiter.tokens + (if false = true then 1 else 0) ≤
      r.level + ((∫ u in created..a.limiter.lastRefill, rate u) - ∫ u in created..r.lastRefill, rate u)
    rw [hlevel,hlast,sub_self]
    simp
  | allowRequest now =>
    have hnow : (a.record (.allowRequest now)).lastRefill = now := (a.limiter.allowRequest_cases 1 now).2.1
    change (a.record (.allowRequest now)).level + (account rate created).spent (a.record (.allowRequest now)) ≤
      r.level + ((∫ u in created..(a.record (.allowRequest now)).lastRefill, rate u) -
        ∫ u in created..r.lastRefill, rate u)
    rw [level_add_spent,hnow,hlevel,hlast,intervalIntegral.integral_interval_sub_left (hrate _ _) (hrate _ _)]
    exact h.tokens_refill_le hsupplied

theorem sum_spent (rate : ℝ → ℝ) (created : ℝ) (records : List (AdaptiveRecord ℝ)) :
    (records.map (account rate created).spent).sum = records.countP AdaptiveRecord.granted := Account.sum_map_ite _ _

/-- What a granted record says about its refill and its level. -/
theorem Sound.record (h : a.Sound minRate maxRate capacity) (rate : ℝ → ℝ) (created : ℝ) (call : AdaptiveCall ℝ) :
    (a.record call).level + (account rate created).spent (a.record call) ≤ capacity ∧
      ((a.record call).granted = true →
        (a.record call).lastRefill = (a.record call).now ∧ 0 ≤ (a.record call).level) := by
  cases call with
  | adjustRate loadFactor now =>
    refine ⟨?_,fun hgranted => absurd hgranted Bool.false_ne_true⟩
    change a.limiter.tokens + (if false = true then 1 else 0) ≤ capacity
    simpa using h.tokens_le
  | allowRequest now =>
    refine ⟨?_,fun hgranted =>
      ⟨(a.limiter.allowRequest_cases 1 now).2.1,a.limiter.tokens_nonneg_of_allowed hgranted⟩⟩
    rw [level_add_spent,← h.capacity_eq]
    exact a.limiter.tokens_refill_le now

/-- The rate stays in its bounds, and with requests that are all supplied, what is granted from one
granted request to another is covered by a full bucket and the rates in force between them. -/
theorem adaptive_rate_bound (baseRate minRate : ℝ) (maxRate : Option ℝ) (created : ℝ) (hmin : 0 < minRate)
    (hbase : minRate ≤ baseRate) (hmax : ∀ m ∈ maxRate, baseRate ≤ m) (calls : List (AdaptiveCall ℝ)) :
    let a := init baseRate minRate maxRate created
    (minRate ≤ (run step a calls).currentRate ∧ (run step a calls).currentRate ≤ maxRate.getD (baseRate * 10)) ∧
    (Along step (Supplied (a.rateInForce calls)) a calls →
      ∀ window, window <:+: a.records calls → ∀ first last, window.head? = some first → window.getLast? = some last →
        first.granted = true → last.granted = true →
        (window.countP AdaptiveRecord.granted : ℝ) ≤
          (run step a calls).limiter.capacity + ∫ u in first.now..last.now, a.rateInForce calls u) := by
  intro a
  have hs := sound_init hmin hbase hmax created
  have hrun := sound_run hmin hbase hmax created calls
  refine ⟨⟨hrun.min_le,hrun.le_max⟩,fun hsupplied window hwindow first last hfirst hlast hgranted hgranted' => ?_⟩
  have hrate : ∀ s t, IntervalIntegrable (a.rateInForce calls) volume s t :=
    intervalIntegrable_rateInForce hs hmin calls
  have hstep : ∀ (b : AdaptiveRateLimiter ℝ) (call : AdaptiveCall ℝ),
      b.Sound minRate (maxRate.getD (baseRate * 10)) (baseRate * 2) → Supplied (a.rateInForce calls) b call →
      (b.step call).Sound minRate (maxRate.getD (baseRate * 10)) (baseRate * 2) := fun _ call h _ => h.step hmin call
  have hchain : (a.records calls).IsChain (account (a.rateInForce calls) created).Follows :=
    isChain_observed hstep (D := fun b r => r.level = b.limiter.tokens ∧ r.lastRefill = b.limiter.lastRefill)
      (fun b call _ _ => by cases call <;> exact ⟨rfl,rfl⟩)
      (fun b r call h hcall hr => h.follows hrate created hcall hr.1 hr.2) hs hsupplied
  have hrecords := forall_observed (Q := fun r =>
    r.level + (account (a.rateInForce calls) created).spent r ≤ baseRate * 2 ∧
      (r.granted = true → r.lastRefill = r.now ∧ 0 ≤ r.level)) hstep
    (fun b call h _ => h.record (a.rateInForce calls) created call) hs hsupplied
  have hmem := hrecords first (hwindow.subset (List.mem_of_mem_head? hfirst))
  have hmem' := hrecords last (hwindow.subset (List.mem_of_mem_getLast? hlast))
  have hspent := Account.spent_le hchain hwindow hfirst hlast hmem.1 (hmem'.2 hgranted').2
  change _ ≤ baseRate * 2 + ((∫ u in created..last.lastRefill, a.rateInForce calls u) -
    ∫ u in created..first.lastRefill, a.rateInForce calls u) at hspent
  rw [sum_spent,intervalIntegral.integral_interval_sub_left (hrate _ _) (hrate _ _),(hmem.2 hgranted).1,
    (hmem'.2 hgranted').1] at hspent
  rw [hrun.capacity_eq]
  exact hspent

/-- The rate is lowered a second after the first request, two seconds before the next. -/
theorem adaptive_rate_bound_two_requests :
    let a : AdaptiveRateLimiter ℝ := init 1 (1 / 10) none 0
    let calls : List (AdaptiveCall ℝ) := [.allowRequest 0,.adjustRate 1 1,.allowRequest 3]
    a.currentRate = 1 ∧ (run step a calls).currentRate = 9 / 10 ∧
      ∀ window, window <:+: a.records calls → ∀ first last, window.head? = some first → window.getLast? = some last →
        first.granted = true → last.granted = true →
        (window.countP AdaptiveRecord.granted : ℝ) ≤
          (run step a calls).limiter.capacity + ∫ u in first.now..last.now, a.rateInForce calls u := by
  intro a calls
  have hs : a.Sound (1 / 10) ((none : Option ℝ).getD (1 * 10)) (1 * 2) :=
    sound_init (by norm_num) (by norm_num) (by simp) 0
  have hrate := intervalIntegrable_rateInForce hs (by norm_num) calls
  have hlowered : (run step a calls).currentRate = 9 / 10 := by
    norm_num [a,calls,step,init,allowRequest,adjustRate,max_def]
  have hinForce : ∀ u, 0 ≤ u → a.rateInForce calls u = if 1 ≤ u then 9 / 10 else 1 := by
    intro u hu
    by_cases hone : 1 ≤ u
    · by_cases hthree : 3 ≤ u
      · norm_num [a,calls,rateInForce,AdaptiveCall.now,hu,hone,hthree,step,init,allowRequest,adjustRate,max_def]
      · norm_num [a,calls,rateInForce,AdaptiveCall.now,hu,hone,hthree,step,init,allowRequest,adjustRate,max_def]
    · have hthree : ¬3 ≤ u := fun h => hone (le_trans (by norm_num) h)
      norm_num [a,calls,rateInForce,AdaptiveCall.now,hu,hone,hthree,step,init,allowRequest]
  have hrefill : (a.step (.allowRequest 0)).limiter.lastRefill = 0 := (a.limiter.allowRequest_cases 1 0).2.1
  refine ⟨rfl,hlowered,(adaptive_rate_bound 1 (1 / 10) none 0 (by norm_num) (by norm_num) (by simp) calls).2
    ⟨supplied_of_le (le_refl _) (hrate _ _) ?_,trivial,supplied_of_le ?_ (hrate _ _) ?_,trivial⟩⟩
  · intro u hu
    rw [hinForce u hu.1,if_neg (not_le.mpr (lt_of_le_of_lt hu.2 one_pos))]
    exact le_refl _
  · exact hrefill.le.trans (by norm_num)
  · intro u hu
    rw [hinForce u (hrefill.ge.trans hu.1)]
    refine hlowered.le.trans ?_
    split_ifs
    · exact le_refl _
    · norm_num

/-- The rate is raised just before a request that would have come too early. -/
theorem adaptive_rate_raised_late :
    ¬∀ (baseRate minRate maxRate created : ℝ) (calls : List (AdaptiveCall ℝ)), 0 < minRate → minRate ≤ baseRate →
      baseRate ≤ maxRate → Ordered created calls →
      ∀ window, window <:+: (init baseRate minRate (some maxRate) created).records calls →
        ∀ first last, window.head? = some first → window.getLast? = some last →
        first.granted = true → last.granted = true →
        (window.countP AdaptiveRecord.granted : ℝ) ≤
          baseRate * 2 +
            ∫ u in first.now..last.now, (init baseRate minRate (some maxRate) created).rateInForce calls u := by
  intro h
  let a : AdaptiveRateLimiter ℝ := init (1 / 2) (1 / 10) (some 1) 0
  let calls : List (AdaptiveCall ℝ) := [.allowRequest 0,.adjustRate (1 / 10) (20 / 11),.allowRequest (20 / 11)]
  have hrecords : a.records calls = [⟨0,true,0,0⟩,⟨20 / 11,false,0,0⟩,⟨20 / 11,true,0,20 / 11⟩] := by
    norm_num [a,calls,records,observed,record,step,init,allowRequest,adjustRate,TokenBucketLimiter.init,
      TokenBucketLimiter.allowRequest,TokenBucketLimiter.refill]
  have hbound := h (1 / 2) (1 / 10) 1 0 calls (by norm_num) (by norm_num) (by norm_num)
    (by norm_num [Ordered,calls,AdaptiveCall.now]) _ (List.infix_refl _) ⟨0,true,0,0⟩ ⟨20 / 11,true,0,20 / 11⟩
    (by rw [hrecords]; rfl) (by rw [hrecords]; rfl) rfl rfl
  have hbefore : Set.EqOn (a.rateInForce calls) (fun _ => 1 / 2) (Set.Ioo 0 (20 / 11)) := by
    intro u hu
    have hlate : ¬20 / 11 ≤ u := not_le.mpr hu.2
    simp [a,calls,rateInForce,AdaptiveCall.now,hu.1.le,hlate,step,allowRequest,init]
  have hintegral : ∫ u in (0 : ℝ)..20 / 11, a.rateInForce calls u = 10 / 11 := by
    rw [intervalIntegral.integral_congr_Ioo_of_le (by norm_num) hbefore,intervalIntegral.integral_const]
    norm_num
  have hcount : ((a.records calls).countP AdaptiveRecord.granted : ℝ) = 2 := by
    rw [hrecords]
    norm_num [List.countP_cons]
  change ((a.records calls).countP AdaptiveRecord.granted : ℝ) ≤
    1 / 2 * 2 + ∫ u in (0 : ℝ)..20 / 11, a.rateInForce calls u at hbound
  rw [hcount,hintegral] at hbound
  norm_num at hbound

end Integral
end AdaptiveRateLimiter
end DistributedSystems.RateLimiting
