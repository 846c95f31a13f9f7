import DistributedSystems.Protocol.Dict
import DistributedSystems.Protocol.ErrorFunction
import DistributedSystems.Protocol.Runs
import Mathlib.Analysis.SpecialFunctions.Log.Base
import Mathlib.Data.List.DropRight

/-! # The phi accrual failure detector

Heartbeats leave the gaps between them, of which a bounded queue keeps the last ones. The
suspicion of a node is the tail of a normal distribution fitted to its gaps, on a logarithmic
scale that a floor of the tail ends at 12.
-/
namespace DistributedSystems.Gossip
open Runs

structure PhiAccrualFailureDetector (T : Type) where
  threshold : T
  windowSize : ℕ
  minStdDev : T
  arrivalIntervals : Dict String (List T)
  lastArrivalTimes : Dict String T

inductive DetectorCall (T : Type)
  | reportHeartbeat (now : T) (nodeId : String)
  | removeNode (nodeId : String)

/-- The node that a call is about. -/
def DetectorCall.nodeId {T : Type} : DetectorCall T → String
  | .reportHeartbeat _ nodeId => nodeId
  | .removeNode nodeId => nodeId

namespace PhiAccrualFailureDetector
variable {T : Type}

def init (threshold : T) (windowSize : ℕ) (minStdDev : T) : PhiAccrualFailureDetector T :=
  ⟨threshold,windowSize,minStdDev,Dict.empty,Dict.empty⟩

/-- Appending to a queue of at most `maxlen` items drops items at its front. -/
def pushBounded (maxlen : ℕ) (items : List T) (item : T) : List T := (items ++ [item]).rtake maxlen

def reportHeartbeat [Sub T] (d : PhiAccrualFailureDetector T) (now : T) (nodeId : String) :
    PhiAccrualFailureDetector T :=
  match d.lastArrivalTimes.get? nodeId with
  | none => { d with lastArrivalTimes := d.lastArrivalTimes.insert nodeId now }
  | some last =>
    let intervals := (d.arrivalIntervals.get? nodeId).getD []
    { d with
      arrivalIntervals := d.arrivalIntervals.insert nodeId (pushBounded d.windowSize intervals (now - last))
      lastArrivalTimes := d.lastArrivalTimes.insert nodeId now }

def removeNode (d : PhiAccrualFailureDetector T) (nodeId : String) : PhiAccrualFailureDetector T :=
  { d with
    arrivalIntervals := d.arrivalIntervals.erase nodeId
    lastArrivalTimes := d.lastArrivalTimes.erase nodeId }

def step [Sub T] (d : PhiAccrualFailureDetector T) : DetectorCall T → PhiAccrualFailureDetector T
  | .reportHeartbeat now nodeId => d.reportHeartbeat now nodeId
  | .removeNode nodeId => d.removeNode nodeId

/-- `statistics.mean`. -/
noncomputable def mean (xs : List ℝ) : ℝ := xs.sum / xs.length

/-- `statistics.stdev`, of a sample. -/
noncomputable def stdev (xs : List ℝ) : ℝ := √((xs.map fun x => (x - mean xs) ^ 2).sum / (xs.length - 1))

noncomputable def cdf (x : ℝ) : ℝ := 0.5 * (1 + erf (x / √2.0))

noncomputable def calculatePhi (timeSinceLast mean stdDev : ℝ) : ℝ :=
  let y := (timeSinceLast - mean) / stdDev
  let p := cdf y
  let pLater := 1 - p
  let pLater := if pLater < 1e-12 then 1e-12 else pLater;
  -Real.logb 10.0 pLater

noncomputable def getPhi (d : PhiAccrualFailureDetector ℝ) (now : ℝ) (nodeId : String) : ℝ :=
  match d.lastArrivalTimes.get? nodeId with
  | none => 0
  | some last =>
    match d.arrivalIntervals.get? nodeId with
    | none => 0
    | some intervals =>
      if intervals.length < 2 then 0
      else calculatePhi (now - last) (mean intervals) (max (stdev intervals) d.minStdDev)

def IsAvailable (d : PhiAccrualFailureDetector ℝ) (now : ℝ) (nodeId : String) : Prop := d.getPhi now nodeId < d.threshold

/-- The gaps between consecutive times. -/
def gaps [Sub T] : List T → List T
  | a :: b :: rest => (b - a) :: gaps (b :: rest)
  | _ => []

/-- The arrivals of a node since it was removed last, after one more call. -/
def arrive (nodeId : String) (arrivals : List T) (call : DetectorCall T) : List T :=
  if call.nodeId = nodeId then
    match call with
    | .reportHeartbeat now _ => arrivals ++ [now]
    | .removeNode _ => []
  else arrivals

def arrivalsOf (nodeId : String) (calls : List (DetectorCall T)) : List T := calls.foldl (arrive nodeId) []

theorem gaps_concat [Sub T] (xs : List T) (a b : T) : gaps (xs ++ [a] ++ [b]) = gaps (xs ++ [a]) ++ [b - a] := by
  induction xs with
  | nil => rfl
  | cons x xs ih =>
    cases xs with
    | nil => rfl
    | cons y xs => exact congrArg ((y - x) :: ·) ih

theorem length_gaps [Sub T] (xs : List T) : (gaps xs).length = xs.length - 1 := by
  induction xs with
  | nil => rfl
  | cons x xs ih =>
    cases xs with
    | nil => rfl
    | cons y xs =>
      simp only [gaps,List.length_cons] at ih ⊢
      omega

theorem length_rtake (n : ℕ) (xs : List T) : (xs.rtake n).length = min n xs.length := by
  simp [List.rtake_eq_reverse_take_reverse]

/-- A bounded queue holds the last items pushed. -/
theorem pushBounded_rtake (n : ℕ) (xs : List T) (x : T) : pushBounded n (xs.rtake n) x = (xs ++ [x]).rtake n := by
  unfold pushBounded
  cases n with
  | zero => rw [List.rtake_zero,List.rtake_zero]
  | succ n =>
    have hrtake : (xs.rtake (n + 1)).rtake n = xs.rtake n := by
      simp [List.rtake_eq_reverse_take_reverse,List.take_take]
    rw [List.rtake_concat_succ,List.rtake_concat_succ,hrtake]

/-- The entries of a node say when it was heard last and which gaps are kept. -/
structure Recorded [Sub T] (d : PhiAccrualFailureDetector T) (nodeId : String) (arrivals : List T) : Prop where
  last : d.lastArrivalTimes.get? nodeId = arrivals.getLast?
  intervals : d.arrivalIntervals.get? nodeId =
    if arrivals.length < 2 then none else some ((gaps arrivals).rtake d.windowSize)

section Steps
variable [Sub T] {d : PhiAccrualFailureDetector T} {nodeId : String} {arrivals : List T}

theorem reportHeartbeat_of_none {now : T} (h : d.lastArrivalTimes.get? nodeId = none) :
    d.reportHeartbeat now nodeId = { d with lastArrivalTimes := d.lastArrivalTimes.insert nodeId now } := by
  simp only [reportHeartbeat,h]

theorem reportHeartbeat_of_some {now last : T} (h : d.lastArrivalTimes.get? nodeId = some last) :
    d.reportHeartbeat now nodeId =
      { d with
        arrivalIntervals := d.arrivalIntervals.insert nodeId
          (pushBounded d.windowSize ((d.arrivalIntervals.get? nodeId).getD []) (now - last))
        lastArrivalTimes := d.lastArrivalTimes.insert nodeId now } := by
  simp only [reportHeartbeat,h]

/-- The three settings stay as they are. -/
theorem step_settings (d : PhiAccrualFailureDetector T) (call : DetectorCall T) :
    (d.step call).threshold = d.threshold ∧ (d.step call).windowSize = d.windowSize ∧
      (d.step call).minStdDev = d.minStdDev := by
  cases call with
  | reportHeartbeat now nodeId =>
    change (d.reportHeartbeat now nodeId).threshold = _ ∧ _
    cases h : d.lastArrivalTimes.get? nodeId with
    | none => simp [step,reportHeartbeat_of_none h]
    | some last => simp [step,reportHeartbeat_of_some h]
  | removeNode nodeId => exact ⟨rfl,rfl,rfl⟩

/-- Calls about other nodes leave the entries of a node alone. -/
theorem step_of_ne (d : PhiAccrualFailureDetector T) {call : DetectorCall T} (h : call.nodeId ≠ nodeId) :
    (d.step call).lastArrivalTimes.get? nodeId = d.lastArrivalTimes.get? nodeId ∧
      (d.step call).arrivalIntervals.get? nodeId = d.arrivalIntervals.get? nodeId := by
  cases call with
  | reportHeartbeat now other =>
    have hne : nodeId ≠ other := Ne.symm h
    unfold step
    cases hlast : d.lastArrivalTimes.get? other with
    | none => simp [reportHeartbeat_of_none hlast,Dict.get?_insert,hne]
    | some last => simp [reportHeartbeat_of_some hlast,Dict.get?_insert,hne]
  | removeNode other =>
    have hne : nodeId ≠ other := Ne.symm h
    simp [step,removeNode,Dict.get?_erase,hne]

theorem recorded_init (threshold : T) (windowSize : ℕ) (minStdDev : T) (nodeId : String) :
    (init threshold windowSize minStdDev).Recorded nodeId [] := ⟨rfl,rfl⟩

theorem Recorded.heartbeat (h : d.Recorded nodeId arrivals) (now : T) :
    (d.reportHeartbeat now nodeId).Recorded nodeId (arrivals ++ [now]) := by
  rcases List.eq_nil_or_concat' arrivals with rfl | ⟨before,last,rfl⟩
  · rw [reportHeartbeat_of_none h.last]
    exact ⟨by simp [Dict.get?_insert],h.intervals⟩
  · have hlast : d.lastArrivalTimes.get? nodeId = some last := by simpa using h.last
    have hitems : (d.arrivalIntervals.get? nodeId).getD [] = (gaps (before ++ [last])).rtake d.windowSize := by
      rw [h.intervals]
      cases before with
      | nil => simp [gaps]
      | cons x rest => simp
    rw [reportHeartbeat_of_some hlast]
    constructor
    · simp [Dict.get?_insert]
    · have hlen : ¬(before ++ [last] ++ [now]).length < 2 := by simp
      rw [if_neg hlen,Dict.get?_insert,if_pos rfl,hitems,pushBounded_rtake,gaps_concat]

theorem Recorded.step (h : d.Recorded nodeId arrivals) (call : DetectorCall T) :
    (d.step call).Recorded nodeId (arrive nodeId arrivals call) := by
  by_cases hnode : call.nodeId = nodeId
  · unfold arrive
    rw [if_pos hnode]
    subst hnode
    cases call with
    | reportHeartbeat now nodeId => exact h.heartbeat now
    | removeNode nodeId => constructor <;> simp [PhiAccrualFailureDetector.step,removeNode,Dict.get?_erase,DetectorCall.nodeId]
  · unfold arrive
    rw [if_neg hnode]
    obtain ⟨hlast,hintervals⟩ := d.step_of_ne hnode
    exact ⟨hlast.trans h.last,by rw [hintervals,h.intervals,(d.step_settings call).2.1]⟩

/-- A detector has recorded what it was told. -/
theorem recorded_run (threshold : T) (windowSize : ℕ) (minStdDev : T) (calls : List (DetectorCall T)) (nodeId : String) :
    (run step (init threshold windowSize minStdDev) calls).Recorded nodeId (arrivalsOf nodeId calls) := by
  have hrun : ∀ d xs, Recorded d nodeId xs → (run step d calls).Recorded nodeId (calls.foldl (arrive nodeId) xs) := by
    induction calls with
    | nil => exact fun _ _ h => h
    | cons call rest ih => exact fun d xs h => ih _ _ (h.step call)
  exact hrun _ _ (recorded_init threshold windowSize minStdDev nodeId)

end Steps

section Phi
open Filter

theorem cdf_monotone : Monotone cdf := by
  intro x y hxy
  have herf := erf_monotone (div_le_div_of_nonneg_right hxy (Real.sqrt_nonneg 2.0))
  unfold cdf
  linarith

theorem tendsto_cdf : Tendsto cdf atTop (nhds 1) := by
  have harg := tendsto_id.atTop_div_const (Real.sqrt_pos.mpr (by norm_num : (0 : ℝ) < 2.0))
  have hlim := ((tendsto_erf.comp harg).const_add 1).const_mul 0.5
  have hone : (0.5 : ℝ) * (1 + 1) = 1 := by norm_num
  rwa [hone] at hlim

/-- The tail of the distribution, with its floor. -/
theorem calculatePhi_eq (timeSinceLast mean stdDev : ℝ) : calculatePhi timeSinceLast mean stdDev =
    -Real.logb 10.0 (max (1 - cdf ((timeSinceLast - mean) / stdDev)) 1e-12) := by
  unfold calculatePhi
  dsimp only
  split_ifs with h
  · rw [max_eq_right h.le]
  · rw [max_eq_left (not_lt.mp h)]

theorem neg_logb_floor : -Real.logb 10.0 1e-12 = 12 := by
  have hpow : (1e-12 : ℝ) = (10.0 ^ 12)⁻¹ := by norm_num
  rw [hpow,Real.logb_inv,neg_neg,Real.logb_pow,Real.logb_self_eq_one (by norm_num)]
  norm_num

theorem calculatePhi_le (timeSinceLast mean stdDev : ℝ) : calculatePhi timeSinceLast mean stdDev ≤ 12 := by
  rw [calculatePhi_eq,← neg_logb_floor]
  exact neg_le_neg (Real.logb_le_logb_of_le (by norm_num) (by norm_num) (le_max_right _ _))

/-- Suspicion grows with the time since the last heartbeat. -/
theorem calculatePhi_monotone {mean stdDev : ℝ} (h : 0 < stdDev) :
    Monotone fun timeSinceLast => calculatePhi timeSinceLast mean stdDev := by
  intro t t' ht
  have hcdf := cdf_monotone (div_le_div_of_nonneg_right (sub_le_sub_right ht mean) h.le)
  have hpos : (0 : ℝ) < max (1 - cdf ((t' - mean) / stdDev)) 1e-12 := lt_max_of_lt_right (by norm_num)
  dsimp only
  rw [calculatePhi_eq,calculatePhi_eq]
  exact neg_le_neg (Real.logb_le_logb_of_le (by norm_num) hpos (max_le_max_right _ (by linarith)))

/-- After a while without a heartbeat the suspicion has reached its end of the scale. -/
theorem eventually_calculatePhi_eq (mean last : ℝ) {stdDev : ℝ} (h : 0 < stdDev) :
    ∀ᶠ now in atTop, calculatePhi (now - last) mean stdDev = 12 := by
  have harg : Tendsto (fun now : ℝ => (now - last - mean) / stdDev) atTop atTop :=
    (tendsto_atTop_add_const_right _ _ (tendsto_atTop_add_const_right _ _ tendsto_id)).atTop_div_const h
  have htail : ∀ᶠ y in nhds (1 : ℝ), 1 - 1e-12 < y := lt_mem_nhds (by norm_num)
  filter_upwards [(tendsto_cdf.comp harg).eventually htail] with now hnow
  rw [calculatePhi_eq,max_eq_right,neg_logb_floor]
  dsimp only [Function.comp] at hnow
  linarith

variable {d : PhiAccrualFailureDetector ℝ} {nodeId : String}

/-- Without two gaps there is no suspicion. -/
theorem getPhi_of_short {arrivals : List ℝ} (h : d.Recorded nodeId arrivals)
    (hshort : arrivals.length < 3 ∨ d.windowSize < 2) (now : ℝ) : d.getPhi now nodeId = 0 := by
  unfold getPhi
  split
  · rfl
  split
  · rfl
  rename_i intervals hintervals
  rw [h.intervals] at hintervals
  split at hintervals
  · cases hintervals
  rename_i hlen
  have hkept : intervals.length < 2 := by
    rw [← Option.some.inj hintervals,length_rtake,length_gaps]
    omega
  rw [if_pos hkept]

/-- With two gaps the detector has a distribution to go by. -/
theorem getPhi_of_gaps {arrivals : List ℝ} (h : d.Recorded nodeId arrivals) (hlen : 3 ≤ arrivals.length)
    (hwindow : 2 ≤ d.windowSize) : ∃ last mean stdDev, d.minStdDev ≤ stdDev ∧
      ∀ now, d.getPhi now nodeId = calculatePhi (now - last) mean stdDev := by
  have hne : arrivals ≠ [] := by
    rintro rfl
    exact absurd hlen (by decide)
  set intervals := (gaps arrivals).rtake d.windowSize with hkept
  have hintervals : d.arrivalIntervals.get? nodeId = some intervals := by
    rw [h.intervals,if_neg (by omega)]
  have htwo : ¬intervals.length < 2 := by
    rw [hkept,length_rtake,length_gaps]
    omega
  refine ⟨arrivals.getLast hne,mean intervals,max (stdev intervals) d.minStdDev,le_max_right _ _,fun now => ?_⟩
  unfold getPhi
  rw [h.last,List.getLast?_eq_some_getLast hne,hintervals]
  exact if_neg htwo

/-- What an answer depends on. -/
theorem getPhi_congr {d' : PhiAccrualFailureDetector ℝ}
    (hlast : d'.lastArrivalTimes.get? nodeId = d.lastArrivalTimes.get? nodeId)
    (hintervals : d'.arrivalIntervals.get? nodeId = d.arrivalIntervals.get? nodeId) (hmin : d'.minStdDev = d.minStdDev)
    (now : ℝ) : d'.getPhi now nodeId = d.getPhi now nodeId := by
  unfold getPhi
  rw [hlast,hintervals,hmin]

/-- What a detector makes of the arrivals of a node: the kept gaps are the last ones, too few of
them raise no suspicion, a silent node is suspected in the end unless the threshold is above
the scale, and a suspicion lasts until the node is heard again or removed. -/
structure Accrual (d : PhiAccrualFailureDetector ℝ) (nodeId : String) (arrivals : List ℝ) : Prop where
  kept : d.arrivalIntervals.get? nodeId =
    if arrivals.length < 2 then none else some ((gaps arrivals).rtake d.windowSize)
  bounded : ∀ now, d.getPhi now nodeId ≤ 12
  learning : arrivals.length < 3 ∨ d.windowSize < 2 → ∀ now, (d.IsAvailable now nodeId ↔ 0 < d.threshold)
  complete : 3 ≤ arrivals.length → 2 ≤ d.windowSize → d.threshold ≤ 12 →
    ∃ t, ∀ now, t ≤ now → ¬d.IsAvailable now nodeId
  blind : 12 < d.threshold → ∀ now, d.IsAvailable now nodeId
  lasting : ∀ rest, (∀ call ∈ rest, call.nodeId ≠ nodeId) → ∀ now later, now ≤ later →
    ¬d.IsAvailable now nodeId → ¬(run step d rest).IsAvailable later nodeId

theorem getPhi_monotone (hmin : 0 < d.minStdDev) {arrivals : List ℝ} (h : d.Recorded nodeId arrivals) :
    Monotone fun now => d.getPhi now nodeId := by
  by_cases hgaps : 3 ≤ arrivals.length ∧ 2 ≤ d.windowSize
  · obtain ⟨last,mean,stdDev,hle,hphi⟩ := getPhi_of_gaps h hgaps.1 hgaps.2
    intro now later hnow
    dsimp only
    rw [hphi,hphi]
    exact calculatePhi_monotone (hmin.trans_le hle) (sub_le_sub_right hnow last)
  · have hshort : arrivals.length < 3 ∨ d.windowSize < 2 := by omega
    intro now later _
    dsimp only
    rw [getPhi_of_short h hshort,getPhi_of_short h hshort]

theorem getPhi_le {arrivals : List ℝ} (h : d.Recorded nodeId arrivals) (now : ℝ) : d.getPhi now nodeId ≤ 12 := by
  by_cases hgaps : 3 ≤ arrivals.length ∧ 2 ≤ d.windowSize
  · obtain ⟨last,mean,stdDev,-,hphi⟩ := getPhi_of_gaps h hgaps.1 hgaps.2
    rw [hphi]
    exact calculatePhi_le ..
  · rw [getPhi_of_short h (by omega)]
    norm_num

/-- Calls about other nodes change no answer about a node. -/
theorem getPhi_run_of_ne (d : PhiAccrualFailureDetector ℝ) {rest : List (DetectorCall ℝ)}
    (h : ∀ call ∈ rest, call.nodeId ≠ nodeId) (now : ℝ) :
    (run step d rest).getPhi now nodeId = d.getPhi now nodeId ∧ (run step d rest).threshold = d.threshold := by
  induction rest generalizing d with
  | nil => exact ⟨rfl,rfl⟩
  | cons call rest ih =>
    obtain ⟨hlast,hintervals⟩ := d.step_of_ne (h call List.mem_cons_self)
    obtain ⟨hthreshold,-,hmin⟩ := d.step_settings call
    obtain ⟨hphi,hrest⟩ := ih (d.step call) fun c hc => h c (List.mem_cons_of_mem _ hc)
    exact ⟨hphi.trans (getPhi_congr hlast hintervals hmin now),hrest.trans hthreshold⟩

theorem Recorded.accrual {arrivals : List ℝ} (h : d.Recorded nodeId arrivals) (hmin : 0 < d.minStdDev) :
    d.Accrual nodeId arrivals where
  kept := h.intervals
  bounded := getPhi_le h
  learning hshort now := by
    unfold IsAvailable
    rw [getPhi_of_short h hshort]
  complete hlen hwindow hthreshold := by
    obtain ⟨last,mean,stdDev,hle,hphi⟩ := getPhi_of_gaps h hlen hwindow
    obtain ⟨t,ht⟩ := eventually_atTop.mp (eventually_calculatePhi_eq mean last (hmin.trans_le hle))
    refine ⟨t,fun now hnow => ?_⟩
    unfold IsAvailable
    rw [hphi,ht now hnow]
    exact not_lt.mpr hthreshold
  blind hthreshold now := (getPhi_le h now).trans_lt hthreshold
  lasting rest hrest now later hle hsuspected := by
    obtain ⟨hphi,hthreshold⟩ := d.getPhi_run_of_ne hrest later
    unfold IsAvailable at hsuspected ⊢
    rw [hphi,hthreshold]
    exact not_lt.mpr ((not_lt.mp hsuspected).trans (getPhi_monotone hmin h hle))

theorem settings_run (d : PhiAccrualFailureDetector ℝ) (calls : List (DetectorCall ℝ)) :
    (run step d calls).threshold = d.threshold ∧ (run step d calls).windowSize = d.windowSize ∧
      (run step d calls).minStdDev = d.minStdDev := by
  induction calls generalizing d with
  | nil => exact ⟨rfl,rfl,rfl⟩
  | cons call rest ih =>
    obtain ⟨hthreshold,hwindow,hmin⟩ := d.step_settings call
    obtain ⟨hthreshold',hwindow',hmin'⟩ := ih (d.step call)
    exact ⟨hthreshold'.trans hthreshold,hwindow'.trans hwindow,hmin'.trans hmin⟩

/-- After any heartbeats and removals, of any nodes and at any clock readings. -/
theorem phi_accrual (threshold : ℝ) (windowSize : ℕ) {minStdDev : ℝ} (hmin : 0 < minStdDev)
    (calls : List (DetectorCall ℝ)) (nodeId : String) :
    (run step (init threshold windowSize minStdDev) calls).Accrual nodeId (arrivalsOf nodeId calls) := by
  refine (recorded_run threshold windowSize minStdDev calls nodeId).accrual ?_
  rw [(settings_run _ calls).2.2]
  exact hmin

/-- Three heartbeats of one node, with the defaults of the constructor. -/
theorem phi_accrual_three_heartbeats :
    ∃ t, ∀ now, t ≤ now → ¬(run step (init 8 1000 0.1)
      [.reportHeartbeat 0 "a",.reportHeartbeat 1 "a",.reportHeartbeat 2 "a"]).IsAvailable now "a" := by
  refine (phi_accrual 8 1000 (by norm_num) _ "a").complete ?_ ?_ ?_
  · simp [arrivalsOf,arrive,DetectorCall.nodeId]
  · rw [(settings_run _ _).2.1]
    decide
  · rw [(settings_run _ _).1]
    norm_num [init]

end Phi

end PhiAccrualFailureDetector

end DistributedSystems.Gossip
