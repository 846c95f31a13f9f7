import DistributedSystems.Protocol.Dict
import DistributedSystems.Protocol.FloatFormat
import DistributedSystems.Protocol.Observed
import DistributedSystems.Protocol.Windows

/-! # Sliding windows

The times of the accepted requests of a unit are kept until a later request of the unit finds
them outside its window. What is kept is enough to count every later window. Clock readings and the
window size are doubles, and the start of a window is their rounded difference.
-/

namespace DistributedSystems.RateLimiting
open Runs

structure SlidingWindowLimiter where
  windowSize : ℚ
  maxRequests : ℤ
  requests : Dict String (List ℚ)

namespace SlidingWindowLimiter
/-- The start of the window that ends at `now`. -/
def windowStart (windowSize now : ℚ) : ℚ := binary64.round (now - windowSize)

theorem windowStart_mono (windowSize : ℚ) : Monotone (windowStart windowSize) := fun _ _ h =>
  FloatFormat.round_mono (sub_le_sub_right h windowSize)

def init (windowSize : ℚ) (maxRequests : ℤ) : SlidingWindowLimiter := ⟨windowSize,maxRequests,Dict.empty⟩

def allowRequest (w : SlidingWindowLimiter) (unitId : String) (now : ℚ) : SlidingWindowLimiter × Bool :=
  let windowStart := windowStart w.windowSize now
  let requests := if unitId ∈ w.requests.keys then w.requests else w.requests.insert unitId []
  let recent := ((requests.get? unitId).getD []).filter fun ts => windowStart < ts
  let requests := requests.insert unitId recent
  if recent.length < w.maxRequests then ({ w with requests := requests.insert unitId (recent ++ [now]) },true)
  else ({ w with requests := requests },false)

def getRemaining (w : SlidingWindowLimiter) (unitId : String) (now : ℚ) : ℤ :=
  let windowStart := windowStart w.windowSize now
  match w.requests.get? unitId with
  | none => w.maxRequests
  | some times => max 0 (w.maxRequests - times.countP fun ts => windowStart < ts)

/-- The times kept for a unit. -/
def stored (w : SlidingWindowLimiter) (unitId : String) : List ℚ := (w.requests.get? unitId).getD []

/-- Everything a request can do: its unit keeps what is in the window, and the new time if there
is a free place. -/
theorem allowRequest_cases (w : SlidingWindowLimiter) (unitId : String) (now : ℚ) :
    let recent := (w.stored unitId).filter fun ts => windowStart w.windowSize now < ts
    let r := w.allowRequest unitId now
    (∀ other, other ≠ unitId → r.1.requests.get? other = w.requests.get? other) ∧
    r.1.windowSize = w.windowSize ∧ r.1.maxRequests = w.maxRequests ∧
    (recent.length < w.maxRequests ∧ r.2 = true ∧ r.1.requests.get? unitId = some (recent ++ [now]) ∨
      w.maxRequests ≤ recent.length ∧ r.2 = false ∧ r.1.requests.get? unitId = some recent) := by
  intro recent r
  have hcreated : ∀ other,
      ((if unitId ∈ w.requests.keys then w.requests else w.requests.insert unitId []).get? other).getD [] =
        w.stored other := by
    intro other
    split
    · rfl
    · rename_i hnew
      rw [Dict.get?_insert]
      split
      · rename_i heq
        rw [heq,stored,Dict.get?_of_notMem hnew]
        rfl
      · rfl
  have hother : ∀ other, other ≠ unitId →
      (if unitId ∈ w.requests.keys then w.requests else w.requests.insert unitId []).get? other =
        w.requests.get? other := by
    intro other hne
    split
    · rfl
    · rw [Dict.get?_insert,if_neg hne]
  have hr : r = w.allowRequest unitId now := rfl
  unfold allowRequest at hr
  dsimp only at hr
  rw [hcreated] at hr
  split at hr
  · rename_i hroom
    rw [hr]
    refine ⟨fun other hne => ?_,rfl,rfl,Or.inl ⟨hroom,rfl,?_⟩⟩
    · rw [Dict.get?_insert,if_neg hne,Dict.get?_insert,if_neg hne,hother other hne]
    · rw [Dict.get?_insert,if_pos rfl]
  · rename_i hfull
    rw [hr]
    refine ⟨fun other hne => ?_,rfl,rfl,Or.inr ⟨not_lt.mp hfull,rfl,?_⟩⟩
    · rw [Dict.get?_insert,if_neg hne,hother other hne]
    · rw [Dict.get?_insert,if_pos rfl]

/-- A unit that is not there has nothing in its window. -/
theorem getRemaining_eq (w : SlidingWindowLimiter) (hmax : 0 ≤ w.maxRequests) (unitId : String) (now : ℚ) :
    w.getRemaining unitId now =
      max 0 (w.maxRequests - (w.stored unitId).countP fun ts => windowStart w.windowSize now < ts) := by
  unfold getRemaining stored
  cases w.requests.get? unitId with
  | none => exact (max_eq_right (by simpa using hmax)).symm.trans (by simp)
  | some times => rfl

end SlidingWindowLimiter

inductive SlidingCall
  | allowRequest (unitId : String) (now : ℚ)
  | getRemaining (unitId : String) (now : ℚ)

namespace SlidingCall
def unitId : SlidingCall → String
  | allowRequest unitId _ => unitId
  | getRemaining unitId _ => unitId

def now : SlidingCall → ℚ
  | allowRequest _ now => now
  | getRemaining _ now => now

end SlidingCall

inductive SlidingAnswer
  | allowed (allowed : Bool)
  | remaining (remaining : ℤ)

structure SlidingRecord where
  call : SlidingCall
  answer : SlidingAnswer

/-- The time of the request if the unit's request is accepted. -/
def SlidingRecord.acceptedAt (unitId : String) : SlidingRecord → Option ℚ
  | ⟨.allowRequest unitId' now,.allowed true⟩ => if unitId' = unitId then some now else none
  | _ => none

namespace SlidingWindowLimiter
def step (w : SlidingWindowLimiter) : SlidingCall → SlidingWindowLimiter
  | .allowRequest unitId now => (w.allowRequest unitId now).1
  | .getRemaining _ _ => w

def record (w : SlidingWindowLimiter) (call : SlidingCall) : SlidingRecord :=
  ⟨call,match call with
    | .allowRequest unitId now => .allowed (w.allowRequest unitId now).2
    | .getRemaining unitId now => .remaining (w.getRemaining unitId now)⟩

def records (w : SlidingWindowLimiter) (calls : List (SlidingCall)) : List (SlidingRecord) :=
  observed step record w calls

/-- The times of a unit's accepted requests. -/
def accepted (unitId : String) (records : List (SlidingRecord)) : List ℚ :=
  records.filterMap (SlidingRecord.acceptedAt unitId)

/-- The clock that the calls read does not go back. -/
def Ordered (calls : List (SlidingCall)) : Prop := (calls.map SlidingCall.now).Pairwise (· ≤ ·)

/-- What the calls keep for a unit: of its accepted times all that a later window needs is stored. -/
structure Exact (windowSize : ℚ) (maxRequests : ℤ) (unitId : String) (w : SlidingWindowLimiter)
    (calls : List (SlidingCall)) (log : List (SlidingRecord)) : Prop where
  windowSize_eq : w.windowSize = windowSize
  maxRequests_eq : w.maxRequests = maxRequests
  accepted_le : ∀ now, (∀ call ∈ calls, call.now ≤ now) → ∀ ts ∈ accepted unitId log, ts ≤ now
  bounded : CountBounded (windowStart windowSize) maxRequests (accepted unitId log)
  filter_stored : ∀ now, (∀ call ∈ calls, call.now ≤ now) →
    ((w.stored unitId).filter fun ts => windowStart windowSize now < ts) =
      (accepted unitId log).filter fun ts => windowStart windowSize now < ts

variable {windowSize : ℚ} {maxRequests : ℤ} {unitId : String} {calls : List (SlidingCall)}
  {w : SlidingWindowLimiter} {log : List (SlidingRecord)} {call : SlidingCall} {now : ℚ}

theorem accepted_concat (unitId : String) (log : List (SlidingRecord)) (r : SlidingRecord) :
    accepted unitId (log ++ [r]) = accepted unitId log ++ (r.acceptedAt unitId).toList := by
  rw [accepted,List.filterMap_append]
  refine congrArg (accepted unitId log ++ ·) ?_
  cases h : r.acceptedAt unitId <;> simp [h]

theorem acceptedAt_record {other : String} {allowed : Bool} (h : (w.allowRequest other now).2 = allowed) :
    (w.record (.allowRequest other now)).acceptedAt unitId =
      if allowed = true ∧ other = unitId then some now else none := by
  unfold record
  dsimp only
  rw [h]
  cases allowed <;> simp [SlidingRecord.acceptedAt]

theorem filter_filter_of_le {size later : ℚ} (h : now ≤ later) (times : List ℚ) :
    ((times.filter fun ts => windowStart size now < ts).filter fun ts => windowStart size later < ts) =
      times.filter fun ts => windowStart size later < ts := by
  rw [List.filter_filter]
  refine List.filter_congr fun ts _ => ?_
  by_cases hts : windowStart size later < ts
  · simp [hts,(windowStart_mono size h).trans_lt hts]
  · simp [hts]

namespace Exact

/-- The window that a call of the unit sees. -/
theorem length_filter (h : w.Exact windowSize maxRequests unitId calls log) (now : ℚ)
    (hnow : ∀ call ∈ calls, call.now ≤ now) :
    ((w.stored unitId).filter fun ts => windowStart w.windowSize now < ts).length =
      countSince (windowStart windowSize) (accepted unitId log) now := by
  rw [h.windowSize_eq,h.filter_stored now hnow,countSince_eq_length_filter (h.accepted_le now hnow)]

/-- A call adds the same new time to what is stored and to the accepted times, or none. -/
theorem append (h : w.Exact windowSize maxRequests unitId calls log) (call : SlidingCall)
    (new : List ℚ) (hcall : ∀ call' ∈ calls, call'.now ≤ call.now) {w' : SlidingWindowLimiter} {r : SlidingRecord}
    (hsize : w'.windowSize = w.windowSize)
    (hmax : w'.maxRequests = w.maxRequests) (haccepted : (r.acceptedAt unitId).toList = new)
    (hnew : new = [] ∨ new = [call.now] ∧ countSince (windowStart windowSize) (accepted unitId log) call.now < maxRequests)
    (hstored : ∀ later, call.now ≤ later → ((w'.stored unitId).filter fun ts => windowStart windowSize later < ts) =
      (w.stored unitId ++ new).filter fun ts => windowStart windowSize later < ts) :
    w'.Exact windowSize maxRequests unitId (calls ++ [call]) (log ++ [r]) := by
  have hlog : accepted unitId (log ++ [r]) = accepted unitId log ++ new := by rw [accepted_concat,haccepted]
  have hearlier : ∀ {now : ℚ}, (∀ call' ∈ calls ++ [call], call'.now ≤ now) →
      (∀ call' ∈ calls, call'.now ≤ now) ∧ call.now ≤ now := fun hnow => by
    obtain ⟨hbefore,hlast⟩ := List.forall_mem_append.mp hnow
    exact ⟨hbefore,hlast call List.mem_cons_self⟩
  refine ⟨hsize.trans h.windowSize_eq,hmax.trans h.maxRequests_eq,fun now hnow ts hts => ?_,?_,fun now hnow => ?_⟩
  · rw [hlog] at hts
    rcases List.mem_append.mp hts with hts | hts
    · exact h.accepted_le now (hearlier hnow).1 ts hts
    · rcases hnew with rfl | ⟨rfl,-⟩
      · cases hts
      · exact (List.mem_singleton.mp hts).trans_le (hearlier hnow).2
  · rw [hlog]
    rcases hnew with rfl | ⟨rfl,hfree⟩
    · rw [List.append_nil]
      exact h.bounded
    · exact h.bounded.concat (windowStart_mono windowSize) (h.accepted_le call.now hcall) hfree
  · rw [hlog,hstored now (hearlier hnow).2,List.filter_append,List.filter_append,h.filter_stored now (hearlier hnow).1]

/-- A request of the unit, with the two outcomes that it can have. -/
theorem step_allowRequest (h : w.Exact windowSize maxRequests unitId calls log)
    (hnow : ∀ call ∈ calls, call.now ≤ now) :
    (w.step (.allowRequest unitId now)).Exact windowSize maxRequests unitId (calls ++ [.allowRequest unitId now])
      (log ++ [w.record (.allowRequest unitId now)]) := by
  obtain ⟨-,hsize,hmax,⟨hroom,hallowed,hget⟩ | ⟨-,hrejected,hget⟩⟩ := w.allowRequest_cases unitId now
  · rw [h.length_filter now hnow,h.maxRequests_eq] at hroom
    refine h.append (.allowRequest unitId now) [now] hnow hsize hmax ?_ (Or.inr ⟨rfl,hroom⟩)
      fun later hlater => ?_
    · rw [acceptedAt_record hallowed,if_pos ⟨rfl,rfl⟩]
      rfl
    · replace hlater : now ≤ later := hlater
      change (((w.allowRequest unitId now).1.requests.get? unitId).getD []).filter _ = _
      rw [hget,Option.getD_some,List.filter_append,List.filter_append,h.windowSize_eq,filter_filter_of_le hlater]
  · refine h.append (.allowRequest unitId now) [] hnow hsize hmax ?_ (Or.inl rfl) fun later hlater => ?_
    · rw [acceptedAt_record hrejected,if_neg fun hallowed => absurd hallowed.1 (by decide)]
      rfl
    · replace hlater : now ≤ later := hlater
      change (((w.allowRequest unitId now).1.requests.get? unitId).getD []).filter _ = _
      rw [hget,Option.getD_some,List.append_nil,h.windowSize_eq,filter_filter_of_le hlater]

theorem step (h : w.Exact windowSize maxRequests unitId calls log)
    (hcall : ∀ call' ∈ calls, call'.now ≤ call.now) :
    (w.step call).Exact windowSize maxRequests unitId (calls ++ [call]) (log ++ [w.record call]) := by
  cases call with
  | getRemaining other now =>
    refine h.append (.getRemaining other now) [] hcall rfl rfl rfl (Or.inl rfl) fun later _ => ?_
    rw [List.append_nil]
    rfl
  | allowRequest other now =>
    by_cases hunit : other = unitId
    · subst other
      exact h.step_allowRequest hcall
    · obtain ⟨hother,hsize,hmax,-⟩ := w.allowRequest_cases other now
      refine h.append (.allowRequest other now) [] hcall hsize hmax ?_ (Or.inl rfl) fun later _ => ?_
      · rw [acceptedAt_record rfl,if_neg fun hallowed => hunit hallowed.2]
        rfl
      · change (((w.allowRequest other now).1.requests.get? unitId).getD []).filter _ = _
        rw [hother unitId (Ne.symm hunit),List.append_nil]
        rfl

end Exact

theorem Ordered.le_last (h : Ordered (calls ++ [call])) : ∀ call' ∈ calls, call'.now ≤ call.now :=
  (pairwise_map_concat h).2

theorem Ordered.before (h : Ordered (calls ++ [call])) : Ordered calls := (pairwise_map_concat h).1

theorem exact_run (windowSize : ℚ) (hmax : 0 ≤ maxRequests) (unitId : String)
    {calls : List (SlidingCall)} (hordered : Ordered calls) :
    (run SlidingWindowLimiter.step (init windowSize maxRequests) calls).Exact windowSize maxRequests unitId calls
      ((init windowSize maxRequests).records calls) := by
  refine observed_induction (J := fun calls w log => Ordered calls → Exact windowSize maxRequests unitId w calls log)
    (init windowSize maxRequests) (fun _ => ?_) (fun calls call ih hordered => ?_) calls hordered
  · exact ⟨rfl,rfl,fun _ _ ts hts => absurd hts List.not_mem_nil,countBounded_nil hmax,fun _ _ => rfl⟩
  · exact (ih hordered.before).step hordered.le_last

/-- Two limiters that a unit cannot tell apart. -/
def SameFor (unitId : String) (w w' : SlidingWindowLimiter) : Prop :=
  w.windowSize = w'.windowSize ∧ w.maxRequests = w'.maxRequests ∧ w.requests.get? unitId = w'.requests.get? unitId

theorem SameFor.allowRequest {w' : SlidingWindowLimiter} (h : SameFor unitId w w') (now : ℚ) :
    (w.allowRequest unitId now).2 = (w'.allowRequest unitId now).2 ∧
      SameFor unitId (w.allowRequest unitId now).1 (w'.allowRequest unitId now).1 := by
  obtain ⟨hsize,hmax,hget⟩ := h
  have hstored : w.stored unitId = w'.stored unitId := congrArg (Option.getD · []) hget
  obtain ⟨-,hsize₁,hmax₁,hcases⟩ := w.allowRequest_cases unitId now
  obtain ⟨-,hsize₂,hmax₂,hcases'⟩ := w'.allowRequest_cases unitId now
  rw [hsize,hmax,hstored] at hcases
  have hsame : SameFor unitId (w.allowRequest unitId now).1 (w'.allowRequest unitId now).1 ↔
      (w.allowRequest unitId now).1.requests.get? unitId = (w'.allowRequest unitId now).1.requests.get? unitId :=
    ⟨fun h => h.2.2,fun h => ⟨by rw [hsize₁,hsize₂,hsize],by rw [hmax₁,hmax₂,hmax],h⟩⟩
  rw [hsame]
  rcases hcases with ⟨hroom,hallowed,hnew⟩ | ⟨hfull,hrejected,hkept⟩
  · rcases hcases' with ⟨-,hallowed',hnew'⟩ | ⟨hfull,-,-⟩
    · exact ⟨hallowed.trans hallowed'.symm,hnew.trans hnew'.symm⟩
    · exact absurd hroom (not_lt.mpr hfull)
  · rcases hcases' with ⟨hroom,-,-⟩ | ⟨-,hrejected',hkept'⟩
    · exact absurd hroom (not_lt.mpr hfull)
    · exact ⟨hrejected.trans hrejected'.symm,hkept.trans hkept'.symm⟩

theorem SameFor.getRemaining {w' : SlidingWindowLimiter} (h : SameFor unitId w w') (now : ℚ) :
    w.getRemaining unitId now = w'.getRemaining unitId now := by
  unfold SlidingWindowLimiter.getRemaining
  rw [h.1,h.2.1,h.2.2]

/-- Calls of other units leave what a unit can see. -/
theorem filter_records (unitId : String) (w : SlidingWindowLimiter) (calls : List (SlidingCall)) :
    ((w.records calls).filter fun r => r.call.unitId = unitId) =
      w.records (calls.filter fun call => call.unitId = unitId) := by
  change (observed step record w calls).filter _ = observed step record w (calls.filter _)
  refine filter_observed (p := fun call : SlidingCall => decide (call.unitId = unitId))
    (q := fun r : SlidingRecord => decide (r.call.unitId = unitId)) (R := SameFor unitId) (fun _ _ => rfl)
    (fun w w' call hR hunit => ?_) (fun w w' call hR hunit => ?_) ⟨rfl,rfl,rfl⟩ calls
  · obtain rfl := of_decide_eq_true hunit
    cases call with
    | allowRequest unitId now =>
      have hcall := hR.allowRequest now
      exact ⟨congrArg (fun allowed => SlidingRecord.mk (.allowRequest unitId now) (.allowed allowed)) hcall.1,hcall.2⟩
    | getRemaining unitId now =>
      exact ⟨congrArg (fun remaining => SlidingRecord.mk (.getRemaining unitId now) (.remaining remaining))
        (hR.getRemaining now),hR⟩
  · cases call with
    | allowRequest other now =>
      obtain ⟨hother,hsize,hmax,-⟩ := w.allowRequest_cases other now
      exact ⟨hsize.trans hR.1,hmax.trans hR.2.1,(hother unitId (Ne.symm (of_decide_eq_false hunit))).trans hR.2.2⟩
    | getRemaining other now => exact hR

/-- The accepted requests of a unit stay within the limit in every window with a rounded start, and
the next call is answered by what the window that it sees has of them, whatever other units do. -/
theorem sliding_window_exact (windowSize : ℚ) (maxRequests : ℤ) (hmax : 0 ≤ maxRequests)
    (unitId : String) :
    let w := init windowSize maxRequests
    (∀ calls, Ordered calls → ∀ t,
      (countSince (windowStart windowSize) (accepted unitId (w.records calls)) t : ℤ) ≤ maxRequests) ∧
    (∀ calls now, Ordered (calls ++ [.allowRequest unitId now]) →
      ((run step w calls).allowRequest unitId now).2 = false →
      (countSince (windowStart windowSize) (accepted unitId (w.records calls)) now : ℤ) = maxRequests) ∧
    (∀ calls now, Ordered (calls ++ [.getRemaining unitId now]) → (run step w calls).getRemaining unitId now =
      maxRequests - countSince (windowStart windowSize) (accepted unitId (w.records calls)) now) ∧
    ∀ calls, ((w.records calls).filter fun r => r.call.unitId = unitId) =
      w.records (calls.filter fun call => call.unitId = unitId) := by
  intro w
  refine ⟨fun calls hordered => (exact_run windowSize hmax unitId hordered).bounded,
    fun calls now hordered hrejected => ?_,fun calls now hordered => ?_,filter_records unitId w⟩
  · have h := exact_run windowSize hmax unitId hordered.before
    obtain ⟨-,-,-,⟨-,hallowed,-⟩ | ⟨hfull,-,-⟩⟩ := (run step w calls).allowRequest_cases unitId now
    · exact absurd (hallowed.symm.trans hrejected) (by decide)
    · have hcount := h.length_filter now hordered.le_last
      rw [hcount,h.maxRequests_eq] at hfull
      exact le_antisymm (h.bounded now) hfull
  · have h := exact_run windowSize hmax unitId hordered.before
    have hmax' : 0 ≤ (run step w calls).maxRequests := h.maxRequests_eq ▸ hmax
    have hbounded := h.bounded now
    have hcount := h.length_filter now hordered.le_last
    rw [getRemaining_eq _ hmax',List.countP_eq_length_filter,hcount,h.maxRequests_eq]
    exact max_eq_right (by omega)

/-- A request of one unit is rejected, and one of its two requests is out of the window ten
seconds after. -/
theorem sliding_window_exact_two_units :
    let w := init 10 2
    let calls : List SlidingCall := [.allowRequest "a" 0,.allowRequest "b" 1,.allowRequest "a" 2]
    countSince (windowStart 10) (accepted "a" (w.records calls)) 5 = 2 ∧ (run step w calls).getRemaining "a" 11 = 1 := by
  intro w calls
  obtain ⟨-,hrejected,hremaining,-⟩ := sliding_window_exact 10 2 (by decide) "a"
  have hcount : countSince (windowStart 10) (accepted "a" (w.records calls)) 11 = 1 := by decide +kernel
  refine ⟨?_,?_⟩
  · exact_mod_cast hrejected calls 5 (by unfold Ordered; decide +kernel) (by decide +kernel)
  · rw [hremaining calls 11 (by unfold Ordered; decide +kernel),hcount]
    rfl

/-- A window of 0.1 seconds has two accepted requests at 0.6, for the double nearest to 0.1 and
the one nearest to 0.6 have a difference below 0.5 that is rounded to 0.5. -/
theorem two_requests_in_window_of_one :
    let size := binary64.round (1 / 10)
    let calls : List SlidingCall := [.allowRequest "a" (1 / 2),.allowRequest "a" (binary64.round (6 / 10))]
    Ordered calls ∧ windowCount size (accepted "a" ((init size 1).records calls)) (binary64.round (6 / 10)) = 2 := by
  unfold Ordered
  decide +kernel

end SlidingWindowLimiter
end DistributedSystems.RateLimiting
