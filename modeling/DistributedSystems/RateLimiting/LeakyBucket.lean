import DistributedSystems.Protocol.Accounts
import DistributedSystems.Protocol.Observed
import DistributedSystems.Protocol.Windows
import Mathlib.Algebra.Order.Archimedean.Basic
import Mathlib.Algebra.Order.Field.Basic
import Mathlib.Algebra.Order.Ring.Rat
import Mathlib.Tactic.Linarith
import Mathlib.Tactic.LinearCombination
import Mathlib.Tactic.Ring

/-! # Leaky buckets

A request is accepted while the queue has a free place, and the queue leaks at a fixed rate. The
time of the last leak does not move while the queue is empty, so idle time is leaked later.
-/
namespace DistributedSystems.RateLimiting
open Runs

structure LeakyStats where
  requests : ℕ
  processed : ℕ
  dropped : ℕ

structure LeakyBucketLimiter (K : Type) where
  rate : K
  capacity : K
  interval : K
  queue : List K
  lastProcess : K
  stats : LeakyStats

namespace LeakyBucketLimiter
variable {K : Type} [Field K] [LinearOrder K]

def init (rate capacity now : K) : LeakyBucketLimiter K :=
  ⟨rate,capacity,1 / rate,[],now,⟨0,0,0⟩⟩

/-- The loop of `_leak` on the queue, the time of the last leak and the requests processed. -/
def leakLoop (interval now : K) : List K → K → ℕ → List K × K × ℕ
  | [], lastProcess, processed => ([],lastProcess,processed)
  | time :: queue, lastProcess, processed =>
    if now - lastProcess ≥ interval then leakLoop interval now queue (lastProcess + interval) (processed + 1)
    else (time :: queue,lastProcess,processed)

def leak (b : LeakyBucketLimiter K) (now : K) : LeakyBucketLimiter K :=
  let r := leakLoop b.interval now b.queue b.lastProcess b.stats.processed
  { b with queue := r.1, lastProcess := r.2.1, stats := { b.stats with processed := r.2.2 } }

/-- `_leak` reads the clock, and a request that is queued reads it again. -/
def allowRequest (b : LeakyBucketLimiter K) (now queued : K) : LeakyBucketLimiter K × Bool :=
  let b := b.leak now
  let requests := b.stats.requests + 1
  if (b.queue.length : K) < b.capacity then
    ({ b with queue := b.queue ++ [queued], stats := { b.stats with requests := requests } },true)
  else
    ({ b with stats := { b.stats with requests := requests, dropped := b.stats.dropped + 1 } },false)

/-- The loop takes requests until none is left or less than an interval has passed. -/
theorem leakLoop_spec [IsStrictOrderedRing K] (interval now : K) (queue : List K) (lastProcess : K) (processed : ℕ) :
    ∃ n : ℕ, n ≤ queue.length ∧ leakLoop interval now queue lastProcess processed =
        (queue.drop n,lastProcess + n * interval,processed + n) ∧
      (lastProcess ≤ now → lastProcess + n * interval ≤ now) ∧
      (n < queue.length → now - (lastProcess + n * interval) < interval) := by
  induction queue generalizing lastProcess processed with
  | nil => exact ⟨0,le_rfl,by simp [leakLoop],by simp,by simp⟩
  | cons time queue ih =>
    unfold leakLoop
    split
    · rename_i hpassed
      obtain ⟨n,hn,heq,hle,hrest⟩ := ih (lastProcess + interval) (processed + 1)
      have hsum : lastProcess + interval + n * interval = lastProcess + (n + 1 : ℕ) * interval := by
        push_cast
        ring
      rw [hsum] at heq hle hrest
      refine ⟨n + 1,Nat.succ_le_succ hn,?_,fun _ => hle (by linarith),fun hlt => hrest (Nat.lt_of_succ_lt_succ hlt)⟩
      rw [heq,List.drop_succ_cons,Nat.add_right_comm,Nat.add_assoc]
    · rename_i hwait
      refine ⟨0,Nat.zero_le _,by simp,by simp,fun _ => ?_⟩
      simpa using hwait

end LeakyBucketLimiter

/-- A call with the readings of `_leak` and of a request that is queued. -/
structure LeakyCall (K : Type) where
  now : K
  queued : K

/-- A call as it is seen afterwards, with the free places that it leaves. -/
structure LeakyRecord (K : Type) where
  now : K
  allowed : Bool
  places : K

namespace LeakyBucketLimiter
variable {K : Type} [Field K] [LinearOrder K]

/-- The free places, and the requests that the time since the last leak is enough for. -/
def places (b : LeakyBucketLimiter K) (now : K) : K :=
  b.capacity - b.queue.length + b.rate * (now - b.lastProcess)

def step (b : LeakyBucketLimiter K) (call : LeakyCall K) : LeakyBucketLimiter K :=
  (b.allowRequest call.now call.queued).1

def record (b : LeakyBucketLimiter K) (call : LeakyCall K) : LeakyRecord K :=
  ⟨call.now,(b.allowRequest call.now call.queued).2,(b.step call).places call.now⟩

def records (b : LeakyBucketLimiter K) (calls : List (LeakyCall K)) : List (LeakyRecord K) :=
  observed step record b calls

/-- The requests accepted in a time window. -/
def acceptedIn (records : List (LeakyRecord K)) (start length : K) : ℕ :=
  records.countP fun r => r.allowed ∧ start ≤ r.now ∧ r.now ≤ start + length

theorem acceptedIn_cons {r : LeakyRecord K} {rest : List (LeakyRecord K)} {start length : K}
    (hallowed : r.allowed = true) (hstart : start ≤ r.now) (hstop : r.now ≤ start + length) :
    acceptedIn (r :: rest) start length = acceptedIn rest start length + 1 :=
  List.countP_cons_of_pos (decide_eq_true ⟨hallowed,hstart,hstop⟩)

theorem acceptedIn_append (xs ys : List (LeakyRecord K)) (start length : K) :
    acceptedIn (xs ++ ys) start length = acceptedIn xs start length + acceptedIn ys start length := List.countP_append

/-- The clock that the calls read does not go back. -/
def Ordered (created : K) (calls : List (LeakyCall K)) : Prop := (created :: calls.map LeakyCall.now).Pairwise (· ≤ ·)

/-- The time since the last leak is spent on the queue, but for one interval at most. -/
def InTime (b : LeakyBucketLimiter K) (call : LeakyCall K) : Prop :=
  call.now - b.lastProcess ≤ (b.queue.length + 1) * b.interval

/-- What the calls keep where the capacity is a whole number. -/
structure Sound (rate : K) (capacity : ℤ) (b : LeakyBucketLimiter K) : Prop where
  rate_eq : b.rate = rate
  capacity_eq : b.capacity = capacity
  interval_eq : b.interval = 1 / rate
  length_le : b.queue.length ≤ capacity

variable {rate : K} {capacity : ℤ} {b : LeakyBucketLimiter K} {call : LeakyCall K} {now : K}

section Leak
variable [IsStrictOrderedRing K]

omit [IsStrictOrderedRing K] in
/-- The rate gives one request in an interval. -/
theorem Sound.rate_mul_interval (h : b.Sound rate capacity) (hrate : 0 < rate) : rate * b.interval = 1 := by
  rw [h.interval_eq]
  exact mul_one_div_cancel hrate.ne'

/-- A leak exchanges time for places. -/
theorem Sound.leak (h : b.Sound rate capacity) (hrate : 0 < rate) (now : K) :
    (b.leak now).Sound rate capacity ∧ (∀ t, (b.leak now).places t = b.places t) ∧
      (b.lastProcess ≤ now → (b.leak now).lastProcess ≤ now) ∧
      ((b.leak now).queue ≠ [] → rate * (now - (b.leak now).lastProcess) < 1) := by
  obtain ⟨n,hn,heq,hle,hrest⟩ := leakLoop_spec b.interval now b.queue b.lastProcess b.stats.processed
  have hqueue : (b.leak now).queue = b.queue.drop n := congrArg Prod.fst heq
  have hlast : (b.leak now).lastProcess = b.lastProcess + n * b.interval := congrArg (fun r => r.2.1) heq
  have hlength : ((b.leak now).queue.length : ℤ) = b.queue.length - n := by
    rw [hqueue,List.length_drop]
    omega
  have hlength' : ((b.leak now).queue.length : K) = b.queue.length - n := by exact_mod_cast hlength
  have hinterval := h.rate_mul_interval hrate
  refine ⟨⟨h.rate_eq,h.capacity_eq,h.interval_eq,?_⟩,fun t => ?_,fun hbefore => hlast ▸ hle hbefore,fun hne => ?_⟩
  · have := h.length_le
    omega
  · change (b.capacity : K) - (b.leak now).queue.length + b.rate * (t - (b.leak now).lastProcess) = _
    rw [hlength',hlast,places,h.rate_eq]
    linear_combination (-(n : K)) * hinterval
  · have hlt : n < b.queue.length := by
      rw [hqueue,ne_eq,List.drop_eq_nil_iff,not_le] at hne
      exact hne
    rw [hlast]
    calc rate * (now - (b.lastProcess + n * b.interval))
        < rate * b.interval := mul_lt_mul_of_pos_left (hrest hlt) hrate
      _ = 1 := hinterval

/-- Everything a call can do: it takes a free place, or none is left after the leak. -/
theorem Sound.allowRequest_cases (h : b.Sound rate capacity) (hrate : 0 < rate) (call : LeakyCall K) :
    (b.step call).Sound rate capacity ∧ (b.lastProcess ≤ call.now → (b.step call).lastProcess ≤ call.now) ∧
    ((b.record call).allowed = true ∧ (∀ t, (b.step call).places t = b.places t - 1) ∨
      (b.record call).allowed = false ∧ (∀ t, (b.step call).places t = b.places t) ∧
        (0 < capacity → b.places call.now < 1)) := by
  obtain ⟨hsound,hplaces,hlast,hrest⟩ := h.leak hrate call.now
  unfold record step allowRequest
  dsimp only
  split
  · rename_i hroom
    rw [hsound.capacity_eq] at hroom
    refine ⟨⟨hsound.rate_eq,hsound.capacity_eq,hsound.interval_eq,?_⟩,hlast,Or.inl ⟨rfl,fun t => ?_⟩⟩
    · change ((b.leak call.now).queue ++ [call.queued]).length ≤ capacity
      have hcast : ((b.leak call.now).queue.length : ℤ) < capacity := by exact_mod_cast hroom
      rw [List.length_append,List.length_singleton]
      omega
    · rw [← hplaces]
      unfold places
      dsimp only
      rw [List.length_append,List.length_singleton]
      push_cast
      ring
  · rename_i hfull
    rw [hsound.capacity_eq] at hfull
    refine ⟨⟨hsound.rate_eq,hsound.capacity_eq,hsound.interval_eq,hsound.length_le⟩,hlast,Or.inr ⟨rfl,hplaces,?_⟩⟩
    intro hcapacity
    have hne : (b.leak call.now).queue ≠ [] := by
      intro hnil
      rw [hnil] at hfull
      exact hfull (by exact_mod_cast hcapacity)
    have hcast : (capacity : K) ≤ (b.leak call.now).queue.length := not_lt.mp hfull
    rw [← hplaces,places,hsound.capacity_eq,hsound.rate_eq]
    linarith [hrest hne]

theorem Sound.step (h : b.Sound rate capacity) (hrate : 0 < rate) (call : LeakyCall K) :
    (b.step call).Sound rate capacity := (h.allowRequest_cases hrate call).1

omit [LinearOrder K] [IsStrictOrderedRing K] in
theorem sound_init (rate : K) (hcapacity : 0 ≤ capacity) (created : K) :
    (init rate (capacity : K) created).Sound rate capacity :=
  ⟨rfl,rfl,rfl,hcapacity⟩

/-- Every request so far is processed, dropped or in the queue. -/
theorem stats_step (h : b.stats.requests = b.stats.processed + b.stats.dropped + b.queue.length)
    (call : LeakyCall K) : (b.step call).stats.requests =
      (b.step call).stats.processed + (b.step call).stats.dropped + (b.step call).queue.length := by
  obtain ⟨n,hn,heq,-⟩ := leakLoop_spec b.interval call.now b.queue b.lastProcess b.stats.processed
  have hqueue : (b.leak call.now).queue = b.queue.drop n := congrArg Prod.fst heq
  have hprocessed : (b.leak call.now).stats.processed = b.stats.processed + n := congrArg (fun r => r.2.2) heq
  have hrequests : (b.leak call.now).stats.requests = b.stats.requests := rfl
  have hdropped : (b.leak call.now).stats.dropped = b.stats.dropped := rfl
  unfold step allowRequest
  dsimp only
  split
  · dsimp only
    rw [List.length_append,List.length_singleton,hqueue,hprocessed,hrequests,hdropped,List.length_drop]
    omega
  · dsimp only
    rw [hqueue,hprocessed,hrequests,hdropped,List.length_drop]
    omega

theorem stats_run (rate limit created : K) (calls : List (LeakyCall K)) :
    (run step (init rate limit created) calls).stats.requests =
      (run step (init rate limit created) calls).stats.processed +
        (run step (init rate limit created) calls).stats.dropped +
        (run step (init rate limit created) calls).queue.length :=
  run_invariant_of_step (I := fun b : LeakyBucketLimiter K =>
    b.stats.requests = b.stats.processed + b.stats.dropped + b.queue.length)
    (fun _ call h => stats_step h call) rfl calls

end Leak

section Bound
variable [IsStrictOrderedRing K]

/-- An accepted request takes one place, and time makes new ones. -/
def account (rate : K) : Account (LeakyRecord K) K where
  allotted r := rate * r.now
  spent r := if r.allowed then 1 else 0
  level := LeakyRecord.places

omit [LinearOrder K] [IsStrictOrderedRing K] in
theorem sum_spent (rate : K) (records : List (LeakyRecord K)) :
    (records.map (account rate).spent).sum = records.countP LeakyRecord.allowed := Account.sum_map_ite _ _

theorem Sound.places_add_spent (h : b.Sound rate capacity) (hrate : 0 < rate) (call : LeakyCall K) :
    (b.record call).places + (account rate).spent (b.record call) = b.places call.now := by
  obtain ⟨-,-,⟨hallowed,hplaces⟩ | ⟨hrejected,hplaces,-⟩⟩ := h.allowRequest_cases hrate call
  · have hspent : (account rate).spent (b.record call) = 1 := if_pos hallowed
    rw [hspent]
    exact (congrArg (· + 1) (hplaces call.now)).trans (sub_add_cancel _ _)
  · have hspent : (account rate).spent (b.record call) = 0 := if_neg (by rw [hrejected]; decide)
    rw [hspent,add_zero]
    exact hplaces call.now

/-- The time since the last leak is worth a place beyond the capacity at most. -/
theorem Sound.places_le (h : b.Sound rate capacity) (hrate : 0 < rate) (hin : b.InTime call) :
    b.places call.now ≤ capacity + 1 := by
  have hinterval := h.rate_mul_interval hrate
  have hle : rate * (call.now - b.lastProcess) ≤ rate * ((b.queue.length + 1) * b.interval) :=
    mul_le_mul_of_nonneg_left hin hrate.le
  have heq : rate * ((b.queue.length + 1) * b.interval) = b.queue.length + 1 := by
    linear_combination ((b.queue.length : K) + 1) * hinterval
  rw [places,h.capacity_eq,h.rate_eq]
  linarith

theorem Sound.places_nonneg (h : b.Sound rate capacity) (hrate : 0 < rate) (hlast : b.lastProcess ≤ now) :
    0 ≤ b.places now := by
  have hlength : (b.queue.length : K) ≤ capacity := by exact_mod_cast h.length_le
  have htime : 0 ≤ rate * (now - b.lastProcess) := mul_nonneg hrate.le (sub_nonneg.mpr hlast)
  rw [places,h.capacity_eq,h.rate_eq]
  linarith

/-- With calls in order no leak is ahead of the clock. -/
theorem along_lastProcess_le {calls : List (LeakyCall K)} (h : b.Sound rate capacity) (hrate : 0 < rate)
    (hordered : (calls.map LeakyCall.now).Pairwise (· ≤ ·)) (hlast : ∀ call ∈ calls, b.lastProcess ≤ call.now) :
    Along step (fun b call => b.lastProcess ≤ call.now) b calls := by
  induction calls generalizing b with
  | nil => trivial
  | cons call calls ih =>
    obtain ⟨hfirst,hrest⟩ := List.pairwise_cons.mp hordered
    have hcall := hlast call List.mem_cons_self
    refine ⟨hcall,ih (h.step hrate call) hrest fun later hlater => ?_⟩
    exact ((h.allowRequest_cases hrate call).2.1 hcall).trans (hfirst _ (List.mem_map_of_mem hlater))

theorem Ordered.along {created : K} {calls : List (LeakyCall K)} (hordered : Ordered created calls) (hrate : 0 < rate)
    (hcapacity : 0 ≤ capacity) :
    Along step (fun b call => b.lastProcess ≤ call.now) (init rate (capacity : K) created) calls := by
  obtain ⟨hfirst,hrest⟩ := List.pairwise_cons.mp hordered
  exact along_lastProcess_le (sound_init rate hcapacity created) hrate hrest fun call hcall =>
    hfirst _ (List.mem_map_of_mem hcall)

/-- What is accepted from one accepted call to another. -/
theorem window_bound (hrate : 0 < rate) {calls : List (LeakyCall K)} (hs : b.Sound rate capacity)
    (hlast : Along step (fun b call => b.lastProcess ≤ call.now) b calls) (hin : Along step InTime b calls)
    {window : List (LeakyRecord K)} (hwindow : window <:+: b.records calls) {first last : LeakyRecord K}
    (hhead : window.head? = some first) (hend : window.getLast? = some last) :
    (window.countP LeakyRecord.allowed : K) ≤ capacity + 1 + rate * (last.now - first.now) := by
  have hstep : ∀ (b : LeakyBucketLimiter K) (call : LeakyCall K), b.Sound rate capacity →
      b.lastProcess ≤ call.now ∧ b.InTime call → (b.step call).Sound rate capacity :=
    fun _ call h _ => h.step hrate call
  have hboth := hlast.and hin
  have hchain : (b.records calls).IsChain (account rate).Follows := by
    refine isChain_observed hstep (D := fun b r => r.places = b.places r.now) (fun b call _ _ => rfl)
      (fun b r call h _ hr => ?_) hs hboth
    unfold Account.Follows
    change (b.record call).places + (account rate).spent (b.record call) ≤ r.places + (rate * call.now - rate * r.now)
    rw [h.places_add_spent hrate,hr,places,places,h.rate_eq]
    linarith
  have hrecords : ∀ r ∈ b.records calls, r.places + (account rate).spent r ≤ capacity + 1 ∧ 0 ≤ r.places := by
    refine forall_observed hstep (fun b call h hcall => ⟨?_,?_⟩) hs hboth
    · rw [h.places_add_spent hrate]
      exact h.places_le hrate hcall.2
    · exact (h.step hrate call).places_nonneg hrate ((h.allowRequest_cases hrate call).2.1 hcall.1)
  have hmem := hwindow.subset (List.mem_of_mem_head? hhead)
  have hmem' := hwindow.subset (List.mem_of_mem_getLast? hend)
  have hspent := Account.spent_le hchain hwindow hhead hend (hrecords first hmem).1 (hrecords last hmem').2
  rw [sum_spent] at hspent
  rw [mul_sub]
  exact hspent

/-- What is accepted in a time window. -/
theorem acceptedIn_le (hrate : 0 < rate) (hcapacity : 0 ≤ capacity) {calls : List (LeakyCall K)}
    (hs : b.Sound rate capacity) (hlast : Along step (fun b call => b.lastProcess ≤ call.now) b calls)
    (hin : Along step InTime b calls) (start : K) {length : K} (hlength : 0 ≤ length) :
    (acceptedIn (b.records calls) start length : K) ≤ capacity + rate * length + 1 := by
  rcases Nat.eq_zero_or_pos (acceptedIn (b.records calls) start length) with hzero | hpos
  · have hcast : (0 : K) ≤ capacity := by exact_mod_cast hcapacity
    have htime := mul_nonneg hrate.le hlength
    rw [hzero,Nat.cast_zero]
    linarith
  · obtain ⟨window,first,last,hwindow,hhead,hend,hfirst,hend',hcount⟩ := exists_infix_of_countP_pos hpos
    obtain ⟨-,hstart,-⟩ := of_decide_eq_true hfirst
    obtain ⟨-,-,hstop⟩ := of_decide_eq_true hend'
    have hbound := window_bound hrate hs hlast hin hwindow hhead hend
    have hle : acceptedIn (b.records calls) start length ≤ window.countP LeakyRecord.allowed := by
      rw [acceptedIn,hcount]
      exact List.countP_mono_left fun r _ hr => (of_decide_eq_true hr).1
    have hcast : (acceptedIn (b.records calls) start length : K) ≤ window.countP LeakyRecord.allowed := by
      exact_mod_cast hle
    have htime : rate * (last.now - first.now) ≤ rate * length := mul_le_mul_of_nonneg_left (by linarith) hrate.le
    linarith

/-- Requests at one time are all accepted while there are places. -/
theorem countP_replicate (hrate : 0 < rate) (hcapacity : 0 < capacity) (n : ℕ) (hs : b.Sound rate capacity)
    (hplaces : n ≤ b.places now) :
    (b.records (List.replicate n ⟨now,now⟩)).countP (fun r => r.allowed ∧ r.now = now) = n := by
  induction n generalizing b with
  | zero => rfl
  | succ n ih =>
    push_cast at hplaces
    rcases hs.allowRequest_cases hrate ⟨now,now⟩ with ⟨hnext,-,⟨hallowed,hafter⟩ | ⟨-,-,hfew⟩⟩
    · have hrest := ih hnext (by rw [hafter]; linarith)
      change (b.record ⟨now,now⟩ :: (b.step ⟨now,now⟩).records (List.replicate n ⟨now,now⟩)).countP
        (fun r => r.allowed ∧ r.now = now) = n + 1
      have hfirst : decide ((b.record ⟨now,now⟩).allowed = true ∧ (b.record ⟨now,now⟩).now = now) = true :=
        decide_eq_true ⟨hallowed,rfl⟩
      rw [List.countP_cons_of_pos (p := fun r : LeakyRecord K => decide (r.allowed = true ∧ r.now = now)) hfirst,hrest]
    · have hnonneg : (0 : K) ≤ n := n.cast_nonneg
      exact absurd (hfew hcapacity) (by linarith)

/-- Time that is left over when the queue is empty is worth a place too many. -/
theorem Sound.places_of_not_inTime (h : b.Sound rate capacity) (hrate : 0 < rate) (hin : ¬b.InTime call) :
    capacity + 1 < b.places call.now := by
  have hinterval := h.rate_mul_interval hrate
  have hlt : rate * ((b.queue.length + 1) * b.interval) < rate * (call.now - b.lastProcess) :=
    mul_lt_mul_of_pos_left (not_le.mp hin) hrate
  have heq : rate * ((b.queue.length + 1) * b.interval) = b.queue.length + 1 := by
    linear_combination ((b.queue.length : K) + 1) * hinterval
  rw [places,h.capacity_eq,h.rate_eq]
  linarith

/-- When a little less than an interval is missing, it has passed at a later time. -/
theorem Sound.exists_later (h : b.Sound rate capacity) (hrate : 0 < rate) {places : K}
    (hplaces : places < b.places now + 1) :
    ∃ later, now ≤ later ∧ rate * (later - now) < 1 ∧ places ≤ b.places later := by
  have hnonneg : 0 ≤ max 0 ((places - b.places now) / rate) := le_max_left _ _
  have htime : rate * max 0 ((places - b.places now) / rate) = max 0 (places - b.places now) := by
    rw [mul_max_of_nonneg _ _ hrate.le,mul_zero,mul_div_cancel₀ _ hrate.ne']
  refine ⟨now + max 0 ((places - b.places now) / rate),le_add_of_nonneg_right hnonneg,?_,?_⟩
  · rw [add_sub_cancel_left,htime]
    exact max_lt one_pos (by linarith)
  · have hgrown : b.places (now + max 0 ((places - b.places now) / rate)) =
        b.places now + rate * max 0 ((places - b.places now) / rate) := by
      unfold LeakyBucketLimiter.places
      rw [h.rate_eq]
      ring
    rw [hgrown,htime]
    linarith [le_max_right 0 (places - b.places now)]

/-- A call with time left over is accepted, and so are soon more than the capacity. -/
theorem exists_overfull (hrate : 0 < rate) (hcapacity : 1 ≤ capacity) (hs : b.Sound rate capacity)
    (hin : ¬b.InTime call) :
    ∃ later n, call.now ≤ later ∧ capacity + rate * (later - call.now) + 1 <
      (acceptedIn (b.records (call :: List.replicate n ⟨later,later⟩)) call.now (later - call.now) : K) := by
  have hone : (1 : K) ≤ capacity := by exact_mod_cast hcapacity
  have hpos : 0 < capacity := by omega
  have hplaces := hs.places_of_not_inTime hrate hin
  obtain ⟨hnext,-,⟨hallowed,hafter⟩ | ⟨-,-,hfew⟩⟩ := hs.allowRequest_cases hrate call
  · -- so late that the next leak finds a place for each of them
    obtain ⟨later,hlater,hshort,henough⟩ : ∃ later, call.now ≤ later ∧ rate * (later - call.now) < 1 ∧
        (capacity : K) + 2 ≤ b.places later := hs.exists_later hrate (by linarith)
    obtain ⟨n,hn⟩ : ∃ n : ℕ, (n : ℤ) = capacity + 1 := ⟨(capacity + 1).toNat,by omega⟩
    have hn' : (n : K) = capacity + 1 := by exact_mod_cast hn
    have hcount : ((b.step call).records (List.replicate n ⟨later,later⟩)).countP
        (fun r => r.allowed ∧ r.now = later) = n :=
      countP_replicate hrate hpos n hnext (by rw [hafter]; linarith)
    refine ⟨later,n,hlater,?_⟩
    have haccepted : n + 1 ≤
        acceptedIn (b.records (call :: List.replicate n ⟨later,later⟩)) call.now (later - call.now) := by
      have hstart : call.now ≤ (b.record call).now := le_rfl
      have hstop : (b.record call).now ≤ call.now + (later - call.now) := hlater.trans_eq (add_sub_cancel _ _).symm
      change _ ≤ acceptedIn (b.record call :: (b.step call).records _) call.now (later - call.now)
      rw [acceptedIn_cons hallowed hstart hstop]
      refine Nat.succ_le_succ (hcount.symm.le.trans (List.countP_mono_left fun r _ hr => ?_))
      obtain ⟨hr,hnow⟩ := of_decide_eq_true hr
      exact decide_eq_true ⟨hr,hnow ▸ hlater,by rw [add_sub_cancel]; exact hnow.le⟩
    have hcast : (n : K) + 1 ≤
        acceptedIn (b.records (call :: List.replicate n ⟨later,later⟩)) call.now (later - call.now) := by
      exact_mod_cast haccepted
    linarith
  · exact absurd (hfew hpos) (by linarith)

omit [Field K] [IsStrictOrderedRing K] in
theorem Ordered.append_replicate {created later : K} {calls : List (LeakyCall K)}
    (h : Ordered created (calls ++ [call])) (hlater : call.now ≤ later) (n : ℕ) :
    Ordered created (calls ++ call :: List.replicate n ⟨later,later⟩) := by
  have hlast : ∀ time ∈ created :: (calls ++ [call]).map LeakyCall.now, time ≤ call.now := by
    intro time htime
    rw [Ordered,List.map_append,← List.cons_append] at h
    rw [List.map_append,← List.cons_append] at htime
    rcases List.mem_append.mp htime with hbefore | hnow
    · exact (List.pairwise_append.mp h).2.2 time hbefore _ List.mem_cons_self
    · exact (List.mem_singleton.mp hnow).le
  rw [List.append_cons,Ordered,List.map_append,← List.cons_append,List.map_replicate]
  refine List.pairwise_append.mpr ⟨h,List.pairwise_replicate.mpr (Or.inr le_rfl),fun time htime time' htime' => ?_⟩
  rw [List.eq_of_mem_replicate htime']
  exact (hlast time htime).trans hlater

end Bound

section Filling
variable [IsStrictOrderedRing K]

/-- While no time passes, the requests fill the queue up to the first length that is not below
the capacity. -/
theorem queue_run_replicate (hrate : 0 < rate) (limit created : K) {n : ℕ} (hn : n < limit + 1) :
    let b := run step (init rate limit created) (List.replicate n ⟨created,created⟩)
    b.queue = List.replicate n created ∧ b.lastProcess = created ∧ b.interval = 1 / rate ∧ b.capacity = limit := by
  induction n with
  | zero => exact ⟨rfl,rfl,rfl,rfl⟩
  | succ n ih =>
    push_cast at hn
    obtain ⟨hqueue,hlast,hinterval,hcapacity⟩ := ih (by linarith)
    rw [List.replicate_succ',run_append]
    generalize run step (init rate limit created) (List.replicate n ⟨created,created⟩) = b at *
    have hwait : ¬created - b.lastProcess ≥ b.interval := by
      rw [hlast,hinterval,sub_self,ge_iff_le,not_le]
      exact one_div_pos.mpr hrate
    have hleak : b.leak created = b := by
      unfold leak
      cases hq : b.queue with
      | nil => simp [leakLoop,← hq]
      | cons time queue => simp [leakLoop,hwait,← hq]
    have hroom : (b.queue.length : K) < b.capacity := by
      rw [hqueue,List.length_replicate,hcapacity]
      linarith
    change (b.allowRequest created created).1.queue = _ ∧ (b.allowRequest created created).1.lastProcess = _ ∧
      (b.allowRequest created created).1.interval = _ ∧ (b.allowRequest created created).1.capacity = _
    unfold allowRequest
    dsimp only
    rw [hleak,if_pos hroom]
    exact ⟨by rw [hqueue,List.replicate_succ'],hlast,hinterval,hcapacity⟩

/-- A capacity that is no whole number does not bound the queue. -/
theorem exists_queue_gt [Archimedean K] (hrate : 0 < rate) {limit : K} (hlimit : 1 ≤ limit)
    (hwhole : ∀ capacity : ℤ, limit ≠ capacity) (created : K) :
    ∃ calls, Ordered created calls ∧ limit < (run step (init rate limit created) calls).queue.length := by
  obtain ⟨floor,hfloor⟩ := exists_floor limit
  have hbelow : (floor : K) < limit := lt_of_le_of_ne ((hfloor floor).mp le_rfl) (hwhole floor).symm
  have habove : limit < (floor : K) + 1 := by
    by_contra hle
    have := (hfloor (floor + 1)).mpr (by push_cast; exact not_lt.mp hle)
    omega
  have hone : 1 ≤ floor := (hfloor 1).mpr (by exact_mod_cast hlimit)
  obtain ⟨n,hn⟩ : ∃ n : ℕ, (n : ℤ) = floor + 1 := ⟨(floor + 1).toNat,by omega⟩
  have hn' : (n : K) = floor + 1 := by exact_mod_cast hn
  refine ⟨List.replicate n ⟨created,created⟩,?_,?_⟩
  · rw [Ordered,List.map_replicate,← List.replicate_succ]
    exact List.pairwise_replicate.mpr (Or.inr le_rfl)
  · rw [(queue_run_replicate hrate limit created (by linarith)).1,List.length_replicate]
    linarith

end Filling

/-- The bound holds when the capacity is a whole number and no call finds the queue emptied with
more than an interval left over. After any other call more requests can be accepted than that. -/
theorem leaky_bucket_bound [IsStrictOrderedRing K] [Archimedean K] (rate capacity created : K) (hrate : 0 < rate)
    (hcapacity : 1 ≤ capacity) :
    let b := init rate capacity created
    ((∃ places : ℤ, capacity = places) →
      (∀ calls, Ordered created calls → (run step b calls).queue.length ≤ capacity ∧ (Along step InTime b calls →
        ∀ start length, 0 ≤ length → acceptedIn (b.records calls) start length ≤ capacity + rate * length + 1)) ∧
      ∀ calls call, Ordered created (calls ++ [call]) → ¬(run step b calls).InTime call →
        ∃ more start length, Ordered created (calls ++ call :: more) ∧ 0 ≤ length ∧
          capacity + rate * length + 1 < acceptedIn (b.records (calls ++ call :: more)) start length) ∧
    ((¬∃ places : ℤ, capacity = places) →
      ∃ calls, Ordered created calls ∧ capacity < (run step b calls).queue.length) := by
  intro b
  refine ⟨?_,fun hwhole => exists_queue_gt hrate hcapacity (fun places h => hwhole ⟨places,h⟩) created⟩
  rintro ⟨places,rfl⟩
  have hone : 1 ≤ places := by exact_mod_cast hcapacity
  have hnonneg : 0 ≤ places := by omega
  have hs := sound_init rate hnonneg created
  have hrun : ∀ calls, (run step b calls).Sound rate places := fun calls =>
    run_invariant_of_step (fun _ call h => h.step hrate call) hs calls
  refine ⟨fun calls hordered => ⟨?_,fun hin start length hlength => ?_⟩,fun calls call hordered hin => ?_⟩
  · exact_mod_cast (hrun calls).length_le
  · exact acceptedIn_le hrate hnonneg hs (hordered.along hrate hnonneg) hin start hlength
  · obtain ⟨later,n,hlater,hfull⟩ := exists_overfull hrate hone (hrun calls) hin
    refine ⟨List.replicate n ⟨later,later⟩,call.now,later - call.now,hordered.append_replicate hlater n,
      sub_nonneg.mpr hlater,hfull.trans_le ?_⟩
    unfold records
    rw [observed_append,acceptedIn_append,Nat.cast_add]
    exact le_add_of_nonneg_left (Nat.cast_nonneg _)

/-- A bucket with one place that leaks two requests a second. -/
theorem leaky_bucket_bound_one_place :
    let b : LeakyBucketLimiter ℚ := init 2 1 0
    ((∃ places : ℤ, (1 : ℚ) = places) →
      (∀ calls, Ordered 0 calls → (run step b calls).queue.length ≤ (1 : ℚ) ∧ (Along step InTime b calls →
        ∀ start length, 0 ≤ length → acceptedIn (b.records calls) start length ≤ 1 + 2 * length + 1)) ∧
      ∀ calls call, Ordered 0 (calls ++ [call]) → ¬(run step b calls).InTime call →
        ∃ more start length, Ordered 0 (calls ++ call :: more) ∧ 0 ≤ length ∧
          1 + 2 * length + 1 < acceptedIn (b.records (calls ++ call :: more)) start length) ∧
    ((¬∃ places : ℤ, (1 : ℚ) = places) →
      ∃ calls, Ordered 0 calls ∧ (1 : ℚ) < (run step b calls).queue.length) :=
  leaky_bucket_bound 2 1 0 (by decide) le_rfl

/-- A bucket for one request accepts three at once after an idle time. -/
theorem leaky_bucket_after_idle_time :
    ¬∀ (rate capacity created : ℚ) (calls : List (LeakyCall ℚ)), 0 < rate → 1 ≤ capacity → Ordered created calls →
      ∀ start length, 0 ≤ length →
        acceptedIn ((init rate capacity created).records calls) start length ≤ capacity + rate * length + 1 := by
  intro h
  have hbound := h 1 1 0 [⟨10,10⟩,⟨10,10⟩,⟨10,10⟩] (by decide) (by decide) (by simp [Ordered]) 10 0 le_rfl
  have hcount : acceptedIn ((init (1 : ℚ) 1 0).records [⟨10,10⟩,⟨10,10⟩,⟨10,10⟩]) 10 0 = 3 := by decide +kernel
  rw [hcount] at hbound
  norm_num at hbound

end LeakyBucketLimiter
end DistributedSystems.RateLimiting
