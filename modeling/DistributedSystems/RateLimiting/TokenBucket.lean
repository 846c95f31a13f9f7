import DistributedSystems.Protocol.Accounts
import DistributedSystems.Protocol.Observed
import Mathlib.Algebra.Order.Field.Basic
import Mathlib.Algebra.Order.Ring.Rat
import Mathlib.Tactic.Ring

/-! # Token buckets

A bucket is refilled for the time since the last call, also for calls that are rejected. What it
grants between two calls is paid for by a full bucket and the time between them, and clocks may
go backwards.
-/
namespace DistributedSystems.RateLimiting
open Runs

structure Stats where
  requests : ℕ
  allowed : ℕ
  rejected : ℕ

structure TokenBucketLimiter (K : Type) where
  rate : K
  capacity : K
  refillInterval : K
  tokens : K
  lastRefill : K
  stats : Stats

namespace TokenBucketLimiter
variable {K : Type} [Field K] [LinearOrder K]

def init (rate capacity refillInterval now : K) : TokenBucketLimiter K :=
  ⟨rate,capacity,refillInterval,capacity,now,⟨0,0,0⟩⟩

def refill (b : TokenBucketLimiter K) (now : K) : TokenBucketLimiter K :=
  let elapsed := now - b.lastRefill
  let intervals := elapsed / b.refillInterval
  let tokensToAdd := intervals * b.rate
  { b with tokens := min b.capacity (b.tokens + tokensToAdd), lastRefill := now }

def allowRequest (b : TokenBucketLimiter K) (tokens now : K) : TokenBucketLimiter K × Bool :=
  let b := b.refill now
  let requests := b.stats.requests + 1
  if tokens ≤ b.tokens then
    ({ b with tokens := b.tokens - tokens, stats := ⟨requests,b.stats.allowed + 1,b.stats.rejected⟩ },true)
  else ({ b with stats := ⟨requests,b.stats.allowed,b.stats.rejected + 1⟩ },false)

/-- Everything a call can do: a grant is covered, and a rejected call refills too. -/
theorem allowRequest_cases (b : TokenBucketLimiter K) (tokens now : K) :
    (tokens ≤ (b.refill now).tokens ∧ (b.allowRequest tokens now).2 = true ∧
      (b.allowRequest tokens now).1.tokens = (b.refill now).tokens - tokens ∨
    (b.allowRequest tokens now).2 = false ∧ (b.allowRequest tokens now).1.tokens = (b.refill now).tokens) ∧
    (b.allowRequest tokens now).1.lastRefill = now ∧ (b.allowRequest tokens now).1.capacity = b.capacity ∧
    (b.allowRequest tokens now).1.rate = b.rate ∧
    (b.allowRequest tokens now).1.refillInterval = b.refillInterval := by
  unfold allowRequest
  dsimp only
  split
  · rename_i hle
    exact ⟨Or.inl ⟨hle,rfl,rfl⟩,rfl,rfl,rfl,rfl⟩
  · exact ⟨Or.inr ⟨rfl,rfl⟩,rfl,rfl,rfl,rfl⟩

theorem tokens_refill_le (b : TokenBucketLimiter K) (now : K) : (b.refill now).tokens ≤ b.capacity := min_le_left _ _

/-- A call that takes no negative amount leaves no more than the capacity. -/
theorem tokens_allowRequest_le [IsOrderedAddMonoid K] (b : TokenBucketLimiter K) {tokens : K} (htokens : 0 ≤ tokens)
    (now : K) :
    (b.allowRequest tokens now).1.tokens ≤ b.capacity := by
  rcases (b.allowRequest_cases tokens now).1 with ⟨-,-,hlevel⟩ | ⟨-,hlevel⟩
  · exact hlevel.trans_le ((sub_le_self _ htokens).trans (b.tokens_refill_le now))
  · exact hlevel.trans_le (b.tokens_refill_le now)

/-- A grant does not take what is not there. -/
theorem tokens_nonneg_of_allowed [IsOrderedAddMonoid K] (b : TokenBucketLimiter K) {tokens now : K}
    (h : (b.allowRequest tokens now).2 = true) : 0 ≤ (b.allowRequest tokens now).1.tokens := by
  rcases (b.allowRequest_cases tokens now).1 with ⟨hle,-,hlevel⟩ | ⟨hrejected,-⟩
  · exact (sub_nonneg.mpr hle).trans_eq hlevel.symm
  · exact absurd (h.symm.trans hrejected) (by decide)

/-- The refill adds no more than the rate gives for the time that has passed. -/
theorem tokens_refill_le_add (b : TokenBucketLimiter K) (now : K) :
    (b.refill now).tokens ≤
      b.tokens + (b.rate / b.refillInterval * now - b.rate / b.refillInterval * b.lastRefill) := by
  have hadd : (now - b.lastRefill) / b.refillInterval * b.rate =
      b.rate / b.refillInterval * now - b.rate / b.refillInterval * b.lastRefill := by ring
  rw [← hadd]
  exact min_le_right _ _

end TokenBucketLimiter

/-- A call with the reading that `_refill` takes. -/
structure BucketCall (K : Type) where
  tokens : K
  now : K

/-- A call as it is seen afterwards, with the tokens that it leaves. -/
structure BucketRecord (K : Type) where
  tokens : K
  now : K
  allowed : Bool
  level : K

/-- What the call takes out of the bucket. -/
def BucketRecord.granted {K : Type} [Zero K] (r : BucketRecord K) : K := if r.allowed then r.tokens else 0

namespace TokenBucketLimiter
variable {K : Type} [Field K] [LinearOrder K]

def step (b : TokenBucketLimiter K) (call : BucketCall K) : TokenBucketLimiter K :=
  (b.allowRequest call.tokens call.now).1

def record (b : TokenBucketLimiter K) (call : BucketCall K) : BucketRecord K :=
  let r := b.allowRequest call.tokens call.now
  ⟨call.tokens,call.now,r.2,r.1.tokens⟩

def records (b : TokenBucketLimiter K) (calls : List (BucketCall K)) : List (BucketRecord K) :=
  observed step record b calls

variable {b : TokenBucketLimiter K} {call : BucketCall K}

/-- With what it takes, a call leaves the refilled level. -/
theorem level_add_granted (b : TokenBucketLimiter K) (call : BucketCall K) :
    (b.record call).level + (b.record call).granted = (b.refill call.now).tokens := by
  unfold record BucketRecord.granted
  rcases (b.allowRequest_cases call.tokens call.now).1 with ⟨-,hallowed,hlevel⟩ | ⟨hrejected,hlevel⟩
  · simp [hallowed,hlevel]
  · simp [hrejected,hlevel]

/-- The counters of the calls add up. -/
theorem stats_step (h : b.stats.requests = b.stats.allowed + b.stats.rejected) (call : BucketCall K) :
    (b.step call).stats.requests = (b.step call).stats.allowed + (b.step call).stats.rejected := by
  have hrefill : (b.refill call.now).stats = b.stats := rfl
  unfold step allowRequest
  dsimp only
  split
  · rw [hrefill]
    dsimp only
    omega
  · rw [hrefill]
    dsimp only
    omega

theorem stats_run (rate capacity refillInterval created : K) (calls : List (BucketCall K)) :
    (run step (init rate capacity refillInterval created) calls).stats.requests =
      (run step (init rate capacity refillInterval created) calls).stats.allowed +
        (run step (init rate capacity refillInterval created) calls).stats.rejected :=
  run_invariant_of_step (I := fun b : TokenBucketLimiter K => b.stats.requests = b.stats.allowed + b.stats.rejected)
    (fun _ call h => stats_step h call) rfl calls

/-- The rate for a time is the allowance. -/
def account (rate refillInterval : K) : Account (BucketRecord K) K where
  allotted r := rate / refillInterval * r.now
  spent := BucketRecord.granted
  level := BucketRecord.level

/-- The parameters stay, and no call leaves more than the capacity. -/
structure Bounded (rate capacity refillInterval : K) (b : TokenBucketLimiter K) : Prop where
  rate_eq : b.rate = rate
  capacity_eq : b.capacity = capacity
  refillInterval_eq : b.refillInterval = refillInterval
  tokens_le : b.tokens ≤ capacity

variable {rate capacity refillInterval : K}

theorem Bounded.step [IsStrictOrderedRing K] (h : b.Bounded rate capacity refillInterval) (htokens : 0 ≤ call.tokens) :
    (b.step call).Bounded rate capacity refillInterval := by
  obtain ⟨-,-,hcapacity,hrate,hinterval⟩ := b.allowRequest_cases call.tokens call.now
  exact ⟨hrate.trans h.rate_eq,hcapacity.trans h.capacity_eq,hinterval.trans h.refillInterval_eq,
    h.capacity_eq ▸ b.tokens_allowRequest_le htokens call.now⟩

theorem follows_record (h : b.Bounded rate capacity refillInterval) {r : BucketRecord K} (hlevel : r.level = b.tokens)
    (hnow : r.now = b.lastRefill) : (account rate refillInterval).Follows r (b.record call) := by
  have hadd := b.tokens_refill_le_add call.now
  rw [h.rate_eq,h.refillInterval_eq] at hadd
  unfold Account.Follows account
  dsimp only
  rw [level_add_granted,hlevel,hnow]
  exact hadd

/-- What is granted from one granted call to another is covered by a full bucket and the time
between them, and no call leaves more than the capacity or grants what is not there. -/
theorem token_bucket_bound [IsStrictOrderedRing K] (rate capacity refillInterval created : K)
    {calls : List (BucketCall K)} (htokens : ∀ call ∈ calls, 0 ≤ call.tokens) :
    let b := init rate capacity refillInterval created
    (∀ window, window <:+: b.records calls → ∀ first last, window.head? = some first → window.getLast? = some last →
      first.allowed = true → last.allowed = true →
      (window.map BucketRecord.granted).sum ≤ capacity + rate / refillInterval * (last.now - first.now)) ∧
    (run step b calls).tokens ≤ capacity ∧
    ∀ r ∈ b.records calls, r.level ≤ capacity ∧ (r.allowed = true → 0 ≤ r.level) := by
  intro b
  have hstep : ∀ (b : TokenBucketLimiter K) (call : BucketCall K), b.Bounded rate capacity refillInterval →
      0 ≤ call.tokens → (b.step call).Bounded rate capacity refillInterval := fun _ _ h htokens => h.step htokens
  have hs : b.Bounded rate capacity refillInterval := ⟨rfl,rfl,rfl,le_rfl⟩
  have halong : Along step (fun _ call => 0 ≤ call.tokens) b calls := along_of_forall htokens b
  have hrecords : ∀ r ∈ b.records calls, (r.level + r.granted ≤ capacity ∧ r.level ≤ capacity) ∧
      (r.allowed = true → 0 ≤ r.level) := by
    refine forall_observed hstep (fun b call h htokens => ⟨⟨?_,(h.step htokens).tokens_le⟩,fun hallowed => ?_⟩)
      hs halong
    · rw [level_add_granted,← h.capacity_eq]
      exact b.tokens_refill_le call.now
    · exact b.tokens_nonneg_of_allowed hallowed
  have hchain : (b.records calls).IsChain (account rate refillInterval).Follows :=
    isChain_observed hstep (D := fun b r => r.level = b.tokens ∧ r.now = b.lastRefill)
      (fun b call _ _ => ⟨rfl,(b.allowRequest_cases call.tokens call.now).2.1.symm⟩)
      (fun b r call h _ hr => follows_record h hr.1 hr.2) hs halong
  refine ⟨fun window hwindow first last hfirst hlast _ hallowed => ?_,(run_invariant hstep hs halong).tokens_le,
    fun r hr => ⟨(hrecords r hr).1.2,(hrecords r hr).2⟩⟩
  have hmem := hwindow.subset (List.mem_of_mem_head? hfirst)
  have hmem' := hwindow.subset (List.mem_of_mem_getLast? hlast)
  have hspent := Account.spent_le hchain hwindow hfirst hlast (hrecords first hmem).1.1
    ((hrecords last hmem').2 hallowed)
  rw [mul_sub]
  exact hspent

/-- The first call takes all tokens. The second one is rejected, and a third one, for which the clock
goes back, too. -/
theorem token_bucket_bound_three_calls :
    let b : TokenBucketLimiter ℚ := init 10 2 1 0
    let calls : List (BucketCall ℚ) := [⟨2,1⟩,⟨1,1⟩,⟨0,1 / 2⟩]
    (∀ window, window <:+: b.records calls → ∀ first last, window.head? = some first → window.getLast? = some last →
      first.allowed = true → last.allowed = true →
      (window.map BucketRecord.granted).sum ≤ 2 + 10 / 1 * (last.now - first.now)) ∧
    (run step b calls).tokens ≤ 2 ∧ ∀ r ∈ b.records calls, r.level ≤ 2 ∧ (r.allowed = true → 0 ≤ r.level) :=
  token_bucket_bound 10 2 1 0 (by simp)

end TokenBucketLimiter
end DistributedSystems.RateLimiting
