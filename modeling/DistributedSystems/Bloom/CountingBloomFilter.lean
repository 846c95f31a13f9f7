import DistributedSystems.Bloom.BloomFilter
import DistributedSystems.Protocol.Runs
import Mathlib.Algebra.Order.BigOperators.Group.Multiset
import Mathlib.Data.Rat.Defs

/-! # Counting Bloom filters

Counters in place of bits let elements be removed. A counter stops at its largest value, and
what it has not counted is missing when it is counted down.
-/
namespace DistributedSystems.Bloom
open Runs

/-- The buckets are an array, zero beyond its size. -/
structure CountingBloomFilter (K : Type) extends Parameters K where
  buckets : ℕ → ℕ
  count : ℤ

namespace CountingBloomFilter

def increment (buckets : ℕ → ℕ) (idx : ℕ) : ℕ → ℕ :=
  if buckets idx < 4294967295 then Function.update buckets idx (buckets idx + 1) else buckets

def decrement (buckets : ℕ → ℕ) (idx : ℕ) : ℕ → ℕ :=
  if 0 < buckets idx then Function.update buckets idx (buckets idx - 1) else buckets

variable {K E : Type} (hashSeeds : E → ℕ × ℕ)

def add (f : CountingBloomFilter K) (element : E) : Except Error (CountingBloomFilter K) := do
  let buckets ← (List.range f.numHashes).foldlM (fun buckets i => do
    let idx ← f.index (hashSeeds element) i
    return increment buckets idx) f.buckets
  return { f with buckets := buckets, count := f.count + 1 }

def contains (f : CountingBloomFilter K) (element : E) : Except Error Bool :=
  (List.range f.numHashes).allM fun i => do
    let idx ← f.index (hashSeeds element) i
    return decide (f.buckets idx ≠ 0)

def remove (f : CountingBloomFilter K) (element : E) : Except Error (CountingBloomFilter K × Bool) := do
  if ¬(← f.contains hashSeeds element) then
    return (f,false)
  let indices ← (List.range f.numHashes).mapM (f.index (hashSeeds element))
  return ({ f with buckets := indices.foldl decrement f.buckets, count := f.count - 1 },true)

end CountingBloomFilter

inductive Call (E : Type)
  | add (element : E)
  | remove (element : E)

/-- A filter with the elements of the calls that have returned. -/
structure Tracked (K E : Type) where
  filter : CountingBloomFilter K
  added : Multiset E
  removed : Multiset E

namespace Tracked
variable {K E : Type}

def start (p : Parameters K) : Tracked K E := ⟨⟨p,fun _ => 0,0⟩,0,0⟩

def step (hashSeeds : E → ℕ × ℕ) (t : Tracked K E) : Call E → Tracked K E
  | .add element =>
    match t.filter.add hashSeeds element with
    | .ok f => ⟨f,element ::ₘ t.added,t.removed⟩
    | .error _ => t
  | .remove element =>
    match t.filter.remove hashSeeds element with
    | .ok (f,_) => ⟨f,t.added,element ::ₘ t.removed⟩
    | .error _ => t

end Tracked

section Counters
open CountingBloomFilter
variable {buckets : ℕ → ℕ}

theorem increment_apply (h : ∀ j, buckets j ≤ 4294967295) (idx j : ℕ) :
    increment buckets idx j = min 4294967295 (buckets j + if idx = j then 1 else 0) := by
  unfold increment
  have := h j
  split
  · rw [Function.update_apply]
    split_ifs <;> grind
  · split_ifs <;> grind

/-- Increments add up to the largest value of a counter. -/
theorem foldl_increment (h : ∀ j, buckets j ≤ 4294967295) (indices : List ℕ) (j : ℕ) :
    indices.foldl increment buckets j = min 4294967295 (buckets j + indices.count j) := by
  induction indices generalizing buckets with
  | nil => simp [h j]
  | cons idx rest ih =>
    have hnext : ∀ j, increment buckets idx j ≤ 4294967295 := fun j => increment_apply h idx j ▸ min_le_left _ _
    rw [List.foldl_cons,ih hnext,increment_apply h,List.count_cons]
    simp only [beq_iff_eq]
    omega

theorem decrement_apply (idx j : ℕ) : decrement buckets idx j = buckets j - if idx = j then 1 else 0 := by
  unfold decrement
  split
  · rw [Function.update_apply]
    split_ifs <;> grind
  · split_ifs <;> grind

theorem foldl_decrement (indices : List ℕ) (j : ℕ) :
    indices.foldl decrement buckets j = buckets j - indices.count j := by
  induction indices generalizing buckets with
  | nil => simp
  | cons idx rest ih =>
    rw [List.foldl_cons,ih,decrement_apply,List.count_cons]
    simp only [beq_iff_eq]
    omega

end Counters

namespace CountingBloomFilter
variable {K E : Type} {hashSeeds : E → ℕ × ℕ} {f : CountingBloomFilter K}

theorem add_eq (h : f.Usable) (element : E) : f.add hashSeeds element = .ok { f with
    buckets := (f.positions (hashSeeds element)).foldl increment f.buckets, count := f.count + 1 } := by
  rw [add,Parameters.foldlM_index h]
  rfl

theorem contains_iff (h : f.Usable) (element : E) :
    f.contains hashSeeds element = .ok true ↔ ∀ j ∈ f.positions (hashSeeds element), f.buckets j ≠ 0 := by
  rw [contains,Parameters.allM_index h (fun j => decide (f.buckets j ≠ 0)),Except.ok.injEq,List.all_eq_true]
  simp only [decide_eq_true_eq]

theorem remove_eq (h : f.Usable) {element : E} (hcontains : f.contains hashSeeds element = .ok true) :
    f.remove hashSeeds element = .ok ({ f with
      buckets := (f.positions (hashSeeds element)).foldl decrement f.buckets, count := f.count - 1 },true) := by
  rw [remove,hcontains,Parameters.mapM_index h]
  rfl

theorem add_eq_error (h : ¬f.Usable) (element : E) : f.add hashSeeds element = .error .zeroDivisionError := by
  rw [add,Parameters.foldlM_index_error h]
  rfl

end CountingBloomFilter

namespace Tracked
variable {K E : Type} [DecidableEq E] {hashSeeds : E → ℕ × ℕ} {t : Tracked K E}

/-- The elements that were added more often than removed, as often. -/
def outstanding (t : Tracked K E) : Multiset E := t.added - t.removed

/-- How often the hashes of the outstanding elements hit a counter. -/
def due (hashSeeds : E → ℕ × ℕ) (t : Tracked K E) (j : ℕ) : ℕ :=
  (t.outstanding.map fun element => (t.filter.positions (hashSeeds element)).count j).sum

/-- Only elements that were added more often than removed are removed. -/
def Balanced (t : Tracked K E) : Call E → Prop
  | .add _ => True
  | .remove element => t.removed.count element < t.added.count element

/-- No increment of a counter that is counted down was lost. -/
def Unsaturated (hashSeeds : E → ℕ × ℕ) (t : Tracked K E) : Call E → Prop
  | .add _ => True
  | .remove element => ∀ j ∈ t.filter.positions (hashSeeds element), t.due hashSeeds j ≤ 4294967295

instance (t : Tracked K E) (call : Call E) : Decidable (t.Balanced call) :=
  match call with
  | .add _ => inferInstanceAs (Decidable True)
  | .remove element => inferInstanceAs (Decidable (t.removed.count element < t.added.count element))

instance (t : Tracked K E) (call : Call E) : Decidable (t.Unsaturated hashSeeds call) :=
  match call with
  | .add _ => inferInstanceAs (Decidable True)
  | .remove element => inferInstanceAs
    (Decidable (∀ j ∈ t.filter.positions (hashSeeds element), t.due hashSeeds j ≤ 4294967295))

/-- The counters count the outstanding elements, up to their largest value. -/
structure Counts (hashSeeds : E → ℕ × ℕ) (t : Tracked K E) : Prop where
  removed_le : t.removed ≤ t.added
  usable : t.added ≠ 0 → t.filter.Usable
  buckets : ∀ j, t.filter.buckets j = min 4294967295 (t.due hashSeeds j)
  count : t.filter.count = t.added.card - t.removed.card

theorem mem_outstanding_iff {element : E} : element ∈ t.outstanding ↔ t.removed.count element < t.added.count element :=
  Multiset.mem_sub

theorem count_le_due {element : E} (h : element ∈ t.outstanding) (j : ℕ) :
    (t.filter.positions (hashSeeds element)).count j ≤ t.due hashSeeds j := by
  have hmem := Multiset.mem_map_of_mem (fun element => (t.filter.positions (hashSeeds element)).count j) h
  exact Multiset.le_sum_of_mem hmem

/-- An outstanding element is reported. -/
theorem Counts.contains (h : t.Counts hashSeeds) {element : E} (helement : element ∈ t.outstanding) :
    t.filter.contains hashSeeds element = .ok true := by
  have hadded : element ∈ t.added := Multiset.mem_of_le (Multiset.sub_le_self _ _) helement
  rw [CountingBloomFilter.contains_iff (h.usable fun hnil => Multiset.notMem_zero element (hnil ▸ hadded))]
  intro j hj
  have hdue : (t.filter.positions (hashSeeds element)).count j ≤ t.due hashSeeds j := count_le_due helement j
  have hpos := (List.count_pos_iff.mpr hj).trans_le hdue
  rw [h.buckets]
  omega

theorem counts_start (p : Parameters K) : (start p : Tracked K E).Counts hashSeeds where
  removed_le := le_rfl
  usable := fun hne => absurd rfl hne
  buckets := fun j => by simp [start,due,outstanding]
  count := by simp [start]

theorem Counts.add (h : t.Counts hashSeeds) (element : E) : (t.step hashSeeds (.add element)).Counts hashSeeds := by
  by_cases husable : t.filter.Usable
  · rw [step,CountingBloomFilter.add_eq husable]
    constructor
    · exact h.removed_le.trans (Multiset.le_cons_self _ _)
    · exact fun _ => husable
    · intro j
      have hle : ∀ j, t.filter.buckets j ≤ 4294967295 := fun j => h.buckets j ▸ min_le_left _ _
      dsimp only [due,outstanding]
      rw [foldl_increment hle,h.buckets,due,outstanding,Multiset.cons_sub_of_le _ h.removed_le,Multiset.map_cons,
        Multiset.sum_cons]
      omega
    · dsimp only
      rw [h.count,Multiset.card_cons]
      omega
  · rw [step,CountingBloomFilter.add_eq_error husable]
    exact h

/-- A removal that loses nothing counts down by what its element has counted up. -/
theorem Counts.remove (h : t.Counts hashSeeds) {element : E} (hbalanced : t.Balanced (.remove element))
    (hunsat : t.Unsaturated hashSeeds (.remove element)) : (t.step hashSeeds (.remove element)).Counts hashSeeds := by
  have helement : element ∈ t.outstanding := mem_outstanding_iff.mpr hbalanced
  have hadded : element ∈ t.added := Multiset.mem_of_le (Multiset.sub_le_self _ _) helement
  have husable := h.usable fun hnil => Multiset.notMem_zero element (hnil ▸ hadded)
  have hremoved : element ::ₘ t.removed ≤ t.added := by
    rw [Multiset.le_iff_count]
    intro x
    have hx := Multiset.le_iff_count.mp h.removed_le x
    by_cases heq : x = element
    · subst x
      rw [Multiset.count_cons_self]
      exact hbalanced
    · rwa [Multiset.count_cons_of_ne heq]
  rw [step,CountingBloomFilter.remove_eq husable (h.contains helement)]
  constructor
  · exact hremoved
  · exact fun _ => husable
  · intro j
    have hdue : t.due hashSeeds j = (t.filter.positions (hashSeeds element)).count j +
        (((t.added - t.removed).erase element).map fun x => (t.filter.positions (hashSeeds x)).count j).sum := by
      have hcons : t.outstanding = element ::ₘ (t.added - t.removed).erase element :=
        (Multiset.cons_erase helement).symm
      rw [due,hcons,Multiset.map_cons,Multiset.sum_cons]
    have hdrop : t.added - (element ::ₘ t.removed) = (t.added - t.removed).erase element := by
      rw [← Multiset.singleton_add,Multiset.add_comm,Multiset.sub_add_eq_sub_sub,Multiset.sub_singleton]
    dsimp only [due,outstanding]
    rw [foldl_decrement,h.buckets,hdrop]
    by_cases hj : j ∈ t.filter.positions (hashSeeds element)
    · have := hunsat j hj
      omega
    · rw [hdue,List.count_eq_zero_of_not_mem hj,Nat.zero_add,Nat.sub_zero]
  · dsimp only
    rw [h.count,Multiset.card_cons]
    omega

/-- In runs that never count down what was lost to saturation, every element that was added more
often than removed is reported, and the count is that of the elements in the filter. -/
theorem no_false_negatives (p : Parameters K) (hashSeeds : E → ℕ × ℕ) {schedule : List (Call E)}
    (hbalanced : Along (step hashSeeds) Balanced (start p) schedule)
    (hunsat : Along (step hashSeeds) (Unsaturated hashSeeds) (start p) schedule) :
    let t := run (step hashSeeds) (start p) schedule
    (∀ element, t.removed.count element < t.added.count element → t.filter.contains hashSeeds element = .ok true) ∧
    t.filter.count = t.added.card - t.removed.card ∧
    ∀ j, t.filter.buckets j = min 4294967295 (t.due hashSeeds j) := by
  have hguard : Along (step hashSeeds) (fun t call => t.Balanced call ∧ t.Unsaturated hashSeeds call) (start p)
      schedule := Along.and hbalanced hunsat
  have hstep : ∀ (t : Tracked K E) (call : Call E), t.Counts hashSeeds →
      t.Balanced call ∧ t.Unsaturated hashSeeds call → (t.step hashSeeds call).Counts hashSeeds := by
    intro t call ht hcall
    cases call with
    | add element => exact ht.add element
    | remove element => exact ht.remove hcall.1 hcall.2
  have h := run_invariant hstep (counts_start p) hguard
  exact ⟨fun element hcount => h.contains (mem_outstanding_iff.mpr hcount),h.count,h.buckets⟩

/-- The two halves of the digests of `a` and, elsewhere, of `b`. -/
def twoSeeds (element : String) : ℕ × ℕ :=
  if element = "a" then (12157170054180749580,7000413967451013937) else (17019013823989803922,10328778650976835386)

/-- A filter for two elements at a rate of one tenth: both are added, one of them twice, and each
is removed once. -/
theorem no_false_negatives_two_elements :
    let t := run (step twoSeeds) (start ⟨2,1 / 10,9,3⟩ : Tracked ℚ String)
      [.add "a",.add "b",.add "a",.remove "a",.remove "b"]
    t.filter.contains twoSeeds "a" = .ok true ∧ t.filter.count = 1 ∧
      ∀ j, t.filter.buckets j = min 4294967295 (t.due twoSeeds j) := by
  intro t
  have hbalanced : Along (step twoSeeds) Balanced (start ⟨2,1 / 10,9,3⟩ : Tracked ℚ String)
      [.add "a",.add "b",.add "a",.remove "a",.remove "b"] := by decide +kernel
  obtain ⟨hcontains,hcount,hbuckets⟩ := no_false_negatives _ twoSeeds hbalanced (by decide +kernel)
  exact ⟨hcontains "a" (by decide +kernel),hcount.trans (by decide +kernel),hbuckets⟩

/-- The parameters for one expected element at a rate of one half. -/
def oneCounter : Parameters ℚ := ⟨1,1 / 2,1,1⟩

/-- The filter with one counter after calls for one element. -/
def counted (value added removed : ℕ) : Tracked ℚ String :=
  ⟨⟨oneCounter,fun j => if j = 0 then value else 0,added - removed⟩,Multiset.replicate added "a",
    Multiset.replicate removed "a"⟩

theorem counted_add {value : ℕ} (hvalue : value ≤ 4294967295) (added removed : ℕ) :
    (counted value added removed).step sampleSeeds (.add "a") =
      counted (min 4294967295 (value + 1)) (added + 1) removed := by
  have husable : (counted value added removed).filter.Usable := fun hsize => absurd hsize one_ne_zero
  have hbuckets : CountingBloomFilter.increment (fun j => if j = 0 then value else 0) 0 =
      fun j => if j = 0 then min 4294967295 (value + 1) else 0 := by
    funext j
    rw [increment_apply (fun j => by split <;> omega)]
    split <;> split <;> omega
  have hcount : (added : ℤ) - removed + 1 = added + 1 - removed := by omega
  rw [step,CountingBloomFilter.add_eq husable]
  simp [counted,oneCounter,Parameters.positions,Nat.mod_one,hbuckets,hcount]

theorem counted_remove {value : ℕ} (hvalue : 0 < value) (added removed : ℕ) :
    (counted value added removed).step sampleSeeds (.remove "a") = counted (value - 1) added (removed + 1) := by
  have husable : (counted value added removed).filter.Usable := fun hsize => absurd hsize one_ne_zero
  have hcontains : (counted value added removed).filter.contains sampleSeeds "a" = .ok true := by
    rw [CountingBloomFilter.contains_iff husable]
    simp [counted,oneCounter,Parameters.positions,Nat.mod_one,hvalue.ne']
  have hbuckets : CountingBloomFilter.decrement (fun j => if j = 0 then value else 0) 0 =
      fun j => if j = 0 then value - 1 else 0 := by
    funext j
    rw [decrement_apply]
    split <;> split <;> omega
  have hcount : (added : ℤ) - removed - 1 = added - (removed + 1) := by omega
  rw [step,CountingBloomFilter.remove_eq husable hcontains]
  simp [counted,oneCounter,Parameters.positions,Nat.mod_one,hbuckets,hcount]

/-- Additions count up to the largest value. -/
theorem counted_adds (n : ℕ) : run (step sampleSeeds) (counted 0 0 0) (List.replicate n (.add "a")) =
    counted (min 4294967295 n) n 0 := by
  induction n with
  | zero => rfl
  | succ n ih =>
    rw [List.replicate_succ',run_append,ih,run_cons,run_nil,counted_add (min_le_left _ _)]
    congr 1
    omega

theorem counted_removes {value k added : ℕ} (hk : k ≤ value) (hadded : k ≤ added) :
    run (step sampleSeeds) (counted value added 0) (List.replicate k (.remove "a")) =
      counted (value - k) added k ∧
    Along (step sampleSeeds) Balanced (counted value added 0) (List.replicate k (.remove "a")) := by
  induction k with
  | zero => exact ⟨rfl,trivial⟩
  | succ k ih =>
    obtain ⟨hrun,halong⟩ := ih (by omega) (by omega)
    rw [List.replicate_succ',run_append,hrun,run_cons,run_nil,counted_remove (by omega)]
    refine ⟨rfl,halong.of_append ?_⟩
    rw [hrun]
    refine ⟨?_,trivial⟩
    change Multiset.count "a" (Multiset.replicate k "a") < Multiset.count "a" (Multiset.replicate added "a")
    rw [Multiset.count_replicate_self,Multiset.count_replicate_self]
    exact hadded

theorem balanced_adds (t : Tracked ℚ String) (n : ℕ) :
    Along (step sampleSeeds) Balanced t (List.replicate n (.add "a")) := by
  induction n generalizing t with
  | zero => trivial
  | succ n ih => exact ⟨trivial,ih _⟩

/-- An element that is added once more than removed is lost, when a counter holds less. -/
theorem counted_lost {cap n : ℕ} (hcap : 4294967295 = cap) (hn : cap < n) : ∃ schedule,
    Along (step sampleSeeds) Balanced (start oneCounter) schedule ∧
    let t := run (step sampleSeeds) (start oneCounter) schedule
    t.removed.count "a" < t.added.count "a" ∧ t.filter.contains sampleSeeds "a" ≠ .ok true := by
  have hstart : (start oneCounter : Tracked ℚ String) = counted 0 0 0 := by
    simp [start,counted,oneCounter]
  obtain ⟨hrun,halong⟩ := @counted_removes cap cap n le_rfl hn.le
  have hadds := counted_adds n
  rw [hcap,min_eq_left hn.le] at hadds
  refine ⟨List.replicate n (.add "a") ++ List.replicate cap (.remove "a"),?_,?_⟩
  · rw [hstart]
    exact (balanced_adds _ n).of_append (by rwa [hadds])
  · rw [hstart,run_append,hadds,hrun,Nat.sub_self]
    constructor
    · change Multiset.count "a" (Multiset.replicate cap "a") < Multiset.count "a" (Multiset.replicate n "a")
      rwa [Multiset.count_replicate_self,Multiset.count_replicate_self]
    · have husable : (counted 0 n cap).filter.Usable := fun hsize => absurd hsize one_ne_zero
      rw [Ne,CountingBloomFilter.contains_iff husable]
      simp [counted,oneCounter,Parameters.positions]

/-- After one addition more than a counter holds, as many removals lose the element. -/
theorem saturated_counter_forgets : ¬∀ (p : Parameters ℚ) (hashSeeds : String → ℕ × ℕ) (schedule : List (Call String)),
    Along (step hashSeeds) Balanced (start p) schedule →
    let t := run (step hashSeeds) (start p) schedule
    (∀ element, t.removed.count element < t.added.count element → t.filter.contains hashSeeds element = .ok true) ∧
    t.filter.count = t.added.card - t.removed.card := by
  intro h
  obtain ⟨schedule,hbalanced,hcount,hlost⟩ := counted_lost rfl (Nat.lt_succ_self _)
  exact hlost ((h oneCounter _ schedule hbalanced).1 "a" hcount)

end Tracked
end DistributedSystems.Bloom
