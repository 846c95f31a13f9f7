import Mathlib.Algebra.Order.Floor.Defs
import Mathlib.Algebra.Order.Field.Basic
import Mathlib.Data.Nat.Bitwise

/-! # Bloom filters

An element sets the bits at a few positions that are hashed from two seeds. The bits are one
integer, the rates are numbers of an ordered field, and its logarithm is a parameter.
-/
namespace DistributedSystems.Bloom

inductive Error
  | valueError (message : String)
  | zeroDivisionError
  | indexError
  deriving DecidableEq

/-- What the constructor computes. -/
structure Parameters (K : Type) where
  expectedElements : ℤ
  falsePositiveRate : K
  size : ℕ
  numHashes : ℕ

section Init
variable {K : Type} [Field K] [LinearOrder K] [FloorSemiring K] (log : K → K)

/-- Rates are below one, so the quotient is not negative and its floor truncates it. -/
def optimalSize (n : ℤ) (p : K) : ℕ :=
  let p := if p = 0 then 1 / 10 ^ 10 else p
  ⌊-n * log p / log 2 ^ 2⌋₊

/-- The elements need at least one bit at this rate. -/
def HasPosition (n : ℤ) (p : K) : Prop := log 2 ^ 2 ≤ -n * log p

def optimalHashes (m : ℕ) (n : ℤ) : ℕ := max 1 ⌊m * log 2 / n⌋₊

def Parameters.init (expectedElements : ℤ) (falsePositiveRate : K) : Except Error (Parameters K) :=
  if expectedElements ≤ 0 then .error (.valueError "expected_elements must be positive")
  else if ¬(0 < falsePositiveRate ∧ falsePositiveRate < 1) then
    .error (.valueError "false_positive_rate must be between 0 and 1")
  else
    let size := optimalSize log expectedElements falsePositiveRate
    .ok ⟨expectedElements,falsePositiveRate,size,optimalHashes log size expectedElements⟩

end Init

namespace Parameters
variable {K : Type} (p : Parameters K)

/-- Double hashing; a remainder by zero raises. -/
def index (seeds : ℕ × ℕ) (i : ℕ) : Except Error ℕ :=
  if p.size = 0 then .error .zeroDivisionError else .ok ((seeds.1 + i * seeds.2) % p.size)

/-- The positions of an element, in the order of its hashes. -/
def positions (seeds : ℕ × ℕ) : List ℕ := (List.range p.numHashes).map fun i => (seeds.1 + i * seeds.2) % p.size

variable {p}

/-- No remainder by zero is taken. -/
def Usable (p : Parameters K) : Prop := p.size = 0 → p.numHashes = 0

theorem index_eq (hsize : p.size ≠ 0) (seeds : ℕ × ℕ) (i : ℕ) :
    p.index seeds i = pure ((seeds.1 + i * seeds.2) % p.size) := if_neg hsize

theorem index_eq_error (hsize : p.size = 0) (seeds : ℕ × ℕ) (i : ℕ) : p.index seeds i = .error .zeroDivisionError :=
  if_pos hsize

/-- A loop over the hashes is a loop over the positions. -/
theorem foldlM_index (h : p.Usable) {S : Type} (update : S → ℕ → S) (seeds : ℕ × ℕ) (s : S) :
    ((List.range p.numHashes).foldlM (fun s i => do
      let idx ← p.index seeds i
      return update s idx) s : Except Error S) = .ok ((p.positions seeds).foldl update s) := by
  by_cases hsize : p.size = 0
  · rw [positions,h hsize]
    rfl
  · simp only [index_eq hsize,pure_bind,List.foldlM_pure,positions,List.foldl_map]
    rfl

theorem allM_index (h : p.Usable) (test : ℕ → Bool) (seeds : ℕ × ℕ) :
    ((List.range p.numHashes).allM (fun i => do
      let idx ← p.index seeds i
      return test idx) : Except Error Bool) = .ok ((p.positions seeds).all test) := by
  by_cases hsize : p.size = 0
  · rw [positions,h hsize]
    rfl
  · simp only [index_eq hsize,pure_bind,List.allM_pure,positions,List.all_map]
    rfl

theorem mapM_index (h : p.Usable) (seeds : ℕ × ℕ) :
    (List.range p.numHashes).mapM (p.index seeds) = .ok (p.positions seeds) := by
  by_cases hsize : p.size = 0
  · rw [positions,h hsize]
    rfl
  · rw [funext (index_eq hsize seeds),List.mapM_pure]
    rfl

theorem not_usable_iff : ¬p.Usable ↔ p.size = 0 ∧ 0 < p.numHashes := by
  rw [Usable,Classical.not_imp,Nat.pos_iff_ne_zero]

/-- Otherwise the first hash raises. -/
theorem range_numHashes (hhashes : 0 < p.numHashes) :
    List.range p.numHashes = 0 :: (List.range (p.numHashes - 1)).map (· + 1) := by
  obtain ⟨n,hn⟩ := Nat.exists_eq_succ_of_ne_zero hhashes.ne'
  rw [hn]
  exact List.range_succ_eq_map

theorem foldlM_index_error (h : ¬p.Usable) {S : Type} (update : S → ℕ → S) (seeds : ℕ × ℕ) (s : S) :
    ((List.range p.numHashes).foldlM (fun s i => do
      let idx ← p.index seeds i
      return update s idx) s : Except Error S) = .error .zeroDivisionError := by
  obtain ⟨hsize,hhashes⟩ := not_usable_iff.mp h
  rw [range_numHashes hhashes,List.foldlM_cons,index_eq_error hsize]
  rfl

end Parameters

structure BloomFilter (K : Type) extends Parameters K where
  bitArray : ℕ
  count : ℕ

namespace BloomFilter
variable {K E : Type} (hashSeeds : E → ℕ × ℕ)

def init [Field K] [LinearOrder K] [FloorSemiring K] (log : K → K) (expectedElements : ℤ) (falsePositiveRate : K) :
    Except Error (BloomFilter K) := do
  let p ← Parameters.init log expectedElements falsePositiveRate
  return ⟨p,0,0⟩

def add (f : BloomFilter K) (element : E) : Except Error (BloomFilter K) := do
  let bitArray ← (List.range f.numHashes).foldlM (fun bits i => do
    let idx ← f.index (hashSeeds element) i
    return bits ||| 1 <<< idx) f.bitArray
  return { f with bitArray := bitArray, count := f.count + 1 }

def contains (f : BloomFilter K) (element : E) : Except Error Bool :=
  (List.range f.numHashes).allM fun i => do
    let idx ← f.index (hashSeeds element) i
    return decide (f.bitArray &&& 1 <<< idx ≠ 0)

end BloomFilter

/-- The two halves of the digest of `a`. -/
def sampleSeeds : String → ℕ × ℕ := fun _ => (12157170054180749580,7000413967451013937)

section Bits

theorem and_shiftLeft_ne_zero_iff (bits idx : ℕ) : bits &&& 1 <<< idx ≠ 0 ↔ bits.testBit idx = true := by
  rw [Nat.one_shiftLeft,Nat.and_two_pow]
  cases bits.testBit idx <;> simp

theorem testBit_foldl_or (indices : List ℕ) (bits j : ℕ) :
    (indices.foldl (fun bits idx => bits ||| 1 <<< idx) bits).testBit j = true ↔
      bits.testBit j = true ∨ j ∈ indices := by
  induction indices generalizing bits with
  | nil => simp
  | cons idx rest ih =>
    rw [List.foldl_cons,ih,Nat.testBit_or,Bool.or_eq_true,Nat.one_shiftLeft,Nat.testBit_two_pow,decide_eq_true_eq,
      List.mem_cons,or_assoc,@eq_comm _ idx j]

end Bits

namespace BloomFilter
variable {K E : Type} {hashSeeds : E → ℕ × ℕ} {f f' : BloomFilter K}

/-- The positions of an element are set. -/
def Holds (hashSeeds : E → ℕ × ℕ) (f : BloomFilter K) (element : E) : Prop :=
  ∀ j ∈ f.positions (hashSeeds element), f.bitArray.testBit j = true

theorem add_eq (h : f.Usable) (element : E) : f.add hashSeeds element = .ok { f with
    bitArray := (f.positions (hashSeeds element)).foldl (fun bits idx => bits ||| 1 <<< idx) f.bitArray,
    count := f.count + 1 } := by
  rw [add,Parameters.foldlM_index h (fun bits idx => bits ||| 1 <<< idx)]
  rfl

theorem add_eq_error (h : ¬f.Usable) (element : E) : f.add hashSeeds element = .error .zeroDivisionError := by
  rw [add,Parameters.foldlM_index_error h (fun bits idx => bits ||| 1 <<< idx)]
  rfl

/-- An addition counts, holds its element and loses none. -/
theorem add_ok {element : E} (h : f.add hashSeeds element = .ok f') :
    f.Usable ∧ f'.toParameters = f.toParameters ∧ f'.count = f.count + 1 ∧
      ∀ x, x = element ∨ f.Holds hashSeeds x → f'.Holds hashSeeds x := by
  by_cases husable : f.Usable
  · rw [add_eq husable] at h
    cases h
    refine ⟨husable,rfl,rfl,?_⟩
    rintro x (rfl | hx) j hj
    · exact (testBit_foldl_or _ _ _).mpr (Or.inr hj)
    · exact (testBit_foldl_or _ _ _).mpr (Or.inl (hx j hj))
  · rw [add_eq_error husable] at h
    cases h

/-- What is reported is held. -/
theorem contains_eq (hashSeeds : E → ℕ × ℕ) (h : f.Usable) (element : E) :
    ∃ found, f.contains hashSeeds element = .ok found ∧ (found = true ↔ f.Holds hashSeeds element) := by
  refine ⟨_,Parameters.allM_index h (fun j => decide (f.bitArray &&& 1 <<< j ≠ 0)) _,?_⟩
  rw [List.all_eq_true]
  simp only [decide_eq_true_eq,and_shiftLeft_ne_zero_iff]
  exact Iff.rfl

end BloomFilter
end DistributedSystems.Bloom
