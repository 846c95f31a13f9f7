import DistributedSystems.Bloom.FilterSize
import DistributedSystems.Protocol.Runs
import Mathlib.Algebra.BigOperators.Group.List.Basic
import Mathlib.Algebra.Order.BigOperators.Group.List
import Mathlib.Tactic.Linarith
import Mathlib.Tactic.Ring

/-! # Scalable Bloom filters

A full filter gets a larger one with a smaller rate behind it. All layers but the last are full,
and the rates are the terms of a geometric series below the target.
-/
namespace DistributedSystems.Bloom
open Runs

structure ScalableBloomFilter (K : Type) where
  initialSize : ℤ
  targetFpRate : K
  ratio : K
  scale : ℤ
  filters : List (BloomFilter K)
  count : ℕ

namespace ScalableBloomFilter
variable {K E : Type} [Field K] [LinearOrder K] [FloorSemiring K] (log : K → K) (hashSeeds : E → ℕ × ℕ)

def capacity (s : ScalableBloomFilter K) (k : ℕ) : ℤ := s.initialSize * s.scale ^ k

def fpRate (s : ScalableBloomFilter K) (k : ℕ) : K := s.targetFpRate * s.ratio ^ k * (1 - s.ratio)

def addFilter (s : ScalableBloomFilter K) : Except Error (ScalableBloomFilter K) := do
  let k := s.filters.length
  let newFilter ← BloomFilter.init log (s.capacity k) (s.fpRate k)
  return { s with filters := s.filters ++ [newFilter] }

def init (initialSize : ℤ) (falsePositiveRate errorTighteningRatio : K) (growthFactor : ℤ) :
    Except Error (ScalableBloomFilter K) :=
  addFilter log ⟨initialSize,falsePositiveRate,errorTighteningRatio,growthFactor,[],0⟩

/-- The last filter takes the element; what it raises leaves it unchanged. -/
def addToCurrent (s : ScalableBloomFilter K) (element : E) : ScalableBloomFilter K × Option Error :=
  match s.filters.getLast? with
  | none => (s,some .indexError)
  | some current =>
    match current.add hashSeeds element with
    | .error e => (s,some e)
    | .ok current => ({ s with filters := s.filters.dropLast ++ [current], count := s.count + 1 },none)

/-- The filter after the call, and what the call raises. -/
def add (s : ScalableBloomFilter K) (element : E) : ScalableBloomFilter K × Option Error :=
  match s.filters.getLast? with
  | none => (s,some .indexError)
  | some current =>
    if current.expectedElements ≤ current.count then
      match s.addFilter log with
      | .error e => (s,some e)
      | .ok s => s.addToCurrent hashSeeds element
    else s.addToCurrent hashSeeds element

def contains (s : ScalableBloomFilter K) (element : E) : Except Error Bool :=
  s.filters.anyM fun f => f.contains hashSeeds element

def step (s : ScalableBloomFilter K) (element : E) : ScalableBloomFilter K := (s.add log hashSeeds element).1

/-- The parameters of a layer. -/
def layer (s : ScalableBloomFilter K) (k : ℕ) : Parameters K :=
  let size := optimalSize log (s.capacity k) (s.fpRate k)
  ⟨s.capacity k,s.fpRate k,size,optimalHashes log size (s.capacity k)⟩

/-- The parameters that a filter accepts. -/
def Valid (s : ScalableBloomFilter K) (k : ℕ) : Prop := 0 < s.capacity k ∧ 0 < s.fpRate k ∧ s.fpRate k < 1

/-- What every call keeps: all layers but the last are full. -/
structure Layered (s : ScalableBloomFilter K) : Prop where
  layers : s.filters.map BloomFilter.toParameters = (List.range s.filters.length).map (s.layer log)
  valid : ∀ k < s.filters.length, s.Valid k
  full : ∃ older current, s.filters = older ++ [current] ∧
    (∀ f ∈ older, (f.count : ℤ) = f.expectedElements) ∧ (current.count : ℤ) ≤ current.expectedElements
  count : s.count = (s.filters.map BloomFilter.count).sum

variable {log hashSeeds} {s s' : ScalableBloomFilter K}

/-- Some layer holds the element. -/
def Holds (hashSeeds : E → ℕ × ℕ) (s : ScalableBloomFilter K) (element : E) : Prop :=
  ∃ f ∈ s.filters, f.Holds hashSeeds element

/-- A layer without counts behind the others. -/
def opened (log : K → K) (s : ScalableBloomFilter K) : ScalableBloomFilter K :=
  { s with filters := s.filters ++ [⟨s.layer log s.filters.length,0,0⟩] }

theorem addFilter_eq (h : s.Valid s.filters.length) : s.addFilter log = .ok (s.opened log) := by
  obtain ⟨hcapacity,hrate⟩ := h
  rw [addFilter,BloomFilter.init,Parameters.init,if_neg (not_le.mpr hcapacity),if_neg (not_not.mpr hrate)]
  rfl

theorem addFilter_error (h : ¬s.Valid s.filters.length) :
    ∃ message, s.addFilter log = .error (.valueError message) := by
  rw [addFilter,BloomFilter.init,Parameters.init]
  by_cases hcapacity : s.capacity s.filters.length ≤ 0
  · exact ⟨_,by rw [if_pos hcapacity]; rfl⟩
  · have hrate : ¬(0 < s.fpRate s.filters.length ∧ s.fpRate s.filters.length < 1) := fun hrate =>
      h ⟨not_le.mp hcapacity,hrate⟩
    exact ⟨_,by rw [if_neg hcapacity,if_pos hrate]; rfl⟩

theorem map_layer_succ (n : ℕ) :
    (List.range (n + 1)).map (s.layer log) = (List.range n).map (s.layer log) ++ [s.layer log n] := by
  rw [List.range_succ,List.map_append,List.map_singleton]

/-- A layer is opened when the last one is full. -/
theorem Layered.opens (h : s.Layered log) (hvalid : s.Valid s.filters.length)
    (hfull : ∀ f ∈ s.filters, (f.count : ℤ) = f.expectedElements) : (s.opened log).Layered log := by
  refine ⟨?_,?_,⟨s.filters,_,rfl,hfull,?_⟩,?_⟩
  · change (s.filters ++ [_]).map BloomFilter.toParameters = (List.range (s.filters ++ [_]).length).map (s.layer log)
    rw [List.length_append,List.length_singleton,map_layer_succ,List.map_append,h.layers]
    rfl
  · intro k hk
    change k < (s.filters ++ [_]).length at hk
    rw [List.length_append,List.length_singleton,Nat.lt_succ_iff_lt_or_eq] at hk
    rcases hk with hk | rfl
    · exact h.valid k hk
    · exact hvalid
  · exact hvalid.1.le
  · change s.count = ((s.filters ++ [_]).map BloomFilter.count).sum
    rw [List.map_append,List.sum_append,h.count]
    rfl

/-- What the last filter does with an element when it has room. -/
theorem Layered.addToCurrent (h : s.Layered log) (hashSeeds : E → ℕ × ℕ) {older : List (BloomFilter K)}
    {current : BloomFilter K} (hfilters : s.filters = older ++ [current])
    (hfull : ∀ f ∈ older, (f.count : ℤ) = f.expectedElements)
    (hroom : (current.count : ℤ) < current.expectedElements) (element : E) :
    (∃ filters, s.addToCurrent hashSeeds element = ({ s with filters := filters, count := s.count + 1 },none) ∧
      Layered log { s with filters := filters, count := s.count + 1 } ∧ filters.length = s.filters.length ∧
      ∀ x, x = element ∨ s.Holds hashSeeds x → ∃ f ∈ filters, f.Holds hashSeeds x) ∨
    s.addToCurrent hashSeeds element = (s,some .zeroDivisionError) ∧ ¬current.Usable := by
  unfold ScalableBloomFilter.addToCurrent
  simp only [hfilters,List.getLast?_concat,List.dropLast_concat]
  cases hadd : current.add hashSeeds element with
  | error e =>
    by_cases husable : current.Usable
    · rw [BloomFilter.add_eq husable] at hadd
      cases hadd
    · rw [BloomFilter.add_eq_error husable] at hadd
      cases hadd
      exact Or.inr ⟨rfl,husable⟩
  | ok current' =>
    obtain ⟨-,hparameters,hcount,hholds⟩ := BloomFilter.add_ok hadd
    have hlayers := h.layers
    have hsum := h.count
    have hvalid := h.valid
    rw [hfilters] at hlayers hsum hvalid
    rw [List.map_append,List.map_singleton] at hlayers hsum
    refine Or.inl ⟨older ++ [current'],rfl,⟨?_,?_,⟨older,current',rfl,hfull,?_⟩,?_⟩,by simp,?_⟩
    · change (older ++ [current']).map BloomFilter.toParameters =
        (List.range (older ++ [current']).length).map (s.layer log)
      rw [List.map_append,List.map_singleton,hparameters,hlayers,List.length_append,List.length_append]
      rfl
    · intro k hk
      exact hvalid k (by simpa using hk)
    · rw [hcount,hparameters]
      push_cast
      omega
    · dsimp only
      rw [List.map_append,List.map_singleton,hcount,hsum]
      simp [Nat.add_assoc]
    · rintro x (rfl | ⟨f,hf,hx⟩)
      · exact ⟨current',by simp,hholds x (Or.inl rfl)⟩
      · rw [hfilters,List.mem_append,List.mem_singleton] at hf
        rcases hf with hf | rfl
        · exact ⟨f,List.mem_append_left _ hf,hx⟩
        · exact ⟨current',by simp,hholds x (Or.inr hx)⟩

/-- An addition is refused with the parameters of the next layer, succeeds, or ends at a layer
without positions. -/
theorem Layered.add_cases (h : s.Layered log) (hashSeeds : E → ℕ × ℕ) (element : E) :
    (∃ message, s.add log hashSeeds element = (s,some (.valueError message)) ∧ ¬s.Valid s.filters.length) ∨
    (∃ filters, s.add log hashSeeds element = ({ s with filters := filters, count := s.count + 1 },none) ∧
      Layered log { s with filters := filters, count := s.count + 1 } ∧ s.filters.length ≤ filters.length ∧
      ∀ x, x = element ∨ s.Holds hashSeeds x → ∃ f ∈ filters, f.Holds hashSeeds x) ∨
    (∃ filters, s.add log hashSeeds element = ({ s with filters := filters },some .zeroDivisionError) ∧
      Layered log { s with filters := filters } ∧ s.filters.length ≤ filters.length ∧ ∃ f ∈ filters, ¬f.Usable) := by
  obtain ⟨older,current,hfilters,hfull,hcurrent⟩ := h.full
  have hlast : s.filters.getLast? = some current := by rw [hfilters,List.getLast?_concat]
  unfold ScalableBloomFilter.add
  rw [hlast]
  dsimp only
  by_cases hroom : (current.count : ℤ) < current.expectedElements
  · rw [if_neg (not_le.mpr hroom)]
    rcases h.addToCurrent hashSeeds hfilters hfull hroom element with
      ⟨filters,heq,hlayered,hlen,hholds⟩ | ⟨heq,hnot⟩
    · exact Or.inr (Or.inl ⟨filters,heq,hlayered,hlen.ge,hholds⟩)
    · exact Or.inr (Or.inr ⟨s.filters,heq,h,le_rfl,current,by simp [hfilters],hnot⟩)
  · rw [if_pos (not_lt.mp hroom)]
    by_cases hvalid : s.Valid s.filters.length
    · have hall : ∀ f ∈ s.filters, (f.count : ℤ) = f.expectedElements := by
        intro f hf
        rw [hfilters,List.mem_append,List.mem_singleton] at hf
        rcases hf with hf | rfl
        · exact hfull f hf
        · omega
      have hopened := h.opens hvalid hall
      rw [addFilter_eq hvalid]
      dsimp only
      rcases hopened.addToCurrent hashSeeds rfl hall hvalid.1 element with
        ⟨filters,heq,hlayered,hlen,hholds⟩ | ⟨heq,hnot⟩
      · refine Or.inr (Or.inl ⟨filters,heq,hlayered,?_,fun x hx => hholds x ?_⟩)
        · rw [hlen]
          simp [opened]
        · exact hx.imp_right fun ⟨f,hf,hx⟩ => ⟨f,List.mem_append_left _ hf,hx⟩
      · exact Or.inr (Or.inr ⟨_,heq,hopened,by simp,_,by simp,hnot⟩)
    · obtain ⟨message,herror⟩ := @addFilter_error K _ _ _ log s hvalid
      rw [herror]
      exact Or.inl ⟨message,rfl,hvalid⟩

theorem Layered.step (h : s.Layered log) (hashSeeds : E → ℕ × ℕ) (element : E) :
    (s.step log hashSeeds element).Layered log := by
  unfold ScalableBloomFilter.step
  rcases h.add_cases hashSeeds element with ⟨message,heq,-⟩ | ⟨filters,heq,hlayered,-⟩ | ⟨filters,heq,hlayered,-⟩
  · rwa [heq]
  · rwa [heq]
  · rwa [heq]

/-- A filter before its first layer. -/
def empty (initialSize : ℤ) (targetFpRate ratio : K) (scale : ℤ) : ScalableBloomFilter K :=
  ⟨initialSize,targetFpRate,ratio,scale,[],0⟩

/-- The constructor opens the first layer. -/
theorem init_eq {initialSize scale : ℤ} {targetFpRate ratio : K}
    (hvalid : (empty initialSize targetFpRate ratio scale).Valid 0) :
    init log initialSize targetFpRate ratio scale = .ok ((empty initialSize targetFpRate ratio scale).opened log) ∧
      ((empty initialSize targetFpRate ratio scale).opened log).Layered log := by
  refine ⟨addFilter_eq hvalid,rfl,?_,⟨[],_,rfl,fun _ hf => absurd hf List.not_mem_nil,hvalid.1.le⟩,rfl⟩
  intro k hk
  obtain rfl : k = 0 := Nat.lt_one_iff.mp hk
  exact hvalid

theorem valid_of_init {initialSize scale : ℤ} {targetFpRate ratio : K}
    (h : init log initialSize targetFpRate ratio scale = .ok s) :
    (empty initialSize targetFpRate ratio scale).Valid 0 := by
  by_contra hnot
  obtain ⟨message,herror⟩ := @addFilter_error K _ _ _ log (empty initialSize targetFpRate ratio scale) hnot
  have hboth := h.symm.trans herror
  cases hboth

/-- States of one filter. -/
def Grown (s s' : ScalableBloomFilter K) : Prop :=
  ∃ filters count, s' = { s with filters := filters, count := count }

theorem Layered.grown_step (h : s.Layered log) (hashSeeds : E → ℕ × ℕ) (element : E) :
    s.Grown (s.step log hashSeeds element) := by
  unfold ScalableBloomFilter.step
  rcases h.add_cases hashSeeds element with ⟨message,heq,-⟩ | ⟨filters,heq,-⟩ | ⟨filters,heq,-⟩
  · exact ⟨s.filters,s.count,by rw [heq]⟩
  · exact ⟨filters,s.count + 1,by rw [heq]⟩
  · exact ⟨filters,s.count,by rw [heq]⟩

omit [Field K] [LinearOrder K] [FloorSemiring K] in
theorem Grown.trans {s'' : ScalableBloomFilter K} (h : s.Grown s') (h' : s'.Grown s'') : s.Grown s'' := by
  obtain ⟨filters,count,rfl⟩ := h
  obtain ⟨filters',count',rfl⟩ := h'
  exact ⟨filters',count',rfl⟩

/-- The layers of a filter are the first ones of the filter that it has grown from. -/
theorem Layered.mem_layers (h : s.Layered log) {f : BloomFilter K} (hf : f ∈ s.filters) :
    ∃ k < s.filters.length, f.toParameters = s.layer log k := by
  have hmem : f.toParameters ∈ s.filters.map BloomFilter.toParameters := List.mem_map_of_mem hf
  rw [h.layers] at hmem
  obtain ⟨k,hk,heq⟩ := List.mem_map.mp hmem
  exact ⟨k,List.mem_range.mp hk,heq.symm⟩

theorem Layered.exists_layer (h : s.Layered log) {k : ℕ} (hk : k < s.filters.length) :
    ∃ f ∈ s.filters, f.toParameters = s.layer log k := by
  have hmem : s.layer log k ∈ (List.range s.filters.length).map (s.layer log) :=
    List.mem_map_of_mem (List.mem_range.mpr hk)
  rw [← h.layers] at hmem
  exact List.mem_map.mp hmem

omit [Field K] [LinearOrder K] [FloorSemiring K] in
/-- With positions in every layer, what some layer holds is reported. -/
theorem contains_eq (hashSeeds : E → ℕ × ℕ) (husable : ∀ f ∈ s.filters, f.Usable) (element : E) :
    ∃ found, s.contains hashSeeds element = .ok found ∧ (found = true ↔ s.Holds hashSeeds element) := by
  unfold contains Holds
  revert husable
  induction s.filters with
  | nil => exact fun _ => ⟨false,rfl,by simp⟩
  | cons f rest ih =>
    intro husable
    obtain ⟨found,heq,hfound⟩ := BloomFilter.contains_eq hashSeeds (husable f List.mem_cons_self) element
    obtain ⟨found',heq',hfound'⟩ := ih fun f hf => husable f (List.mem_cons_of_mem _ hf)
    rw [List.anyM_cons,heq]
    cases found with
    | true => exact ⟨true,rfl,by simp [hfound.mp rfl]⟩
    | false =>
      refine ⟨found',heq',hfound'.trans ?_⟩
      rw [List.exists_mem_cons_iff,← hfound]
      simp

section Rates
variable [IsStrictOrderedRing K]

/-- The rates of the layers are below the target together. -/
theorem sum_fpRate_le (htarget : 0 < s.targetFpRate) (hratio : 0 < s.ratio) (m : ℕ) :
    ((List.range m).map s.fpRate).sum ≤ s.targetFpRate := by
  have hsum : ((List.range m).map s.fpRate).sum = s.targetFpRate * (1 - s.ratio ^ m) := by
    induction m with
    | zero => simp
    | succ m ih =>
      rw [List.range_succ,List.map_append,List.sum_append,ih,List.map_singleton,List.sum_singleton,fpRate]
      ring
  have hpow : 0 < s.targetFpRate * s.ratio ^ m := mul_pos htarget (pow_pos hratio m)
  rw [hsum]
  linarith

theorem valid_of_bounds (hinitial : 1 ≤ s.initialSize) (hscale : 1 ≤ s.scale) (htarget : 0 < s.targetFpRate)
    (htarget' : s.targetFpRate < 1) (hratio : 0 < s.ratio) (hratio' : s.ratio < 1) (k : ℕ) : s.Valid k := by
  have hpow : 0 < s.ratio ^ k := pow_pos hratio k
  have hpow' : s.ratio ^ k ≤ 1 := pow_le_one₀ hratio.le hratio'.le
  have hshare : 0 < s.ratio ^ k * (1 - s.ratio) := mul_pos hpow (by linarith)
  have hshare' : s.ratio ^ k * (1 - s.ratio) ≤ 1 := by nlinarith
  refine ⟨mul_pos (by omega) (pow_pos (by omega) k),?_,?_⟩
  · rw [fpRate,mul_assoc]
    exact mul_pos htarget hshare
  · rw [fpRate,mul_assoc]
    exact (mul_le_of_le_one_right htarget.le hshare').trans_lt htarget'

end Rates

/-- What a run of accepted additions keeps. -/
structure Filled (log : K → K) (hashSeeds : E → ℕ × ℕ) (s₀ : ScalableBloomFilter K) (elements : List E)
    (s : ScalableBloomFilter K) : Prop where
  layered : s.Layered log
  grown : s₀.Grown s
  count : s.count = elements.length
  holds : ∀ x ∈ elements, s.Holds hashSeeds x

/-- With accepted layers that have positions, an addition succeeds. -/
theorem Filled.add {s₀ : ScalableBloomFilter K} {elements : List E} (h : Filled log hashSeeds s₀ elements s)
    (hvalid : ∀ k, s₀.Valid k) (husable : ∀ k, (s₀.layer log k).Usable) (element : E) :
    (s.add log hashSeeds element).2 = none ∧
      Filled log hashSeeds s₀ (elements ++ [element]) (s.step log hashSeeds element) := by
  obtain ⟨filters₀,count₀,hgrown⟩ := h.grown
  unfold ScalableBloomFilter.step
  rcases h.layered.add_cases hashSeeds element with ⟨message,heq,hnot⟩ | ⟨filters,heq,hlayered,-,hholds⟩ |
    ⟨filters,heq,hlayered,-,f,hf,hnot⟩
  · rw [hgrown] at hnot
    exact absurd (hvalid _) hnot
  · rw [heq]
    refine ⟨rfl,hlayered,h.grown.trans ⟨filters,s.count + 1,rfl⟩,?_,fun x hx => hholds x ?_⟩
    · dsimp only
      rw [h.count,List.length_append,List.length_singleton]
    · rw [List.mem_append,List.mem_singleton] at hx
      exact hx.symm.imp_right (h.holds x)
  · obtain ⟨k,-,hparameters⟩ := hlayered.mem_layers hf
    have hlayer := husable k
    rw [hgrown] at hparameters
    rw [hparameters] at hnot
    exact absurd hlayer hnot

theorem Filled.run {s₀ : ScalableBloomFilter K} {added : List E} (h : Filled log hashSeeds s₀ added s)
    (hvalid : ∀ k, s₀.Valid k) (husable : ∀ k, (s₀.layer log k).Usable) (elements : List E) :
    Along (step log hashSeeds) (fun s element => (s.add log hashSeeds element).2 = none) s elements ∧
      Filled log hashSeeds s₀ (added ++ elements) (run (step log hashSeeds) s elements) := by
  induction elements generalizing s added with
  | nil => exact ⟨trivial,by rwa [List.append_nil]⟩
  | cons element rest ih =>
    obtain ⟨hnone,hnext⟩ := h.add hvalid husable element
    obtain ⟨hrest,hfilled⟩ := ih hnext
    rw [List.append_assoc] at hfilled
    exact ⟨⟨hnone,hrest⟩,hfilled⟩

/-- Layers of positions, one after the other: what is added is reported, all layers but the last
are full, and their rates stay below the target together. -/
theorem layers_of_adds [IsStrictOrderedRing K] (log : K → K) (hashSeeds : E → ℕ × ℕ) {initialSize scale : ℤ}
    {targetFpRate ratio : K} (hinitial : 1 ≤ initialSize) (hscale : 1 ≤ scale)
    (htarget : 0 < targetFpRate ∧ targetFpRate < 1) (hratio : 0 < ratio ∧ ratio < 1)
    (hsize : ∀ k : ℕ, 1 ≤ optimalSize log (initialSize * scale ^ k) (targetFpRate * ratio ^ k * (1 - ratio)))
    (elements : List E) :
    ∃ s₀, init log initialSize targetFpRate ratio scale = .ok s₀ ∧
      Along (step log hashSeeds) (fun s element => (s.add log hashSeeds element).2 = none) s₀ elements ∧
      let s := run (step log hashSeeds) s₀ elements
      (∀ element ∈ elements, s.contains hashSeeds element = .ok true) ∧
      (∀ f ∈ s.filters.dropLast, (f.count : ℤ) = f.expectedElements) ∧
      (∃ f, s.filters.getLast? = some f ∧ (f.count : ℤ) ≤ f.expectedElements) ∧
      (s.filters.map BloomFilter.count).sum = s.count ∧ s.count = elements.length ∧
      (s.filters.map fun f => f.falsePositiveRate).sum ≤ targetFpRate := by
  set s₀ := empty initialSize targetFpRate ratio scale with hempty
  have hvalid : ∀ k, s₀.Valid k := valid_of_bounds hinitial hscale htarget.1 htarget.2 hratio.1 hratio.2
  have husable : ∀ k, (s₀.layer log k).Usable := fun k hzero => absurd hzero (Nat.one_le_iff_ne_zero.mp (hsize k))
  obtain ⟨hinit,hlayered⟩ := @init_eq K _ _ _ log initialSize scale targetFpRate ratio (hvalid 0)
  have hfilled : Filled log hashSeeds s₀ [] (s₀.opened log) :=
    ⟨hlayered,⟨_,0,rfl⟩,rfl,fun x hx => absurd hx List.not_mem_nil⟩
  obtain ⟨hnone,h⟩ := hfilled.run hvalid husable elements
  rw [List.nil_append] at h
  refine ⟨_,hinit,hnone,?_⟩
  dsimp only
  generalize run (step log hashSeeds) (s₀.opened log) elements = s at h
  obtain ⟨filters,count,hgrown⟩ := h.grown
  obtain ⟨older,current,hfilters,hfull,hcurrent⟩ := h.layered.full
  refine ⟨fun element helement => ?_,?_,⟨current,?_,hcurrent⟩,h.layered.count.symm,h.count,?_⟩
  · have hall : ∀ f ∈ s.filters, f.Usable := by
      intro f hf
      obtain ⟨k,-,hparameters⟩ := h.layered.mem_layers hf
      rw [hparameters,hgrown]
      exact husable k
    obtain ⟨found,heq,hfound⟩ := contains_eq hashSeeds hall element
    rw [heq,hfound.mpr (h.holds element helement)]
  · rwa [hfilters,List.dropLast_concat]
  · rw [hfilters,List.getLast?_concat]
  · have hrates : s.filters.map (fun f => f.falsePositiveRate) = (List.range s.filters.length).map s₀.fpRate := by
      have hmap := congrArg (List.map Parameters.falsePositiveRate) h.layered.layers
      rw [List.map_map,List.map_map] at hmap
      rw [hgrown] at hmap ⊢
      exact hmap
    rw [hrates]
    exact sum_fpRate_le htarget.1 hratio.1 _

/-- Two additions to layers that double, at rates that halve. -/
theorem layers_of_two_adds :
    ∃ s₀ : ScalableBloomFilter ℝ, init Real.log 1 (1 / 2) (1 / 2) 2 = .ok s₀ ∧
      Along (step Real.log sampleSeeds) (fun s element => (s.add Real.log sampleSeeds element).2 = none) s₀ ["a","a"] ∧
      let s := run (step Real.log sampleSeeds) s₀ ["a","a"]
      (∀ element ∈ ["a","a"], s.contains sampleSeeds element = .ok true) ∧
      (∀ f ∈ s.filters.dropLast, (f.count : ℤ) = f.expectedElements) ∧
      (∃ f, s.filters.getLast? = some f ∧ (f.count : ℤ) ≤ f.expectedElements) ∧
      (s.filters.map BloomFilter.count).sum = s.count ∧ s.count = ["a","a"].length ∧
      (s.filters.map fun f => f.falsePositiveRate).sum ≤ 1 / 2 := by
  refine layers_of_adds Real.log sampleSeeds le_rfl one_le_two ⟨by norm_num,by norm_num⟩ ⟨by norm_num,by norm_num⟩
    (fun k => ?_) ["a","a"]
  have hpow : (0 : ℝ) < (1 / 2) ^ k := by positivity
  have hle : (1 / 2 : ℝ) ^ k ≤ 1 := pow_le_one₀ (by norm_num) (by norm_num)
  have hrate : (0 : ℝ) < 1 / 2 * (1 / 2) ^ k * (1 - 1 / 2) := by linarith
  exact (one_le_optimalSize_iff hrate).mpr (hasPosition_of_le_half (by positivity) hrate (by linarith))

end ScalableBloomFilter
end DistributedSystems.Bloom
