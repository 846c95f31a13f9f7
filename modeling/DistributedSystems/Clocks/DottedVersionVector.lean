import DistributedSystems.Protocol.Dict
import Mathlib.Data.Int.Range
import Mathlib.Data.List.Sort
import Mathlib.Data.Set.Lattice
import Mathlib.Order.CompletePartialOrder
import Mathlib.Order.Lattice

/-! # Dotted version vectors

A dotted version vector stands for a set of events: a range of each actor, and single dots
beyond it. Its comparisons are those of the sets, and a merge stands for the union.
-/
namespace DistributedSystems.Clocks.Dotted

structure ValueError where
  message : String

/-- The dots are a set, kept as a list in some order. -/
structure DottedVersionVector where
  actor : String
  clock : Dict String ℤ
  dots : List (String × ℤ)
  nodup : dots.Nodup

/-- The scan of `_compact_dots` over the sorted dots of an actor. -/
def extendedMax (currentMax : ℤ) (actorDots : List ℤ) : ℤ :=
  actorDots.foldl (fun extended ts => if ts = extended + 1 then ts else extended) currentMax

namespace DottedVersionVector

def init (actor : String) : Except ValueError DottedVersionVector :=
  if actor = "" then .error ⟨"Actor ID cannot be empty"⟩
  else .ok ⟨actor,Dict.empty.insert actor 0,[],List.nodup_nil⟩

/-- What `init` makes for an actor with a name. -/
def start (actor : String) : DottedVersionVector := ⟨actor,Dict.empty.insert actor 0,[],List.nodup_nil⟩

/-- `self.clock.get(actor, 0)` -/
def time (v : DottedVersionVector) (actor : String) : ℤ := (v.clock.get? actor).getD 0

/-- The dots of an actor, sorted. -/
def actorDots (dots : List (String × ℤ)) (actor : String) : List ℤ :=
  ((dots.filter fun d => d.1 = actor).map Prod.snd).insertionSort (· ≤ ·)

def compactActor (dots : List (String × ℤ)) (clock : Dict String ℤ) (actor : String) : Dict String ℤ :=
  let currentMax := (clock.get? actor).getD 0
  let extended := extendedMax currentMax (actorDots dots actor)
  if extended > currentMax then clock.insert actor extended else clock

def compactDots (v : DottedVersionVector) : DottedVersionVector :=
  let dotActors := (v.dots.map Prod.fst).dedup
  let clock := dotActors.foldl (compactActor v.dots) v.clock
  { v with
    clock := clock
    dots := v.dots.filter fun d => d.2 > (clock.get? d.1).getD 0
    nodup := v.nodup.filter _ }

/-- `self.dots.add` -/
def addDot (v : DottedVersionVector) (d : String × ℤ) : DottedVersionVector :=
  { v with dots := v.dots.insert d, nodup := v.nodup.insert }

def increment (v : DottedVersionVector) (timestamp : Option ℤ) : Except ValueError (ℤ × DottedVersionVector) := do
  let current := v.time v.actor
  let newTs ← match timestamp with
    | some timestamp =>
      if timestamp ≤ current then
        .error ⟨s!"New timestamp {timestamp} must be greater than current {current}"⟩
      else .ok timestamp
    | none => .ok (current + 1)
  let v := v.addDot (v.actor,newTs)
  -- only the next timestamp moves the clock
  if newTs = current + 1 then
    return (newTs,compactDots { v with clock := v.clock.insert v.actor newTs })
  return (newTs,v)

def merge (v other : DottedVersionVector) : DottedVersionVector :=
  compactDots
    { v with
      dots := v.dots ∪ other.dots
      nodup := other.nodup.union v.dots
      clock := other.clock.entries.foldl (fun d e => d.insert e.1 (max ((d.get? e.1).getD 0) e.2)) v.clock }

def event (v : DottedVersionVector) (other : Option DottedVersionVector) :
    Except ValueError (ℤ × DottedVersionVector) :=
  match other with
  | some other => (v.merge other).increment none
  | none => v.increment none

def isSubset (v other : DottedVersionVector) : Bool :=
  (v.clock.entries.all fun e =>
    if e.2 > other.time e.1 then (Int.range (other.time e.1 + 1) (e.2 + 1)).all fun missing => (e.1,missing) ∈ other.dots
    else true) &&
  v.dots.all fun d => if d.2 > other.time d.1 then decide (d ∈ other.dots) else true

def happensBefore (v other : DottedVersionVector) : Bool :=
  if !v.isSubset other then false else !other.isSubset v

def concurrent (v other : DottedVersionVector) : Bool := !v.isSubset other && !other.isSubset v

def eq (v other : DottedVersionVector) : Bool := v.isSubset other && other.isSubset v

/-- Clocks are not negative and dots are positive. -/
structure WellFormed (v : DottedVersionVector) : Prop where
  clock : ∀ actor ts, v.clock.get? actor = some ts → 0 ≤ ts
  dots : ∀ d ∈ v.dots, 0 < d.2

/-- The events that a vector stands for. -/
def known (v : DottedVersionVector) : Set (String × ℤ) :=
  {d | d ∈ v.dots ∨ (1 ≤ d.2 ∧ d.2 ≤ v.time d.1)}

/-- No dot is covered by the clock or next to it. -/
def Canonical (v : DottedVersionVector) : Prop := ∀ d ∈ v.dots, v.time d.1 + 1 < d.2

theorem mem_known {v : DottedVersionVector} {d : String × ℤ} :
    d ∈ v.known ↔ d ∈ v.dots ∨ (1 ≤ d.2 ∧ d.2 ≤ v.time d.1) := Iff.rfl

theorem WellFormed.time_nonneg {v : DottedVersionVector} (h : v.WellFormed) (actor : String) : 0 ≤ v.time actor := by
  unfold time
  cases hget : v.clock.get? actor with
  | none => exact le_rfl
  | some ts => exact h.clock actor ts hget

end DottedVersionVector

section Scan

/-- The scan of a sorted list stops at the first gap. -/
theorem extendedMax_spec {dots : List ℤ} (h : dots.Pairwise (· < ·)) (currentMax : ℤ) :
    currentMax ≤ extendedMax currentMax dots ∧
    (∀ t, currentMax < t → t ≤ extendedMax currentMax dots → t ∈ dots) ∧
    extendedMax currentMax dots + 1 ∉ dots := by
  induction dots generalizing currentMax with
  | nil =>
    refine ⟨le_rfl,fun t ht ht' => ?_,List.not_mem_nil⟩
    exact absurd (ht.trans_le ht') (lt_irrefl _)
  | cons ts rest ih =>
    obtain ⟨hts,hrest⟩ := List.pairwise_cons.mp h
    by_cases hnext : ts = currentMax + 1
    · have hscan : extendedMax currentMax (ts :: rest) = extendedMax ts rest := by
        simp [extendedMax,hnext]
      obtain ⟨hle,hmem,hgap⟩ := ih hrest ts
      rw [hscan]
      refine ⟨by omega,fun t ht ht' => ?_,fun hin => ?_⟩
      · rcases eq_or_lt_of_le (show ts ≤ t by omega) with rfl | hlt
        · exact List.mem_cons_self
        · exact List.mem_cons_of_mem _ (hmem t hlt ht')
      · rcases List.mem_cons.mp hin with heq | hin
        · omega
        · exact hgap hin
    · have hscan : extendedMax currentMax (ts :: rest) = extendedMax currentMax rest := by
        simp [extendedMax,hnext]
      obtain ⟨hle,hmem,hgap⟩ := ih hrest currentMax
      rw [hscan]
      refine ⟨hle,fun t ht ht' => List.mem_cons_of_mem _ (hmem t ht ht'),fun hin => ?_⟩
      rcases List.mem_cons.mp hin with heq | hin
      · -- the next timestamp after the clock would come before this one
        have hfirst := hts _ (hmem (currentMax + 1) (by omega) (by omega))
        omega
      · exact hgap hin

end Scan

namespace DottedVersionVector

theorem mem_actorDots {dots : List (String × ℤ)} {actor : String} {t : ℤ} :
    t ∈ actorDots dots actor ↔ (actor,t) ∈ dots := by
  simp [actorDots]

theorem actorDots_sorted {dots : List (String × ℤ)} (h : dots.Nodup) (actor : String) :
    (actorDots dots actor).Pairwise (· < ·) := by
  have hnodup : ((dots.filter fun d => d.1 = actor).map Prod.snd).Nodup := by
    refine (h.filter _).map_on fun d hd d' hd' heq => ?_
    simp only [List.mem_filter,decide_eq_true_eq] at hd hd'
    exact Prod.ext (hd.2.trans hd'.2.symm) heq
  have hsorted := List.pairwise_insertionSort (· ≤ ·) ((dots.filter fun d => d.1 = actor).map Prod.snd)
  have hnodup' := (List.perm_insertionSort (· ≤ ·) _).nodup_iff.mpr hnodup
  exact (hsorted.and hnodup').imp fun hlt => lt_of_le_of_ne hlt.1 hlt.2

theorem get?_compactActor (dots : List (String × ℤ)) (h : dots.Nodup) (clock : Dict String ℤ) (actor a : String) :
    ((compactActor dots clock actor).get? a).getD 0 =
      if a = actor then extendedMax ((clock.get? a).getD 0) (actorDots dots a) else (clock.get? a).getD 0 := by
  have hle := (extendedMax_spec (actorDots_sorted h actor) ((clock.get? actor).getD 0)).1
  unfold compactActor
  dsimp only
  by_cases ha : a = actor
  · subst a
    rw [if_pos rfl]
    split
    · simp [Dict.get?_insert]
    · rename_i hnot
      omega
  · rw [if_neg ha]
    split
    · rw [Dict.get?_insert,if_neg ha]
    · rfl

/-- Every actor with dots is scanned once. -/
theorem get?_foldl_compactActor (dots : List (String × ℤ)) (h : dots.Nodup) {actors : List String} (hactors : actors.Nodup)
    (clock : Dict String ℤ) (a : String) : ((actors.foldl (compactActor dots) clock).get? a).getD 0 =
      if a ∈ actors then extendedMax ((clock.get? a).getD 0) (actorDots dots a) else (clock.get? a).getD 0 := by
  induction actors generalizing clock with
  | nil => rfl
  | cons actor rest ih =>
    obtain ⟨hnew,hrest⟩ := List.nodup_cons.mp hactors
    rw [List.foldl_cons,ih hrest,get?_compactActor dots h]
    by_cases ha : a = actor
    · subst a
      simp [hnew]
    · simp [ha]

theorem time_compactDots (v : DottedVersionVector) (a : String) :
    v.compactDots.time a = extendedMax (v.time a) (actorDots v.dots a) := by
  have hfold := get?_foldl_compactActor v.dots v.nodup (v.dots.map Prod.fst).nodup_dedup v.clock a
  refine hfold.trans ?_
  split
  · rfl
  · rename_i ha
    have hnone : actorDots v.dots a = [] := by
      refine List.eq_nil_iff_forall_not_mem.mpr fun t ht => ha ?_
      rw [List.mem_dedup]
      exact List.mem_map_of_mem (mem_actorDots.mp ht)
    rw [hnone]
    rfl

theorem mem_dots_compactDots {v : DottedVersionVector} {d : String × ℤ} :
    d ∈ v.compactDots.dots ↔ d ∈ v.dots ∧ v.compactDots.time d.1 < d.2 := by
  simp [compactDots,time]

/-- Compaction moves dots into the clock and loses none. -/
theorem known_compactDots {v : DottedVersionVector} (h : ∀ d ∈ v.dots, 0 < d.2) : v.compactDots.known = v.known := by
  ext d
  obtain ⟨hle,hmem,-⟩ := extendedMax_spec (actorDots_sorted v.nodup d.1) (v.time d.1)
  rw [← time_compactDots] at hle hmem
  rw [mem_known,mem_known,mem_dots_compactDots]
  constructor
  · rintro (⟨hd,-⟩ | ⟨hpos,hcov⟩)
    · exact Or.inl hd
    · rcases le_or_gt d.2 (v.time d.1) with hold | hnew
      · exact Or.inr ⟨hpos,hold⟩
      · exact Or.inl (mem_actorDots.mp (hmem d.2 hnew hcov))
  · rintro (hd | ⟨hpos,hcov⟩)
    · rcases le_or_gt d.2 (v.compactDots.time d.1) with hcov | hbeyond
      · exact Or.inr ⟨h d hd,hcov⟩
      · exact Or.inl ⟨hd,hbeyond⟩
    · exact Or.inr ⟨hpos,hcov.trans hle⟩

theorem canonical_compactDots (v : DottedVersionVector) : v.compactDots.Canonical := by
  intro d hd
  obtain ⟨hold,hbeyond⟩ := mem_dots_compactDots.mp hd
  obtain ⟨-,-,hgap⟩ := extendedMax_spec (actorDots_sorted v.nodup d.1) (v.time d.1)
  rw [← time_compactDots] at hgap
  refine lt_of_le_of_ne hbeyond fun heq => hgap (mem_actorDots.mpr ?_)
  change v.compactDots.time d.1 + 1 = d.2 at heq
  rw [heq]
  exact hold

theorem isSubset_iff {v other : DottedVersionVector} (hv : v.WellFormed) (hother : other.WellFormed) :
    v.isSubset other = true ↔ v.known ⊆ other.known := by
  unfold isSubset
  rw [Bool.and_eq_true,List.all_eq_true,List.all_eq_true]
  constructor
  · rintro ⟨hclock,hdots⟩ d (hd | ⟨hpos,hcov⟩)
    · rcases le_or_gt d.2 (other.time d.1) with hle | hgt
      · exact Or.inr ⟨hv.dots d hd,hle⟩
      · have hmem := hdots d hd
        rw [if_pos hgt,decide_eq_true_eq] at hmem
        exact Or.inl hmem
    · rcases le_or_gt d.2 (other.time d.1) with hle | hgt
      · exact Or.inr ⟨hpos,hle⟩
      obtain ⟨ts,hts⟩ : ∃ ts, v.clock.get? d.1 = some ts := by
        cases hget : v.clock.get? d.1 with
        | none =>
          simp only [time,hget,Option.getD_none] at hcov
          omega
        | some ts => exact ⟨ts,rfl⟩
      have htime : v.time d.1 = ts := by simp [time,hts]
      have hmem := hclock _ (Dict.mem_entries_iff.mpr hts)
      rw [if_pos (by dsimp only; omega),List.all_eq_true] at hmem
      have hdot := hmem d.2 (Int.mem_range_iff.mpr ⟨by dsimp only; omega,by dsimp only; omega⟩)
      exact Or.inl (of_decide_eq_true hdot)
  · intro hsub
    constructor
    · rintro ⟨actor,ts⟩ he
      split
      · rename_i hgt
        refine List.all_eq_true.mpr fun missing hmissing => decide_eq_true ?_
        obtain ⟨hlow,hhigh⟩ := Int.mem_range_iff.mp hmissing
        have hnonneg := hother.time_nonneg actor
        have htime : v.time actor = ts := by simp [time,Dict.mem_entries_iff.mp he]
        have hin : (actor,missing) ∈ v.known := Or.inr ⟨by dsimp only at *; omega,by dsimp only at *; omega⟩
        refine (hsub hin).resolve_right fun hcov => ?_
        dsimp only at *
        omega
      · rfl
    · intro d hd
      split
      · rename_i hgt
        refine decide_eq_true ((hsub (Or.inl hd)).resolve_right fun hcov => ?_)
        omega
      · rfl

theorem time_merge_clock {v : DottedVersionVector} (hv : v.WellFormed) (other : DottedVersionVector) (a : String) :
    ((other.clock.entries.foldl (fun d e => d.insert e.1 (max ((d.get? e.1).getD 0) e.2)) v.clock).get? a).getD 0 =
      max (v.time a) (other.time a) := by
  have hget := Dict.get?_combine (fun old ts => max (old.getD 0) ts) v.clock other.clock a
  rw [hget]
  unfold time
  cases hother' : other.clock.get? a with
  | none => exact (max_eq_left (hv.time_nonneg a)).symm
  | some ts => rfl

theorem known_merge {v other : DottedVersionVector} (hv : v.WellFormed) (hother : other.WellFormed) :
    (v.merge other).known = v.known ∪ other.known := by
  refine (known_compactDots ?_).trans ?_
  · intro d hd
    rcases List.mem_union_iff.mp hd with hd | hd
    · exact hv.dots d hd
    · exact hother.dots d hd
  · ext d
    have htime := time_merge_clock hv other d.1
    rw [mem_known,Set.mem_union,mem_known,mem_known]
    unfold time at htime ⊢
    rw [htime,List.mem_union_iff,le_max_iff]
    tauto

/-- Comparisons are those of the sets of events; a merge stands for the union, in the one
canonical form. -/
theorem denotes_known {v other : DottedVersionVector} (hv : v.WellFormed) (hother : other.WellFormed) :
    (v.isSubset other = true ↔ v.known ⊆ other.known) ∧
    (v.happensBefore other = true ↔ v.known ⊂ other.known) ∧
    (v.concurrent other = true ↔ ¬v.known ⊆ other.known ∧ ¬other.known ⊆ v.known) ∧
    (v.eq other = true ↔ v.known = other.known) ∧
    (v.merge other).known = v.known ∪ other.known ∧ (v.merge other).Canonical := by
  have hle := isSubset_iff hv hother
  have hge := isSubset_iff hother hv
  refine ⟨hle,?_,?_,?_,known_merge hv hother,canonical_compactDots _⟩
  · rw [ssubset_iff_subset_not_subset,← hle,← hge,happensBefore]
    cases v.isSubset other
    · simp
    · simp
  · rw [← hle,← hge,concurrent]
    simp
  · rw [Set.Subset.antisymm_iff,← hle,← hge,eq,Bool.and_eq_true]

theorem wellFormed_of_forall {actor : String} {entries : List (String × ℤ)} {dots : List (String × ℤ)}
    {nodup : dots.Nodup} (hclock : ∀ e ∈ entries, 0 ≤ e.2) (hdots : ∀ d ∈ dots, 0 < d.2) :
    WellFormed ⟨actor,Dict.ofEntries entries,dots,nodup⟩ where
  clock _ _ h := hclock _ (Dict.mem_ofEntries (Dict.mem_entries_iff.mpr h))
  dots := hdots

/-- The missing event of one vector is a dot of the other. -/
theorem merge_fills_gap :
    (merge ⟨"a",Dict.ofEntries [("a",1)],[("a",3)],by decide⟩ ⟨"b",Dict.ofEntries [("b",2)],[("a",2)],by decide⟩).known =
      known ⟨"a",Dict.ofEntries [("a",1)],[("a",3)],by decide⟩ ∪
        known ⟨"b",Dict.ofEntries [("b",2)],[("a",2)],by decide⟩ :=
  (denotes_known (wellFormed_of_forall (by decide) (by decide)) (wellFormed_of_forall (by decide) (by decide))).2.2.2.2.1

end DottedVersionVector
end DistributedSystems.Clocks.Dotted
