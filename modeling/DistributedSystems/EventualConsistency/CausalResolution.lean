import DistributedSystems.EventualConsistency.ConflictResolution
import DistributedSystems.EventualConsistency.VectorClock
import DistributedSystems.Protocol.Selection

/-! # Resolution by vector clocks

Two versions are resolved by their clocks, and by their timestamps if the clocks are
concurrent. Timestamps need not agree with causality, so this choice is not transitive.
-/
namespace DistributedSystems.EventualConsistency

theorem Ordering.toComparison_injective : Function.Injective Ordering.toComparison := by
  intro o o' h
  cases o <;> cases o' <;> first | rfl | cases h

namespace VectorClock
variable {ι : Type} [DecidableEq ι] {c other : VectorClock ι}

theorem compare_eq_iff (o : Ordering) :
    c.compare other = o ↔ o.toComparison.Reads c.clock.coord other.clock.coord := by
  rw [← (c.reads_compare other).iff]
  exact Ordering.toComparison_injective.eq_iff.symm

/-- A comparison the other way round. -/
theorem compare_eq_gt_iff : c.compare other = .gt ↔ other.compare c = .lt := by
  rw [compare_eq_iff,compare_eq_iff]
  exact Iff.rfl

theorem compare_eq_concurrent_comm : c.compare other = .concurrent ↔ other.compare c = .concurrent := by
  rw [compare_eq_iff,compare_eq_iff]
  exact and_comm

theorem compare_eq_eq_comm : c.compare other = .eq ↔ other.compare c = .eq := by
  rw [compare_eq_iff,compare_eq_iff]
  exact eq_comm

end VectorClock

variable {ι V T : Type} [DecidableEq ι] [LinearOrder T]

/-- `now` is the timestamp of a value that is merged. -/
def resolveVectorClock (mergeFunc : Option (V → V → V)) (now : T) (v1 v2 : VersionedValue V T (VectorClock ι)) :
    VersionedValue V T (VectorClock ι) :=
  match v1.vectorClock.compare v2.vectorClock with
  | .gt => v1
  | .lt => v2
  | .eq => v1
  | .concurrent =>
    match mergeFunc with
    | some merge => ⟨merge v1.value v2.value,now,v1.vectorClock.merge v2.vectorClock⟩
    | none => resolveLww v1 v2

/-- The other version happened before this one, or is concurrent with it and has an earlier timestamp. -/
def Overrides (w v : VersionedValue V T (VectorClock ι)) : Prop :=
  w.vectorClock.compare v.vectorClock = .gt ∨
    (w.vectorClock.compare v.vectorClock = .concurrent ∧ v.timestamp < w.timestamp)

instance (w v : VersionedValue V T (VectorClock ι)) : Decidable (Overrides w v) := inferInstanceAs (Decidable (_ ∨ _))

/-- Without a merge function one of the versions is taken. -/
theorem selects_resolveVectorClock (now : T) : Selects (resolveVectorClock (ι := ι) (V := V) none now) := by
  intro v1 v2
  unfold resolveVectorClock
  cases v1.vectorClock.compare v2.vectorClock with
  | gt => exact Or.inl rfl
  | lt => exact Or.inr rfl
  | eq => exact Or.inl rfl
  | concurrent =>
    dsimp only
    rw [resolveLww_eq_newest]
    exact newest_eq_or _ v1 v2

/-- A version is taken from either side exactly when it overrides the other one. -/
theorem resolveVectorClock_eq_iff (now : T) {w v : VersionedValue V T (VectorClock ι)} (hne : v ≠ w)
    (htime : v.timestamp ≠ w.timestamp) :
    (resolveVectorClock none now w v = w ∧ resolveVectorClock none now v w = w) ↔ Overrides w v := by
  unfold resolveVectorClock Overrides
  cases h : w.vectorClock.compare v.vectorClock with
  | gt =>
    rw [VectorClock.compare_eq_gt_iff.mp h]
    simp
  | lt =>
    simp [hne]
  | eq =>
    rw [VectorClock.compare_eq_eq_comm.mp h]
    simp [hne]
  | concurrent =>
    rw [VectorClock.compare_eq_concurrent_comm.mp h]
    dsimp only
    rw [resolveLww_eq_newest]
    rcases lt_or_gt_of_ne htime with hlt | hgt
    · rw [newest_of_le _ hlt.le,newest_of_lt _ hlt]
      simp [hlt]
    · rw [newest_of_lt _ hgt,newest_of_le _ hgt.le]
      simp [hne,hgt.le]

/-- The fold of `resolve_vector_clock` over a list of versions. -/
def resolveVersions (now : T) : List (VersionedValue V T (VectorClock ι)) → Option (VersionedValue V T (VectorClock ι)) :=
  selectAll (resolveVectorClock none now)

/-- The version is the result for every order of the list, and no clock of the list dominates its own. -/
def Resolves (now : T) (vs : List (VersionedValue V T (VectorClock ι))) (w : VersionedValue V T (VectorClock ι)) : Prop :=
  (∀ us, us.Perm vs → resolveVersions now us = some w) ∧ ∀ v ∈ vs, w.vectorClock.compare v.vectorClock ≠ .lt

/-- The fold respects causality and does not depend on the order of the list if and only if one
version overrides all others. -/
theorem resolves_iff (now : T) {vs : List (VersionedValue V T (VectorClock ι))}
    (htimes : (vs.map fun v => v.timestamp).Nodup) :
    (∃ w, Resolves now vs w) ↔ ∃ w ∈ vs, ∀ v ∈ vs, v ≠ w → Overrides w v := by
  have hprevails : ∀ w ∈ vs, Prevails (resolveVectorClock none now) w vs ↔ ∀ v ∈ vs, v ≠ w → Overrides w v := by
    intro w hw
    refine forall₂_congr fun v hv => forall_congr' fun hne => resolveVectorClock_eq_iff now hne ?_
    exact fun heq => hne (List.inj_on_of_nodup_map htimes hv hw heq)
  have hperm := fun w => (selects_resolveVectorClock (ι := ι) (V := V) now).selectAll_perm_iff htimes.of_map (w := w)
  constructor
  · rintro ⟨w,hall,-⟩
    obtain ⟨hw,hprevail⟩ := (hperm w).mp hall
    exact ⟨w,hw,(hprevails w hw).mp hprevail⟩
  · rintro ⟨w,hw,hover⟩
    refine ⟨w,(hperm w).mpr ⟨hw,(hprevails w hw).mpr hover⟩,fun v hv hlt => ?_⟩
    by_cases hvw : v = w
    · rw [hvw,VectorClock.compare_eq_iff] at hlt
      exact lt_irrefl _ hlt
    · rcases hover v hv hvw with h | h
      · rw [h] at hlt
        cases hlt
      · rw [h.1] at hlt
        cases hlt

/-- Timestamps that agree with causality are enough: the newest version overrides all others. -/
theorem resolves_of_causal_timestamps (now : T) {vs : List (VersionedValue V T (VectorClock ι))} (hne : vs ≠ [])
    (htimes : (vs.map fun v => v.timestamp).Nodup)
    (hclocks : vs.Pairwise fun v v' => v.vectorClock.compare v'.vectorClock ≠ .eq)
    (hcausal : ∀ v ∈ vs, ∀ v' ∈ vs, v.vectorClock.compare v'.vectorClock = .lt → v.timestamp < v'.timestamp) :
    ∃ w, Resolves now vs w := by
  obtain ⟨x,xs,rfl⟩ := List.exists_cons_of_ne_nil hne
  have hmem := foldl_newest_mem VersionedValue.timestamp x xs
  have hnewest := le_foldl_newest VersionedValue.timestamp x xs
  set w := xs.foldl (newest VersionedValue.timestamp) x
  refine (resolves_iff now htimes).mpr ⟨w,hmem,fun v hv hvw => ?_⟩
  have hlt : v.timestamp < w.timestamp :=
    lt_of_le_of_ne (hnewest v hv) fun heq => hvw (List.inj_on_of_nodup_map htimes hv hmem heq)
  have hne : w.vectorClock.compare v.vectorClock ≠ .eq := by
    have : Std.Symm fun v v' : VersionedValue V T (VectorClock ι) => v.vectorClock.compare v'.vectorClock ≠ .eq :=
      ⟨fun v v' h heq => h (VectorClock.compare_eq_eq_comm.mp heq)⟩
    exact hclocks.forall hmem hv (Ne.symm hvw)
  unfold Overrides
  cases h : w.vectorClock.compare v.vectorClock with
  | gt => exact Or.inl rfl
  | lt => exact absurd (hcausal w hmem v hv h) hlt.not_gt
  | eq => exact absurd h hne
  | concurrent => exact Or.inr ⟨rfl,hlt⟩

/-- A version, its successor with an earlier timestamp, and one that is concurrent with both and
lies in between. -/
def skewed : List (VersionedValue String ℕ (VectorClock String)) :=
  [⟨"new",1,⟨⟨[("A",2)],by decide⟩⟩⟩,⟨"other",2,⟨⟨[("B",1)],by decide⟩⟩⟩,⟨"old",3,⟨⟨[("A",1)],by decide⟩⟩⟩]

/-- The concurrent version replaces the successor, and then the version it succeeds replaces that one. -/
theorem dominated_version_resolved : ¬∀ vs : List (VersionedValue String ℕ (VectorClock String)), vs ≠ [] →
    (vs.map fun v => v.timestamp).Nodup → vs.Pairwise (fun v v' => v.vectorClock.compare v'.vectorClock ≠ .eq) →
    ∃ w, Resolves 0 vs w := by
  intro h
  obtain ⟨w,hall,hnot⟩ := h skewed (by decide) (by decide) (by decide)
  obtain rfl := Option.some.inj (hall skewed (List.Perm.refl _))
  exact hnot ⟨"new",1,⟨⟨[("A",2)],by decide⟩⟩⟩ (List.mem_cons_self ..) (by decide)

/-- With the timestamps in causal order there is a result. -/
theorem resolves_iff_causal : ∃ w : VersionedValue String ℕ (VectorClock String),
    Resolves 0 [⟨"old",1,⟨⟨[("A",1)],by decide⟩⟩⟩,⟨"other",2,⟨⟨[("B",1)],by decide⟩⟩⟩,
      ⟨"new",3,⟨⟨[("A",2)],by decide⟩⟩⟩] w :=
  (resolves_iff 0 (by decide)).mpr ⟨⟨"new",3,⟨⟨[("A",2)],by decide⟩⟩⟩,by simp,by
    intro v hv hne
    simp only [List.mem_cons,List.not_mem_nil,or_false] at hv
    rcases hv with rfl | rfl | rfl
    · decide
    · decide
    · exact absurd rfl hne⟩

end DistributedSystems.EventualConsistency
