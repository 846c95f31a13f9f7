import DistributedSystems.EventualConsistency.ConflictResolution
import DistributedSystems.Protocol.Runs

/-! # Read repair

A read takes the value of every replica, in the order in which the parallel gets complete,
folds them to the latest one, and afterwards puts that value on each replica whose own is
missing or has a smaller timestamp. Here nothing else runs, so the gets see one state.
-/
namespace DistributedSystems.EventualConsistency.ReadRepair
open Runs
variable {ι κ V T C : Type}

/-- What each replica stores for each key. -/
abbrev Replicas (ι κ V T C : Type) := ι → κ → Option (VersionedValue V T C)

def put [DecidableEq ι] [DecidableEq κ] (stores : Replicas ι κ V T C) (replica : ι) (key : κ)
    (value : VersionedValue V T C) : Replicas ι κ V T C :=
  fun r k => if r = replica ∧ k = key then some value else stores r k

/-- The results of the gets, in their order of completion. -/
def replicaResults (stores : Replicas ι κ V T C) (key : κ) (order : List ι) :
    List (ι × Option (VersionedValue V T C)) :=
  order.map fun r => (r,stores r key)

variable [LinearOrder T]

/-- The value `read` returns and repairs with. -/
def latest (replicaResults : List (ι × Option (VersionedValue V T C))) : Option (VersionedValue V T C) :=
  resolveAll (replicaResults.filterMap Prod.snd)

def shouldRepair (val : Option (VersionedValue V T C)) (latest : VersionedValue V T C) : Prop :=
  match val with
  | none => True
  | some v => v.timestamp < latest.timestamp

instance (val : Option (VersionedValue V T C)) (latest : VersionedValue V T C) : Decidable (shouldRepair val latest) :=
  match val with
  | none => isTrue trivial
  | some v => inferInstanceAs (Decidable (v.timestamp < latest.timestamp))

section Latest
variable {stores : Replicas ι κ V T C} {key : κ} {order : List ι} {v : VersionedValue V T C}

theorem latest_eq_none_iff :
    latest (replicaResults stores key order) = none ↔ ∀ r ∈ order, stores r key = none := by
  rw [latest,resolveAll_eq_none_iff]
  simp [replicaResults,List.filterMap_map,List.filterMap_eq_nil_iff]

/-- The latest value is on one of the replicas, and none has a later one. -/
theorem latest_spec (h : latest (replicaResults stores key order) = some v) :
    (∃ r ∈ order, stores r key = some v) ∧ ∀ r ∈ order, ∀ w ∈ stores r key, w.timestamp ≤ v.timestamp := by
  have hmem : ∀ w, w ∈ (replicaResults stores key order).filterMap Prod.snd ↔ ∃ r ∈ order, stores r key = some w := by
    simp [replicaResults,List.filterMap_map]
  refine ⟨(hmem v).mp (resolveAll_mem h),?_⟩
  intro r hr w hw
  exact le_resolveAll h w ((hmem w).mpr ⟨r,hr,hw⟩)

end Latest

variable [DecidableEq ι] [DecidableEq κ]

/-- One iteration of `_repair_stale`. -/
def repairReplica (key : κ) (latest : VersionedValue V T C) (stores : Replicas ι κ V T C)
    (result : ι × Option (VersionedValue V T C)) : Replicas ι κ V T C :=
  if shouldRepair result.2 latest then put stores result.1 key latest else stores

def repairStale (key : κ) (latest : VersionedValue V T C) (replicaResults : List (ι × Option (VersionedValue V T C)))
    (stores : Replicas ι κ V T C) : Replicas ι κ V T C :=
  replicaResults.foldl (repairReplica key latest) stores

/-- `read` and the repair task it leaves behind. -/
def read (stores : Replicas ι κ V T C) (key : κ) (order : List ι) :
    Option (VersionedValue V T C) × Replicas ι κ V T C :=
  match latest (replicaResults stores key order) with
  | none => (none,stores)
  | some v => (some v,repairStale key v (replicaResults stores key order) stores)

/-- All replicas hold what the read returned, and so do all later reads. -/
def Converged (key : κ) (replicas : List ι) (out : Option (VersionedValue V T C) × Replicas ι κ V T C) : Prop :=
  (∀ r ∈ replicas, out.2 r key = out.1) ∧
  ∀ (reads : List (List ι)) (order : List ι), (∀ o ∈ reads, o.Perm replicas) → order.Perm replicas →
    (read (run (fun stores o => (read stores key o).2) out.2 reads) key order).1 = out.1

/-- No two replicas hold different values that both have the largest timestamp. -/
def OneNewest (stores : Replicas ι κ V T C) (key : κ) (replicas : List ι) : Prop :=
  ∀ r ∈ replicas, ∀ r' ∈ replicas, ∀ v ∈ stores r key, ∀ v' ∈ stores r' key,
    (∀ q ∈ replicas, ∀ w ∈ stores q key, w.timestamp ≤ v.timestamp) → v'.timestamp = v.timestamp → v' = v

variable {stores : Replicas ι κ V T C} {key : κ} {replicas order : List ι} {v : VersionedValue V T C}

/-- The task overwrites exactly the stale replicas it has read. -/
theorem repairStale_apply (s : Replicas ι κ V T C) (r : ι) :
    repairStale key v (replicaResults stores key order) s r key =
      if r ∈ order ∧ shouldRepair (stores r key) v then some v else s r key := by
  induction order generalizing s with
  | nil => simp [repairStale,replicaResults]
  | cons q rest ih =>
    have hstep : repairStale key v (replicaResults stores key (q :: rest)) s =
        repairStale key v (replicaResults stores key rest) (repairReplica key v s (q,stores q key)) := rfl
    rw [hstep,ih,repairReplica]
    by_cases hq : r = q
    · subst r
      by_cases hs : shouldRepair (stores q key) v <;> simp [put,hs]
    · by_cases hs : shouldRepair (stores q key) v <;> simp [put,hs,hq]

theorem repairStale_of_fresh {results : List (ι × Option (VersionedValue V T C))}
    (h : ∀ result ∈ results, ¬ shouldRepair result.2 v) : repairStale key v results stores = stores := by
  induction results with
  | nil => rfl
  | cons result rest ih =>
    rw [repairStale,List.foldl_cons,repairReplica,if_neg (h result List.mem_cons_self)]
    exact ih fun q hq => h q (List.mem_cons_of_mem result hq)

/-- Replicas that agree answer with their value and need no repair. -/
theorem read_of_agree {x : Option (VersionedValue V T C)} (h : ∀ r ∈ order, stores r key = x)
    (hx : x.isSome = true → order ≠ []) : read stores key order = (x,stores) := by
  unfold read
  cases hl : latest (replicaResults stores key order) with
  | none =>
    have hnone := latest_eq_none_iff.mp hl
    cases x with
    | none => rfl
    | some u =>
      obtain ⟨r,hr⟩ := List.exists_mem_of_ne_nil order (hx rfl)
      exact absurd ((h r hr).symm.trans (hnone r hr)) (Option.some_ne_none u)
  | some v =>
    obtain ⟨⟨r,hr,hv⟩,_⟩ := latest_spec hl
    have hfresh : repairStale key v (replicaResults stores key order) stores = stores := by
      refine repairStale_of_fresh ?_
      intro result hresult
      obtain ⟨q,hq,rfl⟩ := List.mem_map.mp hresult
      simp [h q hq,← h r hr,hv,shouldRepair]
    simp only [hfresh,← h r hr,hv]

/-- A replica keeps its own value when that is a newest one. -/
theorem newest_kept (hl : latest (replicaResults stores key order) = some v) {r : ι} {w : VersionedValue V T C}
    (hw : stores r key = some w) (hmax : ∀ q ∈ order, ∀ u ∈ stores q key, u.timestamp ≤ w.timestamp) :
    (read stores key order).2 r key = some w := by
  obtain ⟨⟨q,hq,hv⟩,_⟩ := latest_spec hl
  have hle := hmax q hq v hv
  simp [read,hl,repairStale_apply,hw,shouldRepair,hle]

/-- What a read returns when the newest value is unique reaches every replica. -/
theorem agree_of_oneNewest (horder : order.Perm replicas) (h : OneNewest stores key replicas) :
    ∀ r ∈ replicas, (read stores key order).2 r key = (read stores key order).1 := by
  intro r hr
  have hmem : ∀ q, q ∈ order ↔ q ∈ replicas := fun q => horder.mem_iff
  cases hl : latest (replicaResults stores key order) with
  | none =>
    simp only [read,hl]
    exact latest_eq_none_iff.mp hl r ((hmem r).mpr hr)
  | some v =>
    obtain ⟨⟨q,hq,hv⟩,hmax⟩ := latest_spec hl
    simp only [read,hl,repairStale_apply,hmem]
    by_cases hs : shouldRepair (stores r key) v
    · rw [if_pos ⟨hr,hs⟩]
    · rw [if_neg fun hc => hs hc.2]
      cases hw : stores r key with
      | none =>
        rw [hw] at hs
        exact absurd trivial hs
      | some w =>
        rw [hw] at hs
        have heq : w.timestamp = v.timestamp :=
          le_antisymm (hmax r ((hmem r).mpr hr) w hw) (not_lt.mp hs)
        exact congrArg some (h q ((hmem q).mp hq) r hr v hv w hw
          (fun p hp u hu => hmax p ((hmem p).mpr hp) u hu) heq)

/-- Read repair converges, whatever the order in which the gets complete, exactly when the
newest value is unique. -/
theorem converged_iff (horder : order.Perm replicas) :
    Converged key replicas (read stores key order) ↔ OneNewest stores key replicas := by
  have hmem : ∀ q, q ∈ order ↔ q ∈ replicas := fun q => horder.mem_iff
  constructor
  · rintro ⟨hagree,_⟩ r hr r' hr' v hv v' hv' hmax heq
    have hsome : latest (replicaResults stores key order) ≠ none := by
      intro hnone
      have := latest_eq_none_iff.mp hnone r ((hmem r).mpr hr)
      rw [hv] at this
      contradiction
    obtain ⟨l,hl⟩ := Option.ne_none_iff_exists'.mp hsome
    have hmax' : ∀ q ∈ order, ∀ u ∈ stores q key, u.timestamp ≤ v.timestamp :=
      fun q hq u hu => hmax q ((hmem q).mp hq) u hu
    have hkept := newest_kept hl hv hmax'
    have hkept' := newest_kept hl hv' (by simpa only [heq] using hmax')
    rw [hagree r hr] at hkept
    rw [hagree r' hr',hkept] at hkept'
    exact (Option.some.inj hkept').symm
  · intro h
    have hagree := agree_of_oneNewest horder h
    have hsome : (read stores key order).1.isSome = true → replicas ≠ [] := by
      rintro hsome rfl
      rw [List.perm_nil.mp horder] at hsome
      contradiction
    have hread : ∀ o : List ι, o.Perm replicas →
        read (read stores key order).2 key o = ((read stores key order).1,(read stores key order).2) := by
      intro o ho
      refine read_of_agree (fun r hr => hagree r (ho.mem_iff.mp hr)) ?_
      rintro hx rfl
      exact hsome hx (List.nil_perm.mp ho)
    refine ⟨hagree,?_⟩
    intro reads o hreads ho
    have hrun : run (fun stores o => (read stores key o).2) (read stores key order).2 reads =
        (read stores key order).2 := by
      refine run_invariant (I := fun s => s = (read stores key order).2)
        (P := fun _ (o : List ι) => o.Perm replicas) ?_ rfl (along_of_forall hreads _)
      rintro s o rfl ho
      exact congrArg Prod.snd (hread o ho)
    rw [hrun,hread o ho]

/-- The replicas of the project's own test, read in another order. -/
theorem converged_iff_stale_and_missing :
    let stores : Replicas ℕ ℕ ℕ ℕ Unit := fun r _ =>
      if r = 0 then some ⟨1,200,()⟩ else if r = 1 then some ⟨2,100,()⟩ else none
    Converged 0 [0,1,2] (read stores 0 [2,1,0]) := by
  intro stores
  have hone : OneNewest stores 0 [0,1,2] := by simp [OneNewest,stores]
  exact (converged_iff (by decide)).mpr hone

/-- Two replicas hold different values of one timestamp. -/
theorem equal_timestamps_stay_different : ¬ ∀ (stores : Replicas ℕ ℕ ℕ ℕ Unit) (key : ℕ) (replicas order : List ℕ),
    order.Perm replicas → Converged key replicas (read stores key order) := by
  intro h
  have hconv := h (fun r _ => some ⟨r,100,()⟩) 0 [0,1] [0,1] (List.Perm.refl _)
  have := hconv.1 1 (by decide)
  exact absurd this (by decide)

end DistributedSystems.EventualConsistency.ReadRepair
