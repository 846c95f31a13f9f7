import DistributedSystems.Clocks.DottedVersionVector
import DistributedSystems.Protocol.Runs

/-! # Fresh dots

An increment makes the next event of its actor, or one beyond a gap. The clock alone is asked
whether a given timestamp is new, so one that is already a dot beyond the clock is accepted again.
-/
namespace DistributedSystems.Clocks.Dotted
open Runs

namespace DottedVersionVector
variable {v v' other : DottedVersionVector} {timestamp : Option ℤ} {t : ℤ}

/-- What the operations keep. -/
structure Sound (v : DottedVersionVector) : Prop where
  wellFormed : v.WellFormed
  canonical : v.Canonical

theorem WellFormed.compactDots (h : v.WellFormed) : v.compactDots.WellFormed := by
  have hactor : ∀ (clock : Dict String ℤ) (actor : String), (∀ a ts, clock.get? a = some ts → 0 ≤ ts) →
      ∀ a ts, (compactActor v.dots clock actor).get? a = some ts → 0 ≤ ts := by
    intro clock actor hclock a ts hts
    have hcurrent : 0 ≤ (clock.get? actor).getD 0 := by
      cases hget : clock.get? actor with
      | none => exact le_rfl
      | some ts => exact hclock actor ts hget
    unfold compactActor at hts
    dsimp only at hts
    split at hts
    · rename_i hgrown
      rw [Dict.get?_insert] at hts
      split at hts
      · obtain rfl := Option.some.inj hts
        exact hcurrent.trans hgrown.le
      · exact hclock a ts hts
    · exact hclock a ts hts
  constructor
  · have hfold := run_invariant_of_step hactor h.clock (v.dots.map Prod.fst).dedup
    exact hfold
  · exact fun d hd => h.dots d (mem_dots_compactDots.mp hd).1

theorem Sound.compactDots (h : v.WellFormed) : v.compactDots.Sound := ⟨h.compactDots,canonical_compactDots v⟩

theorem Sound.merge (h : v.Sound) (h' : other.Sound) : (v.merge other).Sound := by
  refine Sound.compactDots ⟨?_,fun d hd => ?_⟩
  · have hinsert : ∀ (clock : Dict String ℤ) (e : String × ℤ), (∀ a ts, clock.get? a = some ts → 0 ≤ ts) →
        ∀ a ts, (clock.insert e.1 (max ((clock.get? e.1).getD 0) e.2)).get? a = some ts → 0 ≤ ts := by
      intro clock e hclock a ts hts
      rw [Dict.get?_insert] at hts
      split at hts
      · obtain rfl := Option.some.inj hts
        refine le_trans ?_ (le_max_left _ _)
        cases hget : clock.get? e.1 with
        | none => exact le_rfl
        | some ts => exact hclock e.1 ts hget
      · exact hclock a ts hts
    exact run_invariant_of_step hinsert h.wellFormed.clock other.clock.entries
  · rcases List.mem_union_iff.mp hd with hd | hd
    · exact h.wellFormed.dots d hd
    · exact h'.wellFormed.dots d hd

theorem sound_init {actor : String} (h : init actor = .ok v) : v.Sound ∧ v.actor = actor := by
  unfold init at h
  split at h
  · cases h
  · cases h
    refine ⟨⟨⟨fun a ts hts => ?_,fun _ hd => absurd hd List.not_mem_nil⟩,fun _ hd => absurd hd List.not_mem_nil⟩,rfl⟩
    rw [Dict.get?_insert] at hts
    split at hts
    · exact (Option.some.inj hts).le
    · cases hts

/-- What an accepted increment returns and leaves. -/
theorem increment_ok (h : v.increment timestamp = .ok (t,v')) :
    v.time v.actor < t ∧ (∀ ts, timestamp = some ts → t = ts) ∧ (timestamp = none → t = v.time v.actor + 1) ∧
      v' = if t = v.time v.actor + 1 then compactDots { v.addDot (v.actor,t) with clock := v.clock.insert v.actor t }
        else v.addDot (v.actor,t) := by
  unfold increment at h
  cases timestamp with
  | none =>
    change (if v.time v.actor + 1 = v.time v.actor + 1 then _ else _) = _ at h
    rw [if_pos rfl] at h
    cases h
    exact ⟨by omega,fun _ hts => absurd hts.symm (Option.some_ne_none _),fun _ => rfl,(if_pos rfl).symm⟩
  | some ts =>
    by_cases hle : ts ≤ v.time v.actor
    · dsimp only at h
      rw [if_pos hle] at h
      cases h
    · dsimp only at h
      rw [if_neg hle] at h
      change (if ts = v.time v.actor + 1 then _ else _) = _ at h
      split at h
      · rename_i hnext
        cases h
        exact ⟨not_le.mp hle,fun _ hts => Option.some.inj hts,fun hnone => absurd hnone (Option.some_ne_none _),
          (if_pos hnext).symm⟩
      · rename_i hgap
        cases h
        exact ⟨not_le.mp hle,fun _ hts => Option.some.inj hts,fun hnone => absurd hnone (Option.some_ne_none _),
          (if_neg hgap).symm⟩

/-- Only timestamps that the clock covers are rejected. -/
theorem le_time_of_error {ts : ℤ} {e : ValueError} (h : v.increment (some ts) = .error e) : ts ≤ v.time v.actor := by
  by_contra hle
  unfold increment at h
  dsimp only at h
  rw [if_neg hle] at h
  change (if ts = v.time v.actor + 1 then _ else _) = _ at h
  split at h
  · cases h
  · cases h

theorem addDot_dots_pos (hv : v.WellFormed) (ht : 0 < t) : ∀ d ∈ (v.addDot (v.actor,t)).dots, 0 < d.2 := by
  intro d hd
  rcases List.mem_insert_iff.mp hd with rfl | hd
  · exact ht
  · exact hv.dots d hd

/-- The vector with its own entry of the clock set. -/
theorem time_advance (a : String) : time { v.addDot (v.actor,t) with clock := v.clock.insert v.actor t } a =
    if a = v.actor then t else v.time a := by
  unfold time
  rw [Dict.get?_insert]
  split <;> rfl

theorem wellFormed_advance (hv : v.WellFormed) (ht : 0 < t) :
    WellFormed { v.addDot (v.actor,t) with clock := v.clock.insert v.actor t } := by
  refine ⟨fun a ts hts => ?_,addDot_dots_pos hv ht⟩
  rw [Dict.get?_insert] at hts
  split at hts
  · obtain rfl := Option.some.inj hts
    exact ht.le
  · exact hv.clock a ts hts

/-- The next event moves the clock on by one. -/
theorem known_advance (hpos : 0 < t) (hnext : t = v.time v.actor + 1) :
    known { v.addDot (v.actor,t) with clock := v.clock.insert v.actor t } = insert (v.actor,t) v.known := by
  ext ⟨a,ts⟩
  rw [mem_known,Set.mem_insert_iff,mem_known,time_advance]
  change (a,ts) ∈ v.dots.insert (v.actor,t) ∨ _ ↔ _
  rw [List.mem_insert_iff]
  by_cases ha : a = v.actor
  · subst a
    have hrange : 1 ≤ ts ∧ ts ≤ t ↔ ts = t ∨ 1 ≤ ts ∧ ts ≤ v.time v.actor := by omega
    rw [if_pos rfl]
    simp only [Prod.mk.injEq,true_and,hrange]
    tauto
  · simp [ha]

/-- An event beyond a gap stays a dot. -/
theorem known_addDot : (v.addDot (v.actor,t)).known = insert (v.actor,t) v.known := by
  ext d
  rw [mem_known,Set.mem_insert_iff,mem_known]
  change d ∈ v.dots.insert (v.actor,t) ∨ _ ↔ _
  rw [List.mem_insert_iff,or_assoc]
  rfl

/-- An increment adds its dot and nothing else. -/
theorem known_increment (hv : v.Sound) (h : v.increment timestamp = .ok (t,v')) :
    v'.Sound ∧ v'.actor = v.actor ∧ v'.known = insert (v.actor,t) v.known := by
  obtain ⟨hlt,-,-,rfl⟩ := increment_ok h
  have hpos : 0 < t := (hv.wellFormed.time_nonneg v.actor).trans_lt hlt
  split
  · rename_i hnext
    have hwell := wellFormed_advance hv.wellFormed hpos
    exact ⟨Sound.compactDots hwell,rfl,(known_compactDots hwell.dots).trans (known_advance hpos hnext)⟩
  · rename_i hgap
    refine ⟨⟨⟨hv.wellFormed.clock,addDot_dots_pos hv.wellFormed hpos⟩,fun d hd => ?_⟩,rfl,known_addDot⟩
    rcases List.mem_insert_iff.mp hd with rfl | hd
    · change v.time v.actor + 1 < t
      omega
    · exact hv.canonical d hd

/-- The dot of an increment is new exactly when it is not a dot already. -/
theorem notMem_known_iff (h : v.increment timestamp = .ok (t,v')) :
    (v.actor,t) ∉ v.known ↔ (v.actor,t) ∉ v.dots := by
  obtain ⟨hlt,-⟩ := increment_ok h
  rw [mem_known,not_or]
  refine and_iff_left_of_imp fun _ hcovered => ?_
  have := hcovered.2
  dsimp only at this
  omega

/-- The next timestamp is never a dot. -/
theorem next_notMem_dots (hv : v.Sound) : (v.actor,v.time v.actor + 1) ∉ v.dots :=
  fun hd => absurd (hv.canonical _ hd) (lt_irrefl _)

end DottedVersionVector

/-- Whom a replica merges with: another replica, or a copy that was made of one. -/
inductive Source (ι : Type)
  | replica (j : ι)
  | copy (n : ℕ)

inductive Action (ι : Type)
  | increment (i : ι) (timestamp : Option ℤ)
  | event (i : ι) (other : Option (Source ι))
  | merge (i : ι) (other : Source ι)
  | copy (i : ι)

/-- Replicas with the copies that were made of them and the dots of their increments. -/
structure Replicas (ι : Type) where
  replicas : ι → DottedVersionVector
  copies : List DottedVersionVector
  produced : List (String × ℤ)

namespace Replicas
variable {ι : Type} [DecidableEq ι]

def source (s : Replicas ι) : Source ι → Option DottedVersionVector
  | .replica j => some (s.replicas j)
  | .copy n => s.copies[n]?

def set (s : Replicas ι) (i : ι) (v : DottedVersionVector) : Replicas ι :=
  { s with replicas := Function.update s.replicas i v }

/-- What an increment returns; what raises changes nothing. -/
def record (s : Replicas ι) (i : ι) : Except ValueError (ℤ × DottedVersionVector) → Replicas ι
  | .ok (t,v) => { s.set i v with produced := s.produced ++ [(v.actor,t)] }
  | .error _ => s

def step (s : Replicas ι) : Action ι → Replicas ι
  | .increment i timestamp => s.record i ((s.replicas i).increment timestamp)
  | .event i none => s.record i ((s.replicas i).event none)
  | .event i (some other) =>
    match s.source other with
    | none => s
    | some other => s.record i ((s.replicas i).event (some other))
  | .merge i other =>
    match s.source other with
    | none => s
    | some other => s.set i ((s.replicas i).merge other)
  | .copy i => { s with copies := s.copies ++ [s.replicas i] }

/-- The result of an increment is a new dot of the actor, and nothing else is added. -/
def Fresh (v : DottedVersionVector) (result : Except ValueError (ℤ × DottedVersionVector)) : Prop :=
  ∀ t v', result = .ok (t,v') → (v.actor,t) ∉ v.known ∧ v'.known = insert (v.actor,t) v.known

/-- Every increment of the step is fresh where it is made: after the merge, in an event. -/
def FreshStep (s : Replicas ι) : Action ι → Prop
  | .increment i timestamp => Fresh (s.replicas i) ((s.replicas i).increment timestamp)
  | .event i none => Fresh (s.replicas i) ((s.replicas i).event none)
  | .event i (some other) => ∀ v, s.source other = some v →
      Fresh ((s.replicas i).merge v) ((s.replicas i).event (some v))
  | .merge _ _ => True
  | .copy _ => True

/-- A timestamp that is given is not among the dots of the replica. -/
def NewTimestamp (s : Replicas ι) : Action ι → Prop
  | .increment i (some timestamp) => ((s.replicas i).actor,timestamp) ∉ (s.replicas i).dots
  | _ => True

variable {s : Replicas ι} {actor : ι → String}

/-- All replicas and copies are as the operations leave them. -/
structure Sound (actor : ι → String) (s : Replicas ι) : Prop where
  replicas : ∀ i, (s.replicas i).Sound
  actors : ∀ i, (s.replicas i).actor = actor i
  copies : ∀ v ∈ s.copies, v.Sound

omit [DecidableEq ι] in
theorem Sound.source (h : s.Sound actor) {other : Source ι} {v : DottedVersionVector} (hv : s.source other = some v) :
    v.Sound := by
  cases other with
  | replica j =>
    obtain rfl := Option.some.inj hv
    exact h.replicas j
  | copy n => exact h.copies v (List.mem_of_getElem? hv)

theorem Sound.set (h : s.Sound actor) {i : ι} {v : DottedVersionVector} (hv : v.Sound) (hactor : v.actor = actor i) :
    (s.set i v).Sound actor := by
  refine ⟨fun j => ?_,fun j => ?_,h.copies⟩
  · by_cases hj : j = i
    · subst j
      simpa [Replicas.set] using hv
    · simpa [Replicas.set,hj] using h.replicas j
  · by_cases hj : j = i
    · subst j
      simpa [Replicas.set] using hactor
    · simpa [Replicas.set,hj] using h.actors j

theorem Sound.record (h : s.Sound actor) {i : ι} {v : DottedVersionVector} (hv : v.Sound) (hactor : v.actor = actor i)
    (timestamp : Option ℤ) : (s.record i (v.increment timestamp)).Sound actor := by
  cases hresult : v.increment timestamp with
  | error e => exact h
  | ok result =>
    obtain ⟨t,v'⟩ := result
    obtain ⟨hsound,hactor',-⟩ := DottedVersionVector.known_increment hv hresult
    have hset := h.set hsound (hactor'.trans hactor)
    exact ⟨hset.replicas,hset.actors,hset.copies⟩

theorem Sound.step (h : s.Sound actor) (a : Action ι) : (s.step a).Sound actor := by
  cases a with
  | increment i timestamp => exact h.record (h.replicas i) (h.actors i) timestamp
  | event i other =>
    cases other with
    | none => exact h.record (h.replicas i) (h.actors i) none
    | some other =>
      unfold Replicas.step
      dsimp only
      cases hsource : s.source other with
      | none => exact h
      | some v => exact h.record ((h.replicas i).merge (h.source hsource)) (h.actors i) none
  | merge i other =>
    unfold Replicas.step
    dsimp only
    cases hsource : s.source other with
    | none => exact h
    | some v => exact h.set ((h.replicas i).merge (h.source hsource)) (h.actors i)
  | copy i =>
    refine ⟨h.replicas,h.actors,fun v hv => ?_⟩
    rcases List.mem_append.mp hv with hv | hv
    · exact h.copies v hv
    · rw [List.mem_singleton.mp hv]
      exact h.replicas i

theorem fresh_none {v : DottedVersionVector} (hv : v.Sound) : Fresh v (v.increment none) := by
  intro t v' h
  obtain ⟨-,-,hnext,-⟩ := DottedVersionVector.increment_ok h
  rw [DottedVersionVector.notMem_known_iff h,hnext rfl]
  exact ⟨DottedVersionVector.next_notMem_dots hv,hnext rfl ▸ (DottedVersionVector.known_increment hv h).2.2⟩

theorem fresh_some_iff {v : DottedVersionVector} (hv : v.Sound) (timestamp : ℤ) :
    Fresh v (v.increment (some timestamp)) ↔ (v.actor,timestamp) ∉ v.dots := by
  cases hresult : v.increment (some timestamp) with
  | error e =>
    -- a timestamp that is rejected is not beyond the clock, where the dots are
    refine iff_of_true nofun fun hd => ?_
    have hbeyond := hv.canonical _ hd
    have hcovered := DottedVersionVector.le_time_of_error hresult
    dsimp only at hbeyond
    omega
  | ok result =>
    obtain ⟨t,v'⟩ := result
    obtain ⟨-,hgiven,-⟩ := DottedVersionVector.increment_ok hresult
    have ht := hgiven timestamp rfl
    have hknown := (DottedVersionVector.known_increment hv hresult).2.2
    rw [← ht,← DottedVersionVector.notMem_known_iff hresult]
    constructor
    · exact fun h => (h t v' rfl).1
    · rintro h _ _ ⟨⟩
      exact ⟨h,hknown⟩

omit [DecidableEq ι] in
/-- Exactly the timestamps that are dots already are not fresh. -/
theorem freshStep_iff (h : s.Sound actor) (a : Action ι) : s.FreshStep a ↔ s.NewTimestamp a := by
  cases a with
  | increment i timestamp =>
    cases timestamp with
    | none => exact iff_of_true (fresh_none (h.replicas i)) trivial
    | some timestamp => exact fresh_some_iff (h.replicas i) timestamp
  | event i other =>
    cases other with
    | none => exact iff_of_true (fresh_none (h.replicas i)) trivial
    | some other =>
      exact iff_of_true (fun v hv => fresh_none ((h.replicas i).merge (h.source hv))) trivial
  | merge i other => exact Iff.rfl
  | copy i => exact Iff.rfl

/-- The dots that were produced are known where they were made, and differ. -/
structure Distinct (actor : ι → String) (s : Replicas ι) : Prop where
  known : ∀ i t, (actor i,t) ∈ s.produced → (actor i,t) ∈ (s.replicas i).known
  nodup : s.produced.Nodup

theorem Distinct.set (h : s.Distinct actor) {i : ι} {v : DottedVersionVector} (hv : (s.replicas i).known ⊆ v.known) :
    (s.set i v).Distinct actor := by
  refine ⟨fun j t hmem => ?_,h.nodup⟩
  have hknown := h.known j t hmem
  by_cases hj : j = i
  · subst j
    simpa [Replicas.set] using hv hknown
  · simpa [Replicas.set,hj] using hknown

/-- A fresh result of a replica that knows at least as much as before keeps the dots distinct. -/
theorem Distinct.record (hinj : Function.Injective actor) (h : s.Distinct actor) {i : ι} {v : DottedVersionVector}
    (hv : v.Sound) (hactor : v.actor = actor i) (hknown : (s.replicas i).known ⊆ v.known) (timestamp : Option ℤ)
    (hfresh : Fresh v (v.increment timestamp)) : (s.record i (v.increment timestamp)).Distinct actor := by
  cases hresult : v.increment timestamp with
  | error e => exact h
  | ok result =>
    obtain ⟨t,v'⟩ := result
    obtain ⟨hnew,hadded⟩ := hfresh t v' hresult
    have hactor' := (DottedVersionVector.known_increment hv hresult).2.1
    have hsub : v.known ⊆ v'.known := hadded ▸ Set.subset_insert _ _
    have hset := h.set (hknown.trans hsub)
    have hdot : (v'.actor,t) = (actor i,t) := by rw [hactor',hactor]
    constructor
    · intro j t' hmem
      rcases List.mem_append.mp hmem with hmem | hmem
      · exact hset.known j t' hmem
      · have heq := (List.mem_singleton.mp hmem).trans hdot
        obtain ⟨hj,rfl⟩ := Prod.mk.inj heq
        obtain rfl := hinj hj
        change (actor j,t') ∈ (Function.update s.replicas j v' j).known
        rw [Function.update_self,hadded,hactor]
        exact Set.mem_insert _ _
    · refine h.nodup.append (List.nodup_singleton _) (List.disjoint_singleton.mpr fun hmem => ?_)
      rw [hdot] at hmem
      rw [hactor] at hnew
      exact hnew (hknown (h.known i t hmem))

theorem Distinct.step (hinj : Function.Injective actor) (hs : s.Sound actor) (h : s.Distinct actor) {a : Action ι}
    (hfresh : s.FreshStep a) : (s.step a).Distinct actor := by
  have hmerge : ∀ {i : ι} {other : Source ι} {v : DottedVersionVector}, s.source other = some v →
      (s.replicas i).known ⊆ ((s.replicas i).merge v).known := by
    intro i other v hv
    rw [DottedVersionVector.known_merge (hs.replicas i).wellFormed (hs.source hv).wellFormed]
    exact Set.subset_union_left
  cases a with
  | increment i timestamp => exact h.record hinj (hs.replicas i) (hs.actors i) subset_rfl timestamp hfresh
  | event i other =>
    cases other with
    | none => exact h.record hinj (hs.replicas i) (hs.actors i) subset_rfl none hfresh
    | some other =>
      unfold Replicas.step
      dsimp only
      cases hsource : s.source other with
      | none => exact h
      | some v =>
        exact h.record hinj ((hs.replicas i).merge (hs.source hsource)) (hs.actors i) (hmerge hsource) none
          (hfresh v hsource)
  | merge i other =>
    unfold Replicas.step
    dsimp only
    cases hsource : s.source other with
    | none => exact h
    | some v => exact h.set (hmerge hsource)
  | copy i => exact ⟨h.known,h.nodup⟩

/-- Replicas of distinct actors that have just been made. -/
structure Started (actor : ι → String) (s : Replicas ι) : Prop where
  injective : Function.Injective actor
  init : ∀ i, DottedVersionVector.init (actor i) = .ok (s.replicas i)
  copies : s.copies = []
  produced : s.produced = []

/-- In a run every increment makes a new dot and adds nothing else, and all dots that are made
differ, exactly when every timestamp that is given is not a dot of the replica. -/
theorem fresh_dots_iff {actor : ι → String} {s : Replicas ι} (h : Started actor s) (schedule : List (Action ι)) :
    Along step FreshStep s schedule ∧ (run step s schedule).produced.Nodup ↔ Along step NewTimestamp s schedule := by
  have hs : s.Sound actor := by
    refine ⟨fun i => (DottedVersionVector.sound_init (h.init i)).1,
      fun i => (DottedVersionVector.sound_init (h.init i)).2,?_⟩
    rw [h.copies]
    exact nofun
  have hd : s.Distinct actor := by
    constructor
    · rw [h.produced]
      exact nofun
    · rw [h.produced]
      exact List.nodup_nil
  have hstep : ∀ (s : Replicas ι) (a : Action ι), s.Sound actor → (s.step a).Sound actor := fun _ a h => h.step a
  have hiff : Along step FreshStep s schedule ↔ Along step NewTimestamp s schedule :=
    along_congr hstep (fun _ a h => freshStep_iff h a) hs
  refine ⟨fun h => hiff.mp h.1,fun hnew => ⟨hiff.mpr hnew,?_⟩⟩
  have hboth : ∀ (s : Replicas ι) (a : Action ι), s.Sound actor ∧ s.Distinct actor → s.FreshStep a →
      (s.step a).Sound actor ∧ (s.step a).Distinct actor :=
    fun s a hs hfresh => ⟨hs.1.step a,hs.2.step h.injective hs.1 hfresh⟩
  exact (run_invariant hboth ⟨hs,hd⟩ (hiff.mpr hnew)).2.nodup

/-- Two replicas as the constructor makes them. -/
def twoReplicas : Replicas Bool :=
  ⟨fun b => .start (if b then "b" else "a"),[],[]⟩

theorem started_twoReplicas : Started (fun b : Bool => if b then "b" else "a") twoReplicas where
  injective := by decide
  init := fun b => by cases b <;> rfl
  copies := rfl
  produced := rfl

/-- A gap that is filled after a merge. -/
theorem fresh_dots_of_gap :
    Along step FreshStep twoReplicas [.increment false (some 3),.event true (some (.replica false)),
      .increment false none] ∧
    (run step twoReplicas [.increment false (some 3),.event true (some (.replica false)),
      .increment false none]).produced.Nodup ↔
    Along step NewTimestamp twoReplicas [.increment false (some 3),.event true (some (.replica false)),
      .increment false none] :=
  fresh_dots_iff started_twoReplicas _

/-- The same timestamp beyond the clock is accepted twice. -/
theorem dot_made_twice : ¬∀ (actor : Bool → String) (s : Replicas Bool), Started actor s → ∀ schedule,
    Along step FreshStep s schedule ∧ (run step s schedule).produced.Nodup := by
  intro h
  have hnodup := (h _ twoReplicas started_twoReplicas [.increment false (some 3),.increment false (some 3)]).2
  revert hnodup
  decide

end Replicas
end DistributedSystems.Clocks.Dotted
