import DistributedSystems.EventualConsistency.ReadRepair

/-! # Repairs that race with writes

Any number of reads and repair tasks run over the same replicas, and clients put values in
between. A repair is decided on the value that an earlier get returned, where a get that
raised counts as a missing key. What matters for it is what happened on that replica since.
-/
namespace DistributedSystems.EventualConsistency.ReadRepair
open Runs
variable {ρ ι κ V T C : Type}

/-- A result of `_safe_get`. The last two fields are histories: what the replica stored then
and how many values had been put on it under the key. -/
structure Get (ι V T C : Type) where
  replica : ι
  val : Option (VersionedValue V T C)
  held : Option (VersionedValue V T C)
  mark : ℕ

/-- How far a call of `read` has come. A get has run before `as_completed` yields it. -/
inductive Call (ι κ V T C : Type)
  | idle
  | reading (key : κ) (pending : List ι) (ran results : List (Get ι V T C))
  | repairing (key : κ) (latest : VersionedValue V T C) (rest : List (Get ι V T C))
  | returnedNone

/-- The replicas, every call of `read` with its repair task, and the history of all puts. -/
structure State (ρ ι κ V T C : Type) where
  stores : Replicas ι κ V T C
  calls : ρ → Call ι κ V T C
  written : ι → κ → List (VersionedValue V T C)

/-- A call may raise instead of reading or storing anything. -/
inductive Action (ρ ι κ V T C : Type)
  | read (call : ρ) (key : κ) (replicas : List ι)
  | get (call : ρ) (i : ℕ) (raises : Bool)
  | complete (call : ρ) (i : ℕ)
  | resolve (call : ρ)
  | repair (call : ρ) (raises : Bool)
  | clientPut (replica : ι) (key : κ) (value : VersionedValue V T C)

namespace State

def initial (stores : Replicas ι κ V T C) : State ρ ι κ V T C where
  stores := stores
  calls := fun _ => .idle
  written := fun _ _ => []

variable [DecidableEq ι] [DecidableEq κ]

def put (s : State ρ ι κ V T C) (replica : ι) (key : κ) (value : VersionedValue V T C) : State ρ ι κ V T C :=
  { s with
    stores := ReadRepair.put s.stores replica key value
    written := fun r k => if r = replica ∧ k = key then s.written r k ++ [value] else s.written r k }

/-- `_safe_get` turns an exception into `None`. -/
def safeGet (s : State ρ ι κ V T C) (replica : ι) (key : κ) (raises : Bool) : Get ι V T C where
  replica := replica
  val := if raises then none else s.stores replica key
  held := s.stores replica key
  mark := (s.written replica key).length

def setCall [DecidableEq ρ] (s : State ρ ι κ V T C) (call : ρ) (c : Call ι κ V T C) : State ρ ι κ V T C :=
  { s with calls := Function.update s.calls call c }

variable [DecidableEq ρ] [LinearOrder T]

/-- One iteration of `_repair_stale`; an exception of `put` is swallowed. -/
def repairReplica (s : State ρ ι κ V T C) (key : κ) (latest : VersionedValue V T C) (g : Get ι V T C)
    (raises : Bool) : State ρ ι κ V T C :=
  if shouldRepair g.val latest ∧ raises = false then s.put g.replica key latest else s

def step (s : State ρ ι κ V T C) : Action ρ ι κ V T C → State ρ ι κ V T C
  | .read call key replicas =>
    match s.calls call with
    | .idle => s.setCall call (.reading key replicas [] [])
    | _ => s
  | .get call i raises =>
    match s.calls call with
    | .reading key pending ran results =>
      match pending[i]? with
      | some r => s.setCall call (.reading key (pending.eraseIdx i) (ran ++ [s.safeGet r key raises]) results)
      | none => s
    | _ => s
  | .complete call i =>
    match s.calls call with
    | .reading key pending ran results =>
      match ran[i]? with
      | some g => s.setCall call (.reading key pending (ran.eraseIdx i) (results ++ [g]))
      | none => s
    | _ => s
  | .resolve call =>
    match s.calls call with
    | .reading key [] [] results =>
      match latest (results.map fun g => (g.replica,g.val)) with
      | some v => s.setCall call (.repairing key v results)
      | none => s.setCall call .returnedNone
    | _ => s
  | .repair call raises =>
    match s.calls call with
    | .repairing key v (g :: rest) => (s.repairReplica key v g raises).setCall call (.repairing key v rest)
    | _ => s
  | .clientPut replica key value => s.put replica key value

/-- No replica goes back to a smaller timestamp. -/
def NotOlder (s s' : State ρ ι κ V T C) : Prop :=
  ∀ r k, ∀ v ∈ s.stores r k, ∀ v' ∈ s'.stores r k, v.timestamp ≤ v'.timestamp

/-- Repairs do not take a replica back; what clients put is their own business. -/
def RepairKeeps (s : State ρ ι κ V T C) : Action ρ ι κ V T C → Prop
  | .repair call raises => s.NotOlder (s.step (.repair call raises))
  | _ => True

/-- What was put on the replica of a get since then. -/
def since (s : State ρ ι κ V T C) (key : κ) (g : Get ι V T C) : List (VersionedValue V T C) :=
  (s.written g.replica key).drop g.mark

/-- The last value put on the replica since the get is not newer than the repair, and without
such a put the get has not failed on a newer value. -/
def Undisturbed (s : State ρ ι κ V T C) (key : κ) (latest : VersionedValue V T C) (g : Get ι V T C) : Prop :=
  match (s.since key g).getLast? with
  | some w => w.timestamp ≤ latest.timestamp
  | none => g.val = none → ∀ v ∈ g.held, v.timestamp ≤ latest.timestamp

/-- A repair that stores something does so on an undisturbed replica. -/
def Quiet (s : State ρ ι κ V T C) : Action ρ ι κ V T C → Prop
  | .repair call raises =>
    match s.calls call with
    | .repairing key v (g :: _) => shouldRepair g.val v ∧ raises = false → s.Undisturbed key v g
    | _ => True
  | _ => True

end State

namespace Call

/-- The gets a call has made and not yet used, with its key. -/
def Has (c : Call ι κ V T C) (key : κ) (g : Get ι V T C) : Prop :=
  match c with
  | .reading k _ ran results => k = key ∧ (g ∈ ran ∨ g ∈ results)
  | .repairing k _ rest => k = key ∧ g ∈ rest
  | _ => False

end Call

/-- The replica stores what was put on it last since the get, or what it stored at the get;
the get returned that or failed. -/
structure Get.Tracks [DecidableEq ι] [DecidableEq κ] (g : Get ι V T C) (s : State ρ ι κ V T C) (key : κ) : Prop where
  mark_le : g.mark ≤ (s.written g.replica key).length
  stored : s.stores g.replica key = (s.since key g).getLast?.or g.held
  val : g.val = none ∨ g.val = g.held

variable [DecidableEq ι] [DecidableEq κ] {s : State ρ ι κ V T C} {key : κ} {g : Get ι V T C}

theorem Get.Tracks.put (h : g.Tracks s key) (r : ι) (k : κ) (v : VersionedValue V T C) : g.Tracks (s.put r k v) key := by
  by_cases hcell : g.replica = r ∧ key = k
  · have hwritten : (s.put r k v).written g.replica key = s.written g.replica key ++ [v] := if_pos hcell
    refine ⟨?_,?_,h.val⟩
    · rw [hwritten,List.length_append]
      exact Nat.le_add_right_of_le h.mark_le
    · have hstored : (s.put r k v).stores g.replica key = some v := if_pos hcell
      rw [hstored,State.since,hwritten,List.drop_append_of_le_length h.mark_le]
      simp
  · have hwritten : (s.put r k v).written g.replica key = s.written g.replica key := if_neg hcell
    have hstored : (s.put r k v).stores g.replica key = s.stores g.replica key := if_neg hcell
    refine ⟨hwritten ▸ h.mark_le,?_,h.val⟩
    rw [hstored,State.since,hwritten]
    exact h.stored

theorem State.safeGet_tracks (s : State ρ ι κ V T C) (r : ι) (key : κ) (raises : Bool) :
    (s.safeGet r key raises).Tracks s key := by
  refine ⟨le_rfl,?_,?_⟩
  · simp [State.since,State.safeGet]
  · cases raises with
    | true => exact Or.inl rfl
    | false => exact Or.inr rfl

namespace State

/-- Every get that is still to be used tracks its replica. -/
def Tracked (s : State ρ ι κ V T C) : Prop := ∀ call key g, (s.calls call).Has key g → g.Tracks s key

theorem Tracked.put (h : s.Tracked) (r : ι) (k : κ) (v : VersionedValue V T C) : (s.put r k v).Tracked :=
  fun call key g hg => (h call key g hg).put r k v

variable [DecidableEq ρ]

theorem Tracked.setCall (h : s.Tracked) {call : ρ} {c : Call ι κ V T C} (hc : ∀ key g, c.Has key g → g.Tracks s key) :
    (s.setCall call c).Tracked := by
  intro call' key g hg
  have htracks : g.Tracks s key := by
    by_cases he : call' = call
    · subst call'
      exact hc key g (by simpa [State.setCall] using hg)
    · exact h call' key g (by simpa [State.setCall,Function.update_of_ne he] using hg)
  exact ⟨htracks.mark_le,htracks.stored,htracks.val⟩

variable [LinearOrder T]

omit [DecidableEq ρ] [LinearOrder T] in
theorem Tracked.of_call (h : s.Tracked) {call : ρ} {c : Call ι κ V T C} (hcall : s.calls call = c)
    (hg : c.Has key g) : g.Tracks s key := h call key g (hcall ▸ hg)

omit [DecidableEq ρ] in
theorem Tracked.repairReplica (h : s.Tracked) (key : κ) (latest : VersionedValue V T C) (g : Get ι V T C) (raises : Bool) :
    (s.repairReplica key latest g raises).Tracked ∧ (s.repairReplica key latest g raises).calls = s.calls := by
  unfold State.repairReplica
  split
  · exact ⟨h.put _ _ _,rfl⟩
  · exact ⟨h,rfl⟩

theorem Tracked.step (h : s.Tracked) (a : Action ρ ι κ V T C) : (s.step a).Tracked := by
  cases a with
  | read call key replicas =>
    unfold State.step
    dsimp only
    split
    · refine h.setCall ?_
      rintro k g ⟨_,hg⟩
      rcases hg with hg | hg <;> exact absurd hg List.not_mem_nil
    · exact h
  | get call i raises =>
    unfold State.step
    dsimp only
    split
    · rename_i key pending ran results hcall
      split
      · refine h.setCall ?_
        rintro k g ⟨rfl,hg⟩
        rcases hg with hg | hg
        · rcases List.mem_append.mp hg with hg | hg
          · exact h.of_call hcall ⟨rfl,Or.inl hg⟩
          · rw [List.mem_singleton.mp hg]
            exact s.safeGet_tracks _ key raises
        · exact h.of_call hcall ⟨rfl,Or.inr hg⟩
      · exact h
    · exact h
  | complete call i =>
    unfold State.step
    dsimp only
    split
    · rename_i key pending ran results hcall
      split
      · rename_i g' hi
        refine h.setCall ?_
        rintro k g ⟨rfl,hg⟩
        rcases hg with hg | hg
        · exact h.of_call hcall ⟨rfl,Or.inl (List.mem_of_mem_eraseIdx hg)⟩
        · rcases List.mem_append.mp hg with hg | hg
          · exact h.of_call hcall ⟨rfl,Or.inr hg⟩
          · rw [List.mem_singleton.mp hg]
            exact h.of_call hcall ⟨rfl,Or.inl (List.mem_of_getElem? hi)⟩
      · exact h
    · exact h
  | resolve call =>
    unfold State.step
    dsimp only
    split
    · rename_i key results hcall
      split
      · refine h.setCall ?_
        rintro k g ⟨rfl,hg⟩
        exact h.of_call hcall ⟨rfl,Or.inr hg⟩
      · exact h.setCall (fun _ _ hg => hg.elim)
    · exact h
  | repair call raises =>
    unfold State.step
    dsimp only
    split
    · rename_i key v g rest hcall
      obtain ⟨hrepair,hcalls⟩ := h.repairReplica key v g raises
      refine hrepair.setCall ?_
      rintro k g' ⟨rfl,hg⟩
      exact hrepair.of_call ((congrFun hcalls call).trans hcall) ⟨rfl,List.mem_cons_of_mem g hg⟩
    · exact h
  | clientPut replica key value => exact h.put replica key value

omit [DecidableEq ι] [DecidableEq κ] [DecidableEq ρ] in
theorem notOlder_refl (s : State ρ ι κ V T C) : s.NotOlder s := by
  intro r k v hv v' hv'
  rw [Option.mem_def.mp hv] at hv'
  rw [Option.some.inj hv']

omit [DecidableEq ρ] in
/-- A put leaves nothing older behind exactly when what was stored is not newer. -/
theorem notOlder_put_iff {r : ι} {k : κ} {v : VersionedValue V T C} :
    s.NotOlder (s.put r k v) ↔ ∀ w ∈ s.stores r k, w.timestamp ≤ v.timestamp := by
  constructor
  · intro h w hw
    exact h r k w hw v (if_pos ⟨rfl,rfl⟩)
  · intro h r' k' w hw w' hw'
    by_cases hcell : r' = r ∧ k' = k
    · obtain ⟨rfl,rfl⟩ := hcell
      have : w' = v := by
        have hput : (s.put r' k' v).stores r' k' = some v := if_pos ⟨rfl,rfl⟩
        rw [hput] at hw'
        exact (Option.some.inj hw').symm
      rw [this]
      exact h w hw
    · have hput : (s.put r k v).stores r' k' = s.stores r' k' := if_neg hcell
      rw [hput,Option.mem_def.mp hw] at hw'
      rw [Option.some.inj hw']

omit [DecidableEq ρ] in
/-- The staleness check sees the stored value when nothing was put since the get. -/
theorem undisturbed_iff {latest : VersionedValue V T C} (h : g.Tracks s key) (hs : shouldRepair g.val latest) :
    s.Undisturbed key latest g ↔ ∀ w ∈ s.stores g.replica key, w.timestamp ≤ latest.timestamp := by
  rw [h.stored,Undisturbed]
  cases (s.since key g).getLast? with
  | some w => simp
  | none =>
    rw [Option.none_or]
    constructor
    · intro hu w hw
      rcases h.val with hval | hval
      · exact hu hval w hw
      · rw [hval,Option.mem_def.mp hw] at hs
        exact le_of_lt hs
    · exact fun hw _ => hw

theorem repairKeeps_iff (h : s.Tracked) (a : Action ρ ι κ V T C) : s.RepairKeeps a ↔ s.Quiet a := by
  cases a with
  | repair call raises =>
    unfold RepairKeeps Quiet State.step
    dsimp only
    split
    · rename_i key v g rest hcall
      have htracks : g.Tracks s key := h.of_call hcall ⟨rfl,List.mem_cons_self⟩
      unfold State.repairReplica
      split
      · rename_i hstores
        have hput := notOlder_put_iff (s := s) (r := g.replica) (k := key) (v := v)
        exact hput.trans ((undisturbed_iff htracks hstores.1).symm.trans (by simp [hstores]))
      · rename_i hstores
        exact iff_of_true (notOlder_refl s) (fun hc => absurd hc hstores)
    · exact iff_of_true (notOlder_refl s) trivial
  | _ => exact Iff.rfl

/-- Over any number of reads, repairs and client puts, the repairs never take a replica back
exactly when all of them store on undisturbed replicas. -/
theorem repairs_keep_iff (stores : Replicas ι κ V T C) (schedule : List (Action ρ ι κ V T C)) :
    Along step RepairKeeps (initial stores) schedule ↔ Along step Quiet (initial stores) schedule := by
  refine along_congr (I := Tracked) (fun s a hs => hs.step a) (fun s a hs => repairKeeps_iff hs a) ?_
  exact fun _ _ _ hg => hg.elim

section Counterexample

/-- One replica holds a newer value than the other. -/
def oneStale : Replicas ℕ ℕ ℕ ℕ Unit := fun r _ => some ⟨r,100 * (r + 1),()⟩

/-- The get of the newer replica raises, which counts as a missing key. -/
def failedGet : List (Action ℕ ℕ ℕ ℕ ℕ Unit) :=
  [.read 0 0 [0,1],.get 0 1 true,.get 0 0 false,.complete 0 0,.complete 0 0,.resolve 0,.repair 0 false]

/-- A client puts a newer value on the stale replica before the repair task gets there. -/
def lateWrite : List (Action ℕ ℕ ℕ ℕ ℕ Unit) :=
  [.read 0 0 [0,1],.get 0 0 false,.get 0 0 false,.complete 0 0,.complete 0 0,.resolve 0,
    .clientPut 0 0 ⟨7,300,()⟩,.repair 0 false]

theorem repair_takes_back : ¬ Along step RepairKeeps (initial oneStale) failedGet ∧
    ¬ Along step RepairKeeps (initial oneStale) lateWrite := by
  constructor
  · rintro ⟨_,_,_,_,_,_,hkeeps,_⟩
    have hle := hkeeps 1 0 ⟨1,200,()⟩ rfl ⟨0,100,()⟩ rfl
    exact absurd hle (by decide)
  · rintro ⟨_,_,_,_,_,_,_,hkeeps,_⟩
    have hle := hkeeps 0 0 ⟨7,300,()⟩ rfl ⟨1,200,()⟩ rfl
    exact absurd hle (by decide)

end Counterexample

section Alone
variable (call : ρ) (key : κ)

/-- The steps of one call of `read` and its repair task, with nothing in between. -/
def alone (call : ρ) (key : κ) (order : List ι) : List (Action ρ ι κ V T C) :=
  .read call key order :: (List.replicate order.length (.get call 0 false) ++
    (List.replicate order.length (.complete call 0) ++
      .resolve call :: List.replicate order.length (.repair call false)))

theorem run_get (s : State ρ ι κ V T C) (pending : List ι) (ran results : List (Get ι V T C)) :
    run step (s.setCall call (.reading key pending ran results)) (List.replicate pending.length (.get call 0 false)) =
      s.setCall call (.reading key [] (ran ++ pending.map fun r => s.safeGet r key false) results) := by
  induction pending generalizing ran with
  | nil => simp
  | cons r rest ih =>
    have hstep : (s.setCall call (.reading key (r :: rest) ran results)).step (.get call 0 false) =
        s.setCall call (.reading key rest (ran ++ [s.safeGet r key false]) results) := by
      simp [step,setCall,safeGet]
    rw [List.length_cons,List.replicate_succ,run_cons,hstep,ih]
    simp

theorem run_complete (s : State ρ ι κ V T C) (ran results : List (Get ι V T C)) :
    run step (s.setCall call (.reading key [] ran results)) (List.replicate ran.length (.complete call 0)) =
      s.setCall call (.reading key [] [] (results ++ ran)) := by
  induction ran generalizing results with
  | nil => simp
  | cons g rest ih =>
    have hstep : (s.setCall call (.reading key [] (g :: rest) results)).step (.complete call 0) =
        s.setCall call (.reading key [] rest (results ++ [g])) := by
      simp [step,setCall]
    rw [List.length_cons,List.replicate_succ,run_cons,hstep,ih]
    simp

/-- A repair task that is not interrupted is `repairStale`. -/
theorem run_repair (s : State ρ ι κ V T C) (v : VersionedValue V T C) (rest : List (Get ι V T C)) :
    (run step (s.setCall call (.repairing key v rest)) (List.replicate rest.length (.repair call false))).stores =
      repairStale key v (rest.map fun g => (g.replica,g.val)) s.stores := by
  induction rest generalizing s with
  | nil => rfl
  | cons g rest ih =>
    have hstep : (s.setCall call (.repairing key v (g :: rest))).step (.repair call false) =
        (s.repairReplica key v g false).setCall call (.repairing key v rest) := by
      by_cases hs : shouldRepair g.val v <;> simp [step,setCall,State.repairReplica,State.put,hs]
    have hstores : (s.repairReplica key v g false).stores = ReadRepair.repairReplica key v s.stores (g.replica,g.val) := by
      unfold State.repairReplica ReadRepair.repairReplica
      by_cases hs : shouldRepair g.val v
      · simp [hs,State.put]
      · simp [hs]
    rw [List.length_cons,List.replicate_succ,run_cons,hstep,ih,hstores]
    rfl

theorem run_repair_returnedNone (s : State ρ ι κ V T C) (n : ℕ) :
    run step (s.setCall call .returnedNone) (List.replicate n (.repair call false)) = s.setCall call .returnedNone := by
  induction n with
  | zero => rfl
  | succ n ih =>
    have hstep : (s.setCall call .returnedNone).step (.repair call false) = s.setCall call .returnedNone := by
      simp [step,setCall]
    rw [List.replicate_succ,run_cons,hstep,ih]

/-- A call that runs alone does what `read` does. -/
theorem run_alone (s : State ρ ι κ V T C) (hidle : s.calls call = .idle) (order : List ι) :
    (run step s (alone call key order)).stores = (ReadRepair.read s.stores key order).2 := by
  have hread : s.step (.read call key order) = s.setCall call (.reading key order [] []) := by
    simp [step,hidle]
  have hresults : (order.map fun r => s.safeGet r key false).map (fun g => (g.replica,g.val)) =
      replicaResults s.stores key order := by
    simp [replicaResults,safeGet,Function.comp_def]
  rw [alone,run_cons,hread,run_append,run_get,run_append,List.nil_append]
  have hcomplete := run_complete call key s (order.map fun r => s.safeGet r key false) []
  rw [List.length_map,List.nil_append] at hcomplete
  rw [hcomplete,run_cons]
  have hresolve : (s.setCall call (.reading key [] [] (order.map fun r => s.safeGet r key false))).step (.resolve call) =
      s.setCall call (match latest (replicaResults s.stores key order) with
        | some v => .repairing key v (order.map fun r => s.safeGet r key false)
        | none => .returnedNone) := by
    simp only [step,setCall,Function.update_self,hresults]
    cases latest (replicaResults s.stores key order) <;> simp
  rw [hresolve]
  unfold ReadRepair.read
  cases latest (replicaResults s.stores key order) with
  | some v =>
    have hrepair := run_repair call key s v (order.map fun r => s.safeGet r key false)
    rw [List.length_map,hresults] at hrepair
    exact hrepair
  | none =>
    dsimp only
    rw [run_repair_returnedNone]
    rfl

/-- Nothing is taken back by a call that runs alone: a newest value that is unique reaches every
replica. -/
theorem alone_agree (s : State ρ ι κ V T C) (hidle : s.calls call = .idle) {replicas order : List ι}
    (horder : order.Perm replicas) (h : OneNewest s.stores key replicas) :
    ∀ r ∈ replicas, (run step s (alone call key order)).stores r key = (ReadRepair.read s.stores key order).1 := by
  rw [run_alone call key s hidle order]
  exact agree_of_oneNewest horder h

end Alone

end State
end DistributedSystems.EventualConsistency.ReadRepair
