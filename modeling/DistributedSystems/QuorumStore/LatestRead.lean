import DistributedSystems.Protocol.Quorum
import DistributedSystems.Protocol.Runs
import DistributedSystems.QuorumStore.Coordinator

/-! # A quorum read after a successful write

Every counted answer carries a value that was written, and the write quorum meets the
answers. But an answer counts towards the read quorum only if the replica holds a value.
-/
namespace DistributedSystems.QuorumStore
open Runs

variable {ρ κ V : Type} [DecidableEq ρ] [DecidableEq κ]

/-- A write of a value other than `None` at the quorum level, with the way it goes at each
position. -/
structure QuorumWrite (κ V : Type) where
  key : κ
  value : V
  version : ℕ
  outcomes : ℕ → WriteOutcome

namespace QuorumCoordinator

def perform (c : QuorumCoordinator ρ κ V) (w : QuorumWrite κ V) :
    QuorumCoordinator ρ κ V × Except QuorumNotMetError Bool :=
  c.write w.key (some w.value) .quorum w.version w.outcomes

def step (c : QuorumCoordinator ρ κ V) (w : QuorumWrite κ V) : QuorumCoordinator ρ κ V := (c.perform w).1

/-- All that is stored was written. -/
def Written (c : QuorumCoordinator ρ κ V) (writes : List (QuorumWrite κ V)) : Prop :=
  ∀ r k value version, c.storage r k = some (value,version) →
    ∃ w ∈ writes, w.key = k ∧ w.version = version ∧ value = some w.value

theorem Written.step {c : QuorumCoordinator ρ κ V} {writes : List (QuorumWrite κ V)} (h : c.Written writes)
    (w : QuorumWrite κ V) : (c.step w).Written (writes ++ [w]) := by
  intro r k value version hs
  unfold QuorumCoordinator.step perform at hs
  rw [write_storage] at hs
  split at hs
  · rename_i hw
    cases hs
    exact ⟨w,List.mem_append_right _ List.mem_cons_self,hw.1.symm,rfl,rfl⟩
  · obtain ⟨w',hw',hrest⟩ := h r k value version hs
    exact ⟨w',List.mem_append_left _ hw',hrest⟩

theorem Written.run {c : QuorumCoordinator ρ κ V} {old : List (QuorumWrite κ V)} (h : c.Written old)
    (writes : List (QuorumWrite κ V)) : (Runs.run QuorumCoordinator.step c writes).Written (old ++ writes) := by
  induction writes generalizing c old with
  | nil =>
    rw [List.append_nil]
    exact h
  | cons w rest ih =>
    rw [run_cons,List.append_cons]
    exact ih (h.step w)

theorem run_replicas (c : QuorumCoordinator ρ κ V) (writes : List (QuorumWrite κ V)) :
    (run step c writes).replicas = c.replicas ∧ (run step c writes).config = c.config :=
  run_invariant_of_step (I := fun c' : QuorumCoordinator ρ κ V => c'.replicas = c.replicas ∧ c'.config = c.config)
    (fun _ _ h => ⟨(write_replicas ..).trans h.1,(write_config ..).trans h.2⟩) ⟨rfl,rfl⟩ writes

/-- Writes to other keys leave a key alone. -/
theorem run_storage_of_ne (c : QuorumCoordinator ρ κ V) {writes : List (QuorumWrite κ V)} {key : κ}
    (h : ∀ w ∈ writes, w.key ≠ key) (r : ρ) : (run step c writes).storage r key = c.storage r key := by
  induction writes generalizing c with
  | nil => rfl
  | cons w rest ih =>
    rw [run_cons,ih _ fun w' hw' => h w' (List.mem_cons_of_mem _ hw')]
    unfold step perform
    rw [write_storage,if_neg fun hk => h w List.mem_cons_self hk.1.symm]

omit [DecidableEq ρ] [DecidableEq κ] in
theorem init_storage {replicas : List ρ} {writeQuorum readQuorum : Option ℤ} {c : QuorumCoordinator ρ κ V}
    (h : init replicas writeQuorum readQuorum = .ok c) (r : ρ) (k : κ) : c.storage r k = none := by
  unfold init at h
  dsimp only at h
  split at h
  · cases h
  · cases h
    rfl

/-- A successful write is stored wherever it was counted. -/
theorem perform_storage {c : QuorumCoordinator ρ κ V} {w : QuorumWrite κ V} {call : ρ × ℕ}
    (hmem : call ∈ c.replicas.zipIdx) (hs : w.outcomes call.2 = .stored) :
    (c.step w).storage call.1 w.key = some (some w.value,w.version) := by
  unfold step perform
  rw [write_storage]
  exact if_pos ⟨rfl,call,hmem,rfl,by rw [hs]; rfl⟩

section LastWrite
variable {replicas : List ρ} {writeQuorum readQuorum : Option ℤ} {c : QuorumCoordinator ρ κ V}
  {before after : List (QuorumWrite κ V)} {last : QuorumWrite κ V}

/-- The replicas that the last write of a key was counted at still hold it. -/
theorem storage_of_last (hafter : ∀ w ∈ after, w.key ≠ last.key) {call : ρ × ℕ} (hmem : call ∈ c.replicas.zipIdx)
    (hs : last.outcomes call.2 = .stored) :
    (run step c (before ++ last :: after)).storage call.1 last.key = some (some last.value,last.version) := by
  rw [run_append,run_cons,run_storage_of_ne _ hafter]
  refine perform_storage ?_ hs
  rw [(run_replicas c before).1]
  exact hmem

/-- What is stored under the key is the last write, or older. -/
theorem version_le_last (hinit : init replicas writeQuorum readQuorum = .ok c)
    (hversions : (before ++ last :: after).Pairwise (·.version < ·.version)) (hafter : ∀ w ∈ after, w.key ≠ last.key)
    {r : ρ} {value : V} {version : ℕ}
    (hs : (run step c (before ++ last :: after)).storage r last.key = some (some value,version)) :
    version ≤ last.version ∧ (version = last.version → value = last.value) := by
  have hstart : c.Written [] := by
    intro r k value version hs
    rw [init_storage hinit] at hs
    cases hs
  have hwritten : (run step c (before ++ last :: after)).Written (before ++ last :: after) := hstart.run _
  obtain ⟨w,hw,hkey,rfl,hvalue⟩ := hwritten r last.key _ _ hs
  rcases List.mem_append.mp hw with hw | hw
  · have hlt := (List.pairwise_append.mp hversions).2.2 w hw last List.mem_cons_self
    exact ⟨hlt.le,fun heq => absurd heq hlt.ne⟩
  rcases List.mem_cons.mp hw with rfl | hw
  · exact ⟨le_refl _,fun _ => Option.some.inj hvalue⟩
  · exact absurd hkey (hafter w hw)

/-- A read quorum of values includes the last write. -/
theorem last_mem_responses (hstrong : c.config.isStronglyConsistent) (hafter : ∀ w ∈ after, w.key ≠ last.key)
    (hok : ((run step c before).perform last).2 = .ok true) {answers : ℕ → Bool}
    (hR : c.config.R ≤ (run step c (before ++ last :: after)).holders last.key answers) :
    ∃ r, (last.value,last.version,r) ∈ (run step c (before ++ last :: after)).responses last.key answers := by
  have hreplicas := (run_replicas c (before ++ last :: after)).1
  obtain ⟨call,hmem,hlast,hanswer⟩ : ∃ call ∈ c.replicas.zipIdx,
      decide (last.outcomes call.2 = .stored) = true ∧ (answers call.2 &&
        (((run step c (before ++ last :: after)).storage call.1 last.key).bind Prod.fst).isSome) = true := by
    refine exists_of_length_lt_countP_add ?_
    have hW := (write_eq_ok ..).mp hok
    have hsize := c.size
    unfold QuorumConfig.isStronglyConsistent at hstrong
    change (run step c before).config.W ≤ _ at hW
    rw [(run_replicas c before).1,(run_replicas c before).2] at hW
    unfold holders at hR
    rw [hreplicas] at hR
    rw [List.length_zipIdx]
    omega
  refine ⟨call.1,mem_responses.mpr ⟨call,?_,(Bool.and_eq_true_iff.mp hanswer).1,?_,rfl⟩⟩
  · rw [hreplicas]
    exact hmem
  · exact storage_of_last hafter hmem (of_decide_eq_true hlast)

/-- A read at the quorum level after a successful last write returns its value exactly when
the replicas that answer and hold a value of the key make a read quorum. -/
theorem quorum_read_iff (hinit : init replicas writeQuorum readQuorum = .ok c)
    (hstrong : c.config.isStronglyConsistent)
    (hversions : (before ++ last :: after).Pairwise (·.version < ·.version)) (hafter : ∀ w ∈ after, w.key ≠ last.key)
    (hok : ((run step c before).perform last).2 = .ok true) (answers : ℕ → Bool) :
    ((run step c (before ++ last :: after)).read last.key .quorum answers).2 = .ok last.value ↔
      c.config.R ≤ (run step c (before ++ last :: after)).holders last.key answers := by
  have hR : (run step c (before ++ last :: after)).getConsistencyCounts .quorum false = c.config.R :=
    congrArg QuorumConfig.R (run_replicas c (before ++ last :: after)).2
  rcases read_eq (run step c (before ++ last :: after)) last.key .quorum answers with ⟨hlt,e,he⟩ | ⟨hle,hread⟩
  · rw [hR] at hlt
    refine iff_of_false ?_ (not_le.mpr hlt)
    rw [he]
    exact nofun
  rw [hR] at hle
  refine iff_of_true ?_ hle
  obtain ⟨r,hresponse⟩ := last_mem_responses hstrong hafter hok hle
  rcases hread with ⟨hnil,-⟩ | ⟨latest,hlatest,hmax,hread⟩
  · rw [hnil] at hresponse
    cases hresponse
  obtain ⟨call,-,-,hs,-⟩ := mem_responses.mp hlatest
  obtain ⟨hversion,hvalue⟩ := version_le_last hinit hversions hafter hs
  rw [hread,hvalue (le_antisymm hversion (hmax _ hresponse))]

end LastWrite

/-- Three replicas and majorities. Replica 2 misses the last write of key 0, replica 0 does
not answer the read. -/
theorem quorum_read_iff_majority :
    ∃ (c : QuorumCoordinator ℕ ℕ ℕ) (writes : List (QuorumWrite ℕ ℕ)), init [0,1,2] none none = .ok c ∧
      ((run step c writes).read 0 .quorum (· ≠ 0)).2 = .ok 20 := by
  refine ⟨_,[⟨0,10,1,fun _ => .stored⟩] ++ ⟨0,20,2,fun p => if p = 2 then .timedOut false else .stored⟩ ::
    [⟨1,30,3,fun _ => .stored⟩],rfl,?_⟩
  have hinit : (init [0,1,2] none none : Except String (QuorumCoordinator ℕ ℕ ℕ)) = .ok _ := rfl
  exact (quorum_read_iff hinit (by decide) (by decide) (by decide) (by rfl) _).mpr (by decide)

/-- Five replicas with `W = 2` and `R = 4`, as in the README. The only write so far has reached two
of them, all five answer the read, and three have nothing to return. -/
theorem quorum_read_not_met :
    ¬ ∀ (replicas : List ℕ) (writeQuorum readQuorum : Option ℤ) (c : QuorumCoordinator ℕ ℕ ℕ)
      (before after : List (QuorumWrite ℕ ℕ)) (last : QuorumWrite ℕ ℕ) (answers : ℕ → Bool),
      init replicas writeQuorum readQuorum = .ok c → c.config.isStronglyConsistent →
      (before ++ last :: after).Pairwise (·.version < ·.version) → (∀ w ∈ after, w.key ≠ last.key) →
      ((run step c before).perform last).2 = .ok true →
      c.config.R ≤ c.replicas.zipIdx.countP (fun call => answers call.2) →
      ((run step c (before ++ last :: after)).read last.key .quorum answers).2 = .ok last.value := by
  intro h
  have hread := h [0,1,2,3,4] (some 2) (some 4) _ [] [] ⟨0,10,1,fun p => if p < 2 then .stored else .refused⟩
    (fun _ => true) rfl (by decide) (by decide) (by decide) rfl (by decide)
  cases hread

end QuorumCoordinator

end DistributedSystems.QuorumStore
