import DistributedSystems.Protocol.Quorum
import DistributedSystems.QuorumStore.Coordinator
import Mathlib.Data.Int.Interval
import Mathlib.Order.Bounds.Defs

/-! # The overlap of a write set and a read set

The validator takes the first `W` replicas and the last `R` of them. No other pair of sets of
these sizes meets in fewer replicas, so the size of this overlap decides whether all pairs meet.
-/
namespace DistributedSystems.QuorumStore

namespace QuorumConfig

def canDetectMissingWrites (config : QuorumConfig) : Prop := config.isStronglyConsistent

instance (config : QuorumConfig) : Decidable config.canDetectMissingWrites :=
  inferInstanceAs (Decidable config.isStronglyConsistent)

/-- `range` as a set, over the computable order of the integers. -/
abbrev range (start stop : ℤ) : Finset ℤ :=
  @Finset.Ico ℤ Int.instLinearOrder.toPreorder Int.instLocallyFiniteOrder start stop

/-- The replicas are numbered from 0. -/
def replicas (config : QuorumConfig) : Finset ℤ := range 0 config.N

def writeSet (config : QuorumConfig) : Finset ℤ := range 0 config.W

def readSet (config : QuorumConfig) : Finset ℤ := range (config.N - config.R) config.N

/-- A set of replicas that a write reaches, and one that a read asks. -/
structure Operate (config : QuorumConfig) (A B : Finset ℤ) : Prop where
  writes : A ⊆ config.replicas
  writes_card : (A.card : ℤ) = config.W
  reads : B ⊆ config.replicas
  reads_card : (B.card : ℤ) = config.R

end QuorumConfig

/-- `get_quorum_intersection`. -/
def getQuorumIntersection (config : QuorumConfig) : Finset ℤ := config.writeSet ∩ config.readSet

variable {config : QuorumConfig}

theorem card_replicas : (config.replicas.card : ℤ) = config.N := by
  have hN := config.one_le
  rw [QuorumConfig.replicas,Int.card_Ico]
  omega

/-- The sets of the validator have the sizes of the configuration. -/
theorem operate_validator (hW : 0 ≤ config.W) (hR : 0 ≤ config.R) :
    config.Operate config.writeSet config.readSet where
  writes := Finset.Ico_subset_Ico_right config.W_le
  writes_card := by
    rw [QuorumConfig.writeSet,Int.card_Ico]
    omega
  reads := Finset.Ico_subset_Ico_left (by have := config.R_le; omega)
  reads_card := by
    rw [QuorumConfig.readSet,Int.card_Ico]
    omega

/-- The first `W` and the last `R` replicas share those from `N - R` to `W`. -/
theorem card_getQuorumIntersection :
    ((getQuorumIntersection config).card : ℤ) = max 0 (config.W + config.R - config.N) := by
  have hWN := config.W_le
  have hRN := config.R_le
  rw [getQuorumIntersection,QuorumConfig.writeSet,QuorumConfig.readSet,Finset.Ico_inter_Ico,Int.card_Ico,
    max_eq_right (by omega),min_eq_left hWN]
  omega

/-- Every pair overlaps in what its sizes have in excess of the replicas. -/
theorem QuorumConfig.Operate.le_card {A B : Finset ℤ} (h : config.Operate A B) :
    max 0 (config.W + config.R - config.N) ≤ ((A ∩ B).card : ℤ) := by
  have hsizes := card_add_card_le_inter h.writes h.reads
  have hN : (config.replicas.card : ℤ) = config.N := card_replicas
  have hW := h.writes_card
  have hR := h.reads_card
  omega

/-- The validator finds the smallest overlap of all. -/
theorem isLeast_getQuorumIntersection (hW : 0 ≤ config.W) (hR : 0 ≤ config.R) :
    IsLeast {m : ℕ | ∃ A B, config.Operate A B ∧ m = (A ∩ B).card} (getQuorumIntersection config).card := by
  refine ⟨⟨_,_,operate_validator hW hR,rfl⟩,?_⟩
  rintro m ⟨A,B,h,rfl⟩
  have hle := h.le_card
  rw [← card_getQuorumIntersection] at hle
  exact Int.ofNat_le.mp hle

/-- Consistency is strong exactly when the smallest overlap is not empty. -/
theorem isStronglyConsistent_iff (hW : 0 ≤ config.W) (hR : 0 ≤ config.R) :
    config.isStronglyConsistent ↔ ∀ A B, config.Operate A B → (A ∩ B).Nonempty := by
  have hcard : ((getQuorumIntersection config).card : ℤ) = max 0 (config.W + config.R - config.N) :=
    card_getQuorumIntersection
  unfold QuorumConfig.isStronglyConsistent
  constructor
  · intro hstrong A B h
    have hle := h.le_card
    exact Finset.card_pos.mp (by omega)
  · intro hall
    have hpos := Finset.card_pos.mpr (hall _ _ (operate_validator hW hR))
    rw [getQuorumIntersection] at hcard
    omega

/-- The overlap that the validator returns has the excess as its size, is the smallest of all
pairs, and the two predicates tell whether all pairs meet. -/
theorem quorum_intersection (config : QuorumConfig) (hW : 0 ≤ config.W) (hR : 0 ≤ config.R) :
    ((getQuorumIntersection config).card : ℤ) = max 0 (config.W + config.R - config.N) ∧
    IsLeast {m : ℕ | ∃ A B, config.Operate A B ∧ m = (A ∩ B).card} (getQuorumIntersection config).card ∧
    (config.isStronglyConsistent ↔ ∀ A B, config.Operate A B → (A ∩ B).Nonempty) ∧
    (config.canDetectMissingWrites ↔ ∀ A B, config.Operate A B → (A ∩ B).Nonempty) :=
  ⟨card_getQuorumIntersection,isLeast_getQuorumIntersection hW hR,isStronglyConsistent_iff hW hR,
    isStronglyConsistent_iff hW hR⟩

/-- Five replicas of which any three and three others meet. -/
theorem quorum_intersection_five :
    ((getQuorumIntersection ⟨5,3,3,by decide,by decide,by decide⟩).card : ℤ) = 1 :=
  (quorum_intersection ⟨5,3,3,by decide,by decide,by decide⟩ (by decide) (by decide)).1

example : getQuorumIntersection ⟨5,3,3,by decide,by decide,by decide⟩ = {2} := by decide

end DistributedSystems.QuorumStore
