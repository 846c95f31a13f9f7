import DistributedSystems.Raft.NodeRefinement
import Mathlib.Tactic.IntervalCases

/-! # The commit rule

The index chosen from the sorted match indices is reached by the log of the leader
and by the match indices of enough peers to form a majority.
-/
namespace DistributedSystems.Raft.RaftNode
variable {Id Cmd : Type} [DecidableEq Id] {M : StateMachine Cmd}

/-- The peers that are known to hold the log up to an index. -/
def matchers (n : RaftNode Id M) (N : ℕ) : Finset Id :=
  n.peers.toFinset.filter fun p => ((n.matchIndex p).map (fun m => decide (N ≤ m))).getD false = true

theorem mem_matchers {n : RaftNode Id M} {N : ℕ} {p : Id} :
    p ∈ n.matchers N ↔ p ∈ n.peers ∧ ∃ m, n.matchIndex p = some m ∧ N ≤ m := by
  rw [matchers,Finset.mem_filter,List.mem_toFinset]
  apply and_congr_right
  intro _
  cases n.matchIndex p with
  | none => simp
  | some m => simp

theorem majorityMatch_card {n : RaftNode Id M} (hnd : n.peers.Nodup) {i : Id} (hi : i ∉ n.peers) {N : ℕ}
    (hN : n.majorityMatch = some N) : n.allNodes.length / 2 < (insert i (n.matchers N)).card := by
  have hcount := lt_countP_of_getElem? (List.pairwise_insertionSort (· ≥ ·) _) hN
  rw [(List.perm_insertionSort (· ≥ ·) _).countP_eq,List.countP_append,List.countP_filterMap] at hcount
  have hself : List.countP (fun x => decide (N ≤ x)) [n.log.len] ≤ 1 := List.countP_le_length
  have hpeers : (n.matchers N).card =
      List.countP (fun p => ((n.matchIndex p).map (fun m => decide (N ≤ m))).getD false) n.peers := by
    rw [matchers,← List.toFinset_filter,List.toFinset_card_of_nodup (hnd.filter _),List.countP_eq_length_filter]
  have hnot : i ∉ n.matchers N := fun hmem => hi (mem_matchers.mp hmem).1
  rw [Finset.card_insert_of_notMem hnot,hpeers]
  omega

/-- What a node of the cluster is known to hold; the node itself counts as the end of its log. -/
def matchOf (n : RaftNode Id M) (p : Id) : ℕ := if p = n.nodeId then n.log.len else (n.matchIndex p).getD 0

/-- An index to commit: of the current term, and held by a strict majority of the cluster. -/
structure Committable (n : RaftNode Id M) (N : ℕ) : Prop where
  newer : n.commitIndex < N
  term : n.log.getTerm N = some n.currentTerm
  majority : n.allNodes.length < 2 * n.allNodes.countP fun p => N ≤ n.matchOf p

/-- A node of a cluster: its peers are the others, and each has a match index in the log. -/
structure Leads (n : RaftNode Id M) : Prop where
  nodup : n.peers.Nodup
  others : n.nodeId ∉ n.peers
  all : n.allNodes.Perm (n.nodeId :: n.peers)
  known : ∀ p ∈ n.peers, ∃ m, n.matchIndex p = some m ∧ m ≤ n.log.len

namespace Leads
variable {n : RaftNode Id M}

theorem filterMap_matchIndex (h : Leads n) : n.peers.filterMap n.matchIndex = n.peers.map n.matchOf := by
  rw [← List.filterMap_eq_map]
  refine List.filterMap_congr fun p hp => ?_
  obtain ⟨m,hm,-⟩ := h.known p hp
  have hne : p ≠ n.nodeId := fun heq => h.others (heq ▸ hp)
  simp [matchOf,hne,hm]

/-- The sorted list has the match values of the whole cluster. -/
theorem perm (h : Leads n) :
    ((n.peers.filterMap n.matchIndex ++ [n.log.len]).insertionSort (· ≥ ·)).Perm (n.allNodes.map n.matchOf) := by
  have hself : n.matchOf n.nodeId = n.log.len := if_pos rfl
  refine (List.perm_insertionSort ..).trans ?_
  rw [h.filterMap_matchIndex]
  refine (List.perm_append_singleton ..).trans ?_
  rw [← hself,← List.map_cons]
  exact (h.all.map _).symm

/-- The chosen position of the sorted match indices is the majority threshold. -/
theorem majorityMatch (h : Leads n) : ∃ m, n.majorityMatch = some m ∧ m ≤ n.log.len ∧
    ∀ N, n.allNodes.length < 2 * (n.allNodes.countP fun p => N ≤ n.matchOf p) ↔ N ≤ m := by
  set L := (n.peers.filterMap n.matchIndex ++ [n.log.len]).insertionSort (· ≥ ·) with hL
  have hsorted : L.Pairwise (· ≥ ·) := List.pairwise_insertionSort (· ≥ ·) _
  have hcount : ∀ N, (n.allNodes.countP fun p => N ≤ n.matchOf p) = L.countP (N ≤ ·) := by
    intro N
    rw [h.perm.countP_eq,List.countP_map]
    rfl
  have hlen : L.length = n.allNodes.length := by rw [h.perm.length_eq,List.length_map]
  have hpos : n.allNodes.length / 2 < L.length := by
    have := h.all.length_eq
    rw [List.length_cons] at this
    omega
  have hget : L[n.allNodes.length / 2]? = some L[n.allNodes.length / 2] := List.getElem?_eq_getElem hpos
  refine ⟨L[n.allNodes.length / 2],hget,?_,fun N => ?_⟩
  · obtain ⟨p,hp,heq⟩ := List.mem_map.mp (h.perm.mem_iff.mp (List.getElem_mem hpos))
    rw [← heq,matchOf]
    split
    · exact le_refl _
    · rename_i hne
      obtain ⟨m,hm,hle⟩ := h.known p ((List.mem_cons.mp (h.all.mem_iff.mp hp)).resolve_left hne)
      simpa [hm] using hle
  · rw [hcount]
    constructor
    · intro hmaj
      exact le_of_lt_countP hsorted hget (by omega)
    · intro hle
      have hreach := lt_countP_of_getElem? hsorted hget
      have hmono : L.countP (L[n.allNodes.length / 2] ≤ ·) ≤ L.countP (N ≤ ·) := by
        refine List.countP_mono_left fun x _ hx => ?_
        simp only [decide_eq_true_eq] at hx ⊢
        exact hle.trans hx
      omega

end Leads

/-- The commit index of a leader whose log has non-decreasing terms up to the current one
moves to the largest index that can be committed, and stays if there is none. -/
theorem updateCommitIndex_isGreatest {n : RaftNode Id M} (h : Leads n)
    (hmono : ∀ i j s t, i ≤ j → n.log.getTerm i = some s → n.log.getTerm j = some t → s ≤ t)
    (hcurrent : ∀ i t, n.log.getTerm i = some t → t ≤ n.currentTerm) :
    ((∃ N, n.Committable N) → IsGreatest {N | n.Committable N} n.updateCommitIndex.commitIndex) ∧
    (n.updateCommitIndex.commitIndex = n.commitIndex ↔ ¬∃ N, n.Committable N) := by
  obtain ⟨m,hm,hlen,hmajority⟩ := h.majorityMatch
  have hcommit : n.updateCommitIndex.commitIndex =
      if m > n.commitIndex ∧ n.log.getTerm m = some n.currentTerm then m else n.commitIndex := by
    rw [updateCommitIndex,hm]
    dsimp only
    split
    · exact applyLoop_commitIndex ..
    · rfl
  by_cases hc : m > n.commitIndex ∧ n.log.getTerm m = some n.currentTerm
  · have hcan : n.Committable m := ⟨hc.1,hc.2,(hmajority m).mpr (le_refl m)⟩
    rw [hcommit,if_pos hc]
    refine ⟨fun _ => ⟨hcan,fun N hN => (hmajority N).mp hN.majority⟩,?_⟩
    exact iff_of_false hc.1.ne' (not_not.mpr ⟨m,hcan⟩)
  · -- A term mismatch at the threshold rules out every smaller index too.
    have hnone : ¬∃ N, n.Committable N := by
      rintro ⟨N,hN⟩
      have hle := (hmajority N).mp hN.majority
      obtain ⟨t,ht⟩ := RaftLog.exists_getTerm hlen
      have hterm : t = n.currentTerm := le_antisymm (hcurrent m t ht) (hmono N m _ t hle hN.term ht)
      exact hc ⟨lt_of_lt_of_le hN.newer hle,hterm ▸ ht⟩
    rw [hcommit,if_neg hc]
    exact ⟨fun hsome => absurd hsome hnone,iff_of_true rfl hnone⟩

/-- A leader of four nodes, in term 2 with an entry of term 1 before its own. -/
def leaderOfFour : RaftNode ℕ (KeyValueStateMachine ℕ ℕ) :=
  { RaftNode.init (M := KeyValueStateMachine ℕ ℕ) 0 [1,2,3] 10 Storage.empty with
    log := ((RaftLog.load Storage.empty).append ⟨1,1,⟨.get,some 1,none⟩⟩).append ⟨2,2,⟨.get,some 2,none⟩⟩
    currentTerm := 2
    state := .leader
    matchIndex := fun p => some (if p = 3 then 0 else 2) }

/-- Three of the four nodes hold its entry. -/
theorem updateCommitIndex_isGreatest_four :
    IsGreatest {N | leaderOfFour.Committable N} leaderOfFour.updateCommitIndex.commitIndex := by
  have hterm : ∀ i t, leaderOfFour.log.getTerm i = some t → i ≤ 2 ∧ t ≤ 2 := by
    intro i t ht
    have hi : i ≤ 2 := RaftLog.le_len_of_getTerm ht
    interval_cases i <;> cases ht <;> decide
  refine (updateCommitIndex_isGreatest ⟨by decide,by decide,List.Perm.refl _,?_⟩ ?_
    fun i t ht => (hterm i t ht).2).1 ⟨2,by decide,rfl,by decide⟩
  · intro p hp
    exact ⟨_,rfl,by split <;> decide⟩
  · intro i j s t hij hs ht
    have hj := (hterm j t ht).1
    interval_cases j <;> interval_cases i <;> cases hs <;> cases ht <;> decide

end DistributedSystems.Raft.RaftNode
