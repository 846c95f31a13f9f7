import DistributedSystems.Raft.AppendEntries
import DistributedSystems.Raft.Ballot

/-! # A node as a list and two marks

A node stands for the list of all entries it ever kept, the length of the committed
part and the length of the applied part. Applying entries and taking snapshots move
the applied mark and change nothing else the protocol can see.
-/
namespace DistributedSystems.Raft
open ReplicatedLog

namespace RaftNode
variable {Id Cmd : Type} {M : StateMachine Cmd} {n : RaftNode Id M} {L : List (LogEntry Cmd)}

/-- The entry at an absolute index: the applied one where a snapshot covers it. -/
def entryAt (n : RaftNode Id M) (i : ℕ) : Option (LogEntry Cmd) :=
  if i ≤ n.log.lastIncludedIndex then n.applied i else n.log.getItem i

/-- The node keeps the list `L`, of which it has applied a committed prefix. -/
structure Holds (n : RaftNode Id M) (L : List (LogEntry Cmd)) : Prop where
  log : n.log.Holds L
  snapshot : n.log.lastIncludedIndex ≤ n.lastApplied
  applied_le : n.lastApplied ≤ n.commitIndex
  commit_le : n.commitIndex ≤ L.length
  applied : ∀ k < n.lastApplied, n.applied (k + 1) = L[k]?

theorem Holds.entryAt (h : n.Holds L) {i : ℕ} (hi : 0 < i) : n.entryAt i = L[i - 1]? := by
  have hs := h.snapshot
  unfold RaftNode.entryAt
  split
  · have := h.applied (i - 1) (by omega)
    rw [Nat.sub_add_cancel hi] at this
    exact this
  · exact h.log.getItem (by omega)

/-- What the apply loop leaves alone besides the ballot. -/
def progress (n : RaftNode Id M) : ℕ × (Id → Option ℕ) := (n.commitIndex,n.matchIndex)

theorem progress_applyCommittedEntries (n : RaftNode Id M) : n.applyCommittedEntries.1.progress = n.progress :=
  frame_applyLoop (fun _ _ _ => rfl) (fun _ _ => rfl) (fun _ _ _ _ => rfl) _ n

namespace Holds

theorem checkSnapshot (h : n.Holds L) : n.checkSnapshot.Holds L := by
  have hs := h.snapshot
  have ha := h.applied_le
  have hc := h.commit_le
  rcases n.checkSnapshot_cases with he | ⟨hlt,t,ht,he⟩
  · rw [he]
    exact h
  · rw [h.log.getTerm hs (by omega)] at ht
    obtain rfl := Option.some.inj ht
    rw [he]
    exact ⟨h.log.compact hlt (by omega) _,(RaftLog.compact_lastIncludedIndex hlt _ _).le,ha,hc,h.applied⟩

theorem notifyPending (h : n.Holds L) (r : M.Result) : (n.notifyPending r).Holds L := by
  unfold RaftNode.notifyPending
  cases n.pendingCommits n.lastApplied with
  | none => exact h
  | some f => exact ⟨h.log,h.snapshot,h.applied_le,h.commit_le,h.applied⟩

/-- The next entry is there to be read: it is committed and not yet applied. -/
theorem applyNext (h : n.Holds L) (hlt : n.lastApplied < n.commitIndex) : n.applyNext.1.Holds L := by
  have hs := h.snapshot
  have hc := h.commit_le
  have hitem : n.log.getItem (n.lastApplied + 1) = some L[n.lastApplied] := by
    rw [h.log.getItem (by omega),Nat.add_sub_cancel,List.getElem?_eq_getElem]
  have hadv : Holds (M := M) { n with
      lastApplied := n.lastApplied + 1
      stateMachine := (M.apply n.stateMachine (L[n.lastApplied]).command).1
      applied := Function.update n.applied (n.lastApplied + 1) (some L[n.lastApplied]) } L := by
    refine ⟨h.log,Nat.le_succ_of_le hs,hlt,hc,?_⟩
    intro k hk
    change Function.update n.applied (n.lastApplied + 1) (some L[n.lastApplied]) (k + 1) = L[k]?
    rcases Nat.lt_succ_iff_lt_or_eq.mp hk with hk | rfl
    · rw [Function.update_of_ne (by omega)]
      exact h.applied k hk
    · rw [Function.update_self,List.getElem?_eq_getElem]
  unfold RaftNode.applyNext
  dsimp only
  rw [hitem]
  dsimp only
  cases (M.apply n.stateMachine (L[n.lastApplied]).command).2 with
  | none => exact hadv
  | some result => exact (hadv.notifyPending result).checkSnapshot

theorem applyLoop (h : n.Holds L) (fuel : ℕ) : (RaftNode.applyLoop fuel n).1.Holds L := by
  induction fuel generalizing n with
  | zero => exact h
  | succ fuel ih =>
    rw [RaftNode.applyLoop]
    split
    · rename_i hlt
      split
      · exact ih (h.applyNext hlt)
      · exact h.applyNext hlt
    · exact h

theorem applyCommittedEntries (h : n.Holds L) : n.applyCommittedEntries.1.Holds L := h.applyLoop _

/-- Moving the commit mark forward inside the list. -/
theorem setCommitIndex (h : n.Holds L) {N : ℕ} (hle : n.commitIndex ≤ N) (hN : N ≤ L.length) :
    Holds { n with commitIndex := N } L :=
  ⟨h.log,h.snapshot,h.applied_le.trans hle,hN,h.applied⟩

/-- Replacing the list by another one that agrees on the committed part. -/
theorem setLog (h : n.Holds L) {log : RaftLog Id Cmd M.Snapshot} {L' : List (LogEntry Cmd)}
    (hlog : log.Holds L') (hi : log.lastIncludedIndex = n.log.lastIncludedIndex)
    (hp : L.take n.commitIndex <+: L') : Holds { n with log := log } L' := by
  have hs := h.snapshot
  have ha := h.applied_le
  have hc := h.commit_le
  refine ⟨hlog,?_,ha,?_,?_⟩
  · rw [hi]
    exact hs
  · have := hp.length_le
    rw [List.length_take] at this
    change n.commitIndex ≤ L'.length
    omega
  · intro k hk
    change k < n.lastApplied at hk
    have hk' : k < (L.take n.commitIndex).length := by
      rw [List.length_take]
      omega
    have he := hp.getElem hk'
    rw [List.getElem_take] at he
    have hlen := hp.length_le
    change n.applied (k + 1) = L'[k]?
    rw [h.applied k hk,List.getElem?_eq_getElem (by omega),List.getElem?_eq_getElem (by omega),he]

end Holds

end RaftNode

end DistributedSystems.Raft
