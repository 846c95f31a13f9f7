import DistributedSystems.Protocol.LeaderCompleteness
import DistributedSystems.Raft.Node

/-! # The log as a list

A `RaftLog` stands for the list of all entries ever kept, of which it stores the
part above the snapshot and the last term below it. Each operation of the class
computes the matching operation on the list.
-/
namespace DistributedSystems.Raft
open ReplicatedLog
variable {Id Cmd Snap : Type}

/-- The term of the last of some log entries. -/
abbrev lastTermOf (L : List (LogEntry Cmd)) : ℕ := ReplicatedLog.lastTerm LogEntry.term L

theorem lastTermOf_take {L : List (LogEntry Cmd)} {k : ℕ} (hk : k < L.length) :
    lastTermOf (L.take (k + 1)) = (L[k]).term := by
  have he : (L.take (k + 1)).getLast? = some L[k] := by
    rw [List.getLast?_take]
    simp [hk]
  simp [lastTermOf,lastTerm,he]

namespace RaftLog

/-- The log stands for the list `L`. -/
structure Holds (log : RaftLog Id Cmd Snap) (L : List (LogEntry Cmd)) : Prop where
  entries : log.entries = L.drop log.lastIncludedIndex
  le : log.lastIncludedIndex ≤ L.length
  term : log.lastIncludedTerm = lastTermOf (L.take log.lastIncludedIndex)

namespace Holds
variable {log : RaftLog Id Cmd Snap} {L : List (LogEntry Cmd)}

theorem len (h : log.Holds L) : log.len = L.length := by
  have hle := h.le
  rw [RaftLog.len,h.entries,List.length_drop]
  omega

theorem getItem (h : log.Holds L) {i : ℕ} (hi : log.lastIncludedIndex < i) :
    log.getItem i = L[i - 1]? := by
  rw [getItem_of_lt hi,h.entries,List.getElem?_drop]
  congr 1
  omega

theorem getTerm (h : log.Holds L) {i : ℕ} (hi : log.lastIncludedIndex ≤ i) (hlen : i ≤ L.length) :
    log.getTerm i = some (lastTermOf (L.take i)) := by
  rcases hi.eq_or_lt with rfl | hlt
  · unfold RaftLog.getTerm
    split
    · rename_i h0
      rw [h0]
      rfl
    · rw [if_pos rfl,h.term]
  · obtain ⟨k,rfl⟩ : ∃ k, i = k + 1 := ⟨i - 1,by omega⟩
    rw [getTerm_of_lt hlt,h.getItem hlt,lastTermOf_take (by omega),Nat.add_sub_cancel,
      List.getElem?_eq_getElem (by omega)]
    rfl

theorem lastTerm (h : log.Holds L) : log.lastTerm = lastTermOf L := by
  have hle := h.le
  rw [RaftLog.lastTerm,h.len,h.getTerm hle (le_refl _),List.take_length]
  rfl

theorem getEntries (h : log.Holds L) {i : ℕ} (hi : log.lastIncludedIndex ≤ i - 1) :
    log.getEntries i = L.drop (i - 1) := by
  unfold RaftLog.getEntries
  dsimp only
  rw [h.entries,List.drop_drop]
  congr 1
  split <;> omega

theorem append (h : log.Holds L) (e : LogEntry Cmd) : (log.append e).Holds (L ++ [e]) := by
  have hle := h.le
  refine ⟨?_,?_,?_⟩
  · rw [append_entries,h.entries,append_lastIncludedIndex,List.drop_append_of_le_length hle]
  · rw [append_lastIncludedIndex,List.length_append]
    omega
  · rw [append_lastIncludedIndex,append_lastIncludedTerm,List.take_append_of_le_length hle]
    exact h.term

theorem truncate (h : log.Holds L) {i : ℕ} (hi : log.lastIncludedIndex < i) :
    (log.truncate i).Holds (L.take (i - 1)) := by
  have hle := h.le
  refine ⟨?_,?_,?_⟩
  · rw [truncate_entries hi,truncate_lastIncludedIndex,h.entries,List.take_drop]
    congr 2
    omega
  · rw [truncate_lastIncludedIndex,List.length_take]
    omega
  · rw [truncate_lastIncludedIndex,truncate_lastIncludedTerm,List.take_take,min_eq_left (by omega)]
    exact h.term

theorem compact (h : log.Holds L) {i : ℕ} (hi : log.lastIncludedIndex < i) (hlen : i ≤ L.length) (b : Snap) :
    (log.compact i (lastTermOf (L.take i)) b).Holds L := by
  refine ⟨?_,?_,?_⟩
  · rw [compact_entries hi,compact_lastIncludedIndex hi,h.entries,List.drop_drop]
    congr 1
    omega
  · rw [compact_lastIncludedIndex hi]
    exact hlen
  · rw [compact_lastIncludedIndex hi,compact_lastIncludedTerm hi]

end Holds

end RaftLog

end DistributedSystems.Raft
