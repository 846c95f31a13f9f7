import DistributedSystems.Raft.Storage
import Mathlib.Tactic.SplitIfs
import Mathlib.Tactic.Common

/-! # The replicated log of a Raft node

Log indices are absolute and start at one. The entries in memory are those after
the last index covered by the snapshot. A reader that would raise `IndexError`
returns `none`.
-/
namespace DistributedSystems.Raft

structure RaftLog (Id Cmd Snap : Type) where
  storage : Storage Id Cmd Snap
  entries : List (LogEntry Cmd)
  lastIncludedIndex : ℕ
  lastIncludedTerm : ℕ

namespace RaftLog
variable {Id Cmd Snap : Type}

/-- The constructor: log and snapshot metadata are read from storage. -/
def load (storage : Storage Id Cmd Snap) : RaftLog Id Cmd Snap where
  storage := storage
  entries := storage.loadLog
  lastIncludedIndex := storage.loadSnapshot.2.1
  lastIncludedTerm := storage.loadSnapshot.2.2

def persist (log : RaftLog Id Cmd Snap) : RaftLog Id Cmd Snap :=
  { log with storage := log.storage.saveLog log.entries }

/-- The index of the last entry in the log. -/
def len (log : RaftLog Id Cmd Snap) : ℕ := log.lastIncludedIndex + log.entries.length

/-- The entry at an absolute index. -/
def getItem (log : RaftLog Id Cmd Snap) (index : ℕ) : Option (LogEntry Cmd) :=
  if index ≤ log.lastIncludedIndex then none
  else log.entries[index - log.lastIncludedIndex - 1]?

/-- The term of the entry at an index. Positions inside the snapshot all answer
with the last included term. -/
def getTerm (log : RaftLog Id Cmd Snap) (index : ℕ) : Option ℕ :=
  if index = 0 then some 0
  else if index = log.lastIncludedIndex then some log.lastIncludedTerm
  else if index < log.lastIncludedIndex then some log.lastIncludedTerm
  else (log.getItem index).map LogEntry.term

def append (log : RaftLog Id Cmd Snap) (entry : LogEntry Cmd) : RaftLog Id Cmd Snap :=
  persist { log with entries := log.entries ++ [entry] }

def getEntries (log : RaftLog Id Cmd Snap) (startIndex : ℕ) : List (LogEntry Cmd) :=
  let startIndex := if startIndex ≤ log.lastIncludedIndex then log.lastIncludedIndex + 1 else startIndex
  log.entries.drop (startIndex - log.lastIncludedIndex - 1)

/-- Deletes the entries from an index on, unless the snapshot covers it. -/
def truncate (log : RaftLog Id Cmd Snap) (index : ℕ) : RaftLog Id Cmd Snap :=
  if index ≤ log.lastIncludedIndex then log
  else
    let internalIndex := index - log.lastIncludedIndex - 1
    if internalIndex < log.entries.length then
      persist { log with entries := log.entries.take internalIndex }
    else log

def matchLog (log : RaftLog Id Cmd Snap) (prevLogIndex prevLogTerm : ℕ) : Bool :=
  if prevLogIndex = 0 then true
  else if prevLogIndex > log.len then false
  else if log.getTerm prevLogIndex ≠ some prevLogTerm then false
  else true

/-- Drops the entries up to an index; the snapshot is saved before the shorter log. -/
def compact (log : RaftLog Id Cmd Snap) (lastIndex lastTerm : ℕ) (snapshot : Snap) :
    RaftLog Id Cmd Snap :=
  if lastIndex ≤ log.lastIncludedIndex then log
  else
    let internalIndex := lastIndex - log.lastIncludedIndex - 1
    let entries :=
      if internalIndex + 1 < log.entries.length then log.entries.drop (internalIndex + 1) else []
    persist
      { storage := log.storage.saveSnapshot snapshot lastIndex lastTerm
        entries := entries
        lastIncludedIndex := lastIndex
        lastIncludedTerm := lastTerm }

/-- The term of the last entry; `len` is always a readable position. -/
def lastTerm (log : RaftLog Id Cmd Snap) : ℕ := (log.getTerm log.len).getD 0

@[simp] theorem persist_entries (log : RaftLog Id Cmd Snap) : log.persist.entries = log.entries := rfl
@[simp] theorem persist_lastIncludedIndex (log : RaftLog Id Cmd Snap) :
    log.persist.lastIncludedIndex = log.lastIncludedIndex := rfl
@[simp] theorem persist_lastIncludedTerm (log : RaftLog Id Cmd Snap) :
    log.persist.lastIncludedTerm = log.lastIncludedTerm := rfl
@[simp] theorem append_entries (log : RaftLog Id Cmd Snap) (e : LogEntry Cmd) :
    (log.append e).entries = log.entries ++ [e] := rfl
@[simp] theorem append_lastIncludedIndex (log : RaftLog Id Cmd Snap) (e : LogEntry Cmd) :
    (log.append e).lastIncludedIndex = log.lastIncludedIndex := rfl
@[simp] theorem append_lastIncludedTerm (log : RaftLog Id Cmd Snap) (e : LogEntry Cmd) :
    (log.append e).lastIncludedTerm = log.lastIncludedTerm := rfl

@[simp] theorem truncate_lastIncludedIndex (log : RaftLog Id Cmd Snap) (i : ℕ) :
    (log.truncate i).lastIncludedIndex = log.lastIncludedIndex := by
  unfold truncate
  dsimp only
  split_ifs <;> rfl

@[simp] theorem truncate_lastIncludedTerm (log : RaftLog Id Cmd Snap) (i : ℕ) :
    (log.truncate i).lastIncludedTerm = log.lastIncludedTerm := by
  unfold truncate
  dsimp only
  split_ifs <;> rfl

/-- A position inside the snapshot cannot be truncated. -/
theorem truncate_of_le {log : RaftLog Id Cmd Snap} {i : ℕ} (h : i ≤ log.lastIncludedIndex) :
    log.truncate i = log := by simp [truncate,h]

theorem truncate_entries {log : RaftLog Id Cmd Snap} {i : ℕ} (h : log.lastIncludedIndex < i) :
    (log.truncate i).entries = log.entries.take (i - log.lastIncludedIndex - 1) := by
  unfold truncate
  dsimp only
  rw [if_neg (by omega)]
  split_ifs with hi
  · rfl
  · exact (List.take_of_length_le (by omega)).symm

/-- Both branches of the cut keep exactly the entries above the new snapshot. -/
theorem compact_entries {log : RaftLog Id Cmd Snap} {i : ℕ} (h : log.lastIncludedIndex < i)
    (t : ℕ) (b : Snap) : (log.compact i t b).entries = log.entries.drop (i - log.lastIncludedIndex) := by
  unfold compact
  dsimp only
  rw [if_neg (by omega)]
  have he : i - log.lastIncludedIndex - 1 + 1 = i - log.lastIncludedIndex := by omega
  rw [persist_entries,he]
  split_ifs with hi
  · rfl
  · exact (List.drop_eq_nil_of_le (by omega)).symm

theorem compact_lastIncludedIndex {log : RaftLog Id Cmd Snap} {i : ℕ} (h : log.lastIncludedIndex < i)
    (t : ℕ) (b : Snap) : (log.compact i t b).lastIncludedIndex = i := by
  simp [compact,Nat.not_le.mpr h]

theorem compact_lastIncludedTerm {log : RaftLog Id Cmd Snap} {i : ℕ} (h : log.lastIncludedIndex < i)
    (t : ℕ) (b : Snap) : (log.compact i t b).lastIncludedTerm = t := by
  simp [compact,Nat.not_le.mpr h]

theorem getItem_of_lt {log : RaftLog Id Cmd Snap} {i : ℕ} (h : log.lastIncludedIndex < i) :
    log.getItem i = log.entries[i - log.lastIncludedIndex - 1]? := by
  simp [getItem,Nat.not_le.mpr h]

theorem getItem_eq_none_iff {log : RaftLog Id Cmd Snap} {i : ℕ} (h : log.lastIncludedIndex < i) :
    log.getItem i = none ↔ log.len < i := by
  rw [getItem_of_lt h,List.getElem?_eq_none_iff,len]
  omega

theorem getItem_some_le {log : RaftLog Id Cmd Snap} {i : ℕ} {e : LogEntry Cmd}
    (h : log.getItem i = some e) : log.lastIncludedIndex < i ∧ i ≤ log.len := by
  have hlt : log.lastIncludedIndex < i := by
    by_contra hle
    simp [getItem,Nat.not_lt.mp hle] at h
  refine ⟨hlt,?_⟩
  by_contra hle
  rw [(getItem_eq_none_iff hlt).mpr (by omega)] at h
  contradiction

theorem getTerm_of_lt {log : RaftLog Id Cmd Snap} {i : ℕ} (h : log.lastIncludedIndex < i) :
    log.getTerm i = (log.getItem i).map LogEntry.term := by
  unfold getTerm
  rw [if_neg (by omega),if_neg (by omega),if_neg (by omega)]

theorem getTerm_of_le {log : RaftLog Id Cmd Snap} {i : ℕ} (h0 : 0 < i) (h : i ≤ log.lastIncludedIndex) :
    log.getTerm i = some log.lastIncludedTerm := by
  unfold getTerm
  rw [if_neg (by omega)]
  split_ifs with h1 h2
  · rfl
  · rfl
  · omega

/-- Every position up to the end has a term. -/
theorem exists_getTerm {log : RaftLog Id Cmd Snap} {i : ℕ} (h : i ≤ log.len) : ∃ t, log.getTerm i = some t := by
  rcases Nat.eq_zero_or_pos i with rfl | h0
  · exact ⟨0,rfl⟩
  rcases Nat.lt_or_ge log.lastIncludedIndex i with hlt | hge
  · obtain ⟨e,he⟩ := Option.ne_none_iff_exists'.mp (mt (getItem_eq_none_iff hlt).mp (Nat.not_lt.mpr h))
    exact ⟨e.term,by rw [getTerm_of_lt hlt,he]; rfl⟩
  · exact ⟨_,getTerm_of_le h0 hge⟩

/-- No position behind the end has one. -/
theorem le_len_of_getTerm {log : RaftLog Id Cmd Snap} {i t : ℕ} (h : log.getTerm i = some t) : i ≤ log.len := by
  by_contra hlt
  have hbelow : log.lastIncludedIndex ≤ log.len := Nat.le_add_right _ _
  rw [getTerm_of_lt (by omega),(getItem_eq_none_iff (by omega)).mpr (by omega)] at h
  cases h

theorem append_getItem_of_le {log : RaftLog Id Cmd Snap} {i : ℕ} (e : LogEntry Cmd) (h : i ≤ log.len) :
    (log.append e).getItem i = log.getItem i := by
  by_cases hi : i ≤ log.lastIncludedIndex
  · simp [getItem,hi]
  · unfold len at h
    have hlt : log.lastIncludedIndex < i := by omega
    rw [getItem_of_lt hlt,getItem_of_lt (show (log.append e).lastIncludedIndex < i from hlt),
      append_lastIncludedIndex,append_entries]
    exact List.getElem?_append_left (by omega)

theorem append_getItem_len (log : RaftLog Id Cmd Snap) (e : LogEntry Cmd) :
    (log.append e).getItem (log.len + 1) = some e := by
  rw [getItem_of_lt (by rw [append_lastIncludedIndex,len]; omega),append_lastIncludedIndex,append_entries,len,
    List.getElem?_append_right (by omega)]
  simp [show log.lastIncludedIndex + log.entries.length + 1 - log.lastIncludedIndex - 1 -
    log.entries.length = 0 by omega]

theorem truncate_getItem_of_lt {log : RaftLog Id Cmd Snap} {i j : ℕ} (h : j < i) :
    (log.truncate i).getItem j = log.getItem j := by
  by_cases hi : i ≤ log.lastIncludedIndex
  · rw [truncate_of_le hi]
  · unfold getItem
    rw [truncate_lastIncludedIndex,truncate_entries (by omega)]
    split_ifs with hj
    · rfl
    · exact List.getElem?_take_of_lt (by omega)

/-- Compaction keeps the entry of every index above the new snapshot. -/
theorem compact_getItem {log : RaftLog Id Cmd Snap} {i j : ℕ} (hj : i < j) (t : ℕ) (b : Snap) :
    (log.compact i t b).getItem j = log.getItem j := by
  by_cases hi : i ≤ log.lastIncludedIndex
  · simp [compact,hi]
  · have hlt : log.lastIncludedIndex < i := by omega
    rw [getItem_of_lt (by rw [compact_lastIncludedIndex hlt]; exact hj),getItem_of_lt (by omega),
      compact_entries hlt,compact_lastIncludedIndex hlt,List.getElem?_drop]
    congr 1
    omega

@[simp] theorem append_len (log : RaftLog Id Cmd Snap) (e : LogEntry Cmd) :
    (log.append e).len = log.len + 1 := by simp [len,Nat.add_assoc]

theorem compact_len {log : RaftLog Id Cmd Snap} {i : ℕ} (h : i ≤ log.len) (t : ℕ) (b : Snap) :
    (log.compact i t b).len = log.len := by
  by_cases hi : i ≤ log.lastIncludedIndex
  · simp [compact,hi]
  · have hlt : log.lastIncludedIndex < i := by omega
    unfold len at h
    rw [len,len,compact_lastIncludedIndex hlt,compact_entries hlt,List.length_drop]
    omega

end RaftLog

end DistributedSystems.Raft
