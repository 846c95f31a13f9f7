import DistributedSystems.Protocol.Runs
import DistributedSystems.Raft.Log

/-! # Crashes during log compaction

Compaction overwrites the snapshot file and then the log file, and a reload
interprets each relative to the other. The statements quantify over every log
that loading and mutating can produce and over every prefix of the two saves.
-/
namespace DistributedSystems.Raft.RaftLog
open Runs
variable {Id Cmd Snap : Type}

/-- The mutations of a log and of the state file that shares its storage. -/
inductive Op (Id Cmd Snap : Type)
  | append (entry : LogEntry Cmd)
  | truncate (index : ℕ)
  | compact (lastIndex lastTerm : ℕ) (snapshot : Snap)
  | saveState (currentTerm : ℕ) (votedFor : Option Id)

def mutate (log : RaftLog Id Cmd Snap) : Op Id Cmd Snap → RaftLog Id Cmd Snap
  | .append entry => log.append entry
  | .truncate index => log.truncate index
  | .compact lastIndex lastTerm snapshot => log.compact lastIndex lastTerm snapshot
  | .saveState currentTerm votedFor => { log with storage := log.storage.saveState currentTerm votedFor }

/-- Memory and storage describe the same log. -/
structure InSync (log : RaftLog Id Cmd Snap) : Prop where
  entries : log.storage.loadLog = log.entries
  lastIncluded : log.storage.loadSnapshot.2 = (log.lastIncludedIndex,log.lastIncludedTerm)

theorem InSync.load (storage : Storage Id Cmd Snap) : (RaftLog.load storage).InSync := ⟨rfl,rfl⟩

theorem InSync.persist {log : RaftLog Id Cmd Snap}
    (h : log.storage.loadSnapshot.2 = (log.lastIncludedIndex,log.lastIncludedTerm)) :
    log.persist.InSync := by
  constructor
  · exact Storage.loadLog_saveLog _ _
  · change (log.storage.saveLog log.entries).loadSnapshot.2 = _
    rw [Storage.loadSnapshot_saveLog]
    exact h

theorem InSync.truncate {log : RaftLog Id Cmd Snap} (h : log.InSync) (index : ℕ) :
    (log.truncate index).InSync := by
  unfold RaftLog.truncate
  dsimp only
  split_ifs
  · exact h
  · exact InSync.persist h.lastIncluded
  · exact h

theorem InSync.compact {log : RaftLog Id Cmd Snap} (h : log.InSync) (i t : ℕ) (b : Snap) :
    (log.compact i t b).InSync := by
  unfold RaftLog.compact
  dsimp only
  split_ifs
  · exact h
  · exact InSync.persist (by simp)
  · exact InSync.persist (by simp)

theorem InSync.mutate {log : RaftLog Id Cmd Snap} (h : log.InSync) (op : Op Id Cmd Snap) :
    (log.mutate op).InSync := by
  cases op with
  | append entry => exact InSync.persist h.lastIncluded
  | truncate index => exact h.truncate index
  | compact i t b => exact h.compact i t b
  | saveState t v => exact ⟨by simp [RaftLog.mutate,h.entries],by simp [RaftLog.mutate,h.lastIncluded]⟩

theorem InSync.run (storage : Storage Id Cmd Snap) (ops : List (Op Id Cmd Snap)) :
    (Runs.run RaftLog.mutate (RaftLog.load storage) ops).InSync :=
  run_invariant_of_step (fun _ op h => h.mutate op) (InSync.load storage) ops

/-- The two saves of a compaction that is not a no-op, in the order they happen. -/
theorem compact_saves {log : RaftLog Id Cmd Snap} {i : ℕ} (h : log.lastIncludedIndex < i)
    (t : ℕ) (b : Snap) :
    (log.compact i t b).storage.saves =
      log.storage.saves ++ [.saveSnapshot b i t,.saveLog (log.entries.drop (i - log.lastIncludedIndex))] := by
  rw [← compact_entries h t b]
  unfold compact
  dsimp only
  rw [if_neg (by omega)]
  simp [persist,Storage.saveSnapshot,Storage.saveLog]

/-- The log a restarted process loads when only the first `k` saves of a
compaction reached the disk. -/
def reloadAfter (log : RaftLog Id Cmd Snap) (i t : ℕ) (b : Snap) (k : ℕ) : RaftLog Id Cmd Snap :=
  load ((log.compact i t b).storage.crashAfter (log.storage.saves.length + k))

/-- What the crash must not change: the entries above the loaded snapshot and
the index of the last entry. -/
structure Survives (log loaded : RaftLog Id Cmd Snap) : Prop where
  getItem : ∀ j e, loaded.lastIncludedIndex < j → log.getItem j = some e → loaded.getItem j = some e
  len : loaded.len = log.len

theorem reloadAfter_zero {log : RaftLog Id Cmd Snap} (hs : log.InSync) {i : ℕ}
    (h : log.lastIncludedIndex < i) (t : ℕ) (b : Snap) : log.reloadAfter i t b 0 = log := by
  have he : (log.compact i t b).storage.crashAfter (log.storage.saves.length + 0) = log.storage := by
    simp [Storage.crashAfter,compact_saves h]
  obtain ⟨h1,h2⟩ := hs
  rw [reloadAfter,he,load,h1,h2]

/-- After both saves the reloaded log is the compacted one. -/
theorem reloadAfter_two {log : RaftLog Id Cmd Snap} (hs : log.InSync) {i k : ℕ}
    (h : log.lastIncludedIndex < i) (hk : 2 ≤ k) (t : ℕ) (b : Snap) :
    log.reloadAfter i t b k = log.compact i t b := by
  have hlen : (log.compact i t b).storage.saves.length = log.storage.saves.length + 2 := by
    simp [compact_saves h]
  have he : (log.compact i t b).storage.crashAfter (log.storage.saves.length + k) =
      (log.compact i t b).storage := by
    rw [Storage.crashAfter,List.take_of_length_le (by omega)]
  obtain ⟨h1,h2⟩ := hs.compact i t b
  rw [reloadAfter,he,load,h1,h2]

/-- Between the saves the new snapshot index is read against the old entries. -/
theorem reloadAfter_one {log : RaftLog Id Cmd Snap} (hs : log.InSync) {i : ℕ}
    (h : log.lastIncludedIndex < i) (t : ℕ) (b : Snap) :
    (log.reloadAfter i t b 1).len = i + log.entries.length := by
  have he : (log.compact i t b).storage.crashAfter (log.storage.saves.length + 1) =
      log.storage.saveSnapshot b i t := by
    rw [Storage.crashAfter,compact_saves h,List.take_length_add_append]
    rfl
  simp [reloadAfter,he,load,RaftLog.len,hs.entries]

theorem survives_of_ne_one {log : RaftLog Id Cmd Snap} (hs : log.InSync) {i k : ℕ}
    (h : log.lastIncludedIndex < i) (hi : i ≤ log.len) (hk : k ≠ 1) (t : ℕ) (b : Snap) :
    log.Survives (log.reloadAfter i t b k) := by
  by_cases h0 : k = 0
  · subst k
    rw [reloadAfter_zero hs h]
    exact ⟨fun _ _ _ he => he,rfl⟩
  · rw [reloadAfter_two hs h (by omega)]
    refine ⟨?_,compact_len hi t b⟩
    intro j e hj he
    rw [compact_lastIncludedIndex h] at hj
    rw [compact_getItem hj]
    exact he

/-- Compaction is crash safe exactly when the crash does not fall between the
save of the snapshot and the save of the shortened log. -/
theorem compact_survives_iff (storage : Storage Id Cmd Snap) (ops : List (Op Id Cmd Snap))
    (i t : ℕ) (b : Snap) (k : ℕ)
    (hlt : (run mutate (load storage) ops).lastIncludedIndex < i)
    (hle : i ≤ (run mutate (load storage) ops).len) :
    (run mutate (load storage) ops).Survives ((run mutate (load storage) ops).reloadAfter i t b k) ↔
      k ≠ 1 := by
  have hs := InSync.run storage ops
  constructor
  · rintro hsurv rfl
    have hlen := hsurv.len
    rw [reloadAfter_one hs hlt,RaftLog.len] at hlen
    omega
  · intro hk
    exact survives_of_ne_one hs hlt hle hk t b

theorem compact_survives_iff_at_two :
    (run mutate (load (Storage.empty : Storage ℕ ℕ ℕ))
      [.append ⟨1,1,10⟩,.append ⟨1,2,20⟩,.append ⟨2,3,30⟩]).Survives
      ((run mutate (load Storage.empty)
        [.append ⟨1,1,10⟩,.append ⟨1,2,20⟩,.append ⟨2,3,30⟩]).reloadAfter 2 1 7 2) :=
  (compact_survives_iff Storage.empty _ 2 1 7 2 (by decide) (by decide)).mpr (by decide)

/-- Three entries are appended and the first two are compacted. A crash after
`save_snapshot` makes index 3 yield the entry appended at index 1. -/
theorem compact_crash_between_saves :
    ¬ ∀ (ops : List (Op ℕ ℕ ℕ)) (i t b k : ℕ),
      (run mutate (load Storage.empty) ops).lastIncludedIndex < i →
      i ≤ (run mutate (load Storage.empty) ops).len →
      (run mutate (load Storage.empty) ops).Survives
        ((run mutate (load Storage.empty) ops).reloadAfter i t b k) := by
  intro h
  have hs := h [.append ⟨1,1,10⟩,.append ⟨1,2,20⟩,.append ⟨2,3,30⟩] 2 1 7 1 (by decide) (by decide)
  have hitem := hs.getItem 3 ⟨2,3,30⟩ (by decide) (by decide)
  exact absurd hitem (by decide)

end DistributedSystems.Raft.RaftLog
