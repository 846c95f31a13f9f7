import Mathlib.Data.List.Basic

/-! # Persistent storage of a Raft node

`FileStorage` keeps three files and every save overwrites one of them. A storage
is the journal of its saves, so the contents after a crash between two saves is
the contents of a prefix of the journal. Single file writes are atomic here.
-/
namespace DistributedSystems.Raft

/-- A single entry in the replicated log. -/
structure LogEntry (Cmd : Type) where
  term : ℕ
  index : ℕ
  command : Cmd
  deriving DecidableEq, Repr

/-- One call of `save_state`, `save_log` or `save_snapshot`. -/
inductive Save (Id Cmd Snap : Type)
  | saveState (currentTerm : ℕ) (votedFor : Option Id)
  | saveLog (log : List (LogEntry Cmd))
  | saveSnapshot (snapshot : Snap) (lastIncludedIndex lastIncludedTerm : ℕ)

/-- The saves performed so far, oldest first. -/
structure Storage (Id Cmd Snap : Type) where
  saves : List (Save Id Cmd Snap)

namespace Storage
variable {Id Cmd Snap : Type}

/-- A directory without any of the three files. -/
def empty : Storage Id Cmd Snap := ⟨[]⟩

def save (s : Storage Id Cmd Snap) (w : Save Id Cmd Snap) : Storage Id Cmd Snap := ⟨s.saves ++ [w]⟩

def saveState (s : Storage Id Cmd Snap) (currentTerm : ℕ) (votedFor : Option Id) :
    Storage Id Cmd Snap := s.save (.saveState currentTerm votedFor)

def saveLog (s : Storage Id Cmd Snap) (log : List (LogEntry Cmd)) : Storage Id Cmd Snap :=
  s.save (.saveLog log)

def saveSnapshot (s : Storage Id Cmd Snap) (snapshot : Snap) (lastIncludedIndex lastIncludedTerm : ℕ) :
    Storage Id Cmd Snap := s.save (.saveSnapshot snapshot lastIncludedIndex lastIncludedTerm)

/-- Term and vote of the state file, `(0, None)` without one. -/
def loadState (s : Storage Id Cmd Snap) : ℕ × Option Id :=
  s.saves.foldl (fun file w => match w with
    | .saveState currentTerm votedFor => (currentTerm,votedFor)
    | _ => file) (0,none)

/-- Entries of the log file, the empty list without one. -/
def loadLog (s : Storage Id Cmd Snap) : List (LogEntry Cmd) :=
  s.saves.foldl (fun file w => match w with
    | .saveLog log => log
    | _ => file) []

/-- Snapshot, last included index and last included term, `(None, 0, 0)` without a file. -/
def loadSnapshot (s : Storage Id Cmd Snap) : Option Snap × ℕ × ℕ :=
  s.saves.foldl (fun file w => match w with
    | .saveSnapshot snapshot index term => (some snapshot,index,term)
    | _ => file) (none,0,0)

/-- The storage a crash leaves behind when only the first `k` saves took place. -/
def crashAfter (s : Storage Id Cmd Snap) (k : ℕ) : Storage Id Cmd Snap := ⟨s.saves.take k⟩

@[simp] theorem saves_save (s : Storage Id Cmd Snap) (w : Save Id Cmd Snap) :
    (s.save w).saves = s.saves ++ [w] := rfl

@[simp] theorem loadLog_saveState (s : Storage Id Cmd Snap) (t : ℕ) (v : Option Id) :
    (s.saveState t v).loadLog = s.loadLog := by simp [saveState,loadLog]
@[simp] theorem loadLog_saveLog (s : Storage Id Cmd Snap) (log : List (LogEntry Cmd)) :
    (s.saveLog log).loadLog = log := by simp [saveLog,loadLog]
@[simp] theorem loadLog_saveSnapshot (s : Storage Id Cmd Snap) (b : Snap) (i t : ℕ) :
    (s.saveSnapshot b i t).loadLog = s.loadLog := by simp [saveSnapshot,loadLog]

@[simp] theorem loadSnapshot_saveState (s : Storage Id Cmd Snap) (t : ℕ) (v : Option Id) :
    (s.saveState t v).loadSnapshot = s.loadSnapshot := by simp [saveState,loadSnapshot]
@[simp] theorem loadSnapshot_saveLog (s : Storage Id Cmd Snap) (log : List (LogEntry Cmd)) :
    (s.saveLog log).loadSnapshot = s.loadSnapshot := by simp [saveLog,loadSnapshot]
@[simp] theorem loadSnapshot_saveSnapshot (s : Storage Id Cmd Snap) (b : Snap) (i t : ℕ) :
    (s.saveSnapshot b i t).loadSnapshot = (some b,i,t) := by simp [saveSnapshot,loadSnapshot]

end Storage

end DistributedSystems.Raft
