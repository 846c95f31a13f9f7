import DistributedSystems.Raft.Storage
import Mathlib.Logic.Encodable.Basic
import Mathlib.Logic.Equiv.List

/-! # Storage files and crashes

Every save opens its file for writing, which empties it, and dumps a pickle into it. A crash
leaves a part of the bytes. A loader that cannot read its file answers with the default.
-/
namespace DistributedSystems.Raft

/-- The exceptions of `pickle.load`. -/
inductive LoadError
  | eofError | unpicklingError | other

/-- `pickle.dump` and `pickle.load` for objects of one type. Objects are read back, and what is
cut off is not. -/
structure Pickle (α : Type) where
  dump : α → List UInt8
  load : List UInt8 → Except LoadError α
  load_dump : ∀ x, load (dump x) = .ok x
  load_take : ∀ x k, k < (dump x).length →
    load ((dump x).take k) = .error .eofError ∨ load ((dump x).take k) = .error .unpicklingError

namespace Pickle
variable {α : Type}

/-- The body of the loaders, with the default of each. -/
def loadFile (p : Pickle α) (default : α) : Option (List UInt8) → Except LoadError α
  | none => .ok default
  | some bytes =>
    match p.load bytes with
    | .ok x => .ok x
    | .error .eofError => .ok default
    | .error .unpicklingError => .ok default
    | .error .other => .error .other

@[simp] theorem loadFile_dump (p : Pickle α) (default x : α) : p.loadFile default (some (p.dump x)) = .ok x := by
  simp [loadFile,p.load_dump]

theorem loadFile_take (p : Pickle α) (default x : α) {k : ℕ} (hk : k < (p.dump x).length) :
    p.loadFile default (some ((p.dump x).take k)) = .ok default := by
  rcases p.load_take x k hk with h | h <;> simp [loadFile,h]

/-- Part of a file reads as the default, the whole file as what was saved. -/
theorem loadFile_take_eq (p : Pickle α) (default x : α) (k : ℕ) : p.loadFile default (some ((p.dump x).take k)) =
    .ok (if k < (p.dump x).length then default else x) := by
  split
  · rename_i hk
    exact p.loadFile_take default x hk
  · rename_i hk
    rw [List.take_of_length_le (not_lt.mp hk),loadFile_dump]

/-- Zeros for the number of an object, and the byte that ends a pickle. -/
def ofEncodable (α : Type) [Encodable α] : Pickle α where
  dump x := List.replicate (Encodable.encode x) 0 ++ [46]
  load bytes :=
    if bytes.getLast? = some 46 then (Encodable.decode (bytes.length - 1)).elim (.error .unpicklingError) .ok
    else .error .eofError
  load_dump x := by simp [Encodable.encodek]
  load_take x k hk := by
    left
    rw [List.length_append,List.length_replicate,List.length_singleton] at hk
    rw [List.take_append_of_le_length (by simp; omega),List.take_replicate,if_neg]
    intro h
    have hmem := List.mem_of_getLast? h
    cases (List.mem_replicate.mp hmem).2

end Pickle

/-- The pickles of the three kinds of objects. -/
structure Pickles (Id Cmd Snap : Type) where
  state : Pickle (ℕ × Option Id)
  log : Pickle (List (LogEntry Cmd))
  snapshot : Pickle (Option Snap × ℕ × ℕ)

/-- The bytes in the three files, as far as they exist. -/
structure FileStorage where
  stateFile : Option (List UInt8)
  logFile : Option (List UInt8)
  snapshotFile : Option (List UInt8)

namespace FileStorage
variable {Id Cmd Snap : Type} (p : Pickles Id Cmd Snap)

def empty : FileStorage := ⟨none,none,none⟩

/-- A save of which the first `k` bytes are on disk. -/
def saveBytes (s : FileStorage) (k : ℕ) : Save Id Cmd Snap → FileStorage
  | .saveState currentTerm votedFor => { s with stateFile := some ((p.state.dump (currentTerm,votedFor)).take k) }
  | .saveLog log => { s with logFile := some ((p.log.dump log).take k) }
  | .saveSnapshot snapshot lastIncludedIndex lastIncludedTerm =>
    { s with snapshotFile := some ((p.snapshot.dump (some snapshot,lastIncludedIndex,lastIncludedTerm)).take k) }

/-- The number of bytes of a save. -/
def size : Save Id Cmd Snap → ℕ
  | .saveState currentTerm votedFor => (p.state.dump (currentTerm,votedFor)).length
  | .saveLog log => (p.log.dump log).length
  | .saveSnapshot snapshot lastIncludedIndex lastIncludedTerm =>
    (p.snapshot.dump (some snapshot,lastIncludedIndex,lastIncludedTerm)).length

/-- `save_state`, `save_log` and `save_snapshot`. -/
def save (s : FileStorage) (w : Save Id Cmd Snap) : FileStorage := s.saveBytes p (size p w) w

def loadState (s : FileStorage) : Except LoadError (ℕ × Option Id) := p.state.loadFile (0,none) s.stateFile

def loadLog (s : FileStorage) : Except LoadError (List (LogEntry Cmd)) := p.log.loadFile [] s.logFile

def loadSnapshot (s : FileStorage) : Except LoadError (Option Snap × ℕ × ℕ) :=
  p.snapshot.loadFile (none,0,0) s.snapshotFile

/-- The files read as the journal of the completed saves. -/
structure Refines (s : FileStorage) (journal : Storage Id Cmd Snap) : Prop where
  state : s.loadState p = .ok journal.loadState
  log : s.loadLog p = .ok journal.loadLog
  snapshot : s.loadSnapshot p = .ok journal.loadSnapshot

theorem refines_empty : Refines p empty Storage.empty := ⟨rfl,rfl,rfl⟩

variable {p}

theorem Refines.save {s : FileStorage} {journal : Storage Id Cmd Snap} (h : Refines p s journal) (w : Save Id Cmd Snap) :
    Refines p (s.save p w) (journal.save w) := by
  obtain ⟨hstate,hlog,hsnapshot⟩ := h
  cases w with
  | saveState t v =>
    refine ⟨?_,?_,?_⟩
    · simp [FileStorage.save,saveBytes,size,loadState,Storage.save,Storage.loadState]
    · simpa [FileStorage.save,saveBytes,loadLog,Storage.save,Storage.loadLog] using hlog
    · simpa [FileStorage.save,saveBytes,loadSnapshot,Storage.save,Storage.loadSnapshot] using hsnapshot
  | saveLog log =>
    refine ⟨?_,?_,?_⟩
    · simpa [FileStorage.save,saveBytes,loadState,Storage.save,Storage.loadState] using hstate
    · simp [FileStorage.save,saveBytes,size,loadLog,Storage.save,Storage.loadLog]
    · simpa [FileStorage.save,saveBytes,loadSnapshot,Storage.save,Storage.loadSnapshot] using hsnapshot
  | saveSnapshot b i t =>
    refine ⟨?_,?_,?_⟩
    · simpa [FileStorage.save,saveBytes,loadState,Storage.save,Storage.loadState] using hstate
    · simpa [FileStorage.save,saveBytes,loadLog,Storage.save,Storage.loadLog] using hlog
    · simp [FileStorage.save,saveBytes,size,loadSnapshot,Storage.save,Storage.loadSnapshot]

/-- Without a crash inside a save the files are the journal of the saves. -/
theorem refines_foldl (saves : List (Save Id Cmd Snap)) :
    Refines p (saves.foldl (FileStorage.save p) empty) ⟨saves⟩ := by
  induction saves using List.reverseRecOn with
  | nil => exact refines_empty p
  | append_singleton rest w ih =>
    rw [List.foldl_concat]
    exact ih.save w

/-- The files after some saves and a crash, which may fall inside one more save, with `k` of its
bytes on disk. -/
def crashed (p : Pickles Id Cmd Snap) (saves : List (Save Id Cmd Snap)) : Option (Save Id Cmd Snap × ℕ) → FileStorage
  | none => saves.foldl (FileStorage.save p) empty
  | some (w,k) => (saves.foldl (FileStorage.save p) empty).saveBytes p k w

/-- Each loader returns the last completed value of its kind or the one that was being saved. -/
structure Atomic (p : Pickles Id Cmd Snap) (saves : List (Save Id Cmd Snap)) (crash : Option (Save Id Cmd Snap × ℕ)) :
    Prop where
  state : (crashed p saves crash).loadState p = .ok (Storage.mk saves).loadState ∨
    ∃ t v k, crash = some (.saveState t v,k) ∧ (crashed p saves crash).loadState p = .ok (t,v)
  log : (crashed p saves crash).loadLog p = .ok (Storage.mk saves).loadLog ∨
    ∃ log k, crash = some (.saveLog log,k) ∧ (crashed p saves crash).loadLog p = .ok log
  snapshot : (crashed p saves crash).loadSnapshot p = .ok (Storage.mk saves).loadSnapshot ∨
    ∃ b i t k, crash = some (.saveSnapshot b i t,k) ∧ (crashed p saves crash).loadSnapshot p = .ok (some b,i,t)

/-- The default that is read from part of a file is the last completed value or the new one. -/
def ReadsDefault (saves : List (Save Id Cmd Snap)) : Save Id Cmd Snap → Prop
  | .saveState t v => (Storage.mk saves).loadState = (0,none) ∨ (t,v) = (0,none)
  | .saveLog log => (Storage.mk saves).loadLog = [] ∨ log = []
  | .saveSnapshot _ _ _ => (Storage.mk saves).loadSnapshot = (none,0,0)

/-- What a loader answers when `k` of the `n` bytes of `x` are there. -/
theorem recovers_iff {α : Type} (last : α) {default x : α} {k n : ℕ} {r : Except LoadError α}
    (hr : r = .ok (if k < n then default else x)) :
    (r = .ok last ∨ r = .ok x) ↔ (k < n → last = default ∨ x = default) := by
  subst hr
  by_cases hk : k < n
  · simp [hk,eq_comm]
  · simp [hk]

theorem atomic_some_iff (saves : List (Save Id Cmd Snap)) (w : Save Id Cmd Snap) (k : ℕ) :
    Atomic p saves (some (w,k)) ↔ (k < size p w → ReadsDefault saves w) := by
  obtain ⟨hstate,hlog,hsnapshot⟩ := refines_foldl (p := p) saves
  cases w with
  | saveState t v =>
    have hload : (crashed p saves (some (.saveState t v,k))).loadState p =
        .ok (if k < size p (.saveState t v) then (0,none) else (t,v)) := p.state.loadFile_take_eq ..
    refine Iff.trans ⟨fun h => h.state.imp id ?_,fun h => ⟨h.imp id ?_,Or.inl hlog,Or.inl hsnapshot⟩⟩ (recovers_iff _ hload)
    · rintro ⟨_,_,_,heq,h⟩
      cases heq
      exact h
    · exact fun h => ⟨t,v,k,rfl,h⟩
  | saveLog log =>
    have hload : (crashed p saves (some (.saveLog log,k))).loadLog p =
        .ok (if k < size p (.saveLog log) then [] else log) := p.log.loadFile_take_eq ..
    refine Iff.trans ⟨fun h => h.log.imp id ?_,fun h => ⟨Or.inl hstate,h.imp id ?_,Or.inl hsnapshot⟩⟩ (recovers_iff _ hload)
    · rintro ⟨_,_,heq,h⟩
      cases heq
      exact h
    · exact fun h => ⟨log,k,rfl,h⟩
  | saveSnapshot b i t =>
    have hload : (crashed p saves (some (.saveSnapshot b i t,k))).loadSnapshot p =
        .ok (if k < size p (.saveSnapshot b i t) then (none,0,0) else (some b,i,t)) := p.snapshot.loadFile_take_eq ..
    have hiff := recovers_iff (Storage.mk saves).loadSnapshot hload
    simp only [Prod.mk.injEq,reduceCtorEq,false_and,or_false] at hiff
    refine Iff.trans ⟨fun h => h.snapshot.imp id ?_,fun h => ⟨Or.inl hstate,Or.inl hlog,h.imp id ?_⟩⟩ hiff
    · rintro ⟨_,_,_,_,heq,h⟩
      cases heq
      exact h
    · exact fun h => ⟨b,i,t,k,rfl,h⟩

/-- A crash is survived exactly if it does not leave part of a file whose last completed value,
and whose new value, are other than the default. -/
theorem atomic_iff (p : Pickles Id Cmd Snap) (saves : List (Save Id Cmd Snap)) (crash : Option (Save Id Cmd Snap × ℕ)) :
    Atomic p saves crash ↔ ∀ w k, crash = some (w,k) → k < size p w → ReadsDefault saves w := by
  cases crash with
  | none =>
    obtain ⟨hstate,hlog,hsnapshot⟩ := refines_foldl (p := p) saves
    exact iff_of_true ⟨Or.inl hstate,Or.inl hlog,Or.inl hsnapshot⟩ nofun
  | some wk =>
    obtain ⟨w,k⟩ := wk
    rw [atomic_some_iff]
    exact ⟨fun h w' k' heq => by cases heq; exact h,fun h => h w k rfl⟩

def picklesOfEncodable (Id Cmd Snap : Type) [Encodable Id] [Encodable Cmd] [Encodable Snap] : Pickles Id Cmd Snap where
  state := .ofEncodable _
  log :=
    have : Encodable (LogEntry Cmd) :=
      .ofLeftInverse (fun e => (e.term,e.index,e.command)) (fun e => ⟨e.1,e.2.1,e.2.2⟩) fun _ => rfl
    .ofEncodable _
  snapshot := .ofEncodable _

/-- The vote of term 3 is lost when the process dies right after it opened the file to save
term 4. -/
theorem crash_loses_vote :
    ¬∀ (p : Pickles ℕ ℕ ℕ) (saves : List (Save ℕ ℕ ℕ)) (crash : Option (Save ℕ ℕ ℕ × ℕ)), Atomic p saves crash := by
  intro h
  have hreads := (atomic_some_iff [.saveState 3 (some 7)] (.saveState 4 none) 0).mp
    (h (picklesOfEncodable ℕ ℕ ℕ) _ _) (by simp [size,picklesOfEncodable,Pickle.ofEncodable])
  rcases hreads with h | h
  · exact absurd h (by decide)
  · exact absurd h (by decide)

end FileStorage

end DistributedSystems.Raft
