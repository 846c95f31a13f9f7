import DistributedSystems.Protocol.Dict
import DistributedSystems.Protocol.Newest
import Mathlib.Data.Prod.Lex

/-! # The state store of a gossip node

A store keeps one entry for each key, ordered by version and then by the node that wrote it.
A value `none` is `None`.
-/

namespace DistributedSystems.Gossip

structure StateEntry (κ ν V T : Type) where
  key : κ
  value : Option V
  version : ℕ
  timestamp : T
  nodeId : ν
  tombstone : Bool
  deriving DecidableEq

structure StateStore (κ ν V T : Type) where
  nodeId : ν
  store : Dict κ (StateEntry κ ν V T)

variable {κ ν V T : Type} [DecidableEq κ] [LinearOrder ν]

/-- What entries of a key are ordered by. -/
def StateEntry.stamp (entry : StateEntry κ ν V T) : ℕ ×ₗ ν := toLex (entry.version,entry.nodeId)

namespace StateStore

def init (κ V T : Type) (nodeId : ν) : StateStore κ ν V T := ⟨nodeId,⟨[],List.nodup_nil⟩⟩

def getEntry (s : StateStore κ ν V T) (key : κ) : Option (StateEntry κ ν V T) := s.store.get? key

def get (s : StateStore κ ν V T) (key : κ) : Option V :=
  match s.getEntry key with
  | none => none
  | some entry => if entry.tombstone then none else entry.value

/-- The store with an entry written under its key. -/
def put (s : StateStore κ ν V T) (entry : StateEntry κ ν V T) : StateStore κ ν V T :=
  { s with store := s.store.insert entry.key entry }

/-- The version that the next local write of a key gets. -/
def nextVersion (s : StateStore κ ν V T) (key : κ) : ℕ :=
  match s.getEntry key with
  | none => 1
  | some existing => existing.version + 1

def set (s : StateStore κ ν V T) (now : T) (key : κ) (value : Option V) : StateStore κ ν V T × StateEntry κ ν V T :=
  let entry : StateEntry κ ν V T := ⟨key,value,s.nextVersion key,now,s.nodeId,false⟩
  (s.put entry,entry)

/-- Only an entry that is not deleted yet gets a tombstone. -/
def delete (s : StateStore κ ν V T) (now : T) (key : κ) : StateStore κ ν V T × Option (StateEntry κ ν V T) :=
  match s.getEntry key with
  | none => (s,none)
  | some existing =>
    if existing.tombstone then (s,none)
    else
      let entry : StateEntry κ ν V T := ⟨key,none,existing.version + 1,now,s.nodeId,true⟩
      (s.put entry,some entry)

def merge (s : StateStore κ ν V T) (entry : StateEntry κ ν V T) : StateStore κ ν V T × Bool :=
  match s.getEntry entry.key with
  | none => (s.put entry,true)
  | some existing =>
    if existing.version < entry.version then (s.put entry,true)
    else if entry.version = existing.version then
      if existing.nodeId < entry.nodeId then (s.put entry,true) else (s,false)
    else (s,false)

def getAllEntries (s : StateStore κ ν V T) : List (StateEntry κ ν V T) := s.store.entries.map Prod.snd

def getDigest (s : StateStore κ ν V T) : Dict κ ℕ := s.store.mapValues StateEntry.version

def getDelta (s : StateStore κ ν V T) (digest : Dict κ ℕ) : List (StateEntry κ ν V T) :=
  (s.store.entries.filter fun e => (digest.get? e.1).getD 0 < e.2.version).map Prod.snd

/-- What `_merge_entries` of the node does to the store. -/
def mergeEntries (s : StateStore κ ν V T) (entries : List (StateEntry κ ν V T)) : StateStore κ ν V T :=
  entries.foldl (fun s entry => (s.merge entry).1) s

omit [LinearOrder ν] in
theorem getEntry_put (s : StateStore κ ν V T) (entry : StateEntry κ ν V T) (key : κ) :
    (s.put entry).getEntry key = if key = entry.key then some entry else s.getEntry key :=
  s.store.get?_insert entry.key key entry

omit [LinearOrder ν] in
theorem mem_getAllEntries {s : StateStore κ ν V T} {entry : StateEntry κ ν V T} (h : entry ∈ s.getAllEntries) :
    ∃ key, s.getEntry key = some entry := by
  obtain ⟨e,he,rfl⟩ := List.mem_map.mp h
  exact ⟨e.1,Dict.get?_of_mem he⟩

theorem merge_nodeId (s : StateStore κ ν V T) (entry : StateEntry κ ν V T) : (s.merge entry).1.nodeId = s.nodeId := by
  unfold merge
  split
  · rfl
  · split_ifs <;> rfl

/-- The tie-breaking of `merge` is the order of the stamps. -/
theorem merge_of_some {s : StateStore κ ν V T} {entry existing : StateEntry κ ν V T}
    (h : s.getEntry entry.key = some existing) :
    (s.merge entry).1 = if existing.stamp < entry.stamp then s.put entry else s := by
  simp only [merge,h,StateEntry.stamp,Prod.Lex.toLex_lt_toLex]
  rcases lt_trichotomy existing.version entry.version with hlt | heq | hgt
  · simp [hlt]
  · simp only [heq,lt_irrefl,if_false,if_true,true_and,false_or]
    split_ifs <;> rfl
  · simp [hgt.not_gt,hgt.ne,hgt.ne']

/-- A merge keeps the newer of the two entries. -/
theorem getEntry_merge (s : StateStore κ ν V T) (entry : StateEntry κ ν V T) (key : κ) :
    (s.merge entry).1.getEntry key =
      if key = entry.key then Option.merge (newest StateEntry.stamp) (s.getEntry key) (some entry)
      else s.getEntry key := by
  cases h : s.getEntry entry.key with
  | none =>
    have hmerge : (s.merge entry).1 = s.put entry := by simp only [merge,h]
    rw [hmerge,getEntry_put]
    split
    · rename_i hk
      rw [hk,h,Option.merge_none_left]
    · rfl
  | some existing =>
    rw [merge_of_some h]
    by_cases hk : key = entry.key
    · subst hk
      rw [if_pos rfl,h,Option.merge_some_some]
      split_ifs with hlt
      · rw [getEntry_put,if_pos rfl,newest_of_lt _ hlt]
      · rw [h,newest_of_le _ (not_lt.mp hlt)]
    · rw [if_neg hk]
      split_ifs
      · rw [getEntry_put,if_neg hk]
      · rfl

end StateStore

end DistributedSystems.Gossip
