import DistributedSystems.Gossip.Push

/-! # Pull against push

A digest tells the versions only, so the answer to a pull leaves out the entries that would
win by their node. Otherwise a pull brings what a push would bring.
-/
namespace DistributedSystems.Gossip
open Runs

variable {κ ν V T : Type} [DecidableEq κ] [LinearOrder ν]

namespace StateStore

/-- Entries of distinct keys are merged key by key. -/
theorem getEntry_mergeEntries {entries : List (κ × StateEntry κ ν V T)} (hnodup : (entries.map Prod.fst).Nodup)
    (hkey : ∀ e ∈ entries, e.2.key = e.1) (s : StateStore κ ν V T) (key : κ) :
    (s.mergeEntries (entries.map Prod.snd)).getEntry key =
      Option.merge (newest StateEntry.stamp) (s.getEntry key) (lookupEntry key entries) := by
  induction entries generalizing s with
  | nil => exact Option.merge_none_right.symm
  | cons e rest ih =>
    obtain ⟨hnew,hrest⟩ := List.nodup_cons.mp hnodup
    have hstep := ih hrest (fun e' he' => hkey e' (List.mem_cons_of_mem _ he')) (s.merge e.2).1
    rw [List.map_cons]
    refine hstep.trans ?_
    rw [getEntry_merge,hkey e List.mem_cons_self,lookupEntry_cons]
    by_cases hk : key = e.1
    · subst hk
      rw [if_pos rfl,if_pos rfl,lookupEntry_of_notMem hnew,Option.merge_none_right]
    · rw [if_neg hk,if_neg (Ne.symm hk)]

/-- Every entry is stored under its own key. -/
def Keyed (s : StateStore κ ν V T) : Prop := ∀ key e, s.getEntry key = some e → e.key = key

omit [LinearOrder ν] in
theorem Keyed.entries {s : StateStore κ ν V T} (h : s.Keyed) : ∀ e ∈ s.store.entries, e.2.key = e.1 :=
  fun _ he => h _ _ (Dict.get?_of_mem he)

theorem getEntry_push {b : StateStore κ ν V T} (h : b.Keyed) (a : StateStore κ ν V T) (key : κ) :
    (a.mergeEntries b.getAllEntries).getEntry key =
      Option.merge (newest StateEntry.stamp) (a.getEntry key) (b.getEntry key) :=
  getEntry_mergeEntries b.store.nodup h.entries a key

omit [LinearOrder ν] in
/-- The version that a digest tells of a key, 0 if there is none. -/
theorem getDigest_getD (s : StateStore κ ν V T) (key : κ) :
    (s.getDigest.get? key).getD 0 = ((s.getEntry key).map StateEntry.version).getD 0 := by
  simp only [getDigest,Dict.get?_mapValues,getEntry]

theorem getEntry_pull {b : StateStore κ ν V T} (h : b.Keyed) (a : StateStore κ ν V T) (key : κ) :
    (a.mergeEntries (b.getDelta a.getDigest)).getEntry key =
      Option.merge (newest StateEntry.stamp) (a.getEntry key)
        ((b.getEntry key).filter fun e => ((a.getEntry key).map StateEntry.version).getD 0 < e.version) := by
  have hsub := List.filter_sublist (l := b.store.entries)
    (p := fun e => decide ((a.getDigest.get? e.1).getD 0 < e.2.version))
  refine (getEntry_mergeEntries ((hsub.map Prod.fst).nodup b.store.nodup)
    (fun e he => h.entries e (hsub.subset he)) a key).trans ?_
  rw [lookupEntry_filter _ key b.store.nodup]
  simp only [getDigest_getD]
  rfl

/-- A pull and a push agree unless the other entry has the same version and a larger node. -/
theorem pull_eq_push_iff {a b : StateStore κ ν V T} (h : b.Keyed)
    (hpositive : ∀ key e, b.getEntry key = some e → 0 < e.version) (key : κ) :
    (a.mergeEntries (b.getDelta a.getDigest)).getEntry key = (a.mergeEntries b.getAllEntries).getEntry key ↔
      ∀ x ∈ a.getEntry key, ∀ y ∈ b.getEntry key, x.version = y.version → y.nodeId ≤ x.nodeId := by
  rw [getEntry_pull h,getEntry_push h]
  cases hb : b.getEntry key with
  | none => simp
  | some y =>
    cases ha : a.getEntry key with
    | none => simp [Option.filter,hpositive key y hb]
    | some x =>
      simp only [Option.map_some,Option.getD_some,Option.filter_some,Option.mem_def,Option.some.injEq,forall_eq',
        decide_eq_true_eq]
      by_cases hlt : x.version < y.version
      · simp [hlt,hlt.ne]
      rw [if_neg hlt,Option.merge_none_right,Option.merge_some_some,Option.some.injEq]
      by_cases htie : x.version = y.version ∧ x.nodeId < y.nodeId
      · have hstamp : x.stamp < y.stamp := Prod.Lex.toLex_lt_toLex.mpr (Or.inr htie)
        rw [newest_of_lt _ hstamp]
        refine iff_of_false (fun hxy => ?_) fun hall => not_le.mpr htie.2 (hall htie.1)
        rw [hxy] at htie
        exact lt_irrefl _ htie.2
      · have hstamp : ¬x.stamp < y.stamp := fun hs =>
          (Prod.Lex.toLex_lt_toLex.mp hs).elim hlt htie
        rw [newest_of_le _ (not_lt.mp hstamp)]
        exact iff_of_true rfl fun heq => not_lt.mp fun hn => htie ⟨heq,hn⟩

end StateStore

namespace GossipCluster

/-- In every run a pull leaves the asking store as a push would have, exactly when no key has
entries of one version in both stores of which the other one has the larger node. -/
theorem pull_iff_push (schedule : List (GossipAction κ ν V T)) (i j : ν) :
    (∀ key, (((run step (init κ ν V T) schedule).stores i).mergeEntries (((run step (init κ ν V T) schedule).stores j).getDelta
        ((run step (init κ ν V T) schedule).stores i).getDigest)).getEntry key =
      (((run step (init κ ν V T) schedule).stores i).mergeEntries
        ((run step (init κ ν V T) schedule).stores j).getAllEntries).getEntry key) ↔
    ∀ key, ∀ x ∈ ((run step (init κ ν V T) schedule).stores i).getEntry key,
      ∀ y ∈ ((run step (init κ ν V T) schedule).stores j).getEntry key, x.version = y.version → y.nodeId ≤ x.nodeId := by
  have h := stamped_run schedule
  refine forall_congr' fun key => StateStore.pull_eq_push_iff (fun key e he => (h.held j key e he).1) ?_ key
  exact fun key e he => h.positive e (h.offered j e (h.held j key e he).2)

/-- Nodes 0 and 1 write a key at the same time. Node 0 pulls and keeps its own value; a push
would have brought it that of node 1. -/
theorem pull_misses_tie :
    ¬ ∀ (schedule : List (GossipAction ℕ ℕ ℕ ℕ)) (i j key : ℕ),
      (((run step (init ℕ ℕ ℕ ℕ) schedule).stores i).mergeEntries (((run step (init ℕ ℕ ℕ ℕ) schedule).stores j).getDelta
        ((run step (init ℕ ℕ ℕ ℕ) schedule).stores i).getDigest)).getEntry key =
      (((run step (init ℕ ℕ ℕ ℕ) schedule).stores i).mergeEntries
        ((run step (init ℕ ℕ ℕ ℕ) schedule).stores j).getAllEntries).getEntry key := by
  intro h
  exact absurd (h [.set 0 5 7 (some 10),.set 1 5 7 (some 20)] 0 1 7) (by decide)

end GossipCluster

end DistributedSystems.Gossip
