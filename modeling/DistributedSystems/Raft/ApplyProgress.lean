import DistributedSystems.Raft.CommitRule
import DistributedSystems.Raft.CompactionTransparency

/-! # What the apply loop gets done

Where the state machine answers every committed command, the loop reaches the commit index and
resolves the futures that wait below it. Below the snapshot interval it leaves the log alone.
-/
namespace DistributedSystems.Raft
open ReplicatedLog
variable {Id Cmd : Type} [DecidableEq Id] {M : StateMachine Cmd}

/-- No command of the list makes `apply` raise. -/
def AnswersAll (M : StateMachine Cmd) (L : List (LogEntry Cmd)) : Prop :=
  ∀ s, ∀ e ∈ L, (M.apply s e.command).2.isSome

theorem AnswersAll.of_subset {L L' : List (LogEntry Cmd)} (h : AnswersAll M L) (hsub : L' ⊆ L) : AnswersAll M L' :=
  fun s e he => h s e (hsub he)

namespace RaftNode
variable {n : RaftNode Id M} {L : List (LogEntry Cmd)} {f : ℕ} {e : LogEntry Cmd}

/-- The future at `f` has a result, or waits for the entry `e` to be applied. -/
def Awaits (n : RaftNode Id M) (f : ℕ) (e : LogEntry Cmd) : Prop :=
  ∃ result, n.futures[f]? = some ⟨e,result⟩ ∧
    (result.isSome ∨ (n.lastApplied < e.index ∧ n.pendingCommits e.index = some f))

omit [DecidableEq Id] in
/-- Nothing is left to wait for once the entry is applied. -/
theorem Awaits.resolved (h : n.Awaits f e) (hle : e.index ≤ n.lastApplied) :
    ∃ r, n.futures[f]? = some ⟨e,some r⟩ := by
  obtain ⟨result,hf,hresult | ⟨hlt,-⟩⟩ := h
  · obtain ⟨r,rfl⟩ := Option.isSome_iff_exists.mp hresult
    exact ⟨r,hf⟩
  · exact absurd hle (not_le.mpr hlt)

omit [DecidableEq Id] in
/-- Applying the next index resolves the future that waits for it, and no other. -/
theorem Awaits.notifyPending (h : n.Awaits f e) (r : M.Result) (s : M.State) (a : ℕ → Option (LogEntry Cmd)) :
    (RaftNode.notifyPending
      { n with lastApplied := n.lastApplied + 1, stateMachine := s, applied := a } r).Awaits f e := by
  obtain ⟨result,hf,hresult⟩ := h
  unfold RaftNode.notifyPending
  cases hpending : n.pendingCommits (n.lastApplied + 1) with
  | none =>
    dsimp only
    refine ⟨result,hf,hresult.imp_right fun ⟨hlt,hwait⟩ => ⟨?_,hwait⟩⟩
    have hne : e.index ≠ n.lastApplied + 1 := by
      intro heq
      rw [heq,hpending] at hwait
      cases hwait
    change n.lastApplied + 1 < e.index
    omega
  | some g =>
    dsimp only
    by_cases hg : g = f
    · subst hg
      refine ⟨some r,?_,Or.inl rfl⟩
      change (n.futures.modify g _)[g]? = _
      rw [List.getElem?_modify_eq,hf]
      rfl
    · refine ⟨result,?_,hresult.imp_right fun ⟨hlt,hwait⟩ => ?_⟩
      · change (n.futures.modify g _)[f]? = _
        rw [List.getElem?_modify_ne _ _ hg]
        exact hf
      · have hne : e.index ≠ n.lastApplied + 1 := by
          intro heq
          rw [heq,hpending] at hwait
          exact hg (Option.some.inj hwait)
        refine ⟨?_,(Function.update_of_ne hne ..).trans hwait⟩
        change n.lastApplied + 1 < e.index
        omega

omit [DecidableEq Id] in
theorem Awaits.checkSnapshot (h : n.Awaits f e) : n.checkSnapshot.Awaits f e := by
  rcases n.checkSnapshot_cases with he | ⟨-,t,-,he⟩
  · rw [he]
    exact h
  · rw [he]
    exact h

/-- What one iteration does where the state machine answers. -/
structure Applies (n n' : RaftNode Id M) : Prop where
  lastApplied : n'.lastApplied = n.lastApplied + 1
  commitIndex : n'.commitIndex = n.commitIndex
  snapshotInterval : n'.snapshotInterval = n.snapshotInterval
  log : n.lastApplied + 1 < n.snapshotInterval → n'.log = n.log
  awaits : ∀ f e, n.Awaits f e → n'.Awaits f e

omit [DecidableEq Id] in
theorem applyNext_applies (h : n.Holds L) (hlt : n.lastApplied < n.commitIndex)
    (hans : AnswersAll M (L.take n.commitIndex)) : n.applyNext.2 = true ∧ Applies n n.applyNext.1 := by
  have hs := h.snapshot
  have hc := h.commit_le
  have hitem : n.log.getItem (n.lastApplied + 1) = some L[n.lastApplied] := by
    rw [h.log.getItem (by omega),Nat.add_sub_cancel,List.getElem?_eq_getElem]
  have hmem : L[n.lastApplied] ∈ L.take n.commitIndex := by
    rw [List.mem_take_iff_getElem]
    exact ⟨n.lastApplied,by omega,rfl⟩
  obtain ⟨r,hr⟩ := Option.isSome_iff_exists.mp (hans n.stateMachine _ hmem)
  unfold applyNext
  simp only [hitem,hr]
  set n₁ : RaftNode Id M := { n with
    lastApplied := n.lastApplied + 1
    stateMachine := (M.apply n.stateMachine (L[n.lastApplied]).command).1
    applied := Function.update n.applied (n.lastApplied + 1) (some L[n.lastApplied]) } with hn₁
  have happlied : (n₁.notifyPending r).lastApplied = n₁.lastApplied := frame_notifyPending (fun _ _ _ => rfl) n₁ r
  have hcommit : (n₁.notifyPending r).commitIndex = n₁.commitIndex := frame_notifyPending (fun _ _ _ => rfl) n₁ r
  have hlog : (n₁.notifyPending r).log = n₁.log := frame_notifyPending (fun _ _ _ => rfl) n₁ r
  have hsame : (n₁.notifyPending r).checkSnapshot.commitIndex = (n₁.notifyPending r).commitIndex :=
    frame_checkSnapshot (fun _ _ => rfl) _
  refine ⟨trivial,?_,hsame.trans hcommit,?_,fun hinterval => ?_,fun f e ha => ?_⟩
  · rw [checkSnapshot_lastApplied,happlied]
  · rw [checkSnapshot_snapshotInterval,notifyPending_snapshotInterval]
  · unfold checkSnapshot
    rw [hlog,happlied,notifyPending_snapshotInterval,if_neg]
    · exact hlog
    · change ¬n.lastApplied + 1 - n.log.lastIncludedIndex ≥ n.snapshotInterval
      omega
  · exact (ha.notifyPending r _ _).checkSnapshot

/-- What the whole loop does: it reaches the commit index. -/
structure AppliesAll (n n' : RaftNode Id M) : Prop where
  lastApplied : n'.lastApplied = n.commitIndex
  log : n.commitIndex < n.snapshotInterval → n'.log = n.log
  awaits : ∀ f e, n.Awaits f e → n'.Awaits f e

omit [DecidableEq Id] in
theorem applyLoop_applies (h : n.Holds L) (hans : AnswersAll M (L.take n.commitIndex)) {fuel : ℕ}
    (hfuel : n.commitIndex - n.lastApplied ≤ fuel) :
    (applyLoop fuel n).2 = true ∧ AppliesAll n (applyLoop fuel n).1 := by
  induction fuel generalizing n with
  | zero =>
    have hge : n.commitIndex ≤ n.lastApplied := Nat.sub_eq_zero_iff_le.mp (Nat.le_zero.mp hfuel)
    exact ⟨rfl,Nat.le_antisymm h.applied_le hge,fun _ => rfl,fun _ _ ha => ha⟩
  | succ fuel ih =>
    rw [applyLoop]
    split
    · rename_i hlt
      obtain ⟨hfin,hstep⟩ := applyNext_applies h hlt hans
      have hcommit := hstep.commitIndex
      have happlied := hstep.lastApplied
      obtain ⟨hall,hrest⟩ := ih (h.applyNext hlt) (hcommit.symm ▸ hans) (by omega)
      rw [if_pos hfin]
      refine ⟨hall,hrest.lastApplied.trans hcommit,fun hinterval => ?_,?_⟩
      · rw [hrest.log (by rw [hcommit,hstep.snapshotInterval]; exact hinterval),hstep.log (by omega)]
      · exact fun f e ha => hrest.awaits f e (hstep.awaits f e ha)
    · rename_i hge
      exact ⟨rfl,Nat.le_antisymm h.applied_le (not_lt.mp hge),fun _ => rfl,fun _ _ ha => ha⟩

omit [DecidableEq Id] in
theorem setCommitIndex_applies (h : n.Holds L) {N : ℕ} (hle : n.commitIndex ≤ N) (hN : N ≤ L.length)
    (hans : AnswersAll M (L.take N)) : (applyCommittedEntries { n with commitIndex := N }).2 = true ∧
      AppliesAll { n with commitIndex := N } (applyCommittedEntries { n with commitIndex := N }).1 :=
  applyLoop_applies (h.setCommitIndex hle hN) hans (le_refl _)

omit [DecidableEq Id] in
/-- The handler of an accepted call replies, where the state machine answers what is committed then. -/
theorem storeEntries_applies {F : List (LogEntry Cmd)} {args : AppendArgs Id Cmd}
    (h : Holds { n with log := appendNewEntries n.log (args.prevLogIndex + 1) args.entries } F)
    (hans : AnswersAll M (F.take args.leaderCommit)) : (n.storeEntries args).2 = true ∧
      (max n.commitIndex args.leaderCommit < n.snapshotInterval →
        (n.storeEntries args).1.log = appendNewEntries n.log (args.prevLogIndex + 1) args.entries) := by
  unfold storeEntries followLeaderCommit
  split
  · rename_i hgt
    have hgt : n.commitIndex < args.leaderCommit := hgt
    have hlen : (appendNewEntries n.log (args.prevLogIndex + 1) args.entries).len = F.length := h.log.len
    have hle : min args.leaderCommit F.length ≤ args.leaderCommit := min_le_left ..
    have hcommit := h.commit_le
    dsimp only at hcommit ⊢
    rw [hlen]
    obtain ⟨hfin,hall⟩ := setCommitIndex_applies h (le_min hgt.le hcommit) (min_le_right ..)
      (hans.of_subset (List.take_subset_take_left F hle))
    exact ⟨hfin,fun hinterval => hall.log (lt_of_le_of_lt (hle.trans (le_max_right ..)) hinterval)⟩
  · exact ⟨rfl,fun _ => rfl⟩

omit [DecidableEq Id] in
/-- The threshold of a leader whose log a majority has in full is the end of the log. -/
theorem majorityMatch_of_matched {peers : List Id} (hnodup : peers.Nodup) (hpeers : ∀ p ∈ peers, p ∈ n.peers)
    (hfull : ∀ p ∈ peers, n.matchIndex p = some n.log.len)
    (hle : ∀ p m, n.matchIndex p = some m → m ≤ n.log.len)
    (hmajority : n.allNodes.length < 2 * (peers.length + 1)) : n.majorityMatch = some n.log.len := by
  have hsorted := List.pairwise_insertionSort (· ≥ ·) (n.peers.filterMap n.matchIndex ++ [n.log.len])
  have hperm := List.perm_insertionSort (· ≥ ·) (n.peers.filterMap n.matchIndex ++ [n.log.len])
  unfold majorityMatch
  dsimp only
  set found := (n.peers.filterMap n.matchIndex ++ [n.log.len]).insertionSort (· ≥ ·)
  have hcount : peers.length + 1 ≤ found.countP (n.log.len ≤ ·) := by
    rw [hperm.countP_eq,List.countP_append,List.countP_filterMap]
    have hself : List.countP (fun x => decide (n.log.len ≤ x)) [n.log.len] = 1 := by simp
    have hsub : peers.length ≤
        List.countP (fun p => ((n.matchIndex p).map fun m => decide (n.log.len ≤ m)).getD false) n.peers := by
      rw [List.countP_eq_length_filter]
      refine (hnodup.subperm fun p hp => List.mem_filter.mpr ⟨hpeers p hp,?_⟩).length_le
      simp [hfull p hp]
    omega
  have hlen : n.allNodes.length / 2 < found.length := by
    have := List.countP_le_length (l := found) (p := (n.log.len ≤ ·))
    omega
  have hget : found[n.allNodes.length / 2]? = some found[n.allNodes.length / 2] := List.getElem?_eq_getElem hlen
  rw [hget]
  refine congrArg some (le_antisymm ?_ (le_of_lt_countP hsorted hget (by omega)))
  have hmem := hperm.mem_iff.mp (List.getElem_mem hlen)
  rcases List.mem_append.mp hmem with hmem | hmem
  · obtain ⟨p,-,hp⟩ := List.mem_filterMap.mp hmem
    exact hle p _ hp
  · exact (List.mem_singleton.mp hmem).le

/-- Counting the match indices commits and applies what it can, and loses no waiting future. -/
structure Counts (n n' : RaftNode Id M) (len : ℕ) : Prop where
  log : n'.log = n.log
  awaits : ∀ f e, n.Awaits f e → n'.Awaits f e
  behind : n.commitIndex < len ∨ len ≤ n.lastApplied → n'.commitIndex < len ∨ len ≤ n'.lastApplied
  full : n.commitIndex < len ∨ len ≤ n.lastApplied → n.majorityMatch = some len →
    n.log.getTerm len = some n.currentTerm → len ≤ n'.lastApplied

omit [DecidableEq Id] in
theorem updateCommitIndex_counts (h : n.Holds L) (hans : AnswersAll M L) (hinterval : L.length < n.snapshotInterval) :
    Counts n n.updateCommitIndex L.length := by
  unfold updateCommitIndex
  cases hN : n.majorityMatch with
  | none => exact ⟨rfl,fun _ _ ha => ha,id,fun _ hfull => by rw [hN] at hfull; cases hfull⟩
  | some N =>
    dsimp only
    split
    · rename_i hcan
      have hlen : N ≤ L.length := h.log.len ▸ RaftLog.le_len_of_getTerm hcan.2
      obtain ⟨-,hall⟩ := setCommitIndex_applies h (le_of_lt hcan.1) hlen (hans.of_subset (List.take_subset ..))
      have happlied : (applyCommittedEntries { n with commitIndex := N }).1.lastApplied = N := hall.lastApplied
      have hcommit : (applyCommittedEntries { n with commitIndex := N }).1.commitIndex = N := applyLoop_commitIndex ..
      refine ⟨hall.log (lt_of_le_of_lt hlen hinterval),hall.awaits,fun _ => ?_,fun _ hfull _ => ?_⟩
      · rw [happlied,hcommit]
        omega
      · rw [hN] at hfull
        rw [happlied]
        exact (Option.some.inj hfull).ge
    · rename_i hno
      refine ⟨rfl,fun _ _ ha => ha,id,fun hbehind hfull hterm => ?_⟩
      rw [hN] at hfull
      obtain rfl := Option.some.inj hfull
      exact hbehind.resolve_left fun hlt => hno ⟨hlt,hterm⟩

end RaftNode

end DistributedSystems.Raft
