import DistributedSystems.Raft.LogCompaction
import DistributedSystems.Raft.NodeRefinement

/-! # Compaction changes nothing that can be seen

A node appends entries and moves its commit index in any steps. Whatever it compacts on the
way, its store is the one of a replay of the whole log, its log shows the original entries,
and a node restarted on its storage comes back to the same state.
-/
namespace DistributedSystems.Raft
variable {Id Cmd : Type} {M : StateMachine Cmd}

/-- The state after the commands of some entries, with no snapshot in between. -/
def replay (M : StateMachine Cmd) (L : List (LogEntry Cmd)) : M.State :=
  L.foldl (fun s e => (M.apply s e.command).1) M.init

theorem replay_take_succ {L : List (LogEntry Cmd)} {k : ℕ} (h : k < L.length) :
    replay M (L.take (k + 1)) = (M.apply (replay M (L.take k)) (L[k]).command).1 := by
  unfold replay
  rw [← List.take_concat_get' L k h,List.foldl_append]
  rfl

/-- What `apply` returns for the entry behind the first `k`, unless it raises. -/
def resultAt (M : StateMachine Cmd) (L : List (LogEntry Cmd)) (k : ℕ) : Option M.Result :=
  L[k]?.bind fun e => (M.apply (replay M (L.take k)) e.command).2

/-- Where the last snapshot stands once `k` entries are applied. It depends on the list alone
and not on the steps in which the commit index moved. -/
def snapshotMark (M : StateMachine Cmd) (snapshotInterval : ℕ) (L : List (LogEntry Cmd)) : ℕ → ℕ
  | 0 => 0
  | k + 1 =>
    if (resultAt M L k).isSome ∧ snapshotInterval ≤ k + 1 - snapshotMark M snapshotInterval L k then k + 1
    else snapshotMark M snapshotInterval L k

theorem resultAt_of_lt {L : List (LogEntry Cmd)} {k : ℕ} (h : k < L.length) :
    resultAt M L k = (M.apply (replay M (L.take k)) (L[k]).command).2 := by
  simp [resultAt,List.getElem?_eq_getElem h]

theorem resultAt_append {L L' : List (LogEntry Cmd)} {k : ℕ} (h : k < L.length) :
    resultAt M (L ++ L') k = resultAt M L k := by
  simp [resultAt,List.getElem?_append_left h,List.take_append_of_le_length h.le]

theorem snapshotMark_append {L L' : List (LogEntry Cmd)} {interval k : ℕ} (h : k ≤ L.length) :
    snapshotMark M interval (L ++ L') k = snapshotMark M interval L k := by
  induction k with
  | zero => rfl
  | succ k ih => simp only [snapshotMark,ih (by omega),resultAt_append (show k < L.length by omega)]

/-- A restart begins at the mark, where nothing is left to compact. -/
theorem snapshotMark_snapshotMark (L : List (LogEntry Cmd)) (interval k : ℕ) :
    snapshotMark M interval L (snapshotMark M interval L k) = snapshotMark M interval L k := by
  induction k with
  | zero => rfl
  | succ k ih =>
    by_cases h : (resultAt M L k).isSome ∧ interval ≤ k + 1 - snapshotMark M interval L k
    · have hmark : snapshotMark M interval L (k + 1) = k + 1 := if_pos h
      rw [hmark,hmark]
    · have hmark : snapshotMark M interval L (k + 1) = snapshotMark M interval L k := if_neg h
      rw [hmark,ih]

/-- What a restart makes of the snapshot file. -/
def restored (M : StateMachine Cmd) (storage : Storage Id Cmd M.Snapshot) : M.State :=
  match storage.loadSnapshot.1 with
  | some snapshot => M.restore snapshot
  | none => M.init

/-- A new entry, or a new value of the commit index. -/
inductive CommitAction (Cmd : Type)
  | append (entry : LogEntry Cmd)
  | advance (commitIndex : ℕ)

/-- The entries appended by a schedule. -/
def appended (schedule : List (CommitAction Cmd)) : List (LogEntry Cmd) :=
  schedule.filterMap fun a => match a with
    | .append entry => some entry
    | .advance _ => none

namespace RaftNode

/-- The commit index never moves back or past the log. -/
def commitStep (n : RaftNode Id M) : CommitAction Cmd → RaftNode Id M
  | .append entry => { n with log := n.log.append entry }
  | .advance commitIndex =>
    if n.commitIndex ≤ commitIndex ∧ commitIndex ≤ n.log.len then
      (applyCommittedEntries { n with commitIndex := commitIndex }).1
    else n

/-- A node created on the storage of `n`. -/
def restart [DecidableEq Id] (n : RaftNode Id M) : RaftNode Id M :=
  init n.nodeId n.peers n.snapshotInterval n.log.storage

theorem notifyPending_snapshotInterval (n : RaftNode Id M) (r : M.Result) :
    (n.notifyPending r).snapshotInterval = n.snapshotInterval := frame_notifyPending (fun _ _ _ => rfl) n r
theorem checkSnapshot_lastApplied (n : RaftNode Id M) : n.checkSnapshot.lastApplied = n.lastApplied :=
  frame_checkSnapshot (fun _ _ => rfl) n
theorem checkSnapshot_snapshotInterval (n : RaftNode Id M) :
    n.checkSnapshot.snapshotInterval = n.snapshotInterval := frame_checkSnapshot (fun _ _ => rfl) n
theorem applyLoop_snapshotInterval (fuel : ℕ) (n : RaftNode Id M) :
    (applyLoop fuel n).1.snapshotInterval = n.snapshotInterval :=
  frame_applyLoop (fun _ _ _ => rfl) (fun _ _ => rfl) (fun _ _ _ _ => rfl) fuel n

/-- The node's store, log and storage all stand for the list `L`. -/
structure Covers (n : RaftNode Id M) (L : List (LogEntry Cmd)) : Prop where
  log : n.log.Holds L
  sync : n.log.InSync
  saved : restored M n.log.storage = replay M (L.take n.log.lastIncludedIndex)
  snapshot_le : n.log.lastIncludedIndex ≤ n.lastApplied
  applied_le : n.lastApplied ≤ n.commitIndex
  commit_le : n.commitIndex ≤ L.length
  store : n.stateMachine = replay M (L.take n.lastApplied)

namespace Covers
variable {n : RaftNode Id M} {L : List (LogEntry Cmd)}

theorem append (h : n.Covers L) (entry : LogEntry Cmd) :
    Covers { n with log := n.log.append entry } (L ++ [entry]) := by
  have hi := h.log.le
  have hc := h.commit_le
  have ha := h.applied_le
  constructor
  · exact h.log.append entry
  · exact h.sync.mutate (.append entry)
  · have hstorage : restored M (n.log.append entry).storage = restored M n.log.storage := by
      simp [restored,RaftLog.append,RaftLog.persist]
    rw [hstorage,RaftLog.append_lastIncludedIndex,List.take_append_of_le_length hi]
    exact h.saved
  · exact h.snapshot_le
  · exact ha
  · rw [List.length_append]
    exact Nat.le_add_right_of_le hc
  · rw [List.take_append_of_le_length (ha.trans hc)]
    exact h.store

theorem notifyPending (h : n.Covers L) (r : M.Result) : (n.notifyPending r).Covers L := by
  unfold RaftNode.notifyPending
  cases n.pendingCommits n.lastApplied with
  | none => exact h
  | some f => exact ⟨h.log,h.sync,h.saved,h.snapshot_le,h.applied_le,h.commit_le,h.store⟩

/-- The snapshot that is saved is the replay of the entries it covers. -/
theorem checkSnapshot (hM : ∀ s, M.restore (M.snapshot s) = s) (h : n.Covers L) : n.checkSnapshot.Covers L := by
  have hs := h.snapshot_le
  have ha := h.applied_le
  have hc := h.commit_le
  rcases n.checkSnapshot_cases with he | ⟨hlt,t,ht,he⟩
  · rw [he]
    exact h
  · rw [h.log.getTerm hs (by omega)] at ht
    obtain rfl := Option.some.inj ht
    rw [he]
    refine ⟨h.log.compact hlt (by omega) _,h.sync.compact _ _ _,?_,?_,ha,hc,h.store⟩
    · dsimp only
      rw [RaftLog.compact_lastIncludedIndex hlt,RaftLog.compact,if_neg (not_le.mpr hlt)]
      simp only [restored,RaftLog.persist,Storage.loadSnapshot_saveLog,Storage.loadSnapshot_saveSnapshot]
      rw [hM]
      exact h.store
    · exact (RaftLog.compact_lastIncludedIndex hlt _ _).le

/-- The check moves the snapshot exactly when enough entries were applied behind it. -/
theorem checkSnapshot_lastIncludedIndex (h : n.Covers L) :
    n.checkSnapshot.log.lastIncludedIndex =
      if n.snapshotInterval ≤ n.lastApplied - n.log.lastIncludedIndex then n.lastApplied
      else n.log.lastIncludedIndex := by
  have hs := h.snapshot_le
  have ha := h.applied_le
  have hc := h.commit_le
  unfold RaftNode.checkSnapshot
  by_cases hinterval : n.snapshotInterval ≤ n.lastApplied - n.log.lastIncludedIndex
  · rw [if_pos hinterval,if_pos hinterval,h.log.getTerm hs (by omega)]
    dsimp only
    rcases hs.eq_or_lt with he | hlt
    · simp [RaftLog.compact,he]
    · exact RaftLog.compact_lastIncludedIndex hlt _ _
  · rw [if_neg hinterval,if_neg hinterval]

/-- The node after the assignments for the next entry, before the snapshot check. -/
def advanced (n : RaftNode Id M) (e : LogEntry Cmd) : RaftNode Id M :=
  { n with
    lastApplied := n.lastApplied + 1
    stateMachine := (M.apply n.stateMachine e.command).1
    applied := Function.update n.applied (n.lastApplied + 1) (some e) }

/-- The next entry is there to be read, and `apply` meets the store of a replay. -/
theorem applyNext_cases (h : n.Covers L) (hlt : n.lastApplied < n.commitIndex) :
    ∃ e, (advanced n e).Covers L ∧
      ((resultAt M L n.lastApplied = none ∧ n.applyNext = (advanced n e,false)) ∨
        ∃ r, resultAt M L n.lastApplied = some r ∧
          n.applyNext = (((advanced n e).notifyPending r).checkSnapshot,true)) := by
  have hs := h.snapshot_le
  have hc := h.commit_le
  have hk : n.lastApplied < L.length := by omega
  have hitem : n.log.getItem (n.lastApplied + 1) = some L[n.lastApplied] := by
    rw [h.log.getItem (by omega),Nat.add_sub_cancel,List.getElem?_eq_getElem hk]
  have hresult : resultAt M L n.lastApplied = (M.apply n.stateMachine (L[n.lastApplied]).command).2 := by
    rw [resultAt_of_lt hk,h.store]
  refine ⟨L[n.lastApplied],?_,?_⟩
  · refine ⟨h.log,h.sync,h.saved,Nat.le_succ_of_le hs,hlt,hc,?_⟩
    dsimp only [advanced]
    rw [replay_take_succ hk,h.store]
  · rw [hresult]
    unfold RaftNode.applyNext
    dsimp only
    rw [hitem]
    dsimp only
    cases (M.apply n.stateMachine (L[n.lastApplied]).command).2 with
    | none => exact Or.inl ⟨rfl,rfl⟩
    | some r => exact Or.inr ⟨r,rfl,rfl⟩

end Covers

/-- The node covers `L` and its snapshot stands where the applied entries put it. -/
structure Transparent (n : RaftNode Id M) (L : List (LogEntry Cmd)) : Prop extends Covers n L where
  mark : n.log.lastIncludedIndex = snapshotMark M n.snapshotInterval L n.lastApplied

namespace Transparent
variable {n n' : RaftNode Id M} {L : List (LogEntry Cmd)}

theorem append (h : n.Transparent L) (entry : LogEntry Cmd) :
    Transparent { n with log := n.log.append entry } (L ++ [entry]) := by
  refine ⟨h.toCovers.append entry,?_⟩
  dsimp only
  rw [RaftLog.append_lastIncludedIndex,snapshotMark_append (h.applied_le.trans h.commit_le)]
  exact h.mark

/-- One iteration of the loop goes on exactly when the entry has a result. -/
theorem applyNext (hM : ∀ s, M.restore (M.snapshot s) = s) (h : n.Transparent L) (hlt : n.lastApplied < n.commitIndex) :
    n.applyNext.1.Transparent L ∧ n.applyNext.1.lastApplied = n.lastApplied + 1 ∧
      n.applyNext.2 = (resultAt M L n.lastApplied).isSome := by
  have hmark := h.mark
  obtain ⟨e,hcovers,⟨hr,heq⟩ | ⟨r,hr,heq⟩⟩ := h.toCovers.applyNext_cases hlt
  · rw [heq,hr]
    refine ⟨⟨hcovers,?_⟩,rfl,rfl⟩
    simp [Covers.advanced,snapshotMark,hr,hmark]
  · rw [heq,hr]
    have hnotified := hcovers.notifyPending r
    refine ⟨⟨hnotified.checkSnapshot hM,?_⟩,?_,rfl⟩
    · rw [hnotified.checkSnapshot_lastIncludedIndex,checkSnapshot_snapshotInterval,checkSnapshot_lastApplied,
        notifyPending_log,notifyPending_lastApplied,notifyPending_snapshotInterval]
      simp [Covers.advanced,snapshotMark,hr,hmark]
    · rw [checkSnapshot_lastApplied,notifyPending_lastApplied]
      rfl

theorem applyLoop (hM : ∀ s, M.restore (M.snapshot s) = s) (h : n.Transparent L) (fuel : ℕ) :
    (RaftNode.applyLoop fuel n).1.Transparent L := by
  induction fuel generalizing n with
  | zero => exact h
  | succ fuel ih =>
    rw [RaftNode.applyLoop]
    split
    · rename_i hlt
      have hnext := (h.applyNext hM hlt).1
      split
      · exact ih hnext
      · exact hnext
    · exact h

/-- When every entry has a result the loop stops at the commit index and not before. -/
theorem applyLoop_lastApplied (hM : ∀ s, M.restore (M.snapshot s) = s) (h : n.Transparent L)
    (hL : ∀ k < L.length, (resultAt M L k).isSome = true) {fuel : ℕ} (hfuel : n.lastApplied + fuel = n.commitIndex) :
    (RaftNode.applyLoop fuel n).1.lastApplied = n.commitIndex := by
  induction fuel generalizing n with
  | zero => exact hfuel
  | succ fuel ih =>
    have hlt : n.lastApplied < n.commitIndex := by omega
    have hcommit : n.applyNext.1.commitIndex = n.commitIndex :=
      frame_applyNext (fun _ _ _ => rfl) (fun _ _ => rfl) (fun _ _ _ _ => rfl) n
    obtain ⟨hnext,hla,hok⟩ := h.applyNext hM hlt
    rw [hL _ (hlt.trans_le h.commit_le)] at hok
    rw [RaftNode.applyLoop,if_pos hlt,if_pos hok,ih hnext (by omega),hcommit]

theorem setCommitIndex (h : n.Transparent L) {c : ℕ} (hc : n.commitIndex ≤ c) (hlen : c ≤ n.log.len) :
    Transparent { n with commitIndex := c } L :=
  ⟨⟨h.log,h.sync,h.saved,h.snapshot_le,h.applied_le.trans hc,h.log.len ▸ hlen,h.store⟩,h.mark⟩

theorem advance (hM : ∀ s, M.restore (M.snapshot s) = s) (h : n.Transparent L) (c : ℕ) :
    (n.commitStep (.advance c)).Transparent L := by
  unfold commitStep
  dsimp only
  split
  · rename_i hc
    exact applyLoop hM (h.setCommitIndex hc.1 hc.2) _
  · exact h

/-- The entries that a schedule appends come behind those there were. -/
theorem run (hM : ∀ s, M.restore (M.snapshot s) = s) (h : n.Transparent L) (schedule : List (CommitAction Cmd)) :
    (Runs.run commitStep n schedule).Transparent (L ++ appended schedule) := by
  induction schedule generalizing n L with
  | nil =>
    rw [appended,List.filterMap_nil,List.append_nil]
    exact h
  | cons a rest ih =>
    cases a with
    | append entry =>
      have hrest := ih (h.append entry)
      rw [List.append_assoc] at hrest
      exact hrest
    | advance c => exact ih (h.advance hM c)

/-- A step leaves nothing committed and unapplied behind. -/
theorem run_lastApplied (hM : ∀ s, M.restore (M.snapshot s) = s) (h : n.Transparent L)
    (hn : n.lastApplied = n.commitIndex) (schedule : List (CommitAction Cmd))
    (hL : ∀ k < (L ++ appended schedule).length, (resultAt M (L ++ appended schedule) k).isSome = true) :
    (Runs.run commitStep n schedule).lastApplied = (Runs.run commitStep n schedule).commitIndex := by
  induction schedule generalizing n L with
  | nil => exact hn
  | cons a rest ih =>
    cases a with
    | append entry =>
      refine ih (h.append entry) hn ?_
      rw [List.append_assoc]
      exact hL
    | advance c =>
      refine ih (h.advance hM c) ?_ hL
      unfold commitStep
      dsimp only
      split
      · rename_i hc
        have hlast := applyLoop_lastApplied hM (h.setCommitIndex hc.1 hc.2) (fun k hk => ?_)
          (Nat.add_sub_of_le (hn.le.trans hc.1))
        · exact hlast.trans (applyLoop_commitIndex _ _).symm
        · have hk' : k < (L ++ appended rest).length := by
            rw [List.length_append]
            omega
          have hsome := hL k hk'
          rw [resultAt_append hk] at hsome
          exact hsome
      · exact hn

section Restart
variable [DecidableEq Id]

theorem init (nodeId : Id) (peers : List Id) (snapshotInterval : ℕ) :
    Transparent (RaftNode.init (M := M) nodeId peers snapshotInterval Storage.empty) [] :=
  ⟨⟨⟨rfl,Nat.zero_le _,rfl⟩,RaftLog.InSync.load _,rfl,le_rfl,le_rfl,Nat.zero_le _,rfl⟩,rfl⟩

theorem restart_log (h : n.Transparent L) : n.restart.log = n.log := by
  obtain ⟨hentries,hincluded⟩ := h.sync
  simp [RaftNode.restart,RaftNode.init,RaftLog.load,hentries,hincluded]

/-- The storage alone brings a node back to where the last snapshot stands. -/
theorem restart (h : n.Transparent L) : n.restart.Transparent L := by
  have hlog := h.restart_log
  have hmark : n.log.storage.loadSnapshot.2.1 = n.log.lastIncludedIndex := congrArg Prod.fst h.sync.lastIncluded
  refine ⟨⟨hlog ▸ h.log,hlog ▸ h.sync,hlog ▸ h.saved,le_rfl,le_rfl,?_,?_⟩,?_⟩
  · exact hmark.trans_le h.log.le
  · change restored M n.log.storage = replay M (L.take n.log.storage.loadSnapshot.2.1)
    rw [hmark]
    exact h.saved
  · change n.log.storage.loadSnapshot.2.1 = snapshotMark M n.snapshotInterval L n.log.storage.loadSnapshot.2.1
    rw [hmark,h.mark,snapshotMark_snapshotMark]

end Restart

/-- What a reader of the log can still see is what was appended. -/
theorem log_eq (h : n.Transparent L) : n.log.len = L.length ∧
    (∀ i, n.log.lastIncludedIndex < i → i ≤ n.log.len → n.log.getItem i = L[i - 1]?) ∧
    (0 < n.log.lastIncludedIndex →
      L[n.log.lastIncludedIndex - 1]?.map LogEntry.term = some n.log.lastIncludedTerm) := by
  refine ⟨h.log.len,fun i hi _ => h.log.getItem hi,?_⟩
  intro hpos
  have hle := h.log.le
  obtain ⟨k,hk⟩ : ∃ k, n.log.lastIncludedIndex = k + 1 := ⟨n.log.lastIncludedIndex - 1,by omega⟩
  have hlt : k < L.length := by omega
  rw [h.log.term,hk,lastTermOf_take hlt,Nat.add_sub_cancel,List.getElem?_eq_getElem hlt]
  rfl

end Transparent

theorem commitStep_snapshotInterval (n : RaftNode Id M) (a : CommitAction Cmd) :
    (n.commitStep a).snapshotInterval = n.snapshotInterval := by
  cases a with
  | append entry => rfl
  | advance c =>
    unfold commitStep
    dsimp only
    split
    · exact applyLoop_snapshotInterval _ _
    · rfl

theorem advance_commitIndex (n : RaftNode Id M) (c : ℕ) : (n.commitStep (.advance c)).commitIndex =
    if n.commitIndex ≤ c ∧ c ≤ n.log.len then c else n.commitIndex := by
  unfold commitStep
  dsimp only
  split
  · exact applyLoop_commitIndex _ _
  · rfl

/-- The commit index reaches the last value of a schedule that stays below it. -/
theorem run_advance_commitIndex (hM : ∀ s, M.restore (M.snapshot s) = s) {n : RaftNode Id M}
    {L : List (LogEntry Cmd)} (h : n.Transparent L) {c : ℕ} (hn : n.commitIndex ≤ c) (hc : c ≤ L.length) {steps : List ℕ}
    (hsteps : ∀ k ∈ steps, k ≤ c) :
    (Runs.run commitStep n ((steps ++ [c]).map .advance)).commitIndex = c := by
  induction steps generalizing n with
  | nil =>
    have hlen := h.log.len
    simp [advance_commitIndex,hn,hlen,hc]
  | cons k rest ih =>
    refine ih (h.advance hM k) ?_ (fun j hj => hsteps j (List.mem_cons_of_mem k hj))
    rw [advance_commitIndex]
    split
    · exact hsteps k List.mem_cons_self
    · exact hn

/-- The same store, the same entries above the same snapshot. -/
structure SameView (n n' : RaftNode Id M) : Prop where
  stateMachine : n'.stateMachine = n.stateMachine
  entries : n'.log.entries = n.log.entries
  lastIncludedIndex : n'.log.lastIncludedIndex = n.log.lastIncludedIndex
  lastIncludedTerm : n'.log.lastIncludedTerm = n.log.lastIncludedTerm

/-- Two nodes that applied equally many entries of one list show the same. -/
theorem Transparent.sameView {n n' : RaftNode Id M} {L : List (LogEntry Cmd)} (h : n.Transparent L)
    (h' : n'.Transparent L) (hinterval : n'.snapshotInterval = n.snapshotInterval)
    (hla : n'.lastApplied = n.lastApplied) : n.SameView n' := by
  have hmark : n'.log.lastIncludedIndex = n.log.lastIncludedIndex := by
    rw [h'.mark,h.mark,hinterval,hla]
  refine ⟨?_,?_,hmark,?_⟩
  · rw [h'.store,h.store,hla]
  · rw [h'.log.entries,h.log.entries,hmark]
  · rw [h'.log.term,h.log.term,hmark]

/-- The restarted node catches up with the one that was stopped. -/
theorem Transparent.restart_run [DecidableEq Id] (hM : ∀ s, M.restore (M.snapshot s) = s) {n : RaftNode Id M}
    {L : List (LogEntry Cmd)} (h : n.Transparent L) {steps : List ℕ} (hsteps : ∀ k ∈ steps, k ≤ n.commitIndex) :
    let n' := Runs.run commitStep n.restart ((steps ++ [n.commitIndex]).map .advance)
    n'.commitIndex = n.commitIndex ∧ (n'.lastApplied = n.lastApplied → n.SameView n') ∧
      ((∀ k < L.length, (resultAt M L k).isSome = true) → n'.lastApplied = n'.commitIndex) := by
  intro n'
  have hstart : n.restart.commitIndex ≤ n.commitIndex :=
    (congrArg RaftLog.lastIncludedIndex h.restart_log).trans_le (h.snapshot_le.trans h.applied_le)
  have happended : appended ((steps ++ [n.commitIndex]).map .advance : List (CommitAction Cmd)) = [] := by
    simp [appended,List.filterMap_map]
  have h' : n'.Transparent L := by
    have hrun := h.restart.run hM ((steps ++ [n.commitIndex]).map .advance)
    rw [happended,List.append_nil] at hrun
    exact hrun
  have hinterval : n'.snapshotInterval = n.snapshotInterval :=
    Runs.run_invariant_of_step (fun m a hm => (commitStep_snapshotInterval m a).trans hm) rfl _
  refine ⟨run_advance_commitIndex hM h.restart hstart h.commit_le hsteps,h.sameView h' hinterval,?_⟩
  intro hL
  refine h.restart.run_lastApplied hM rfl _ ?_
  rw [happended,List.append_nil]
  exact hL

end RaftNode

/-- A command in one of the documented forms: every operation has its key and `set` a value. -/
def KeyValueCommand.WellFormed {K V : Type} (command : KeyValueCommand K V) : Prop :=
  (command.op ≠ .unknown → command.key.isSome = true) ∧ (command.op = .set → command.value.isSome = true)

instance {K V : Type} (command : KeyValueCommand K V) : Decidable command.WellFormed :=
  inferInstanceAs (Decidable (_ ∧ _))

namespace KeyValueStateMachine
variable {K V : Type} [DecidableEq K]

theorem apply_isSome {command : KeyValueCommand K V} (h : command.WellFormed) (store : K → Option V) :
    ((KeyValueStateMachine K V).apply store command).2.isSome = true := by
  obtain ⟨op,key,value⟩ := command
  obtain ⟨hkey,hvalue⟩ := h
  cases op with
  | unknown => rfl
  | set =>
    obtain ⟨k,rfl⟩ := Option.isSome_iff_exists.mp (hkey nofun)
    obtain ⟨v,rfl⟩ := Option.isSome_iff_exists.mp (hvalue rfl)
    rfl
  | get =>
    obtain ⟨k,rfl⟩ := Option.isSome_iff_exists.mp (hkey nofun)
    rfl
  | delete =>
    obtain ⟨k,rfl⟩ := Option.isSome_iff_exists.mp (hkey nofun)
    simp only [KeyValueStateMachine]
    split <;> rfl

theorem resultAt_isSome {L : List (LogEntry (KeyValueCommand K V))} (hL : ∀ e ∈ L, e.command.WellFormed) {k : ℕ}
    (h : k < L.length) : (resultAt (KeyValueStateMachine K V) L k).isSome = true := by
  rw [resultAt_of_lt h]
  exact apply_isSome (hL _ (List.getElem_mem h)) _

end KeyValueStateMachine

open RaftNode in
/-- However the commit index moves and whenever the log is compacted, the store is the replay
of the applied entries, the log shows the appended ones, and a restarted node whose commit
index comes back to the old value has the same store and entries. -/
theorem compaction_transparent {Id K V : Type} [DecidableEq Id] [DecidableEq K] (nodeId : Id) (peers : List Id)
    (snapshotInterval : ℕ) (schedule : List (CommitAction (KeyValueCommand K V))) :
    let L := appended schedule
    let n := Runs.run commitStep
      (RaftNode.init (M := KeyValueStateMachine K V) nodeId peers snapshotInterval Storage.empty) schedule
    n.stateMachine = replay (KeyValueStateMachine K V) (L.take n.lastApplied) ∧ n.log.len = L.length ∧
    (∀ i, n.log.lastIncludedIndex < i → i ≤ n.log.len → n.log.getItem i = L[i - 1]?) ∧
    (0 < n.log.lastIncludedIndex →
      L[n.log.lastIncludedIndex - 1]?.map LogEntry.term = some n.log.lastIncludedTerm) ∧
    ∀ steps : List ℕ, (∀ k ∈ steps, k ≤ n.commitIndex) →
      let n' := Runs.run commitStep n.restart ((steps ++ [n.commitIndex]).map .advance)
      n'.commitIndex = n.commitIndex ∧ (n'.lastApplied = n.lastApplied → n.SameView n') ∧
      ((∀ e ∈ L, e.command.WellFormed) → n.lastApplied = n.commitIndex ∧ n.SameView n') := by
  intro L n
  have hM : ∀ s, (KeyValueStateMachine K V).restore ((KeyValueStateMachine K V).snapshot s) = s := fun _ => rfl
  have hstart := Transparent.init (M := KeyValueStateMachine K V) nodeId peers snapshotInterval
  have h : n.Transparent L := hstart.run hM schedule
  obtain ⟨hlen,hitem,hterm⟩ := h.log_eq
  refine ⟨h.store,hlen,hitem,hterm,?_⟩
  intro steps hsteps n'
  obtain ⟨hcommit,hview,hsettled⟩ := h.restart_run hM hsteps
  refine ⟨hcommit,hview,?_⟩
  intro hL
  have hresult : ∀ k < L.length, (resultAt (KeyValueStateMachine K V) L k).isSome = true :=
    fun k hk => KeyValueStateMachine.resultAt_isSome hL hk
  have hn : n.lastApplied = n.commitIndex := hstart.run_lastApplied hM rfl schedule hresult
  have hn' : n'.lastApplied = n'.commitIndex := hsettled hresult
  exact ⟨hn,hview (hn'.trans (hcommit.trans hn.symm))⟩

open RaftNode in
/-- Two snapshots fall into the run, and the restarted node applies the rest in one step. -/
theorem compaction_transparent_two_snapshots :
    let set (key value : ℕ) : CommitAction (KeyValueCommand ℕ ℕ) :=
      .append ⟨1,key,⟨.set,some key,some value⟩⟩
    let schedule := [set 1 10,set 2 20,.advance 1,set 3 30,.advance 3,.append ⟨2,4,⟨.delete,some 2,none⟩⟩,.advance 4,
      set 5 50,.advance 5]
    let n := Runs.run commitStep
      (RaftNode.init (M := KeyValueStateMachine ℕ ℕ) 0 [1] 2 Storage.empty) schedule
    n.log.lastIncludedIndex = 4 ∧ n.SameView (Runs.run commitStep n.restart (([5] ++ [n.commitIndex]).map .advance)) := by
  intro set schedule n
  have h := compaction_transparent 0 [1] 2 schedule
  exact ⟨by decide,(h.2.2.2.2 [5] (by decide)).2.2 (by decide) |>.2⟩

end DistributedSystems.Raft
