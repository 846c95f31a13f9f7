import DistributedSystems.Raft.NodeRefinement
import Mathlib.Tactic.IntervalCases

/-! # One AppendEntries call

A message carries the log of its sender from some index on, as it was when it was built. The
receiver may have moved on in any way, as long as equal terms at an index mean equal logs up
to there.
-/
namespace DistributedSystems.Raft
open ReplicatedLog
variable {Id Cmd : Type} {M : StateMachine Cmd}

/-- Log matching between two logs. -/
def Matches (F L : List (LogEntry Cmd)) : Prop :=
  ∀ (i : ℕ) (hF : i < F.length) (hL : i < L.length), (F[i]).term = (L[i]).term → F.take (i + 1) = L.take (i + 1)

/-- Both logs have the indices up to `m`, with the same entries. -/
structure AgreeUpTo (F L : List (LogEntry Cmd)) (m : ℕ) : Prop where
  left : m ≤ F.length
  right : m ≤ L.length
  entries : F.take m = L.take m

theorem AgreeUpTo.mono {F L : List (LogEntry Cmd)} {m k : ℕ} (h : AgreeUpTo F L m) (hk : k ≤ m) : AgreeUpTo F L k := by
  refine ⟨hk.trans h.left,hk.trans h.right,?_⟩
  have he := congrArg (List.take k) h.entries
  rwa [List.take_take,List.take_take,min_eq_left hk] at he

theorem agreeUpTo_length_iff {F L : List (LogEntry Cmd)} : AgreeUpTo F L L.length ↔ L <+: F := by
  constructor
  · intro h
    have he := h.entries
    rw [List.take_length] at he
    exact he ▸ List.take_prefix _ _
  · intro h
    refine ⟨h.length_le,le_refl _,?_⟩
    rw [List.take_length]
    exact (List.prefix_iff_eq_take.mp h).symm

/-- Logs that agree up to an index, and have no two terms that differ behind it, are one the
prefix of the other. -/
theorem Matches.isPrefix_or {F L : List (LogEntry Cmd)} (h : Matches F L) {p : ℕ} (hp : AgreeUpTo F L p)
    (hterm : ∀ (k : ℕ) (hF : k < F.length) (hL : k < L.length), p ≤ k → (F[k]).term = (L[k]).term) :
    L <+: F ∨ F <+: L := by
  set q := min F.length L.length with hq
  have hagree : F.take q = L.take q := by
    rcases Nat.lt_or_ge p q with hlt | hge
    · obtain ⟨k,hk⟩ : ∃ k, q = k + 1 := ⟨q - 1,by omega⟩
      rw [hk]
      exact h k (by omega) (by omega) (hterm k (by omega) (by omega) (by omega))
    · exact (hp.mono hge).entries
  rcases Nat.le_total F.length L.length with hle | hle
  · right
    rw [hq,min_eq_left hle,List.take_length] at hagree
    exact hagree ▸ List.take_prefix _ _
  · left
    rw [hq,min_eq_right hle,List.take_length] at hagree
    exact hagree ▸ List.take_prefix _ _

/-- Entries that are all there leave nothing to do. -/
theorem appendNewEntries_eq_self {log : RaftLog Id Cmd M.Snapshot} {idx : ℕ} {es : List (LogEntry Cmd)}
    (h : ∀ (k : ℕ) (hk : k < es.length), idx + k ≤ log.len ∧ log.getTerm (idx + k) = some (es[k]).term) :
    RaftNode.appendNewEntries log idx es = log := by
  induction es generalizing idx with
  | nil => rfl
  | cons e es ih =>
    obtain ⟨hlen,hterm⟩ : idx ≤ log.len ∧ log.getTerm idx = some e.term := h 0 (Nat.succ_pos _)
    rw [RaftNode.appendNewEntries,if_pos hlen,if_neg (not_not.mpr hterm)]
    refine ih fun k hk => ?_
    have hnext := h (k + 1) (Nat.succ_lt_succ hk)
    rwa [← Nat.add_assoc,Nat.add_right_comm] at hnext

namespace RaftNode

/-- A snapshot of applied entries that are still in the log compacts it, and it goes on standing
for the same list. -/
theorem log_holds_checkSnapshot {n : RaftNode Id M} {L : List (LogEntry Cmd)} (h : n.log.Holds L)
    (hlt : n.log.lastIncludedIndex < n.lastApplied) (hle : n.lastApplied ≤ n.log.len) : n.checkSnapshot.log.Holds L := by
  rw [h.len] at hle
  rcases n.checkSnapshot_cases with he | ⟨_,t,ht,he⟩
  · rw [he]
    exact h
  · rw [h.getTerm hlt.le hle] at ht
    obtain rfl := Option.some.inj ht
    rw [he]
    exact h.compact hlt hle _

theorem log_holds_applyNext {n : RaftNode Id M} {L : List (LogEntry Cmd)} (h : n.log.Holds L) :
    n.applyNext.1.log.Holds L := by
  unfold applyNext
  dsimp only
  cases hitem : n.log.getItem (n.lastApplied + 1) with
  | none => exact h
  | some entry =>
    dsimp only
    have hlt : n.log.lastIncludedIndex < n.lastApplied + 1 := by
      by_contra hge
      simp [RaftLog.getItem,Nat.not_lt.mp hge] at hitem
    have hle : n.lastApplied + 1 ≤ n.log.len := by
      by_contra hgt
      rw [(RaftLog.getItem_eq_none_iff hlt).mpr (Nat.not_le.mp hgt)] at hitem
      cases hitem
    cases (M.apply n.stateMachine entry.command).2 with
    | none => exact h
    | some result =>
      apply log_holds_checkSnapshot
      · rw [notifyPending_log]
        exact h
      · rw [notifyPending_log,notifyPending_lastApplied]
        exact hlt
      · rw [notifyPending_log,notifyPending_lastApplied]
        exact hle

/-- Applying entries may compact the log, which goes on standing for the same list. -/
theorem log_holds_applyLoop {L : List (LogEntry Cmd)} (fuel : ℕ) {n : RaftNode Id M} (h : n.log.Holds L) :
    (applyLoop fuel n).1.log.Holds L := by
  induction fuel generalizing n with
  | zero => exact h
  | succ fuel ih =>
    rw [applyLoop]
    split
    · split
      · exact ih (log_holds_applyNext h)
      · exact log_holds_applyNext h
    · exact h

/-- What a message of a sender with the whole log `L` says. -/
theorem appendEntriesArgs_eq_some {l : RaftNode Id M} {L : List (LogEntry Cmd)} (hl : l.log.Holds L)
    (h0 : l.log.lastIncludedIndex = 0) {peer : Id} {args : AppendArgs Id Cmd}
    (h : l.appendEntriesArgs peer = some args) :
    args.prevLogIndex ≤ L.length ∧ args.prevLogTerm = lastTermOf (L.take args.prevLogIndex) ∧
      args.entries = L.drop args.prevLogIndex ∧ args.leaderCommit = l.commitIndex := by
  unfold appendEntriesArgs at h
  split at h
  · cases h
  dsimp only at h
  split at h
  · cases h
  split at h
  · cases h
  · rename_i prevLogTerm hterm
    cases h
    have hle := RaftLog.le_len_of_getTerm hterm
    rw [hl.len] at hle
    rw [hl.getTerm (by omega) hle] at hterm
    exact ⟨hle,(Option.some.inj hterm).symm,hl.getEntries (by omega),rfl⟩

/-- The consistency check finds out whether the logs agree up to the index before the message. -/
theorem agreeUpTo_of_matchLog {n : RaftNode Id M} {F L : List (LogEntry Cmd)} (hF : n.log.Holds F)
    (h0 : n.log.lastIncludedIndex = 0) (hmatch : Matches F L) {p : ℕ} (hp : p ≤ L.length)
    (h : n.log.matchLog p (lastTermOf (L.take p)) = true) : AgreeUpTo F L p := by
  cases p with
  | zero => exact ⟨Nat.zero_le _,Nat.zero_le _,rfl⟩
  | succ k =>
    unfold RaftLog.matchLog at h
    rw [if_neg (Nat.succ_ne_zero k)] at h
    split at h
    · cases h
    rename_i hlen
    rw [hF.len] at hlen
    split at h
    · cases h
    rename_i hterm
    have hkF : k < F.length := by omega
    have hkL : k < L.length := by omega
    rw [not_not,hF.getTerm (by omega) (by omega),lastTermOf_take hkF,lastTermOf_take hkL] at hterm
    exact ⟨hkF,hkL,hmatch k hkF hkL (Option.some.inj hterm)⟩

/-- What a stored call leaves of the log `F`, with the entries of `L` from `p` to `m` received. -/
structure Stored (F L F' : List (LogEntry Cmd)) (p m : ℕ) : Prop where
  agree : AgreeUpTo F' L m
  unchanged : AgreeUpTo F L m → F' = F
  tail : (∀ (k : ℕ) (hF : k < F.length) (hL : k < L.length), p ≤ k → k < m → (F[k]).term = (L[k]).term) →
    F'.drop m = F.drop m
  matching : Matches F' L

theorem stored_merge {F L : List (LogEntry Cmd)} (hmatch : Matches F L) {p : ℕ} (hp : AgreeUpTo F L p) :
    Stored F L (merge F L) p L.length where
  agree := agreeUpTo_length_iff.mpr (prefix_merge F L)
  unchanged h := merge_of_isPrefix (agreeUpTo_length_iff.mp h)
  tail hterm := by
    rcases hmatch.isPrefix_or hp fun k hkF hkL hk => hterm k hkF hkL hk hkL with h | h
    · rw [merge_of_isPrefix h]
    · have hlen := h.length_le
      by_cases hL : L <+: F
      · rw [merge_of_isPrefix hL]
      · rw [merge_of_not_isPrefix hL,List.drop_length,List.drop_eq_nil_of_le hlen]
  matching := by
    by_cases hL : L <+: F
    · rw [merge_of_isPrefix hL]
      exact hmatch
    · rw [merge_of_not_isPrefix hL]
      exact fun _ _ _ _ => rfl

theorem adoptTerm_commitIndex (n : RaftNode Id M) (t : ℕ) : (n.adoptTerm t).commitIndex = n.commitIndex := by
  unfold adoptTerm
  split <;> rfl

/-- The assignments of the commit index: it moves forward, to the sender's one where the log is
long enough. -/
theorem commitIndex_followLeaderCommit (n : RaftNode Id M) (leaderCommit : ℕ) :
    (n.followLeaderCommit leaderCommit).1.commitIndex =
      if leaderCommit > n.commitIndex then min leaderCommit n.log.len else n.commitIndex := by
  unfold followLeaderCommit
  split
  · exact applyLoop_commitIndex ..
  · rfl

theorem log_holds_followLeaderCommit {n : RaftNode Id M} {L : List (LogEntry Cmd)} (h : n.log.Holds L)
    (leaderCommit : ℕ) : (n.followLeaderCommit leaderCommit).1.log.Holds L := by
  unfold followLeaderCommit
  split
  · exact log_holds_applyLoop _ h
  · exact h

/-- The loop merges the log of the sender into the log of the receiver. -/
theorem log_holds_storeEntries {n : RaftNode Id M} {L F : List (LogEntry Cmd)} {args : AppendArgs Id Cmd}
    (hF : n.log.Holds F) (hF0 : n.log.lastIncludedIndex = 0) (hmatch : Matches F L)
    (hp : AgreeUpTo F L args.prevLogIndex) (hes : args.entries = L.drop args.prevLogIndex) :
    (appendNewEntries n.log (args.prevLogIndex + 1) args.entries).Holds (merge F L) ∧
      (n.storeEntries args).1.log.Holds (merge F L) := by
  have hloop := (holds_appendNewEntries hF hp.right hes (hp.entries ▸ List.take_prefix _ F) (by simp [hF0])
    (fun k hk hle => absurd hle (by omega))
    fun k hkF hkL _ he => hmatch k hkF hkL he ▸ List.take_prefix _ F).1
  exact ⟨hloop,log_holds_followLeaderCommit (n := { n with log := _ }) hloop _⟩

/-- The commit index moves inside the log of the sender only. -/
theorem commitIndex_storeEntries {n : RaftNode Id M} {L F' : List (LogEntry Cmd)} {args : AppendArgs Id Cmd}
    (h : (appendNewEntries n.log (args.prevLogIndex + 1) args.entries).Holds F') (hagree : AgreeUpTo F' L L.length)
    (hcommit : args.leaderCommit ≤ L.length) : n.commitIndex ≤ (n.storeEntries args).1.commitIndex ∧
      (n.commitIndex < (n.storeEntries args).1.commitIndex → AgreeUpTo F' L (n.storeEntries args).1.commitIndex) := by
  have hstore : (n.storeEntries args).1.commitIndex =
      if args.leaderCommit > n.commitIndex then args.leaderCommit else n.commitIndex := by
    rw [storeEntries,commitIndex_followLeaderCommit,h.len,min_eq_left (hcommit.trans hagree.left)]
  rw [hstore]
  split
  · rename_i hlt
    exact ⟨hlt.le,fun _ => hagree.mono hcommit⟩
  · exact ⟨le_refl _,fun hlt => absurd hlt (lt_irrefl _)⟩

/-- Where the logs agree on the message already, the loop does nothing. -/
theorem appendNewEntries_of_agreeUpTo {log : RaftLog Id Cmd M.Snapshot} {L F : List (LogEntry Cmd)} (hF : log.Holds F)
    (hF0 : log.lastIncludedIndex = 0) (h : AgreeUpTo F L L.length) (p : ℕ) :
    appendNewEntries log (p + 1) (L.drop p) = log := by
  refine appendNewEntries_eq_self fun k hk => ?_
  rw [List.length_drop] at hk
  have hpos : p + 1 + k = p + k + 1 := by omega
  have hkL : p + k < L.length := by omega
  have hkF : p + k < F.length := by have := h.left; omega
  rw [hpos,hF.len,hF.getTerm (by omega) hkF,List.getElem_drop,(h.mono hkL).entries,lastTermOf_take hkL]
  exact ⟨hkF,rfl⟩

/-- A node that gets a message of a sender with the log `L`: what it stores if it agrees, and
that it keeps its log and its commit index if it does not. -/
theorem handleAppendEntries_step {l n : RaftNode Id M} {L F : List (LogEntry Cmd)} {peer : Id}
    {args : AppendArgs Id Cmd} (hl : l.Holds L) (hl0 : l.log.lastIncludedIndex = 0)
    (hargs : l.appendEntriesArgs peer = some args) (hF : n.log.Holds F) (hF0 : n.log.lastIncludedIndex = 0)
    (hmatch : Matches F L) (hterm : n.currentTerm ≤ args.term) :
    (∀ t, (n.handleAppendEntries args).2 = some (t,true) → ∃ F', (n.handleAppendEntries args).1.log.Holds F' ∧
      Stored F L F' args.prevLogIndex (args.prevLogIndex + args.entries.length) ∧
      (AgreeUpTo F L (args.prevLogIndex + args.entries.length) →
        appendNewEntries n.log (args.prevLogIndex + 1) args.entries = n.log) ∧
      n.commitIndex ≤ (n.handleAppendEntries args).1.commitIndex ∧
      (n.commitIndex < (n.handleAppendEntries args).1.commitIndex →
        AgreeUpTo F' L (n.handleAppendEntries args).1.commitIndex)) ∧
    (∀ t, (n.handleAppendEntries args).2 = some (t,false) →
      (n.handleAppendEntries args).1.log.entries = n.log.entries ∧
      (n.handleAppendEntries args).1.log.lastIncludedIndex = n.log.lastIncludedIndex ∧
      (n.handleAppendEntries args).1.commitIndex = n.commitIndex) := by
  obtain ⟨hprev,hprevTerm,hes,hleader⟩ := appendEntriesArgs_eq_some hl.log hl0 hargs
  obtain ⟨storage,hlog⟩ := n.adoptTerm_log args.term
  have hcommit : (n.adoptTerm args.term).commitIndex = n.commitIndex := adoptTerm_commitIndex ..
  have hF' : (n.adoptTerm args.term).log.Holds F := by
    rw [hlog]
    exact ⟨hF.entries,hF.le,hF.term⟩
  have hF0' : (n.adoptTerm args.term).log.lastIncludedIndex = 0 := by rw [hlog,hF0]
  have hlen : args.prevLogIndex + args.entries.length = L.length := by
    rw [hes,List.length_drop]
    omega
  unfold handleAppendEntries
  rw [if_neg (not_lt.mpr hterm)]
  dsimp only
  rw [hlen]
  split
  · refine ⟨nofun,fun t _ => ?_⟩
    rw [hlog]
    exact ⟨rfl,rfl,hcommit⟩
  · rename_i hcheck
    rw [Bool.not_eq_false,hprevTerm] at hcheck
    have hp := agreeUpTo_of_matchLog hF' hF0' hmatch hprev hcheck
    obtain ⟨hloop,hholds⟩ := log_holds_storeEntries hF' hF0' hmatch hp hes
    have hstored := stored_merge hmatch hp
    refine ⟨fun t _ => ⟨merge F L,hholds,hstored,fun hagree => ?_,?_⟩,fun t ht => ?_⟩
    · rw [hes]
      exact appendNewEntries_of_agreeUpTo hF hF0 hagree _
    · rw [← hcommit]
      exact commitIndex_storeEntries hloop hstored.agree (hleader.trans_le hl.commit_le)
    · split at ht
      · cases ht
      · cases ht

/-- A node with a log of `get` commands of the given terms. -/
def withTerms (terms : List ℕ) (term : ℕ) : RaftNode ℕ (KeyValueStateMachine ℕ ℕ) :=
  { RaftNode.init (M := KeyValueStateMachine ℕ ℕ) 0 [1] 10 Storage.empty with
    log := { RaftLog.load Storage.empty with
      entries := terms.zipIdx.map fun (t,k) => ⟨t,k + 1,⟨.get,some k,none⟩⟩ }
    currentTerm := term }

/-- The leader sends from index 2 on, and the third entry of the receiver conflicts. -/
theorem handleAppendEntries_step_conflict :
    let l : RaftNode ℕ (KeyValueStateMachine ℕ ℕ) :=
      { withTerms [1,1,3] 3 with state := .leader, commitIndex := 2, nextIndex := fun _ => some 2 }
    let n := withTerms [1,1,2,2] 2
    ∃ args F', l.appendEntriesArgs 1 = some args ∧ (n.handleAppendEntries args).1.log.Holds F' ∧
      Stored n.log.entries l.log.entries F' 1 3 := by
  intro l n
  set args : AppendArgs ℕ (KeyValueCommand ℕ ℕ) := ⟨3,0,1,1,l.log.entries.drop 1,2⟩
  have hargs : l.appendEntriesArgs 1 = some args := rfl
  have hl : l.Holds l.log.entries := ⟨⟨rfl,by decide,rfl⟩,by decide,by decide,by decide,
    fun k hk => absurd hk (Nat.not_lt_zero k)⟩
  have hn : n.log.Holds n.log.entries := ⟨rfl,by decide,rfl⟩
  have hmatch : Matches n.log.entries l.log.entries := by
    intro i hi hi' he
    have hlt : i < 3 := hi'
    interval_cases i
    · rfl
    · rfl
    · exact absurd (show 2 = 3 from he) (by decide)
  have hreply : (n.handleAppendEntries args).2 = some (3,true) := by decide
  have hstep := handleAppendEntries_step hl rfl hargs hn rfl hmatch (by decide)
  obtain ⟨F',hF',hstored,-⟩ := hstep.1 3 hreply
  exact ⟨_,F',hargs,hF',hstored⟩

end RaftNode

end DistributedSystems.Raft
