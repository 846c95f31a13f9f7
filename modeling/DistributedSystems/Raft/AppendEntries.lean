import DistributedSystems.Raft.LogRefinement

/-! # The loop over received entries

The loop walks absolute indices and may truncate. Positions up to a bound survive
it when every received entry at a readable position up to the bound has the term
that is already stored there. When logs match and the snapshot raises no false
conflict, the loop merges the caller's log into the stored one.
-/
namespace DistributedSystems.Raft
open ReplicatedLog
variable {Id Cmd : Type} {M : StateMachine Cmd}

/-- Up to position `i` two logs hold the same entries and the same snapshot. -/
structure SameUpTo (i : ℕ) (a b : RaftLog Id Cmd M.Snapshot) : Prop where
  index : b.lastIncludedIndex = a.lastIncludedIndex
  term : b.lastIncludedTerm = a.lastIncludedTerm
  len : i ≤ b.len
  getItem : ∀ j ≤ i, b.getItem j = a.getItem j

namespace SameUpTo
variable {i : ℕ} {a b c : RaftLog Id Cmd M.Snapshot}

theorem refl (h : i ≤ a.len) : SameUpTo i a a := ⟨rfl,rfl,h,fun _ _ => rfl⟩

theorem trans (h : SameUpTo i a b) (h' : SameUpTo i b c) : SameUpTo i a c :=
  ⟨h'.index.trans h.index,h'.term.trans h.term,h'.len,
    fun j hj => (h'.getItem j hj).trans (h.getItem j hj)⟩

theorem getTerm (h : SameUpTo i a b) {j : ℕ} (hj : j ≤ i) : b.getTerm j = a.getTerm j := by
  unfold RaftLog.getTerm
  rw [h.index,h.term,h.getItem j hj]

theorem append (h : i ≤ a.len) (e : LogEntry Cmd) : SameUpTo i a (a.append e) := by
  refine ⟨rfl,rfl,by rw [RaftLog.append_len]; omega,?_⟩
  intro j hj
  exact RaftLog.append_getItem_of_le e (by omega)

theorem truncate (h : i ≤ a.len) {j : ℕ} (hj : i < j ∨ j ≤ a.lastIncludedIndex) :
    SameUpTo i a (a.truncate j) := by
  rcases hj with hj | hj
  · refine ⟨RaftLog.truncate_lastIncludedIndex a j,RaftLog.truncate_lastIncludedTerm a j,?_,?_⟩
    · by_cases hle : j ≤ a.lastIncludedIndex
      · rw [RaftLog.truncate_of_le hle]
        exact h
      · unfold RaftLog.len at h ⊢
        rw [RaftLog.truncate_lastIncludedIndex,RaftLog.truncate_entries (by omega),List.length_take]
        omega
    · intro k hk
      exact RaftLog.truncate_getItem_of_lt (by omega)
  · rw [RaftLog.truncate_of_le hj]
    exact refl h

end SameUpTo

/-- Received entries do not conflict with what is stored at positions up to `i`. -/
def Agrees (log : RaftLog Id Cmd M.Snapshot) (i idx : ℕ) (es : List (LogEntry Cmd)) : Prop :=
  ∀ (k : ℕ) (h : k < es.length), log.lastIncludedIndex < idx + k → idx + k ≤ i →
    log.getTerm (idx + k) = some (es[k]).term

instance (log : RaftLog Id Cmd M.Snapshot) (i idx : ℕ) (es : List (LogEntry Cmd)) :
    Decidable (Agrees log i idx es) :=
  inferInstanceAs (Decidable (∀ (k : ℕ) (_ : k < es.length), _ → _ → _))

theorem Agrees.tail {log log' : RaftLog Id Cmd M.Snapshot} {i idx : ℕ} {e : LogEntry Cmd}
    {es : List (LogEntry Cmd)} (h : Agrees log i idx (e :: es)) (hs : SameUpTo i log log') :
    Agrees log' i (idx + 1) es := by
  intro k hk hlt hle
  have he : idx + 1 + k = idx + (k + 1) := by omega
  rw [hs.index,he] at hlt
  rw [he] at hle
  rw [hs.getTerm (by omega),he]
  exact h (k + 1) (by simpa using hk) hlt hle

/-- The loop keeps the positions up to `i` when the received entries agree with them. -/
theorem sameUpTo_appendNewEntries {log : RaftLog Id Cmd M.Snapshot} {i idx : ℕ}
    {es : List (LogEntry Cmd)} (hi : i ≤ log.len) (h : Agrees log i idx es) :
    SameUpTo i log (RaftNode.appendNewEntries log idx es) := by
  induction es generalizing log idx with
  | nil => exact SameUpTo.refl hi
  | cons e es ih =>
    rw [RaftNode.appendNewEntries]
    split
    · split
      · rename_i hle hterm
        -- a conflict is above the bound, or the snapshot hides it from `truncate`
        have hpos : i < idx ∨ idx ≤ log.lastIncludedIndex := by
          by_contra hc
          exact hterm (h 0 (by simp) (by omega) (by omega))
        have hs := (SameUpTo.truncate hi hpos).trans
          (SameUpTo.append (SameUpTo.truncate hi hpos).len e)
        exact hs.trans (ih hs.len (h.tail hs))
      · exact ih hi (h.tail (SameUpTo.refl hi))
    · have hs := SameUpTo.append hi e
      exact hs.trans (ih hs.len (h.tail hs))

/-- The entries at positions the snapshot covers have the term the log answers for
such positions. -/
def SnapshotAgrees (log : RaftLog Id Cmd M.Snapshot) (idx : ℕ) (es : List (LogEntry Cmd)) : Prop :=
  ∀ (k : ℕ) (_ : k < es.length), idx + k ≤ log.lastIncludedIndex → (es[k]).term = log.lastIncludedTerm

instance (log : RaftLog Id Cmd M.Snapshot) (idx : ℕ) (es : List (LogEntry Cmd)) :
    Decidable (SnapshotAgrees log idx es) :=
  inferInstanceAs (Decidable (∀ (k : ℕ) (_ : k < es.length), _ → _))

/-- Received entries that are the rest of a list begin with the entry at their position. -/
theorem of_cons_eq_drop {P : List (LogEntry Cmd)} {p : ℕ} {e : LogEntry Cmd} {es : List (LogEntry Cmd)}
    (h : e :: es = P.drop p) : ∃ hlt : p < P.length, e = P[p] ∧ es = P.drop (p + 1) := by
  have hlt : p < P.length := by
    by_contra hge
    rw [List.drop_eq_nil_of_le (Nat.not_lt.mp hge)] at h
    cases h
  rw [List.drop_eq_getElem_cons hlt] at h
  exact ⟨hlt,List.cons.inj h⟩

/-- A log that ends where the received entries begin takes all of them over. -/
theorem holds_appendNewEntries_of_take {log : RaftLog Id Cmd M.Snapshot} {P : List (LogEntry Cmd)} {p : ℕ}
    {es : List (LogEntry Cmd)} (h : log.Holds (P.take p)) (hp : p ≤ P.length) (hes : es = P.drop p) :
    (RaftNode.appendNewEntries log (p + 1) es).Holds P ∧
      (RaftNode.appendNewEntries log (p + 1) es).lastIncludedIndex = log.lastIncludedIndex := by
  induction es generalizing log p with
  | nil =>
    rw [List.take_of_length_le (List.drop_eq_nil_iff.mp hes.symm)] at h
    exact ⟨h,rfl⟩
  | cons e es ih =>
    obtain ⟨hlt,rfl,hrest⟩ := of_cons_eq_drop hes
    have hnext : (log.append P[p]).Holds (P.take (p + 1)) := by
      rw [← List.take_append_getElem hlt]
      exact h.append _
    have hlen := h.len
    rw [List.length_take] at hlen
    rw [RaftNode.appendNewEntries,if_neg (by omega)]
    exact ih hnext hlt hrest

/-- From a position up to which the list `P` agrees with the log on, the loop over the
rest of `P` merges `P` into the log. -/
theorem holds_appendNewEntries {log : RaftLog Id Cmd M.Snapshot} {L P : List (LogEntry Cmd)}
    {p : ℕ} {es : List (LogEntry Cmd)} (h : log.Holds L) (hp : p ≤ P.length) (hes : es = P.drop p)
    (hpre : P.take p <+: L) (hcovered : P.take log.lastIncludedIndex <+: L)
    (hsnap : SnapshotAgrees log (p + 1) es)
    (hmatch : ∀ (k : ℕ) (hk : k < L.length) (hk' : k < P.length), log.lastIncludedIndex ≤ k →
      (L[k]).term = (P[k]).term → P.take (k + 1) <+: L) :
    (RaftNode.appendNewEntries log (p + 1) es).Holds (merge L P) ∧
      (RaftNode.appendNewEntries log (p + 1) es).lastIncludedIndex = log.lastIncludedIndex := by
  induction es generalizing p with
  | nil =>
    have hlen : P.length ≤ p := List.drop_eq_nil_iff.mp hes.symm
    rw [List.take_of_length_le hlen] at hpre
    rw [merge_of_isPrefix hpre]
    exact ⟨h,rfl⟩
  | cons e es ih =>
    obtain ⟨hlt,rfl,hrest⟩ := of_cons_eq_drop hes
    have hsucc : P.take (p + 1) = P.take p ++ [P[p]] := by
      rw [List.take_append_getElem hlt]
    rw [RaftNode.appendNewEntries]
    split
    · rename_i hle
      rw [h.len] at hle
      split
      · rename_i hterm
        -- a conflict: the log is cut to a part of `P` and takes over the rest
        have habove : log.lastIncludedIndex < p + 1 := by
          by_contra hcov
          rw [RaftLog.getTerm_of_le (Nat.succ_pos p) (by omega)] at hterm
          exact hterm (congrArg some (hsnap 0 (by simp) (by omega)).symm)
        have hold : P.take p = L.take p := by
          rw [List.prefix_iff_eq_take.mp hpre,List.length_take,min_eq_left hp]
        have hnot : ¬P <+: L := by
          intro hPL
          apply hterm
          rw [h.getTerm habove.le hle,lastTermOf_take hle]
          exact congrArg (fun x => some (LogEntry.term x)) (hPL.getElem hlt).symm
        have hcut : ((log.truncate (p + 1)).append P[p]).Holds (P.take (p + 1)) := by
          rw [hsucc,hold]
          exact RaftLog.Holds.append (h.truncate habove) _
        rw [merge_of_not_isPrefix hnot]
        obtain ⟨hholds,hindex⟩ := holds_appendNewEntries_of_take hcut hlt hrest
        exact ⟨hholds,hindex.trans (by simp)⟩
      · rename_i hterm
        have hterm : log.getTerm (p + 1) = some (P[p]).term := not_not.mp hterm
        have htail : SnapshotAgrees log (p + 1 + 1) es := by
          intro k hk hi
          exact hsnap (k + 1) (by simpa using hk) (by omega)
        refine ih hlt hrest ?_ htail
        by_cases hcov : p + 1 ≤ log.lastIncludedIndex
        · exact (List.take_prefix_take_left hcov).trans hcovered
        · rw [h.getTerm (by omega) hle,lastTermOf_take hle] at hterm
          exact hmatch p hle hlt (by omega) (Option.some.inj hterm)
    · rename_i hle
      rw [h.len] at hle
      have hL : P.take p = L := by
        apply hpre.eq_of_length_le
        rw [List.length_take]
        omega
      have hnot : ¬P <+: L := by
        intro hPL
        have := hPL.length_le
        omega
      rw [merge_of_not_isPrefix hnot]
      have hnext : (log.append P[p]).Holds (P.take (p + 1)) := by
        rw [hsucc,hL]
        exact h.append _
      exact holds_appendNewEntries_of_take hnext hlt hrest

end DistributedSystems.Raft
