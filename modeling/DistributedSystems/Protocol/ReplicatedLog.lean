import DistributedSystems.Protocol.Quorum
import Mathlib.Data.List.Infix
import Mathlib.Logic.Function.Basic
import Mathlib.Logic.Relation

/-! # Leader based log replication

The protocol in terms of whole logs. Participants stand for a term with the log
they hold, vote, and are elected by a quorum. The leader of a term owns a log
that only grows; the others adopt prefixes of it and are on record for the length
they acknowledged. There are no messages: whatever was true of a leader log or of
an acknowledgement stays true, so late knowledge is knowledge.
-/
namespace DistributedSystems.ReplicatedLog
variable {N E : Type*}

/-- Replaces the value at one pair of arguments. -/
def put {α β γ : Type*} [DecidableEq α] [DecidableEq β] (f : α → β → γ) (a : α) (b : β) (x : γ) : α → β → γ :=
  fun a' b' => if a' = a ∧ b' = b then x else f a' b'

@[simp] theorem put_self {α β γ : Type*} [DecidableEq α] [DecidableEq β] (f : α → β → γ) (a : α) (b : β) (x : γ) :
    put f a b x a b = x := by simp [put]

theorem put_ne {α β γ : Type*} [DecidableEq α] [DecidableEq β] (f : α → β → γ) {a a' : α} {b b' : β} (x : γ)
    (h : ¬(a' = a ∧ b' = b)) : put f a b x a' b' = f a' b' := if_neg h

structure State (N E : Type*) where
  term : N → ℕ
  vote : N → ℕ → Option N
  standing : N → ℕ → Option (List E)
  leader : ℕ → Option N
  leaderLog : ℕ → List E
  electors : ℕ → Set N
  log : N → List E
  acked : N → ℕ → ℕ

namespace State

def init (N E : Type*) : State N E where
  term _ := 0
  vote _ _ := none
  standing _ _ := none
  leader _ := none
  leaderLog _ := []
  electors _ := ∅
  log _ := []
  acked _ _ := 0

/-- Some participant leads the term. -/
def Led (s : State N E) (t : ℕ) : Prop := ∃ c, s.leader t = some c

end State

/-- The term of the last entry, zero for the empty log. -/
def lastTerm (τ : E → ℕ) (L : List E) : ℕ := (L.getLast?.map τ).getD 0

/-- A candidate's log is at least as complete as a voter's. -/
def UpToDate (τ : E → ℕ) (candidate voter : List E) : Prop :=
  lastTerm τ voter < lastTerm τ candidate ∨
    (lastTerm τ voter = lastTerm τ candidate ∧ voter.length ≤ candidate.length)

open Classical in
/-- A log that already extends the leader's entries is kept, any other replaced. -/
noncomputable def merge (L P : List E) : List E := if P <+: L then L else P

theorem prefix_merge (L P : List E) : P <+: merge L P := by
  unfold merge
  split
  · assumption
  · exact List.prefix_refl P

namespace State
variable [DecidableEq N]

def observe (s : State N E) (v : N) (t : ℕ) : State N E := { s with term := Function.update s.term v t }

def stand (s : State N E) (v : N) (t : ℕ) : State N E :=
  { s with
    term := Function.update s.term v t
    vote := put s.vote v t (some v)
    standing := put s.standing v t (some (s.log v)) }

def grant (s : State N E) (v c : N) : State N E := { s with vote := put s.vote v (s.term v) (some c) }

def elect (s : State N E) (c : N) : State N E :=
  { s with
    leader := Function.update s.leader (s.term c) (some c)
    leaderLog := Function.update s.leaderLog (s.term c) (s.log c)
    electors := Function.update s.electors (s.term c) {v | s.vote v (s.term c) = some c}
    acked := put s.acked c (s.term c) (s.log c).length }

def append (s : State N E) (c : N) (e : E) : State N E :=
  { s with
    leaderLog := Function.update s.leaderLog (s.term c) (s.log c ++ [e])
    log := Function.update s.log c (s.log c ++ [e])
    acked := put s.acked c (s.term c) ((s.log c).length + 1) }

noncomputable def adopt (s : State N E) (v : N) (m : ℕ) : State N E :=
  { s with
    log := Function.update s.log v (merge (s.log v) ((s.leaderLog (s.term v)).take m))
    acked := put s.acked v (s.term v) (max (s.acked v (s.term v)) m) }

section Lemmas
variable (s : State N E) (v c : N) (e : E) (m : ℕ) {w : N} {t u : ℕ}

theorem term_le_update (ht : s.term v < t) (w : N) : s.term w ≤ Function.update s.term v t w := by
  by_cases hw : w = v
  · subst w
    rw [Function.update_self]
    exact ht.le
  · rw [Function.update_of_ne hw]

@[simp] theorem observe_term_self : (s.observe v t).term v = t := Function.update_self ..
@[simp] theorem stand_term_self : (s.stand v t).term v = t := Function.update_self ..
@[simp] theorem stand_vote_self : (s.stand v t).vote v t = some v := put_self ..
theorem stand_vote_of_ne (h : ¬(w = v ∧ u = t)) : (s.stand v t).vote w u = s.vote w u := put_ne _ _ h
@[simp] theorem stand_standing_self : (s.stand v t).standing v t = some (s.log v) := put_self ..
theorem stand_standing_of_ne (h : ¬(w = v ∧ u = t)) : (s.stand v t).standing w u = s.standing w u := put_ne _ _ h

@[simp] theorem grant_vote_self : (s.grant v c).vote v (s.term v) = some c := put_self ..
theorem grant_vote_of_ne (h : ¬(w = v ∧ u = s.term v)) : (s.grant v c).vote w u = s.vote w u := put_ne _ _ h

@[simp] theorem elect_leader_self : (s.elect c).leader (s.term c) = some c := Function.update_self ..
theorem elect_leader_of_ne (h : t ≠ s.term c) : (s.elect c).leader t = s.leader t := Function.update_of_ne h _ _
@[simp] theorem elect_leaderLog_self : (s.elect c).leaderLog (s.term c) = s.log c := Function.update_self ..
theorem elect_leaderLog_of_ne (h : t ≠ s.term c) : (s.elect c).leaderLog t = s.leaderLog t :=
  Function.update_of_ne h _ _
@[simp] theorem elect_electors_self : (s.elect c).electors (s.term c) = {v | s.vote v (s.term c) = some c} :=
  Function.update_self ..
theorem elect_electors_of_ne (h : t ≠ s.term c) : (s.elect c).electors t = s.electors t :=
  Function.update_of_ne h _ _
@[simp] theorem elect_acked_self : (s.elect c).acked c (s.term c) = (s.log c).length := put_self ..
theorem elect_acked_of_ne (h : ¬(w = c ∧ t = s.term c)) : (s.elect c).acked w t = s.acked w t := put_ne _ _ h

@[simp] theorem append_leaderLog_self : (s.append c e).leaderLog (s.term c) = s.log c ++ [e] :=
  Function.update_self ..
theorem append_leaderLog_of_ne (h : t ≠ s.term c) : (s.append c e).leaderLog t = s.leaderLog t :=
  Function.update_of_ne h _ _
@[simp] theorem append_log_self : (s.append c e).log c = s.log c ++ [e] := Function.update_self ..
theorem append_log_of_ne (h : w ≠ c) : (s.append c e).log w = s.log w := Function.update_of_ne h _ _
@[simp] theorem append_acked_self : (s.append c e).acked c (s.term c) = (s.log c).length + 1 := put_self ..
theorem append_acked_of_ne (h : ¬(w = c ∧ t = s.term c)) : (s.append c e).acked w t = s.acked w t := put_ne _ _ h

@[simp] theorem adopt_log_self :
    (s.adopt v m).log v = merge (s.log v) ((s.leaderLog (s.term v)).take m) := Function.update_self ..
theorem adopt_log_of_ne (h : w ≠ v) : (s.adopt v m).log w = s.log w := Function.update_of_ne h _ _
@[simp] theorem adopt_acked_self : (s.adopt v m).acked v (s.term v) = max (s.acked v (s.term v)) m := put_self ..
theorem adopt_acked_of_ne (h : ¬(w = v ∧ t = s.term v)) : (s.adopt v m).acked w t = s.acked w t := put_ne _ _ h

end Lemmas

end State

/-- The steps of the protocol. `ok` says which entries may stand at a position. -/
inductive Step [DecidableEq N] (Q : QuorumSystem N) (τ : E → ℕ) (ok : ℕ → E → Prop) :
    State N E → State N E → Prop
  | observe {s} (v : N) (t : ℕ) : s.term v < t → Step Q τ ok s (s.observe v t)
  | stand {s} (v : N) (t : ℕ) : s.term v < t → Step Q τ ok s (s.stand v t)
  | grant {s} (v c : N) {L : List E} : s.vote v (s.term v) = none →
      s.standing c (s.term v) = some L → UpToDate τ L (s.log v) → Step Q τ ok s (s.grant v c)
  | elect {s} (c : N) {L : List E} : s.standing c (s.term c) = some L → s.leader (s.term c) = none →
      Q.isQuorum {v | s.vote v (s.term c) = some c} → Step Q τ ok s (s.elect c)
  | append {s} (c : N) (e : E) : s.leader (s.term c) = some c → τ e = s.term c →
      ok ((s.log c).length + 1) e → Step Q τ ok s (s.append c e)
  | adopt {s} (v : N) (m : ℕ) : s.Led (s.term v) → m ≤ (s.leaderLog (s.term v)).length →
      Step Q τ ok s (s.adopt v m)

/-- Reachability in any number of steps. -/
abbrev Steps [DecidableEq N] (Q : QuorumSystem N) (τ : E → ℕ) (ok : ℕ → E → Prop) :
    State N E → State N E → Prop := Relation.ReflTransGen (Step Q τ ok)

section Facts
variable (τ : E → ℕ)

/-- Every entry of `L` with all entries before it is part of the log of its term's leader. -/
def Chained (s : State N E) (L : List E) : Prop :=
  ∀ (k : ℕ) (h : k < L.length), s.Led (τ L[k]) ∧ L.take (k + 1) <+: s.leaderLog (τ L[k])

/-- A prefix of the leader log of term `t` that ends in an entry of that term. -/
def Sealed (s : State N E) (t : ℕ) (P : List E) : Prop :=
  s.Led t ∧ P <+: s.leaderLog t ∧ ∃ e, P.getLast? = some e ∧ τ e = t

/-- Some leader strictly between the terms lacks `P`. -/
def Missed (s : State N E) (t T : ℕ) (P : List E) : Prop :=
  ∃ w, t < w ∧ w < T ∧ s.Led w ∧ ¬P <+: s.leaderLog w

/-- Up to term `T`, `P` is covered by a sealed prefix that a quorum acknowledged. -/
def Committed (Q : QuorumSystem N) (s : State N E) (T : ℕ) (P : List E) : Prop :=
  P = [] ∨ ∃ t ≤ T, ∃ P', Sealed τ s t P' ∧ Q.isQuorum {v | P'.length ≤ s.acked v t} ∧ P <+: P'

end Facts

/-- Leaders stay, and their logs grow by entries of their own term. -/
structure Grows (τ : E → ℕ) (s s' : State N E) : Prop where
  leader : ∀ t c, s.leader t = some c → s'.leader t = some c
  leaderLog : ∀ t, s.Led t → ∃ ext, s'.leaderLog t = s.leaderLog t ++ ext ∧ ∀ e ∈ ext, τ e = t

namespace Grows
variable {τ : E → ℕ} {s s' : State N E}

theorem of_eq (hl : s'.leader = s.leader) (hlog : s'.leaderLog = s.leaderLog) : Grows τ s s' where
  leader t c h := by rw [hl]; exact h
  leaderLog t _ := ⟨[],by rw [hlog,List.append_nil],fun _ he => absurd he List.not_mem_nil⟩

theorem led (h : Grows τ s s') {t : ℕ} (ht : s.Led t) : s'.Led t := by
  obtain ⟨c,hc⟩ := ht
  exact ⟨c,h.leader t c hc⟩

theorem prefix_leaderLog (h : Grows τ s s') {t : ℕ} (ht : s.Led t) : s.leaderLog t <+: s'.leaderLog t := by
  obtain ⟨ext,he,_⟩ := h.leaderLog t ht
  exact ⟨ext,he.symm⟩

theorem chained (h : Grows τ s s') {L : List E} (hL : Chained τ s L) : Chained τ s' L := by
  intro k hk
  obtain ⟨hled,hp⟩ := hL k hk
  exact ⟨h.led hled,hp.trans (h.prefix_leaderLog hled)⟩

theorem sealed (h : Grows τ s s') {t : ℕ} {P : List E} (hP : Sealed τ s t P) : Sealed τ s' t P := by
  obtain ⟨hled,hp,hlast⟩ := hP
  exact ⟨h.led hled,hp.trans (h.prefix_leaderLog hled),hlast⟩

/-- A sealed prefix that fits into the old leader log was sealed before. -/
theorem sealed_back (h : Grows τ s s') {t : ℕ} {P : List E} (hP : Sealed τ s' t P) (hled : s.Led t)
    (hlen : P.length ≤ (s.leaderLog t).length) : Sealed τ s t P := by
  obtain ⟨_,hp,hlast⟩ := hP
  exact ⟨hled,List.prefix_of_prefix_length_le hp (h.prefix_leaderLog hled) hlen,hlast⟩

/-- A leader that lacks a prefix sealed in an older term never acquires it: what it
appends has its own term. -/
theorem missed (h : Grows τ s s') {t T : ℕ} {P : List E} (hlast : ∃ e, P.getLast? = some e ∧ τ e = t)
    (hm : Missed s t T P) : Missed s' t T P := by
  obtain ⟨w,htw,hwT,hled,hnot⟩ := hm
  refine ⟨w,htw,hwT,h.led hled,?_⟩
  intro hp
  obtain ⟨ext,he,hext⟩ := h.leaderLog w hled
  obtain ⟨e,hel,het⟩ := hlast
  rw [he] at hp
  by_cases hlen : P.length ≤ (s.leaderLog w).length
  · exact hnot (List.prefix_of_prefix_length_le hp (List.prefix_append _ _) hlen)
  · obtain ⟨r,rfl⟩ := List.prefix_of_prefix_length_le (List.prefix_append _ ext) hp (by omega)
    have hr : r ≠ [] := by
      rintro rfl
      exact hlen (by rw [List.append_nil])
    rw [List.getLast?_append_of_ne_nil _ hr] at hel
    have hmem : e ∈ ext := (List.prefix_append_right_inj _).mp hp |>.mem (List.mem_of_getLast? hel)
    have := hext e hmem
    omega

end Grows

end DistributedSystems.ReplicatedLog
