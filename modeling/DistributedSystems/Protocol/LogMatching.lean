import DistributedSystems.Protocol.ReplicatedLog
import Mathlib.Tactic.SplitIfs

/-! # Log matching

Logs are chained to the leader logs of their entries' terms, so two logs that hold
an entry of one term at one position agree up to that position. Alongside go the
facts about votes, leaders and acknowledged lengths that the step rules maintain.
-/
namespace DistributedSystems.ReplicatedLog
variable {N E : Type*} {τ : E → ℕ} {s : State N E}

namespace Chained

theorem of_isPrefix {L P : List E} (h : Chained τ s L) (hp : P <+: L) : Chained τ s P := by
  intro k hk
  have hkL := lt_of_lt_of_le hk hp.length_le
  have he : P[k] = L[k] := hp.getElem hk
  obtain ⟨hled,htake⟩ := h k hkL
  rw [he]
  refine ⟨hled,?_⟩
  rw [(List.prefix_iff_eq_take.mp hp),List.take_take,min_eq_left (by omega)]
  exact htake

/-- Two chained logs with entries of one term at one position agree up to it. -/
theorem take_eq {L L' : List E} (h : Chained τ s L) (h' : Chained τ s L') {k : ℕ} (hk : k < L.length)
    (hk' : k < L'.length) (he : τ L[k] = τ L'[k]) : L.take (k + 1) = L'.take (k + 1) := by
  have hp := (h k hk).2
  have hp' := (h' k hk').2
  rw [he] at hp
  have hlen : (L.take (k + 1)).length = (L'.take (k + 1)).length := by
    rw [List.length_take,List.length_take]
    omega
  exact (List.prefix_of_prefix_length_le hp hp' hlen.le).eq_of_length hlen

theorem last {P : List E} {e : E} (h : Chained τ s P) (he : P.getLast? = some e) :
    s.Led (τ e) ∧ P <+: s.leaderLog (τ e) := by
  have hne : P ≠ [] := by
    rintro rfl
    cases he
  have hpos : 0 < P.length := List.length_pos_iff.mpr hne
  have hlast : P[P.length - 1] = e := by
    rw [List.getLast?_eq_getElem?,List.getElem?_eq_getElem (by omega)] at he
    exact Option.some.inj he
  obtain ⟨hled,hp⟩ := h (P.length - 1) (by omega)
  rw [hlast] at hled hp
  rw [Nat.sub_add_cancel hpos,List.take_length] at hp
  exact ⟨hled,hp⟩

theorem concat {L : List E} {e : E} (h : Chained τ s L) (hled : s.Led (τ e))
    (hp : L ++ [e] <+: s.leaderLog (τ e)) : Chained τ s (L ++ [e]) := by
  intro k hk
  by_cases hkL : k < L.length
  · rw [List.getElem_append_left hkL,List.take_append_of_le_length (by omega)]
    exact h k hkL
  · have hkl : k = L.length := by
      rw [List.length_append,List.length_singleton] at hk
      omega
    subst k
    rw [List.getElem_concat_length rfl,List.take_of_length_le (by simp)]
    exact ⟨hled,hp⟩

/-- Terms never decrease along a chained log, so the last entry has the largest. -/
theorem le_last {P : List E} {e : E} (h : Chained τ s P) (he : P.getLast? = some e)
    (hle : ∀ t, s.Led t → ∀ x ∈ s.leaderLog t, τ x ≤ t) : ∀ x ∈ P, τ x ≤ τ e := by
  intro x hx
  obtain ⟨hled,hp⟩ := h.last he
  exact hle _ hled x (hp.mem hx)

end Chained

/-- Votes are cast for candidates that stand, in terms that have been reached, and
every leader has a quorum of electors. -/
structure Voting (Q : QuorumSystem N) (s : State N E) : Prop where
  vote : ∀ v t c, s.vote v t = some c → t ≤ s.term v ∧ ∃ L, s.standing c t = some L
  standing : ∀ c t L, s.standing c t = some L → t ≤ s.term c
  leader : ∀ t c, s.leader t = some c → t ≤ s.term c
  electors : ∀ t, s.Led t → Q.isQuorum (s.electors t)
  voted : ∀ t c, s.leader t = some c → ∀ v ∈ s.electors t, s.vote v t = some c

/-- How candidates' logs, leader logs, stored logs and acknowledgements fit together. -/
structure Matching (τ : E → ℕ) (ok : ℕ → E → Prop) (s : State N E) : Prop where
  standing : ∀ c t L, s.standing c t = some L → Chained τ s L ∧ ∀ e ∈ L, τ e < t
  candidate : ∀ c t L, s.standing c t = some L → s.term c = t → s.leader t = none → s.log c = L
  leading : ∀ t c, s.leader t = some c → s.term c = t → s.log c = s.leaderLog t
  log : ∀ v, Chained τ s (s.log v)
  leaderLog : ∀ t, s.Led t → Chained τ s (s.leaderLog t)
  log_le : ∀ v, ∀ e ∈ s.log v, τ e ≤ s.term v
  leaderLog_le : ∀ t, s.Led t → ∀ e ∈ s.leaderLog t, τ e ≤ t
  acked : ∀ v t, 0 < s.acked v t → s.Led t ∧ t ≤ s.term v ∧ s.acked v t ≤ (s.leaderLog t).length
  acked_log : ∀ v t, s.term v = t → (s.leaderLog t).take (s.acked v t) <+: s.log v
  acked_leader : ∀ t c, s.leader t = some c → (s.leaderLog t).length ≤ s.acked c t
  ok_log : ∀ v k e, (s.log v)[k]? = some e → ok (k + 1) e
  ok_leaderLog : ∀ t, s.Led t → ∀ k e, (s.leaderLog t)[k]? = some e → ok (k + 1) e

theorem Voting.init (Q : QuorumSystem N) : Voting Q (State.init N E) where
  vote v t c h := by cases h
  standing c t L h := by cases h
  leader t c h := by cases h
  electors t h := by cases h; contradiction
  voted t c h := by cases h

theorem Matching.init (τ : E → ℕ) (ok : ℕ → E → Prop) : Matching τ ok (State.init N E) where
  standing c t L h := by cases h
  candidate c t L h := by cases h
  leading t c h := by cases h
  log v k hk := absurd hk (Nat.not_lt_zero k)
  leaderLog t h := by cases h; contradiction
  log_le v e he := absurd he List.not_mem_nil
  leaderLog_le t h := by cases h; contradiction
  acked v t h := absurd h (lt_irrefl 0)
  acked_log v t _ := List.prefix_refl []
  acked_leader t c h := by cases h
  ok_log v k e h := by cases h
  ok_leaderLog t h := by cases h; contradiction

section Step
variable [DecidableEq N] {Q : QuorumSystem N} {ok : ℕ → E → Prop} {s' : State N E}

theorem Voting.observe (h : Voting Q s) {v : N} {t : ℕ} (ht : s.term v < t) : Voting Q (s.observe v t) where
  vote w u c hv := ⟨(h.vote w u c hv).1.trans (s.term_le_update v ht w),(h.vote w u c hv).2⟩
  standing c u L hs := (h.standing c u L hs).trans (s.term_le_update v ht c)
  leader u c hl := (h.leader u c hl).trans (s.term_le_update v ht c)
  electors := h.electors
  voted := h.voted

theorem Voting.stand (h : Voting Q s) {v : N} {t : ℕ} (ht : s.term v < t) : Voting Q (s.stand v t) where
  vote := by
    intro w u c hv
    by_cases hw : w = v ∧ u = t
    · obtain ⟨rfl,rfl⟩ := hw
      rw [s.stand_vote_self] at hv
      cases hv
      exact ⟨(s.stand_term_self w).ge,_,s.stand_standing_self w⟩
    · rw [s.stand_vote_of_ne v hw] at hv
      obtain ⟨hle,L,hL⟩ := h.vote w u c hv
      refine ⟨hle.trans (s.term_le_update v ht w),?_⟩
      by_cases hc : c = v ∧ u = t
      · rw [hc.1,hc.2]
        exact ⟨_,s.stand_standing_self v⟩
      · exact ⟨L,(s.stand_standing_of_ne v hc).trans hL⟩
  standing := by
    intro c u L hs
    by_cases hc : c = v ∧ u = t
    · rw [hc.1,hc.2]
      exact (s.stand_term_self v).ge
    · rw [s.stand_standing_of_ne v hc] at hs
      exact (h.standing c u L hs).trans (s.term_le_update v ht c)
  leader u c hl := (h.leader u c hl).trans (s.term_le_update v ht c)
  electors := h.electors
  voted := by
    intro u c hl w hw
    have hold := h.voted u c hl w hw
    rw [s.stand_vote_of_ne v ?_]
    · exact hold
    · rintro ⟨rfl,rfl⟩
      have := (h.vote w u c hold).1
      omega

theorem Voting.grant (h : Voting Q s) {v c : N} {L : List E} (hv : s.vote v (s.term v) = none)
    (hL : s.standing c (s.term v) = some L) : Voting Q (s.grant v c) where
  vote := by
    intro w u d hd
    by_cases hw : w = v ∧ u = s.term v
    · obtain ⟨rfl,rfl⟩ := hw
      rw [s.grant_vote_self] at hd
      cases hd
      exact ⟨le_refl _,L,hL⟩
    · rw [s.grant_vote_of_ne v c hw] at hd
      exact h.vote w u d hd
  standing := h.standing
  leader := h.leader
  electors := h.electors
  voted := by
    intro u d hl w hw
    have hold := h.voted u d hl w hw
    rw [s.grant_vote_of_ne v c ?_]
    · exact hold
    · rintro ⟨rfl,rfl⟩
      rw [hv] at hold
      cases hold

theorem Voting.elect (h : Voting Q s) {c : N} (hq : Q.isQuorum {v | s.vote v (s.term c) = some c}) :
    Voting Q (s.elect c) where
  vote := h.vote
  standing := h.standing
  leader := by
    intro u d hl
    by_cases hu : u = s.term c
    · subst u
      rw [s.elect_leader_self] at hl
      cases hl
      exact le_refl _
    · rw [s.elect_leader_of_ne c hu] at hl
      exact h.leader u d hl
  electors := by
    rintro u ⟨d,hd⟩
    by_cases hu : u = s.term c
    · subst u
      rw [s.elect_electors_self]
      exact hq
    · rw [s.elect_leader_of_ne c hu] at hd
      rw [s.elect_electors_of_ne c hu]
      exact h.electors u ⟨d,hd⟩
  voted := by
    intro u d hl w hw
    by_cases hu : u = s.term c
    · subst u
      rw [s.elect_leader_self] at hl
      rw [s.elect_electors_self] at hw
      cases hl
      exact hw
    · rw [s.elect_leader_of_ne c hu] at hl
      rw [s.elect_electors_of_ne c hu] at hw
      exact h.voted u d hl w hw

theorem Voting.step (h : Voting Q s) (hs : Step Q τ ok s s') : Voting Q s' := by
  cases hs with
  | observe v t ht => exact h.observe ht
  | stand v t ht => exact h.stand ht
  | grant v c hv hL _ => exact h.grant hv hL
  | elect c _ _ hq => exact h.elect hq
  | append c e _ _ _ => exact ⟨h.vote,h.standing,h.leader,h.electors,h.voted⟩
  | adopt v m _ _ => exact ⟨h.vote,h.standing,h.leader,h.electors,h.voted⟩

omit [DecidableEq N] in
/-- Steps that touch only terms, votes and candidacies. -/
theorem Matching.advance (h : Matching τ ok s) (hv : Voting Q s) (hl : s'.leader = s.leader)
    (hll : s'.leaderLog = s.leaderLog) (hlog : s'.log = s.log) (hack : s'.acked = s.acked)
    (hterm : ∀ v, s.term v ≤ s'.term v)
    (hst : ∀ c t L, s'.standing c t = some L → s.standing c t = some L ∨
      (L = s.log c ∧ s.term c < t)) : Matching τ ok s' := by
  have hg : Grows τ s s' := Grows.of_eq hl hll
  have hled : ∀ {t}, s'.Led t → s.Led t := by
    rintro t ⟨c,hc⟩
    exact ⟨c,by rw [← hl]; exact hc⟩
  refine ⟨?_,?_,?_,?_,?_,?_,?_,?_,?_,?_,?_,?_⟩
  · intro c t L hs
    rcases hst c t L hs with hs | ⟨rfl,hlt⟩
    · exact ⟨hg.chained (h.standing c t L hs).1,(h.standing c t L hs).2⟩
    · exact ⟨hg.chained (h.log c),fun e he => (h.log_le c e he).trans_lt hlt⟩
  · intro c t L hs ht hn
    rw [hlog]
    rcases hst c t L hs with hs | ⟨rfl,_⟩
    · have := hv.standing c t L hs
      have := hterm c
      exact h.candidate c t L hs (by omega) (by rw [← hl]; exact hn)
    · rfl
  · intro t c hc ht
    rw [hl] at hc
    rw [hlog,hll]
    have := hv.leader t c hc
    have := hterm c
    exact h.leading t c hc (by omega)
  · intro v
    rw [hlog]
    exact hg.chained (h.log v)
  · intro t ht
    rw [hll]
    exact hg.chained (h.leaderLog t (hled ht))
  · intro v e he
    rw [hlog] at he
    exact (h.log_le v e he).trans (hterm v)
  · intro t ht
    rw [hll]
    exact h.leaderLog_le t (hled ht)
  · intro v t ha
    rw [hack] at ha ⊢
    obtain ⟨hlt,hle,hlen⟩ := h.acked v t ha
    rw [hll]
    exact ⟨hg.led hlt,hle.trans (hterm v),hlen⟩
  · intro v t ht
    rw [hack,hll,hlog]
    by_cases ha : 0 < s.acked v t
    · have := (h.acked v t ha).2.1
      have := hterm v
      exact h.acked_log v t (by omega)
    · rw [Nat.eq_zero_of_not_pos ha]
      exact List.nil_prefix
  · intro t c hc
    rw [hl] at hc
    rw [hll,hack]
    exact h.acked_leader t c hc
  · rw [hlog]
    exact h.ok_log
  · intro t ht
    rw [hll]
    exact h.ok_leaderLog t (hled ht)

theorem grows_elect {c : N} (hn : s.leader (s.term c) = none) : Grows τ s (s.elect c) where
  leader t d hd := by
    have hne : t ≠ s.term c := by
      rintro rfl
      rw [hn] at hd
      cases hd
    rw [s.elect_leader_of_ne c hne]
    exact hd
  leaderLog t ht := by
    have hne : t ≠ s.term c := by
      rintro rfl
      obtain ⟨d,hd⟩ := ht
      rw [hn] at hd
      cases hd
    exact ⟨[],by rw [s.elect_leaderLog_of_ne c hne,List.append_nil],fun _ he => absurd he List.not_mem_nil⟩

theorem led_elect {c : N} {t : ℕ} (ht : (s.elect c).Led t) : t = s.term c ∨ (t ≠ s.term c ∧ s.Led t) := by
  by_cases hne : t = s.term c
  · exact Or.inl hne
  · obtain ⟨d,hd⟩ := ht
    rw [s.elect_leader_of_ne c hne] at hd
    exact Or.inr ⟨hne,d,hd⟩

/-- The leader logs after an election: the log of the winner and those of before. -/
theorem forall_elect_leaderLog {c : N} {P : ℕ → List E → Prop} (hc : P (s.term c) (s.log c))
    (hrest : ∀ t, s.Led t → P t (s.leaderLog t)) : ∀ t, (s.elect c).Led t → P t ((s.elect c).leaderLog t) := by
  intro t ht
  rcases led_elect ht with rfl | ⟨hne,ht⟩
  · rw [s.elect_leaderLog_self]
    exact hc
  · rw [s.elect_leaderLog_of_ne c hne]
    exact hrest t ht

theorem Matching.elect (h : Matching τ ok s) {c : N} (hn : s.leader (s.term c) = none) :
    Matching τ ok (s.elect c) := by
  have hg : Grows τ s (s.elect c) := grows_elect hn
  have hfresh : ∀ {t}, s.Led t → t ≠ s.term c := by
    rintro t ⟨d,hd⟩ rfl
    rw [hn] at hd
    cases hd
  refine ⟨?_,?_,?_,fun v => hg.chained (h.log v),?_,h.log_le,?_,?_,?_,?_,h.ok_log,?_⟩
  · intro d t L hs
    exact ⟨hg.chained (h.standing d t L hs).1,(h.standing d t L hs).2⟩
  · intro d t L hs ht hnone
    have hne : t ≠ s.term c := by
      rintro rfl
      rw [s.elect_leader_self] at hnone
      cases hnone
    rw [s.elect_leader_of_ne c hne] at hnone
    exact h.candidate d t L hs ht hnone
  · intro t d hd ht
    by_cases hne : t = s.term c
    · rw [hne,s.elect_leader_self] at hd
      cases hd
      rw [hne]
      exact (s.elect_leaderLog_self c).symm
    · rw [s.elect_leader_of_ne c hne] at hd
      rw [s.elect_leaderLog_of_ne c hne]
      exact h.leading t d hd ht
  · exact forall_elect_leaderLog (P := fun _ L => Chained τ (s.elect c) L) (hg.chained (h.log c))
      fun t ht => hg.chained (h.leaderLog t ht)
  · exact forall_elect_leaderLog (P := fun t L => ∀ e ∈ L, τ e ≤ t) (h.log_le c) h.leaderLog_le
  · intro v t ha
    by_cases hv : v = c ∧ t = s.term c
    · obtain ⟨rfl,rfl⟩ := hv
      rw [s.elect_acked_self,s.elect_leaderLog_self]
      exact ⟨⟨v,s.elect_leader_self v⟩,le_refl _,le_refl _⟩
    · rw [s.elect_acked_of_ne c hv] at ha ⊢
      obtain ⟨hled,hle,hlen⟩ := h.acked v t ha
      rw [s.elect_leaderLog_of_ne c (hfresh hled)]
      exact ⟨hg.led hled,hle,hlen⟩
  · intro v t ht
    by_cases hv : v = c ∧ t = s.term c
    · obtain ⟨rfl,rfl⟩ := hv
      rw [s.elect_acked_self,s.elect_leaderLog_self,List.take_length]
      exact List.prefix_refl _
    · rw [s.elect_acked_of_ne c hv]
      by_cases ha : 0 < s.acked v t
      · rw [s.elect_leaderLog_of_ne c (hfresh (h.acked v t ha).1)]
        exact h.acked_log v t ht
      · rw [Nat.eq_zero_of_not_pos ha]
        exact List.nil_prefix
  · intro t d hd
    by_cases hne : t = s.term c
    · subst t
      rw [s.elect_leader_self] at hd
      cases hd
      rw [s.elect_acked_self,s.elect_leaderLog_self]
    · rw [s.elect_leader_of_ne c hne] at hd
      rw [s.elect_leaderLog_of_ne c hne,s.elect_acked_of_ne c (fun hh => hne hh.2)]
      exact h.acked_leader t d hd
  · exact forall_elect_leaderLog (P := fun _ L => ∀ k e, L[k]? = some e → ok (k + 1) e) (h.ok_log c) h.ok_leaderLog

theorem grows_append (h : Matching τ ok s) {c : N} {e : E} (hc : s.leader (s.term c) = some c)
    (he : τ e = s.term c) : Grows τ s (s.append c e) where
  leader _ _ hd := hd
  leaderLog t _ := by
    by_cases ht : t = s.term c
    · subst t
      refine ⟨[e],by rw [s.append_leaderLog_self,h.leading _ c hc rfl],?_⟩
      intro x hx
      rw [List.mem_singleton.mp hx]
      exact he
    · exact ⟨[],by rw [s.append_leaderLog_of_ne c e ht,List.append_nil],fun _ hx => absurd hx List.not_mem_nil⟩

/-- The log of the leader is longer by the entry, the others are those of before. -/
theorem forall_append_log {c : N} {e : E} {P : N → List E → Prop} (hc : P c (s.log c ++ [e]))
    (hrest : ∀ v, P v (s.log v)) (v : N) : P v ((s.append c e).log v) := by
  by_cases hv : v = c
  · subst v
    rw [s.append_log_self]
    exact hc
  · rw [s.append_log_of_ne c e hv]
    exact hrest v

theorem forall_append_leaderLog {c : N} {e : E} {P : ℕ → List E → Prop} (hc : P (s.term c) (s.log c ++ [e]))
    (hrest : ∀ t, s.Led t → P t (s.leaderLog t)) (t : ℕ) (ht : s.Led t) : P t ((s.append c e).leaderLog t) := by
  by_cases hne : t = s.term c
  · subst t
    rw [s.append_leaderLog_self]
    exact hc
  · rw [s.append_leaderLog_of_ne c e hne]
    exact hrest t ht

theorem Matching.append (h : Matching τ ok s) {c : N} {e : E} (hc : s.leader (s.term c) = some c)
    (he : τ e = s.term c) (hok : ok ((s.log c).length + 1) e) : Matching τ ok (s.append c e) := by
  have hg : Grows τ s (s.append c e) := grows_append h hc he
  have hlead := h.leading _ c hc rfl
  have hchain : Chained τ (s.append c e) (s.log c ++ [e]) := by
    refine (hg.chained (h.log c)).concat ?_ ?_
    · rw [he]
      exact ⟨c,hc⟩
    · rw [he,s.append_leaderLog_self]
  have hbound : ∀ x ∈ s.log c ++ [e], τ x ≤ s.term c := by
    intro x hx
    rcases List.mem_append.mp hx with hx | hx
    · exact h.log_le c x hx
    · rw [List.mem_singleton.mp hx]
      exact he.le
  have hposition : ∀ k x, (s.log c ++ [e])[k]? = some x → ok (k + 1) x := by
    intro k x hx
    rcases lt_trichotomy k (s.log c).length with hk | rfl | hk
    · rw [List.getElem?_append_left hk] at hx
      exact h.ok_log c k x hx
    · rw [List.getElem?_concat_length] at hx
      cases hx
      exact hok
    · rw [List.getElem?_eq_none (by simp; omega)] at hx
      cases hx
  refine ⟨?_,?_,?_,?_,?_,?_,?_,?_,?_,?_,?_,?_⟩
  · intro d t L hs
    exact ⟨hg.chained (h.standing d t L hs).1,(h.standing d t L hs).2⟩
  · intro d t L hs ht hnone
    have hd : d ≠ c := by
      rintro rfl
      rw [← ht] at hnone
      exact absurd (hnone.symm.trans hc) (by simp)
    rw [s.append_log_of_ne c e hd]
    exact h.candidate d t L hs ht hnone
  · intro t d hd ht
    by_cases hdc : d = c
    · subst d
      rw [← ht,s.append_log_self]
      exact (s.append_leaderLog_self c e).symm
    · have hne : t ≠ s.term c := by
        rintro rfl
        exact hdc (Option.some.inj (hd.symm.trans hc))
      rw [s.append_log_of_ne c e hdc,s.append_leaderLog_of_ne c e hne]
      exact h.leading t d hd ht
  · exact forall_append_log (P := fun _ L => Chained τ (s.append c e) L) hchain fun v => hg.chained (h.log v)
  · exact forall_append_leaderLog (P := fun _ L => Chained τ (s.append c e) L) hchain
      fun t ht => hg.chained (h.leaderLog t ht)
  · exact forall_append_log (P := fun v L => ∀ x ∈ L, τ x ≤ s.term v) hbound h.log_le
  · exact forall_append_leaderLog (P := fun t L => ∀ x ∈ L, τ x ≤ t) hbound h.leaderLog_le
  · intro v t ha
    by_cases hv : v = c ∧ t = s.term c
    · obtain ⟨rfl,rfl⟩ := hv
      rw [s.append_acked_self,s.append_leaderLog_self]
      exact ⟨⟨v,hc⟩,le_refl _,by rw [List.length_append,List.length_singleton]⟩
    · rw [s.append_acked_of_ne c e hv] at ha ⊢
      obtain ⟨hled,hle,hlen⟩ := h.acked v t ha
      exact ⟨hg.led hled,hle,hlen.trans (hg.prefix_leaderLog hled).length_le⟩
  · intro v t ht
    by_cases hv : v = c
    · subst v
      rw [← ht,s.append_log_self]
      change List.take _ ((s.append c e).leaderLog (s.term c)) <+: _
      rw [s.append_leaderLog_self]
      exact List.take_prefix _ _
    · rw [s.append_acked_of_ne c e (fun hh => hv hh.1),s.append_log_of_ne c e hv]
      by_cases ha : 0 < s.acked v t
      · obtain ⟨hled,_,hlen⟩ := h.acked v t ha
        obtain ⟨ext,hext,_⟩ := hg.leaderLog t hled
        rw [hext,List.take_append_of_le_length hlen]
        exact h.acked_log v t ht
      · rw [Nat.eq_zero_of_not_pos ha]
        exact List.nil_prefix
  · intro t d hd
    by_cases hne : t = s.term c
    · subst t
      have hdc : d = c := Option.some.inj (hd.symm.trans hc)
      subst d
      rw [s.append_acked_self,s.append_leaderLog_self,List.length_append,List.length_singleton]
    · rw [s.append_leaderLog_of_ne c e hne,s.append_acked_of_ne c e (fun hh => hne hh.2)]
      exact h.acked_leader t d hd
  · exact forall_append_log (P := fun _ L => ∀ k x, L[k]? = some x → ok (k + 1) x) hposition h.ok_log
  · exact forall_append_leaderLog (P := fun _ L => ∀ k x, L[k]? = some x → ok (k + 1) x) hposition h.ok_leaderLog

omit [DecidableEq N] in
theorem merge_of_isPrefix {L P : List E} (h : P <+: L) : merge L P = L := if_pos h

omit [DecidableEq N] in
theorem merge_of_not_isPrefix {L P : List E} (h : ¬P <+: L) : merge L P = P := if_neg h

omit [DecidableEq N] in
/-- Beyond a common part, what changes in a log comes from the leader's entries. -/
theorem merge_getElem? {L P : List E} {p : ℕ} (h : P.take p <+: L) (hp : p ≤ P.length) (k : ℕ) :
    (merge L P)[k]? = L[k]? ∨ (p ≤ k ∧ (merge L P)[k]? = (P.drop p)[k - p]?) := by
  by_cases hPL : P <+: L
  · rw [merge_of_isPrefix hPL]
    exact Or.inl rfl
  rw [merge_of_not_isPrefix hPL]
  rcases Nat.lt_or_ge k p with hlt | hge
  · left
    have hk : k < (P.take p).length := by
      rw [List.length_take]
      omega
    have he := h.getElem hk
    have hlen := h.length_le
    rw [List.getElem_take] at he
    rw [List.getElem?_eq_getElem (by omega),List.getElem?_eq_getElem (by omega),he]
  · right
    rw [List.getElem?_drop]
    exact ⟨hge,by congr 1; omega⟩

/-- A node keeps its log or takes over a prefix of the leader's, the others keep theirs. -/
theorem forall_adopt_log {v : N} {m : ℕ} {P : N → List E → Prop} (hv : P v ((s.leaderLog (s.term v)).take m))
    (hrest : ∀ w, P w (s.log w)) (w : N) : P w ((s.adopt v m).log w) := by
  by_cases hw : w = v
  · subst w
    rw [s.adopt_log_self]
    by_cases hp : (s.leaderLog (s.term v)).take m <+: s.log v
    · rw [merge_of_isPrefix hp]
      exact hrest v
    · rw [merge_of_not_isPrefix hp]
      exact hv
  · rw [s.adopt_log_of_ne v m hw]
    exact hrest w

theorem Matching.adopt (h : Matching τ ok s) {v : N} {m : ℕ} (hled : s.Led (s.term v))
    (hm : m ≤ (s.leaderLog (s.term v)).length) : Matching τ ok (s.adopt v m) := by
  have hg : Grows τ s (s.adopt v m) := Grows.of_eq rfl rfl
  refine ⟨?_,?_,?_,?_,fun t ht => hg.chained (h.leaderLog t ht),?_,h.leaderLog_le,?_,?_,?_,?_,h.ok_leaderLog⟩
  · intro d t L hs
    exact ⟨hg.chained (h.standing d t L hs).1,(h.standing d t L hs).2⟩
  · intro d t L hs ht hnone
    have hd : d ≠ v := by
      rintro rfl
      obtain ⟨l,hl⟩ := hled
      rw [← ht] at hnone
      exact absurd (hnone.symm.trans hl) (by simp)
    rw [s.adopt_log_of_ne v m hd]
    exact h.candidate d t L hs ht hnone
  · intro t d hd ht
    have hlog := h.leading t d hd ht
    by_cases hdv : d = v
    · subst d
      rw [← ht] at hlog ⊢
      rw [s.adopt_log_self]
      change merge (s.log v) _ = s.leaderLog (s.term v)
      rw [merge_of_isPrefix (by rw [hlog]; exact List.take_prefix _ _)]
      exact hlog
    · rw [s.adopt_log_of_ne v m hdv]
      exact hlog
  · refine forall_adopt_log (P := fun _ L => Chained τ (s.adopt v m) L) ?_ fun w => hg.chained (h.log w)
    exact hg.chained ((h.leaderLog _ hled).of_isPrefix (List.take_prefix _ _))
  · refine forall_adopt_log (P := fun w L => ∀ e ∈ L, τ e ≤ s.term w) ?_ h.log_le
    exact fun e he => h.leaderLog_le _ hled e (List.mem_of_mem_take he)
  · intro w t ha
    by_cases hw : w = v ∧ t = s.term v
    · obtain ⟨rfl,rfl⟩ := hw
      refine ⟨hled,le_refl _,?_⟩
      rw [s.adopt_acked_self]
      refine max_le ?_ hm
      by_cases hpos : 0 < s.acked w (s.term w)
      · exact (h.acked w _ hpos).2.2
      · omega
    · rw [s.adopt_acked_of_ne v m hw] at ha ⊢
      exact h.acked w t ha
  · intro w t ht
    by_cases hw : w = v
    · subst w
      have hold := h.acked_log v _ rfl
      rw [← ht]
      change List.take ((s.adopt v m).acked v (s.term v)) (s.leaderLog (s.term v)) <+: _
      rw [s.adopt_acked_self,s.adopt_log_self]
      rcases le_total m (s.acked v (s.term v)) with hle | hle
      · have hp : (s.leaderLog (s.term v)).take m <+: s.log v := (List.take_prefix_take_left hle).trans hold
        rw [max_eq_left hle,merge_of_isPrefix hp]
        exact hold
      · rw [max_eq_right hle]
        exact prefix_merge _ _
    · rw [s.adopt_acked_of_ne v m (fun hh => hw hh.1),s.adopt_log_of_ne v m hw]
      exact h.acked_log w t ht
  · intro t d hd
    have hold := h.acked_leader t d hd
    by_cases hw : d = v ∧ t = s.term v
    · obtain ⟨rfl,rfl⟩ := hw
      rw [s.adopt_acked_self]
      exact hold.trans (le_max_left _ _)
    · rw [s.adopt_acked_of_ne v m hw]
      exact hold
  · refine forall_adopt_log (P := fun _ L => ∀ k e, L[k]? = some e → ok (k + 1) e) ?_ h.ok_log
    intro k e he
    rw [List.getElem?_take] at he
    split at he
    · exact h.ok_leaderLog _ hled k e he
    · cases he

theorem Matching.step (h : Matching τ ok s) (hv : Voting Q s) (hs : Step Q τ ok s s') : Matching τ ok s' := by
  cases hs with
  | observe v t ht =>
    exact h.advance hv rfl rfl rfl rfl (s.term_le_update v ht) (fun _ _ _ hs => Or.inl hs)
  | stand v t ht =>
    refine h.advance hv rfl rfl rfl rfl (s.term_le_update v ht) ?_
    intro c u L hs
    by_cases hc : c = v ∧ u = t
    · obtain ⟨rfl,rfl⟩ := hc
      rw [s.stand_standing_self] at hs
      exact Or.inr ⟨(Option.some.inj hs).symm,ht⟩
    · rw [s.stand_standing_of_ne v hc] at hs
      exact Or.inl hs
  | grant v c _ _ _ => exact h.advance hv rfl rfl rfl rfl (fun _ => le_refl _) (fun _ _ _ hs => Or.inl hs)
  | elect c _ hn _ => exact h.elect hn
  | append c e hc he hok => exact h.append hc he hok
  | adopt v m hled hm => exact h.adopt hled hm

/-- Leaders stay and their logs only grow. -/
theorem Matching.grows (h : Matching τ ok s) (hs : Step Q τ ok s s') : Grows τ s s' := by
  cases hs with
  | observe v t _ => exact Grows.of_eq rfl rfl
  | stand v t _ => exact Grows.of_eq rfl rfl
  | grant v c _ _ _ => exact Grows.of_eq rfl rfl
  | elect c _ hn _ => exact grows_elect hn
  | append c e hc he _ => exact grows_append h hc he
  | adopt v m _ _ => exact Grows.of_eq rfl rfl

/-- What a later state still knows: leaders and their logs, candidacies and
acknowledgements. -/
structure Extends (τ : E → ℕ) (s s' : State N E) : Prop where
  grows : Grows τ s s'
  standing : ∀ c t L, s.standing c t = some L → s'.standing c t = some L
  acked : ∀ v t, s.acked v t ≤ s'.acked v t

omit [DecidableEq N] in
theorem Extends.refl (s : State N E) : Extends τ s s :=
  ⟨Grows.of_eq rfl rfl,fun _ _ _ h => h,fun _ _ => le_refl _⟩

theorem Extends.step (hv : Voting Q s) (hm : Matching τ ok s) (hs : Step Q τ ok s s') : Extends τ s s' := by
  have hg := hm.grows hs
  cases hs with
  | observe v t _ => exact ⟨hg,fun _ _ _ h => h,fun _ _ => le_refl _⟩
  | stand v t ht =>
    refine ⟨hg,?_,fun _ _ => le_refl _⟩
    intro c u L hL
    rw [s.stand_standing_of_ne v ?_]
    · exact hL
    · rintro ⟨rfl,rfl⟩
      have := hv.standing c u L hL
      omega
  | grant v c _ _ _ => exact ⟨hg,fun _ _ _ h => h,fun _ _ => le_refl _⟩
  | elect c _ hn _ =>
    refine ⟨hg,fun _ _ _ h => h,?_⟩
    intro v t
    by_cases hvt : v = c ∧ t = s.term c
    · obtain ⟨rfl,rfl⟩ := hvt
      by_contra hlt
      have hpos : 0 < s.acked v (s.term v) := by omega
      obtain ⟨d,hd⟩ := (hm.acked v _ hpos).1
      rw [hn] at hd
      cases hd
    · exact (s.elect_acked_of_ne c hvt).ge
  | append c e hc _ _ =>
    refine ⟨hg,fun _ _ _ h => h,?_⟩
    intro v t
    by_cases hvt : v = c ∧ t = s.term c
    · obtain ⟨rfl,rfl⟩ := hvt
      rw [s.append_acked_self]
      by_cases hpos : 0 < s.acked v (s.term v)
      · have := (hm.acked v _ hpos).2.2
        rw [← hm.leading _ v hc rfl] at this
        omega
      · omega
    · exact (s.append_acked_of_ne c e hvt).ge
  | adopt v m _ _ =>
    refine ⟨hg,fun _ _ _ h => h,?_⟩
    intro w t
    by_cases hvt : w = v ∧ t = s.term v
    · obtain ⟨rfl,rfl⟩ := hvt
      rw [s.adopt_acked_self]
      exact le_max_left _ _
    · exact (s.adopt_acked_of_ne v m hvt).ge

end Step

theorem Grows.trans {s' s'' : State N E} (h : Grows τ s s') (h' : Grows τ s' s'') : Grows τ s s'' where
  leader t c hc := h'.leader t c (h.leader t c hc)
  leaderLog t ht := by
    obtain ⟨ext,he,hext⟩ := h.leaderLog t ht
    obtain ⟨ext',he',hext'⟩ := h'.leaderLog t (h.led ht)
    refine ⟨ext ++ ext',by rw [he',he,List.append_assoc],?_⟩
    intro e hmem
    rcases List.mem_append.mp hmem with hmem | hmem
    · exact hext e hmem
    · exact hext' e hmem

theorem Extends.trans {s' s'' : State N E} (h : Extends τ s s') (h' : Extends τ s' s'') : Extends τ s s'' :=
  ⟨h.grows.trans h'.grows,fun c t L hL => h'.standing c t L (h.standing c t L hL),
    fun v t => (h.acked v t).trans (h'.acked v t)⟩

/-- What is committed stays committed. -/
theorem Extends.committed {Q : QuorumSystem N} {s' : State N E} (h : Extends τ s s') {T T' : ℕ} {P : List E}
    (hP : Committed τ Q s T P) (hT : T ≤ T') : Committed τ Q s' T' P := by
  rcases hP with rfl | ⟨t,ht,P',hs,hq,hp⟩
  · exact Or.inl rfl
  · refine Or.inr ⟨t,ht.trans hT,P',h.grows.sealed hs,?_,hp⟩
    exact Q.mono hq fun v hv => le_trans hv (h.acked v t)

end DistributedSystems.ReplicatedLog
