import DistributedSystems.Protocol.LogMatching

/-! # Leader completeness

Whoever acknowledged a sealed prefix keeps it, unless the leader of a later term
lacked it. Voters pass it on to the candidates they vote for, and electors to the
leaders they elect. When a quorum acknowledged the prefix, every later electorate
meets the quorum, so by induction on the term no leader lacks the prefix.
-/
namespace DistributedSystems.ReplicatedLog
variable {N E : Type*} {τ : E → ℕ} {s : State N E}

/-- The participant acknowledged the sealed prefix in the prefix's own term. -/
def Stored (τ : E → ℕ) (s : State N E) (v : N) (t : ℕ) (P : List E) : Prop :=
  Sealed τ s t P ∧ P.length ≤ s.acked v t

theorem Sealed.length_pos {t : ℕ} {P : List E} (h : Sealed τ s t P) : 0 < P.length := by
  obtain ⟨_,_,e,he,_⟩ := h
  exact List.length_pos_of_mem (List.mem_of_getLast? he)

theorem Missed.mono {t T T' : ℕ} {P : List E} (h : Missed s t T P) (hT : T ≤ T') : Missed s t T' P := by
  obtain ⟨w,htw,hwT,hw⟩ := h
  exact ⟨w,htw,hwT.trans_le hT,hw⟩

/-- What is stored after a step was stored before, unless it was acknowledged in it. -/
theorem Stored.back {ok : ℕ → E → Prop} {s' : State N E} (hm : Matching τ ok s) (hg : Grows τ s s')
    {v : N} {t : ℕ} {P : List E} (h : Stored τ s' v t P) (hack : s'.acked v t = s.acked v t) :
    Stored τ s v t P := by
  obtain ⟨hs,hlen⟩ := h
  rw [hack] at hlen
  obtain ⟨hled,_,hle⟩ := hm.acked v t (hs.length_pos.trans_le hlen)
  exact ⟨hg.sealed_back hs hled (hlen.trans hle),hlen⟩

/-- Where sealed prefixes survive: in logs, in candidacies and in leader logs. -/
structure Keeps (τ : E → ℕ) (s : State N E) : Prop where
  kept : ∀ v t P, Stored τ s v t P → P <+: s.log v ∨ Missed s t (s.term v + 1) P
  voted : ∀ v u c L, s.vote v u = some c → s.standing c u = some L →
    ∀ t P, t < u → Stored τ s v t P → P <+: L ∨ Missed s t (u + 1) P
  elected : ∀ u, s.Led u → ∀ v ∈ s.electors u,
    ∀ t P, t < u → Stored τ s v t P → P <+: s.leaderLog u ∨ Missed s t u P

theorem Keeps.init (τ : E → ℕ) : Keeps τ (State.init N E) where
  kept v t P h := by
    obtain ⟨_,hc⟩ := h.1.1
    cases hc
  voted v u c L h := by cases h
  elected u h := by
    obtain ⟨_,hc⟩ := h
    cases hc

/-- The up-to-date check: a candidate that passes it holds every sealed prefix of the
voter's log, unless some leader in between lacks it. -/
theorem UpToDate.holds_sealed {ok : ℕ → E → Prop} (hm : Matching τ ok s) {c v : N} {u t : ℕ} {L P : List E}
    (hL : s.standing c u = some L) (hup : UpToDate τ L (s.log v)) (hP : Sealed τ s t P)
    (hlog : P <+: s.log v) : P <+: L ∨ Missed s t u P := by
  obtain ⟨hchain,hbound⟩ := hm.standing c u L hL
  obtain ⟨hled,hPt,e,he,het⟩ := hP
  -- the voter's log ends in a term of at least `t`
  have hne : s.log v ≠ [] := by
    intro hnil
    rw [hnil,List.prefix_nil] at hlog
    rw [hlog] at he
    cases he
  obtain ⟨x,hx⟩ : ∃ x, (s.log v).getLast? = some x := ⟨_,List.getLast?_eq_some_getLast hne⟩
  have hvt : lastTerm τ (s.log v) = τ x := by simp [lastTerm,hx]
  have htx : t ≤ τ x := by
    have := (hm.log v).le_last hx hm.leaderLog_le e (hlog.mem (List.mem_of_getLast? he))
    omega
  have hLne : L ≠ [] := by
    rintro rfl
    rcases hup with hlt | ⟨_,hlen⟩
    · exact absurd hlt (Nat.not_lt_zero _)
    · exact hne (List.length_eq_zero_iff.mp (Nat.le_zero.mp hlen))
  obtain ⟨y,hy⟩ : ∃ y, L.getLast? = some y := ⟨_,List.getLast?_eq_some_getLast hLne⟩
  have hcy : lastTerm τ L = τ y := by simp [lastTerm,hy]
  obtain ⟨hledy,hLy⟩ := hchain.last hy
  rw [UpToDate,hvt,hcy] at hup
  rcases Nat.lt_or_ge t (τ y) with hlt | hge
  · -- the candidate's last entry comes from a later leader
    by_cases hPy : P <+: s.leaderLog (τ y)
    · left
      rcases le_total P.length L.length with hlen | hlen
      · exact List.prefix_of_prefix_length_le hPy hLy hlen
      · have hLP : L <+: P := List.prefix_of_prefix_length_le hLy hPy hlen
        have hPchain : Chained τ s P := (hm.log v).of_isPrefix hlog
        have := hPchain.le_last he hm.leaderLog_le y (hLP.mem (List.mem_of_getLast? hy))
        omega
    · exact Or.inr ⟨τ y,hlt,hbound y (List.mem_of_getLast? hy),hledy,hPy⟩
  · -- both logs end in term `t`
    left
    have hyt : τ y = t := by omega
    rw [hyt] at hLy
    have hlen : (s.log v).length ≤ L.length := by omega
    exact List.prefix_of_prefix_length_le hPt hLy (hlog.length_le.trans hlen)

section Step
variable [DecidableEq N] {Q : QuorumSystem N} {ok : ℕ → E → Prop} {s' : State N E}

theorem Keeps.observe (h : Keeps τ s) {v : N} {t : ℕ} (ht : s.term v < t) : Keeps τ (s.observe v t) where
  kept w u P hP := by
    have hle := s.term_le_update v ht w
    exact (h.kept w u P hP).imp id (fun hmiss => hmiss.mono (Nat.succ_le_succ hle))
  voted := h.voted
  elected := h.elected

theorem Keeps.stand (h : Keeps τ s) (hv : Voting Q s) {v : N} {t : ℕ} (ht : s.term v < t) :
    Keeps τ (s.stand v t) where
  kept w u P hP := by
    have hle := s.term_le_update v ht w
    exact (h.kept w u P hP).imp id (fun hmiss => hmiss.mono (Nat.succ_le_succ hle))
  voted := by
    intro w u c L hvote hstand r P hr hP
    by_cases hw : w = v ∧ u = t
    · -- the candidate votes for the log it holds
      obtain ⟨rfl,rfl⟩ := hw
      rw [s.stand_vote_self] at hvote
      cases hvote
      rw [s.stand_standing_self] at hstand
      cases hstand
      exact (h.kept w r P hP).imp id (fun hmiss => hmiss.mono (by omega))
    · rw [s.stand_vote_of_ne v hw] at hvote
      have hc : ¬(c = v ∧ u = t) := by
        rintro ⟨rfl,rfl⟩
        obtain ⟨_,L',hL'⟩ := hv.vote w u c hvote
        have := hv.standing c u L' hL'
        omega
      rw [s.stand_standing_of_ne v hc] at hstand
      exact h.voted w u c L hvote hstand r P hr hP
  elected := h.elected

theorem Keeps.grant (h : Keeps τ s) (hm : Matching τ ok s) {v c : N} {L : List E}
    (hL : s.standing c (s.term v) = some L) (hup : UpToDate τ L (s.log v)) : Keeps τ (s.grant v c) where
  kept := h.kept
  voted := by
    intro w u d L' hvote hstand r P hr hP
    by_cases hw : w = v ∧ u = s.term v
    · obtain ⟨rfl,rfl⟩ := hw
      rw [s.grant_vote_self] at hvote
      cases hvote
      have hLL : L = L' := Option.some.inj (hL.symm.trans hstand)
      subst L'
      rcases h.kept w r P hP with hlog | hmiss
      · exact (hup.holds_sealed hm hL hP.1 hlog).imp id (fun hmiss => hmiss.mono (Nat.le_succ _))
      · exact Or.inr hmiss
    · rw [s.grant_vote_of_ne v c hw] at hvote
      exact h.voted w u d L' hvote hstand r P hr hP
  elected := h.elected

theorem Keeps.elect (h : Keeps τ s) (hm : Matching τ ok s) {c : N} {L : List E}
    (hL : s.standing c (s.term c) = some L) (hn : s.leader (s.term c) = none) : Keeps τ (s.elect c) := by
  have hg : Grows τ s (s.elect c) := grows_elect hn
  have hlog : s.log c = L := hm.candidate c _ L hL rfl hn
  -- nothing is sealed in the new term yet
  have hback : ∀ {v t P}, Stored τ (s.elect c) v t P → Stored τ s v t P := by
    intro v t P hP
    by_cases hv : v = c ∧ t = s.term c
    · obtain ⟨rfl,rfl⟩ := hv
      obtain ⟨_,hp,e,he,het⟩ := hP.1
      rw [s.elect_leaderLog_self,hlog] at hp
      have := (hm.standing v _ L hL).2 e (hp.mem (List.mem_of_getLast? he))
      omega
    · exact hP.back hm hg (s.elect_acked_of_ne c hv)
  refine ⟨?_,?_,?_⟩
  · intro v t P hP
    exact (h.kept v t P (hback hP)).imp id (hg.missed (hback hP).1.2.2)
  · intro v u d L' hvote hstand t P ht hP
    exact (h.voted v u d L' hvote hstand t P ht (hback hP)).imp id (hg.missed (hback hP).1.2.2)
  · intro u hu v hv t P ht hP
    have hP := hback hP
    by_cases hut : u = s.term c
    · subst u
      rw [s.elect_electors_self] at hv
      rw [s.elect_leaderLog_self,hlog]
      rcases h.voted v _ c L hv hL t P ht hP with hp | hmiss
      · exact Or.inl hp
      · right
        -- the term itself had no leader when the votes were cast
        obtain ⟨w,htw,hwT,⟨d,hd⟩,hw⟩ := hmiss
        refine hg.missed hP.1.2.2 ⟨w,htw,lt_of_le_of_ne (Nat.lt_succ_iff.mp hwT) ?_,⟨d,hd⟩,hw⟩
        rintro rfl
        rw [hn] at hd
        cases hd
    · rw [s.elect_electors_of_ne c hut] at hv
      rw [s.elect_leaderLog_of_ne c hut]
      obtain ⟨d,hd⟩ := hu
      rw [s.elect_leader_of_ne c hut] at hd
      exact (h.elected u ⟨d,hd⟩ v hv t P ht hP).imp id (hg.missed hP.1.2.2)

theorem Keeps.append (h : Keeps τ s) (hv : Voting Q s) (hm : Matching τ ok s) {c : N} {e : E}
    (hc : s.leader (s.term c) = some c) (he : τ e = s.term c) : Keeps τ (s.append c e) := by
  have hg : Grows τ s (s.append c e) := grows_append hm hc he
  have hlog : ∀ v, s.log v <+: (s.append c e).log v := by
    intro v
    by_cases hvc : v = c
    · subst v
      rw [s.append_log_self]
      exact List.prefix_append _ _
    · rw [s.append_log_of_ne c e hvc]
  -- only the leader acknowledges anything, and it has no vote in a later term
  have hlater : ∀ {v u d t P}, (s.append c e).vote v u = some d → t < u →
      Stored τ (s.append c e) v t P → Stored τ s v t P := by
    intro v u d t P hvote ht hP
    refine hP.back hm hg (s.append_acked_of_ne c e ?_)
    rintro ⟨rfl,rfl⟩
    have := (hv.vote v u d hvote).1
    omega
  refine ⟨?_,?_,?_⟩
  · intro v t P hP
    by_cases hvc : v = c ∧ t = s.term c
    · obtain ⟨rfl,rfl⟩ := hvc
      left
      have hp := hP.1.2.1
      rw [s.append_leaderLog_self] at hp
      rw [s.append_log_self]
      exact hp
    · have hP := hP.back hm hg (s.append_acked_of_ne c e hvc)
      exact (h.kept v t P hP).imp (fun hp => hp.trans (hlog v)) (hg.missed hP.1.2.2)
  · intro v u d L hvote hstand t P ht hP
    have hP := hlater hvote ht hP
    exact (h.voted v u d L hvote hstand t P ht hP).imp id (hg.missed hP.1.2.2)
  · intro u hu v hvu t P ht hP
    obtain ⟨d,hd⟩ := hu
    have hP := hlater (hv.voted u d hd v hvu) ht hP
    exact (h.elected u ⟨d,hd⟩ v hvu t P ht hP).imp
      (fun hp => hp.trans (hg.prefix_leaderLog ⟨d,hd⟩)) (hg.missed hP.1.2.2)

omit [DecidableEq N] in
/-- Adopting `R`, a prefix of `G`, keeps every prefix of `G` the log already had. -/
theorem prefix_merge_of_isPrefix {P L G : List E} {m : ℕ} (hL : P <+: L) (hG : P <+: G) :
    P <+: merge L (G.take m) := by
  by_cases hR : G.take m <+: L
  · rw [merge_of_isPrefix hR]
    exact hL
  · rw [merge_of_not_isPrefix hR]
    rcases le_total P.length (G.take m).length with hlen | hlen
    · exact List.prefix_of_prefix_length_le hG (List.take_prefix _ _) hlen
    · exact absurd ((List.prefix_of_prefix_length_le (List.take_prefix _ _) hG hlen).trans hL) hR

theorem Keeps.adopt (h : Keeps τ s) (hv : Voting Q s) (hm : Matching τ ok s) {v : N} {m : ℕ}
    (hled : s.Led (s.term v)) : Keeps τ (s.adopt v m) := by
  have hg : Grows τ s (s.adopt v m) := Grows.of_eq rfl rfl
  have hlater : ∀ {w u d t P}, s.vote w u = some d → t < u →
      Stored τ (s.adopt v m) w t P → Stored τ s w t P := by
    intro w u d t P hvote ht hP
    refine hP.back hm hg (s.adopt_acked_of_ne v m ?_)
    rintro ⟨rfl,rfl⟩
    have := (hv.vote w u d hvote).1
    omega
  -- a stored prefix survives the merge or the leader of this term lacks it
  have hkeep : ∀ t P, Stored τ s v t P → P <+: (s.adopt v m).log v ∨ Missed s t (s.term v + 1) P := by
    intro t P hP
    rcases h.kept v t P hP with hp | hmiss
    · by_cases hlead : P <+: s.leaderLog (s.term v)
      · left
        rw [s.adopt_log_self]
        exact prefix_merge_of_isPrefix hp hlead
      · right
        refine ⟨s.term v,?_,Nat.lt_succ_self _,hled,hlead⟩
        apply lt_of_le_of_ne (hm.acked v t (hP.1.length_pos.trans_le hP.2)).2.1
        rintro rfl
        exact hlead hP.1.2.1
    · exact Or.inr hmiss
  refine ⟨?_,?_,?_⟩
  · intro w t P hP
    by_cases hw : w = v
    · subst w
      by_cases ht : t = s.term v
      · subst t
        have hlen := hP.2
        rw [s.adopt_acked_self] at hlen
        rcases le_max_iff.mp hlen with hlen | hlen
        · exact hkeep _ P ⟨hP.1,hlen⟩
        · left
          rw [s.adopt_log_self]
          exact (List.prefix_take_iff.mpr ⟨hP.1.2.1,hlen⟩).trans (prefix_merge _ _)
      · exact hkeep t P (hP.back hm hg (s.adopt_acked_of_ne v m (fun hh => ht hh.2)))
    · have hP := hP.back hm hg (s.adopt_acked_of_ne v m (fun hh => hw hh.1))
      rw [s.adopt_log_of_ne v m hw]
      exact h.kept w t P hP
  · intro w u d L hvote hstand t P ht hP
    exact h.voted w u d L hvote hstand t P ht (hlater hvote ht hP)
  · intro u hu w hwu t P ht hP
    obtain ⟨d,hd⟩ := hu
    exact h.elected u ⟨d,hd⟩ w hwu t P ht (hlater (hv.voted u d hd w hwu) ht hP)

theorem Keeps.step (h : Keeps τ s) (hv : Voting Q s) (hm : Matching τ ok s) (hs : Step Q τ ok s s') :
    Keeps τ s' := by
  cases hs with
  | observe v t ht => exact h.observe ht
  | stand v t ht => exact h.stand hv ht
  | grant v c _ hL hup => exact h.grant hm hL hup
  | elect c hL hn _ => exact h.elect hm hL hn
  | append c e hc he _ => exact h.append hv hm hc he
  | adopt v m hled _ => exact h.adopt hv hm hled

end Step

/-- The invariant of the protocol. -/
structure Inv (Q : QuorumSystem N) (τ : E → ℕ) (ok : ℕ → E → Prop) (s : State N E) : Prop where
  voting : Voting Q s
  matching : Matching τ ok s
  keeps : Keeps τ s

theorem Inv.init (Q : QuorumSystem N) (τ : E → ℕ) (ok : ℕ → E → Prop) : Inv Q τ ok (State.init N E) :=
  ⟨Voting.init Q,Matching.init τ ok,Keeps.init τ⟩

section Safety
variable {Q : QuorumSystem N} {ok : ℕ → E → Prop} {s' : State N E}

theorem Inv.step [DecidableEq N] (h : Inv Q τ ok s) (hs : Step Q τ ok s s') : Inv Q τ ok s' :=
  ⟨h.voting.step hs,h.matching.step h.voting hs,h.keeps.step h.voting h.matching hs⟩

theorem Inv.steps [DecidableEq N] (h : Inv Q τ ok s) (hs : Steps Q τ ok s s') : Inv Q τ ok s' := by
  induction hs with
  | refl => exact h
  | tail _ hstep ih => exact ih.step hstep

/-- Every leader of a term `t` or later holds a prefix sealed in term `t` that a
quorum acknowledged. -/
theorem Inv.leader_complete (h : Inv Q τ ok s) {t : ℕ} {P : List E} (hP : Sealed τ s t P)
    (hq : Q.isQuorum {v | P.length ≤ s.acked v t}) {u : ℕ} (htu : t ≤ u) (hu : s.Led u) :
    P <+: s.leaderLog u := by
  induction u using Nat.strong_induction_on with
  | h u ih =>
    rcases htu.eq_or_lt with rfl | hlt
    · exact hP.2.1
    · obtain ⟨v,hvq,hve⟩ := Q.inter hq (h.voting.electors u hu)
      rcases h.keeps.elected u hu v hve t P hlt ⟨hP,hvq⟩ with hp | ⟨w,htw,hwu,hw,hnot⟩
      · exact hp
      · exact absurd (ih w hwu htw.le hw) hnot

/-- A committed prefix is part of the leader log of the term it was committed by. -/
theorem Inv.committed_isPrefix (h : Inv Q τ ok s) {T : ℕ} {P : List E} (hP : Committed τ Q s T P)
    (hT : s.Led T) : P <+: s.leaderLog T := by
  rcases hP with rfl | ⟨t,ht,P',hs,hq,hp⟩
  · exact List.nil_prefix
  · exact hp.trans (h.leader_complete hs hq ht hT)

/-- Any two committed prefixes are prefixes of one another. -/
theorem Inv.committed_comparable (h : Inv Q τ ok s) {T T' : ℕ} {P P' : List E}
    (hP : Committed τ Q s T P) (hP' : Committed τ Q s T' P') : P <+: P' ∨ P' <+: P := by
  rcases hP with rfl | ⟨t,_,A,hA,hqA,hp⟩
  · exact Or.inl List.nil_prefix
  rcases hP' with rfl | ⟨t',_,A',hA',hqA',hp'⟩
  · exact Or.inr List.nil_prefix
  have hcommon : ∃ G, P <+: G ∧ P' <+: G := by
    rcases le_total t t' with hle | hle
    · exact ⟨s.leaderLog t',hp.trans (h.leader_complete hA hqA hle hA'.1),hp'.trans hA'.2.1⟩
    · exact ⟨s.leaderLog t,hp.trans hA.2.1,hp'.trans (h.leader_complete hA' hqA' hle hA.1)⟩
  obtain ⟨G,hG,hG'⟩ := hcommon
  rcases le_total P.length P'.length with hlen | hlen
  · exact Or.inl (List.prefix_of_prefix_length_le hG hG' hlen)
  · exact Or.inr (List.prefix_of_prefix_length_le hG' hG hlen)

end Safety

end DistributedSystems.ReplicatedLog
