import DistributedSystems.Pbft.Prompt
import DistributedSystems.Pbft.Transit

/-! # Completion without faults

What was sent is taken in or still in flight, and no node is behind its counts. When
nothing is in flight any more, every node has therefore committed what the primary
proposed.
-/
namespace DistributedSystems.Pbft
variable {Op Dig : Type} [DecidableEq Dig]

namespace Transit

/-- A message that its destination has taken in or will be handed. -/
def Accounted (c : Transit Op Dig) (j : ℕ) (message : Message Op Dig) : Prop :=
  (c.nodes j).Noted message ∨ (j,message) ∈ c.inFlight

/-- All nodes are in view 0, whose primary is node 0. -/
structure Completing (totalNodes : ℕ) (c : Transit Op Dig) : Prop where
  member : ∀ i < totalNodes, (c.nodes i).Member totalNodes i
  view : ∀ i < totalNodes, (c.nodes i).view = 0
  prompt : ∀ i < totalNodes, (c.nodes i).Prompt
  numbered : ∀ key pp, (c.nodes 0).prePrepares key = some pp → key.1 = 0 ∧ key.2 ≤ (c.nodes 0).seqNum
  original : ∀ i < totalNodes, ∀ key pp, (c.nodes i).prePrepares key = some pp → (c.nodes 0).prePrepares key = some pp
  counted : ∀ key, ((c.nodes 0).prepares key).Nonempty → ∃ pp, (c.nodes 0).prePrepares key = some pp
  destination : ∀ p ∈ c.inFlight, p.1 < totalNodes
  grounded : ∀ p ∈ c.inFlight, (c.nodes 0).Grounded p.2
  proposed : ∀ key pp, (c.nodes 0).prePrepares key = some pp → ∀ j < totalNodes, c.Accounted j (.prePrepare pp)
  prepare : ∀ i < totalNodes, i ≠ 0 → ∀ key pp, (c.nodes i).prePrepares key = some pp →
    ∀ j < totalNodes, c.Accounted j (.prepare ⟨i,key.1,key.2,pp.digest⟩)
  commit : ∀ i < totalNodes, ∀ key ∈ (c.nodes i).preparedPredicate, ∀ pp, (c.nodes i).prePrepares key = some pp →
    ∀ j < totalNodes, c.Accounted j (.commit ⟨i,key.1,key.2,pp.digest⟩)

namespace Completing
variable {totalNodes : ℕ} {c : Transit Op Dig}

theorem init (totalNodes : ℕ) : Completing totalNodes (Transit.init Op Dig totalNodes) where
  member _ _ := ⟨rfl,rfl,rfl⟩
  view _ _ := rfl
  prompt i _ := PBFTNode.init_prompt i totalNodes
  numbered _ _ h := by cases h
  original _ _ _ _ h := by cases h
  counted _ h := absurd h.choose_spec (Finset.notMem_empty _)
  destination _ h := absurd h List.not_mem_nil
  grounded _ h := absurd h List.not_mem_nil
  proposed _ _ h := by cases h
  prepare _ _ _ _ _ h := by cases h
  commit _ _ _ h := absurd h (Finset.notMem_empty _)

/-- What is in flight belongs to view 0. -/
theorem ofView (h : Completing totalNodes c) {message : Message Op Dig} (hg : (c.nodes 0).Grounded message) :
    PBFTNode.OfView 0 message := by
  cases message with
  | prePrepare pp =>
    have hkey : (c.nodes 0).prePrepares pp.key = some pp := hg
    exact (h.numbered _ _ hkey).1
  | prepare msg =>
    obtain ⟨pp,hpp,-⟩ := hg
    exact (h.numbered _ _ hpp).1
  | commit msg =>
    obtain ⟨pp,hpp,-⟩ := hg
    exact (h.numbered _ _ hpp).1
  | _ => trivial

theorem eq_zero_of_isPrimary (h : Completing totalNodes c) {i : ℕ} (hi : i < totalNodes) (hp : (c.nodes i).isPrimary) :
    i = 0 := by
  unfold PBFTNode.isPrimary at hp
  rw [(h.member i hi).nodeId,h.view i hi,Int.zero_emod] at hp
  exact_mod_cast hp

end Completing

/-- A node of the cluster finishes a handler. Of the messages in flight, only the one it
was handed is gone. -/
structure Handled (totalNodes : ℕ) (c c' : Transit Op Dig) (i : ℕ) (message : Option (Message Op Dig))
    (out : PBFTNode Op Dig × List (Outgoing Op Dig)) : Prop where
  lt : i < totalNodes
  nodes : c'.nodes = c.nodes
  sub : ∀ p ∈ c'.inFlight, p ∈ c.inFlight
  keep : ∀ p ∈ c.inFlight, p ∈ c'.inFlight ∨ (p.1 = i ∧ message = some p.2)
  given : ∀ m ∈ message, (c.nodes 0).Grounded m
  step : PBFTNode.NormalStep message (c.nodes i) out

namespace Handled
variable {totalNodes i : ℕ} {c c' : Transit Op Dig} {message : Option (Message Op Dig)}
  {out : PBFTNode Op Dig × List (Outgoing Op Dig)}

theorem learns (hs : Handled totalNodes c c' i message out) (j : ℕ) :
    (c.nodes j).Learns ((c'.update totalNodes i out).nodes j) := by
  refine forall_nodes_update (P := fun j n => (c.nodes j).Learns n) hs.step.learns (fun j => ?_) j
  rw [hs.nodes]
  exact .refl _

/-- A message that was in flight still is, or the node has taken note of it. -/
theorem accounted (hs : Handled totalNodes c c' i message out) (h : Completing totalNodes c) {j : ℕ}
    {m : Message Op Dig} (ha : c.Accounted j m) : (c'.update totalNodes i out).Accounted j m := by
  rcases ha with hn | hf
  · exact Or.inl ((hs.learns j).noted hn)
  · rcases hs.keep _ hf with hf | ⟨rfl,hm⟩
    · exact Or.inr (mem_update_of_mem hf)
    · left
      have hview : PBFTNode.OfView (c.nodes j).view m := by
        rw [h.view j hs.lt]
        exact h.ofView (hs.given m hm)
      rw [update_self]
      exact hs.step.noted m hm hview

omit [DecidableEq Dig] in
/-- What the node broadcasts is in flight to the others, and the node itself has taken note of it. -/
theorem accounted_broadcast {m : Message Op Dig} (hm : .broadcast m ∈ out.2) (hown : out.1.Noted m) {j : ℕ}
    (hj : j < totalNodes) : (c'.update totalNodes i out).Accounted j m := by
  by_cases hji : j = i
  · subst j
    left
    rw [update_self]
    exact hown
  · exact Or.inr (mem_update_of_broadcast hm hj hji)

theorem prompt (hs : Handled totalNodes c c' i message out) (h : Completing totalNodes c) :
    ∀ j < totalNodes, ((c'.update totalNodes i out).nodes j).Prompt := by
  refine forall_lt_update (P := fun _ n => n.Prompt) (fun _ => hs.step.prompt) fun j hj => ?_
  rw [hs.nodes]
  exact h.prompt j hj

/-- A pre-prepare that the node was handed is the one that the primary stores. -/
theorem handed (hs : Handled totalNodes c c' i message out) {key : Key} {pp : PrePrepareMessage Op Dig}
    (hm : message = some (.prePrepare pp)) (hkey : pp.key = key) : (c.nodes 0).prePrepares key = some pp := by
  have hg : (c.nodes 0).prePrepares pp.key = some pp := hs.given _ hm
  rw [hkey] at hg
  exact hg

/-- What a node stores, the primary stores. -/
theorem original (hs : Handled totalNodes c c' i message out) (h : Completing totalNodes c) :
    ∀ j < totalNodes, ∀ key pp, ((c'.update totalNodes i out).nodes j).prePrepares key = some pp →
      ((c'.update totalNodes i out).nodes 0).prePrepares key = some pp := by
  intro j hj key pp hpp
  by_cases hji : j = i
  · subst j
    by_cases hi0 : i = 0
    · rw [hi0] at hpp ⊢
      exact hpp
    · have hkey := (hs.prompt h i hj).stored key pp hpp
      rw [update_self] at hpp
      rcases hs.step.stored key pp hpp with hold | ⟨hm,-⟩ | ⟨hp,-⟩
      · exact (hs.learns 0).prePrepares _ _ (h.original i hj key pp hold)
      · exact (hs.learns 0).prePrepares _ _ (hs.handed hm hkey)
      · exact absurd (h.eq_zero_of_isPrimary hj hp) hi0
  · rw [update_ne hji,hs.nodes] at hpp
    exact (hs.learns 0).prePrepares _ _ (h.original j hj key pp hpp)

theorem numbered (hs : Handled totalNodes c c' i message out) (h : Completing totalNodes c) :
    ∀ key pp, ((c'.update totalNodes i out).nodes 0).prePrepares key = some pp →
      key.1 = 0 ∧ key.2 ≤ ((c'.update totalNodes i out).nodes 0).seqNum := by
  by_cases hi0 : i = 0
  · subst i
    rw [update_self]
    intro key pp hpp
    have hle : ∀ {key : Key}, key.1 = 0 ∧ key.2 ≤ (c.nodes 0).seqNum → key.1 = 0 ∧ key.2 ≤ out.1.seqNum :=
      fun hn => ⟨hn.1,hn.2.trans hs.step.seqNum⟩
    rcases hs.step.stored key pp hpp with hold | ⟨hm,-⟩ | ⟨-,rfl,hseq,-⟩
    · exact hle (h.numbered key pp hold)
    · exact hle (h.numbered key pp (hs.handed hm (hs.step.prompt.stored key pp hpp)))
    · exact ⟨h.view 0 hs.lt,hseq.ge⟩
  · rw [update_ne (Ne.symm hi0),hs.nodes]
    exact h.numbered

theorem counted (hs : Handled totalNodes c c' i message out) (h : Completing totalNodes c) :
    ∀ key, (((c'.update totalNodes i out).nodes 0).prepares key).Nonempty →
      ∃ pp, ((c'.update totalNodes i out).nodes 0).prePrepares key = some pp := by
  by_cases hi0 : i = 0
  · subst i
    rw [update_self]
    intro key hne
    rcases hs.step.counted key hne with hold | hold | ⟨msg,hm,rfl⟩
    · obtain ⟨pp,hpp⟩ := h.counted key hold
      exact ⟨pp,hs.step.learns.prePrepares _ _ hpp⟩
    · exact hold
    · obtain ⟨pp,hpp,-⟩ := hs.given _ hm
      exact ⟨pp,hs.step.learns.prePrepares _ _ hpp⟩
  · rw [update_ne (Ne.symm hi0),hs.nodes]
    exact h.counted

/-- A node votes for what it stores. -/
theorem grounded (hs : Handled totalNodes c c' i message out) (h : Completing totalNodes c) :
    ∀ p ∈ (c'.update totalNodes i out).inFlight, ((c'.update totalNodes i out).nodes 0).Grounded p.2 := by
  intro p hp
  rcases mem_update_inFlight hp with hp | ⟨o,ho,-,hm⟩
  · exact (hs.learns 0).grounded (h.grounded p (hs.sub p hp))
  rw [hm]
  have hg := hs.step.grounded o ho
  have hlift : ∀ key pp, out.1.prePrepares key = some pp →
      ((c'.update totalNodes i out).nodes 0).prePrepares key = some pp := by
    intro key pp hpp
    apply hs.original h i hs.lt key pp
    rw [update_self]
    exact hpp
  cases hmsg : o.message with
  | request msg => trivial
  | prePrepare pp =>
    rw [hmsg] at hg
    exact hlift _ _ hg
  | prepare msg =>
    rw [hmsg] at hg
    obtain ⟨pp,hpp,hd⟩ := hg
    exact ⟨pp,hlift _ _ hpp,hd⟩
  | commit msg =>
    rw [hmsg] at hg
    obtain ⟨pp,hpp,hd⟩ := hg
    exact ⟨pp,hlift _ _ hpp,hd⟩
  | viewChange msg => exact absurd hmsg (hs.step.keepsView.viewChange o ho msg)
  | newView msg => exact absurd hmsg (hs.step.keepsView.newView o ho msg)

theorem proposed (hs : Handled totalNodes c c' i message out) (h : Completing totalNodes c) :
    ∀ key pp, ((c'.update totalNodes i out).nodes 0).prePrepares key = some pp → ∀ j < totalNodes,
      (c'.update totalNodes i out).Accounted j (.prePrepare pp) := by
  intro key pp hpp j hj
  by_cases hi0 : i = 0
  · subst i
    rw [update_self] at hpp
    have hkey := hs.step.prompt.stored key pp hpp
    rcases hs.step.stored key pp hpp with hold | ⟨hm,-⟩ | ⟨-,-,-,hb⟩
    · exact hs.accounted h (h.proposed key pp hold j hj)
    · exact hs.accounted h (h.proposed key pp (hs.handed hm hkey) j hj)
    · refine accounted_broadcast hb ⟨pp,?_⟩ hj
      rw [hkey]
      exact hpp
  · rw [update_ne (Ne.symm hi0),hs.nodes] at hpp
    exact hs.accounted h (h.proposed key pp hpp j hj)

theorem prepare (hs : Handled totalNodes c c' i message out) (h : Completing totalNodes c) :
    ∀ x < totalNodes, x ≠ 0 → ∀ key pp, ((c'.update totalNodes i out).nodes x).prePrepares key = some pp →
      ∀ j < totalNodes, (c'.update totalNodes i out).Accounted j (.prepare ⟨x,key.1,key.2,pp.digest⟩) := by
  intro x hx hx0 key pp hpp j hj
  by_cases hxi : x = i
  · subst x
    rw [update_self] at hpp
    rcases hs.step.stored key pp hpp with hold | ⟨-,hown,hb⟩ | ⟨hp,-⟩
    · exact hs.accounted h (h.prepare i hx hx0 key pp hold j hj)
    · rw [(h.member i hx).nodeId] at hown hb
      exact accounted_broadcast hb hown hj
    · exact absurd (h.eq_zero_of_isPrimary hx hp) hx0
  · rw [update_ne hxi,hs.nodes] at hpp
    exact hs.accounted h (h.prepare x hx hx0 key pp hpp j hj)

theorem commit (hs : Handled totalNodes c c' i message out) (h : Completing totalNodes c) :
    ∀ x < totalNodes, ∀ key ∈ ((c'.update totalNodes i out).nodes x).preparedPredicate, ∀ pp,
      ((c'.update totalNodes i out).nodes x).prePrepares key = some pp → ∀ j < totalNodes,
      (c'.update totalNodes i out).Accounted j (.commit ⟨x,key.1,key.2,pp.digest⟩) := by
  intro x hx key hmem pp hpp j hj
  by_cases hxi : x = i
  · subst x
    rw [update_self] at hmem hpp
    rcases hs.step.prepared key hmem with hold | ⟨pp',hpp',hb⟩
    · obtain ⟨pp',hpp',-⟩ := (h.prompt i hx).prepared key hold
      cases Option.some.inj ((hs.step.learns.prePrepares _ _ hpp').symm.trans hpp)
      exact hs.accounted h (h.commit i hx key hold pp hpp' j hj)
    · cases Option.some.inj (hpp'.symm.trans hpp)
      rw [(h.member i hx).nodeId] at hb
      -- the own vote was recorded when the node became prepared
      obtain ⟨pp'',hpp'',hown⟩ := hs.step.prompt.prepared key hmem
      cases Option.some.inj (hpp''.symm.trans hpp)
      rw [hs.step.keepsView.nodeId,(h.member i hx).nodeId] at hown
      exact accounted_broadcast hb hown hj
  · rw [update_ne hxi,hs.nodes] at hmem hpp
    exact hs.accounted h (h.commit x hx key hmem pp hpp j hj)

theorem completing (hs : Handled totalNodes c c' i message out) (h : Completing totalNodes c) :
    Completing totalNodes (c'.update totalNodes i out) where
  member := by
    refine forall_lt_update (P := fun j n => n.Member totalNodes j)
      (fun hi => hs.step.keepsView.member (h.member i hi)) fun j hj => ?_
    rw [hs.nodes]
    exact h.member j hj
  view := by
    refine forall_lt_update (P := fun _ n => n.view = 0)
      (fun hi => hs.step.keepsView.view.trans (h.view i hi)) fun j hj => ?_
    rw [hs.nodes]
    exact h.view j hj
  prompt := hs.prompt h
  numbered := hs.numbered h
  original := hs.original h
  counted := hs.counted h
  destination p hp := by
    rcases mem_update_inFlight hp with hp | ⟨o,-,hlt,-⟩
    · exact h.destination p (hs.sub p hp)
    · exact hlt
  grounded := hs.grounded h
  proposed := hs.proposed h
  prepare := hs.prepare h
  commit := hs.commit h

end Handled

namespace Completing
variable {totalNodes : ℕ} {c : Transit Op Dig}

/-- A primary takes a number for which nothing is stored or counted. -/
theorem fresh (h : Completing totalNodes c) {i : ℕ} (hi : i < totalNodes) (hp : (c.nodes i).isPrimary) :
    (c.nodes i).prePrepares ((c.nodes i).view,(c.nodes i).seqNum + 1) = none ∧
      (c.nodes i).prepares ((c.nodes i).view,(c.nodes i).seqNum + 1) = ∅ := by
  obtain rfl := h.eq_zero_of_isPrimary hi hp
  have hnone : ∀ pp, (c.nodes 0).prePrepares ((c.nodes 0).view,(c.nodes 0).seqNum + 1) ≠ some pp := by
    intro pp hpp
    have hle := (h.numbered _ pp hpp).2
    dsimp only at hle
    omega
  refine ⟨Option.eq_none_iff_forall_ne_some.mpr hnone,Finset.not_nonempty_iff_eq_empty.mp fun hne => ?_⟩
  obtain ⟨pp,hpp⟩ := h.counted _ hne
  exact hnone pp hpp

theorem step [DecidableEq Op] (h : Completing totalNodes c) (digest : Op → Option Dig) {e : Event Op}
    (he : ∀ i, e ≠ .triggerViewChange i) : Completing totalNodes (c.step totalNodes digest e) := by
  cases e with
  | propose i operation reqId =>
    unfold Transit.step
    dsimp only
    split
    · rename_i hi
      have hs := PBFTNode.NormalStep.propose (h.prompt i hi) digest operation reqId (h.fresh hi)
      have hhandled : Handled totalNodes c c i none ((c.nodes i).propose digest operation reqId) :=
        ⟨hi,rfl,fun _ hp => hp,fun _ hp => Or.inl hp,fun _ hm => absurd hm (Option.not_mem_none _),hs⟩
      exact hhandled.completing h
    · exact h
  | triggerViewChange i => exact absurd rfl (he i)
  | deliver k =>
    cases hk : c.inFlight[k]? with
    | none =>
      unfold Transit.step
      dsimp only
      rw [hk]
      exact h
    | some p =>
      obtain ⟨i,message⟩ := p
      rw [step_deliver hk]
      have hmem := List.mem_of_getElem? hk
      have hi : i < totalNodes := h.destination _ hmem
      have hg : (c.nodes 0).Grounded message := h.grounded _ hmem
      have hp := h.prompt i hi
      have hs : PBFTNode.NormalStep (some message) (c.nodes i) ((c.nodes i).receive digest message) := by
        cases message with
        | request msg => exact .handleRequest hp digest msg (h.fresh hi)
        | prePrepare msg => exact .handlePrePrepare hp msg
        | prepare msg => exact .handlePrepare hp msg
        | commit msg => exact .handleCommit hp msg
        | viewChange msg => exact absurd hg id
        | newView msg => exact absurd hg id
      have hhandled : Handled totalNodes c (c.take k) i (some message) ((c.nodes i).receive digest message) := by
        refine ⟨hi,rfl,fun _ => mem_of_mem_take,fun p hp => ?_,fun m hm => ?_,hs⟩
        · apply (mem_take hk hp).imp id
          intro he
          rw [he]
          exact ⟨rfl,rfl⟩
        · cases hm
          exact hg
      exact hhandled.completing h

/-- The votes of distinct nodes that are all in. -/
theorem card_votes {votes : Finset (ℕ × Dig)} {d : Dig} {voters : Finset ℕ} (h : ∀ i ∈ voters, (i,d) ∈ votes) :
    voters.card ≤ (votes.filter (·.2 = d)).card := by
  have hinj : Function.Injective fun i : ℕ => (i,d) := fun _ _ hij => congrArg Prod.fst hij
  rw [← Finset.card_image_of_injective voters hinj]
  apply Finset.card_le_card
  intro p hp
  obtain ⟨i,hi,rfl⟩ := Finset.mem_image.mp hp
  exact Finset.mem_filter.mpr ⟨h i hi,rfl⟩

/-- With nothing in flight every vote has been counted, and every node has acted on it. -/
theorem committed (h : Completing totalNodes c) (hn : 2 ≤ totalNodes) (hend : c.inFlight = []) {key : Key}
    {pp : PrePrepareMessage Op Dig} (hpp : (c.nodes 0).prePrepares key = some pp) {i : ℕ} (hi : i < totalNodes) :
    (c.nodes i).CommittedWith key pp.digest := by
  have hnoted : ∀ j m, c.Accounted j m → (c.nodes j).Noted m := by
    intro j m ha
    apply ha.resolve_right
    rw [hend]
    exact List.not_mem_nil
  have hkey := (h.prompt 0 (by omega)).stored key pp hpp
  have hstored : ∀ j < totalNodes, (c.nodes j).prePrepares key = some pp := by
    intro j hj
    obtain ⟨pp',hpp'⟩ := hnoted j _ (h.proposed key pp hpp j hj)
    rw [hkey] at hpp'
    have horig := h.original j hj key pp' hpp'
    rw [hpp] at horig
    cases horig
    exact hpp'
  have hprep : ∀ j < totalNodes, key ∈ (c.nodes j).preparedPredicate := by
    intro j hj
    have hcard : ((Finset.range totalNodes).erase 0).card ≤ (c.nodes j).prepareCount key pp.digest := by
      apply card_votes
      intro x hx
      obtain ⟨hx0,hx⟩ := Finset.mem_erase.mp hx
      have hx := Finset.mem_range.mp hx
      exact hnoted j _ (h.prepare x hx hx0 key pp (hstored x hx) j hj)
    rw [Finset.card_erase_of_mem (Finset.mem_range.mpr (by omega)),Finset.card_range] at hcard
    apply (h.prompt j hj).prepares key pp (fun he => by cases he) (hstored j hj) (by omega)
    rw [(h.member j hj).f]
    omega
  have hcard : (Finset.range totalNodes).card ≤ (c.nodes i).commitCount key pp.digest := by
    apply card_votes
    intro x hx
    have hx := Finset.mem_range.mp hx
    exact hnoted i _ (h.commit x hx key (hprep x hx) pp (hstored x hx) i hi)
  rw [Finset.card_range] at hcard
  apply (h.prompt i hi).commits key pp (fun he => by cases he) (hstored i hi) (hprep i hi)
  rw [(h.member i hi).f]
  omega

end Completing

/-- Without faults and view changes, a cluster with nothing in flight has committed every
key for which some node, such as the primary that assigned it, stores a PRE-PREPARE. -/
theorem fault_free_completion [DecidableEq Op] {totalNodes : ℕ} (hn : 2 ≤ totalNodes) (digest : Op → Option Dig)
    {schedule : List (Event Op)} (hnormal : ∀ i, .triggerViewChange i ∉ schedule)
    (hend : (Runs.run (step totalNodes digest) (init Op Dig totalNodes) schedule).inFlight = []) {p : ℕ}
    (hp : p < totalNodes) {key : Key} {pp : PrePrepareMessage Op Dig}
    (hpp : ((Runs.run (step totalNodes digest) (init Op Dig totalNodes) schedule).nodes p).prePrepares key = some pp)
    {i : ℕ} (hi : i < totalNodes) :
    ((Runs.run (step totalNodes digest) (init Op Dig totalNodes) schedule).nodes i).CommittedWith key pp.digest := by
  have halong : Runs.Along (step totalNodes digest) (fun _ e => ∀ i, e ≠ .triggerViewChange i)
      (init Op Dig totalNodes) schedule :=
    Runs.along_of_forall (P := fun e : Event Op => ∀ i, e ≠ .triggerViewChange i)
      (fun e he i hei => hnormal i (hei ▸ he)) _
  have hinv := Runs.run_invariant (I := Completing totalNodes) (fun _ _ h he => h.step digest he) (.init totalNodes)
    halong
  exact hinv.committed hn hend (hinv.original p hp key pp hpp) hi

/-- Four nodes: one request of node 0 and one that node 2 forwards; everything is
delivered, the latest message first. -/
def latestFirst : List (Event ℕ) :=
  [.propose 2 7 1,.propose 0 8 2] ++ [3,2,5,7,9].map .deliver ++ List.replicate 60 (.deliver 0)

/-- The request that node 2 forwarded has the second number. -/
theorem fault_free_completion_forwarded :
    ((Runs.run (step 4 some) (init ℕ ℕ 4) latestFirst).nodes 3).CommittedWith (0,2) 7 :=
  @fault_free_completion ℕ ℕ _ _ 4 (by decide) some latestFirst (by simp [latestFirst]) (by decide +kernel) 0
    (by decide) (0,2) ⟨0,0,2,7,some (RequestMessage.asdict ⟨2,0,2,7,1⟩)⟩ (by decide +kernel) 3 (by decide)

end Transit

end DistributedSystems.Pbft
