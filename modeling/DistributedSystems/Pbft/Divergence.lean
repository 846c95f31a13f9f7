import DistributedSystems.Pbft.Agreement
import Mathlib.Order.Interval.Finset.Nat

/-! # Two quorums apart

With two or three nodes more than three times the tolerated faults, two camps of `f + 1`
honest nodes fit beside the `f` Byzantine ones. Each camp reaches its own `2f + 1`
commits with the help of the Byzantine nodes, which vote for both digests.
-/
namespace DistributedSystems.Pbft
variable {Op Dig : Type} [DecidableEq Op] [DecidableEq Dig]

/-- The key both camps vote on. -/
def slot : Key := (0,1)

/-- The vote of a node for a digest at that key. -/
def slotVote (x : ℕ) (d : Dig) : VoteMessage Dig := ⟨x,0,1,d⟩

/-- A node that stands by a PRE-PREPARE of the slot. -/
structure Ready (n : PBFTNode Op Dig) (d : Dig) : Prop where
  view : n.view = 0
  stored : ∃ pp, n.prePrepares slot = some pp ∧ pp.key = slot ∧ pp.digest = d
  committed : slot ∈ n.committedPredicate → n.CommittedWith slot d

/-- Such a node acts as soon as its counts allow it to. -/
structure Settled (n : PBFTNode Op Dig) (d : Dig) : Prop extends Ready n d where
  ownPrepare : (n.nodeId,d) ∈ n.prepares slot
  ownCommit : slot ∈ n.preparedPredicate → (n.nodeId,d) ∈ n.commits slot
  prepares : 2 * n.f ≤ ((n.prepares slot).filter (·.2 = d)).card → slot ∈ n.preparedPredicate
  commits : slot ∈ n.preparedPredicate → 2 * n.f + 1 ≤ ((n.commits slot).filter (·.2 = d)).card →
    n.CommittedWith slot d

/-- What a node knows only grows. -/
structure Grows (n n' : PBFTNode Op Dig) : Prop where
  nodeId : n'.nodeId = n.nodeId
  f : n'.f = n.f
  prepares : n.prepares slot ⊆ n'.prepares slot
  commits : n.commits slot ⊆ n'.commits slot
  prepared : slot ∈ n.preparedPredicate → slot ∈ n'.preparedPredicate

omit [DecidableEq Op] [DecidableEq Dig] in
theorem Grows.refl (n : PBFTNode Op Dig) : Grows n n :=
  ⟨rfl,rfl,Finset.Subset.refl _,Finset.Subset.refl _,id⟩

omit [DecidableEq Op] [DecidableEq Dig] in
theorem Grows.trans {n n' n'' : PBFTNode Op Dig} (h : Grows n n') (h' : Grows n' n'') : Grows n n'' :=
  ⟨h'.nodeId.trans h.nodeId,h'.f.trans h.f,h.prepares.trans h'.prepares,h.commits.trans h'.commits,
    fun hp => h'.prepared (h.prepared hp)⟩

namespace Ready
variable {n : PBFTNode Op Dig} {d : Dig}

/-- After `check_committed` a prepared node with a quorum has committed. -/
theorem checkCommitted (h : Ready n d) :
    Ready (n.checkCommitted slot d) d ∧ Grows n (n.checkCommitted slot d) ∧
      (n.checkCommitted slot d).prepares = n.prepares ∧ (n.checkCommitted slot d).commits = n.commits ∧
      (n.checkCommitted slot d).preparedPredicate = n.preparedPredicate ∧
      (slot ∈ n.preparedPredicate → 2 * n.f + 1 ≤ ((n.commits slot).filter (·.2 = d)).card →
        (n.checkCommitted slot d).CommittedWith slot d) := by
  rcases n.checkCommitted_cases slot d with ⟨hno,heq⟩ | ⟨-,-,-,heq⟩
  · rw [heq]
    refine ⟨h,.refl n,rfl,rfl,rfl,fun hp hcard => h.committed ?_⟩
    by_contra hc
    exact hno ⟨hc,hp,hcard⟩
  · rw [heq]
    obtain ⟨pp,hpp,hkey,hd⟩ := h.stored
    unfold PBFTNode.executeRequest
    dsimp only
    rw [hpp]
    refine ⟨⟨h.view,⟨pp,hpp,hkey,hd⟩,?_⟩,⟨rfl,rfl,Finset.Subset.refl _,Finset.Subset.refl _,id⟩,rfl,rfl,rfl,?_⟩
    · intro _
      exact ⟨Finset.mem_insert_self _ _,pp,List.mem_append_right _ (List.mem_singleton.mpr rfl),hkey,hd⟩
    · intro _ _
      exact ⟨Finset.mem_insert_self _ _,pp,List.mem_append_right _ (List.mem_singleton.mpr rfl),hkey,hd⟩

/-- After `check_prepared` a node with enough prepares is prepared, and says so. -/
theorem checkPrepared (h : Ready n d) (hown : (n.nodeId,d) ∈ n.prepares slot)
    (hownC : slot ∈ n.preparedPredicate → (n.nodeId,d) ∈ n.commits slot)
    (hc : slot ∈ n.preparedPredicate → 2 * n.f + 1 ≤ ((n.commits slot).filter (·.2 = d)).card →
      n.CommittedWith slot d) :
    Settled (n.checkPrepared slot d).1 d ∧ Grows n (n.checkPrepared slot d).1 ∧
      (slot ∈ (n.checkPrepared slot d).1.preparedPredicate →
        slot ∈ n.preparedPredicate ∨ .broadcast (.commit (slotVote n.nodeId d)) ∈ (n.checkPrepared slot d).2) := by
  rcases n.checkPrepared_cases slot d with ⟨hno,heq⟩ | ⟨-,-,heq⟩
  · rw [heq]
    refine ⟨⟨h,hown,hownC,fun hcard => ?_,hc⟩,.refl n,Or.inl⟩
    by_contra hp
    exact hno ⟨hp,hcard⟩
  · rw [heq]
    have hb : Ready (n.becomePrepared slot d) d := ⟨h.view,h.stored,h.committed⟩
    obtain ⟨hr,hg,hprep,hcom,hpred,hcw⟩ := hb.checkCommitted
    have hmem : slot ∈ (n.becomePrepared slot d).preparedPredicate := Finset.mem_insert_self _ _
    have hvote : (n.becomePrepared slot d).commits slot = insert (n.nodeId,d) (n.commits slot) :=
      n.becomePrepared_commits_self slot d
    have hgrow : Grows n (n.becomePrepared slot d) :=
      ⟨rfl,rfl,Finset.Subset.refl _,by rw [hvote]; exact Finset.subset_insert _ _,fun _ => hmem⟩
    refine ⟨⟨hr,?_,?_,?_,?_⟩,hgrow.trans hg,?_⟩
    · rw [hg.nodeId,hprep]
      exact hown
    · intro _
      rw [hg.nodeId,hcom,hvote]
      exact Finset.mem_insert_self _ _
    · intro _
      rw [hpred]
      exact hmem
    · intro _ hcard
      rw [hg.f,hcom] at hcard
      exact hcw hmem hcard
    · intro _
      refine Or.inr (List.mem_singleton.mpr ?_)
      rw [h.view]
      rfl

end Ready

namespace Settled
variable {n : PBFTNode Op Dig} {d : Dig}

theorem handlePrepare (h : Settled n d) (x : ℕ) :
    Settled (n.handlePrepare (slotVote x d)).1 d ∧ Grows n (n.handlePrepare (slotVote x d)).1 ∧
      (x,d) ∈ (n.handlePrepare (slotVote x d)).1.prepares slot ∧
      (slot ∈ (n.handlePrepare (slotVote x d)).1.preparedPredicate →
        slot ∈ n.preparedPredicate ∨
          .broadcast (.commit (slotVote n.nodeId d)) ∈ (n.handlePrepare (slotVote x d)).2) := by
  obtain ⟨pp,hpp,hkey,hd⟩ := h.stored
  have hvote : (n.addPrepare slot x d).prepares slot = insert (x,d) (n.prepares slot) :=
    n.addPrepare_prepares_self slot x d
  have hready : Ready (n.addPrepare slot x d) d := ⟨h.view,h.stored,h.committed⟩
  have hgrow : Grows n (n.addPrepare slot x d) :=
    ⟨rfl,rfl,by rw [hvote]; exact Finset.subset_insert _ _,Finset.Subset.refl _,id⟩
  have heq : n.handlePrepare (slotVote x d) = (n.addPrepare slot x d).checkPrepared slot d := by
    rcases n.handlePrepare_cases (slotVote x d) with ⟨hview,-⟩ | ⟨-,hother,-⟩ | ⟨-,pp',-,hd',heq⟩
    · exact absurd h.view.symm hview
    · exact absurd hd (hother pp hpp)
    · rw [heq,hd']
      rfl
  rw [heq]
  obtain ⟨hs,hg,hsent⟩ := hready.checkPrepared (hgrow.prepares h.ownPrepare) h.ownCommit h.commits
  exact ⟨hs,hgrow.trans hg,hg.prepares (by rw [hvote]; exact Finset.mem_insert_self _ _),hsent⟩

theorem handleCommit (h : Settled n d) (x : ℕ) :
    Settled (n.handleCommit (slotVote x d)) d ∧ Grows n (n.handleCommit (slotVote x d)) ∧
      (x,d) ∈ (n.handleCommit (slotVote x d)).commits slot ∧
      (n.handleCommit (slotVote x d)).preparedPredicate = n.preparedPredicate := by
  obtain ⟨pp,hpp,hkey,hd⟩ := h.stored
  have hvote : (n.addCommit slot x d).commits slot = insert (x,d) (n.commits slot) :=
    n.addCommit_commits_self slot x d
  have hready : Ready (n.addCommit slot x d) d := ⟨h.view,h.stored,h.committed⟩
  have hgrow : Grows n (n.addCommit slot x d) :=
    ⟨rfl,rfl,Finset.Subset.refl _,by rw [hvote]; exact Finset.subset_insert _ _,id⟩
  have heq : n.handleCommit (slotVote x d) = (n.addCommit slot x d).checkCommitted slot d := by
    rcases n.handleCommit_cases (slotVote x d) with ⟨hview,-⟩ | ⟨-,hother,-⟩ | ⟨-,pp',-,hd',heq⟩
    · exact absurd h.view.symm hview
    · exact absurd hd (hother pp hpp)
    · rw [heq,hd']
      rfl
  rw [heq]
  obtain ⟨hr,hg,hprep,hcom,hpred,hcw⟩ := hready.checkCommitted
  refine ⟨⟨hr,?_,?_,?_,?_⟩,hgrow.trans hg,?_,hpred⟩
  · rw [hg.nodeId,hprep]
    exact h.ownPrepare
  · intro hp
    rw [hpred] at hp
    rw [hg.nodeId]
    exact hg.commits (hgrow.commits (h.ownCommit hp))
  · intro hcard
    rw [hg.f,hprep] at hcard
    rw [hpred]
    exact h.prepares hcard
  · intro hp hcard
    rw [hpred] at hp
    rw [hg.f,hcom] at hcard
    exact hcw hp hcard
  · rw [hcom,hvote]
    exact Finset.mem_insert_self _ _

variable (Op) in
/-- A new node that is sent a PRE-PREPARE of the slot. -/
theorem handlePrePrepare (i N : ℕ) (d : Dig) :
    Settled ((PBFTNode.init i N : PBFTNode Op Dig).handlePrePrepare ⟨0,0,1,d,none⟩).1 d ∧
      Grows (PBFTNode.init i N) ((PBFTNode.init i N : PBFTNode Op Dig).handlePrePrepare ⟨0,0,1,d,none⟩).1 ∧
      .broadcast (.prepare (slotVote i d)) ∈
        ((PBFTNode.init i N : PBFTNode Op Dig).handlePrePrepare ⟨0,0,1,d,none⟩).2 ∧
      (slot ∈ ((PBFTNode.init i N : PBFTNode Op Dig).handlePrePrepare ⟨0,0,1,d,none⟩).1.preparedPredicate →
        .broadcast (.commit (slotVote i d)) ∈
          ((PBFTNode.init i N : PBFTNode Op Dig).handlePrePrepare ⟨0,0,1,d,none⟩).2) := by
  let pp : PrePrepareMessage Op Dig := ⟨0,0,1,d,none⟩
  let n : PBFTNode Op Dig := ((PBFTNode.init i N).storePrePrepare pp).addPrepare slot i d
  have hstored : n.prePrepares slot = some pp := (PBFTNode.init i N).storePrePrepare_prePrepares_self pp
  have hready : Ready n d := ⟨rfl,⟨pp,hstored,rfl,rfl⟩,fun h => absurd h (Finset.notMem_empty _)⟩
  have hvote : n.prepares slot = insert (i,d) ∅ :=
    ((PBFTNode.init i N).storePrePrepare pp).addPrepare_prepares_self slot i d
  have hnp : slot ∉ n.preparedPredicate := Finset.notMem_empty _
  obtain ⟨hs,hg,hsent⟩ := hready.checkPrepared (by rw [hvote]; exact Finset.mem_insert_self _ _)
    (fun h => absurd h hnp) (fun h => absurd h hnp)
  have hgrow : Grows (PBFTNode.init i N) n :=
    ⟨rfl,rfl,Finset.empty_subset _,Finset.empty_subset _,fun h => absurd h (Finset.notMem_empty _)⟩
  refine ⟨hs,hgrow.trans hg,List.mem_cons_self,fun hp => List.mem_cons_of_mem _ ?_⟩
  exact (hsent hp).resolve_left hnp

end Settled

namespace System
variable {cfg : Config} {digest : Op → Option Dig} {G : Finset ℕ} {d : Dig}

/-- What the run of a camp `G` keeps: the rest of the cluster is left alone, and members
only learn. -/
structure Extends (G : Finset ℕ) (c c' : System Op Dig) : Prop where
  network : ∀ e ∈ c.network, e ∈ c'.network
  others : ∀ j ∉ G, c'.nodes j = c.nodes j
  members : ∀ i ∈ G, Grows (c.nodes i) (c'.nodes i)

omit [DecidableEq Op] [DecidableEq Dig] in
theorem Extends.refl (G : Finset ℕ) (c : System Op Dig) : Extends G c c :=
  ⟨fun _ he => he,fun _ _ => rfl,fun i _ => .refl (c.nodes i)⟩

omit [DecidableEq Op] [DecidableEq Dig] in
theorem Extends.trans {c c' c'' : System Op Dig} (h : Extends G c c') (h' : Extends G c' c'') : Extends G c c'' :=
  ⟨fun e he => h'.network e (h.network e he),fun j hj => (h'.others j hj).trans (h.others j hj),
    fun i hi => (h.members i hi).trans (h'.members i hi)⟩

/-- A member of a camp has announced what it stands by. -/
structure Announced (c : System Op Dig) (i : ℕ) (d : Dig) : Prop where
  settled : Settled (c.nodes i) d
  prepare : ⟨i,none,.prepare (slotVote i d)⟩ ∈ c.network
  commit : slot ∈ (c.nodes i).preparedPredicate → ⟨i,none,.commit (slotVote i d)⟩ ∈ c.network

/-- A member of the camp is new or has announced its PRE-PREPARE. -/
structure Camp (cfg : Config) (G : Finset ℕ) (d : Dig) (c : System Op Dig) : Prop where
  nodeId : ∀ i ∈ G, (c.nodes i).nodeId = i
  member : ∀ i ∈ G, c.nodes i = PBFTNode.init i cfg.totalNodes ∨ c.Announced i d
  proposal : ⟨0,none,.prePrepare ⟨0,0,1,d,none⟩⟩ ∈ c.network

omit [DecidableEq Op] [DecidableEq Dig] in
/-- Replacing one member by a node that knows more. -/
theorem Extends.update {c : System Op Dig} {i : ℕ} (hi : i ∈ G)
    {out : PBFTNode Op Dig × List (Outgoing Op Dig)} (hg : Grows (c.nodes i) out.1) : Extends G c (c.update i out) := by
  refine ⟨fun e he => List.mem_append_left _ he,fun j hj => ?_,fun j hj => ?_⟩
  · exact update_ne c out fun hji => hj (hji ▸ hi)
  · exact forall_nodes_update (P := fun j n => Grows (c.nodes j) n) hg (fun j => .refl (c.nodes j)) j

omit [DecidableEq Op] in
theorem Camp.update {c : System Op Dig} (h : Camp cfg G d c) {i : ℕ}
    {out : PBFTNode Op Dig × List (Outgoing Op Dig)} (hg : Grows (c.nodes i) out.1)
    (ha : (c.update i out).Announced i d) : Camp cfg G d (c.update i out) := by
  refine ⟨fun j hj => ?_,fun j hj => ?_,List.mem_append_left _ h.proposal⟩
  · by_cases hji : j = i
    · subst j
      rw [update_self,hg.nodeId]
      exact h.nodeId i hj
    · rw [update_ne c out hji]
      exact h.nodeId j hj
  · by_cases hji : j = i
    · subst j
      exact Or.inr ha
    · rcases h.member j hj with hm | hm
      · exact Or.inl ((update_ne c out hji).trans hm)
      · refine Or.inr ⟨?_,List.mem_append_left _ hm.prepare,fun hp => List.mem_append_left _ ?_⟩
        · rw [update_ne c out hji]
          exact hm.settled
        · rw [update_ne c out hji] at hp
          exact hm.commit hp

/-- The camp can reach a state with `Q` without touching the rest of the cluster. -/
def Camp.Reaches (cfg : Config) (digest : Op → Option Dig) (G : Finset ℕ) (d : Dig) (c : System Op Dig)
    (Q : System Op Dig → Prop) : Prop :=
  ∃ schedule, Camp cfg G d (Runs.run (System.step cfg digest) c schedule) ∧
    Extends G c (Runs.run (System.step cfg digest) c schedule) ∧ Q (Runs.run (System.step cfg digest) c schedule)

namespace Camp
variable {c : System Op Dig}

omit [DecidableEq Op] in
/-- A member that has voted for its own PRE-PREPARE has announced it. -/
theorem announced (h : Camp cfg G d c) {i : ℕ} (hi : i ∈ G) (hv : (i,d) ∈ (c.nodes i).prepares slot) :
    c.Announced i d := by
  rcases h.member i hi with hm | hm
  · rw [hm] at hv
    exact absurd hv (Finset.notMem_empty _)
  · exact hm

/-- Delivering to a member a message from which it learns `Q`. -/
theorem deliver (h : Camp cfg G d c) {i : ℕ} (hi : i ∈ G) (hh : cfg.honest i) {e : Envelope Op Dig}
    (he : e ∈ c.network) (hr : e.reaches i) (hg : Grows (c.nodes i) ((c.nodes i).receive digest e.message).1)
    (ha : (c.update i ((c.nodes i).receive digest e.message)).Announced i d) {Q : System Op Dig → Prop}
    (hQ : Q (c.update i ((c.nodes i).receive digest e.message))) : Reaches cfg digest G d c Q := by
  obtain ⟨k,hk⟩ := List.getElem?_of_mem he
  refine ⟨[.deliver k i],?_⟩
  rw [Runs.run_cons,Runs.run_nil,step_deliver hk hh hr]
  exact ⟨h.update hg ha,.update hi hg,hQ⟩

/-- A message of a Byzantine node is put into the network before it is used. -/
theorem inject (h : Camp cfg G d c) {x : ℕ} {message : Message Op Dig}
    (hx : x ∈ cfg.byzantine ∨ ⟨x,none,message⟩ ∈ c.network) (hs : message.sender = x) {Q : System Op Dig → Prop}
    (hQ : ∀ c', Camp cfg G d c' → Extends G c c' → ⟨x,none,message⟩ ∈ c'.network → Reaches cfg digest G d c' Q) :
    Reaches cfg digest G d c Q := by
  rcases hx with hx | hx
  · let c' : System Op Dig := { c with network := c.network ++ [⟨x,none,message⟩] }
    have hstep : c.step cfg digest (.inject ⟨x,none,message⟩) = c' := if_pos ⟨hx,hs⟩
    have hext : Extends G c c' := ⟨fun e he => List.mem_append_left _ he,fun _ _ => rfl,fun i _ => .refl (c.nodes i)⟩
    have hcamp : Camp cfg G d c' := by
      refine ⟨h.nodeId,fun i hi => (h.member i hi).imp id fun hm => ?_,List.mem_append_left _ h.proposal⟩
      exact ⟨hm.settled,List.mem_append_left _ hm.prepare,fun hp => List.mem_append_left _ (hm.commit hp)⟩
    obtain ⟨schedule,hc,he,hq⟩ := hQ c' hcamp hext (List.mem_append_right _ (List.mem_singleton.mpr rfl))
    refine ⟨.inject ⟨x,none,message⟩ :: schedule,?_⟩
    rw [Runs.run_cons,hstep]
    exact ⟨hc,hext.trans he,hq⟩
  · exact hQ c h (.refl G c) hx

/-- Every member can be made to announce its PRE-PREPARE. -/
theorem announce (h : Camp cfg G d c) {i : ℕ} (hi : i ∈ G) (hh : cfg.honest i) (hi0 : i ≠ 0) :
    Reaches cfg digest G d c fun c' => (i,d) ∈ (c'.nodes i).prepares slot := by
  rcases h.member i hi with hm | hm
  · obtain ⟨hs,hg,hprep,hcom⟩ := Settled.handlePrePrepare Op i cfg.totalNodes d
    rw [← hm] at hs hg hprep hcom
    have ha : (c.update i ((c.nodes i).handlePrePrepare ⟨0,0,1,d,none⟩)).Announced i d := by
      refine ⟨?_,List.mem_append_right _ (List.mem_map_of_mem hprep),fun hp => ?_⟩
      · rw [update_self]
        exact hs
      · rw [update_self] at hp
        exact List.mem_append_right _ (List.mem_map_of_mem (hcom hp))
    apply h.deliver hi hh h.proposal hi0 hg ha
    have hown := ha.settled.ownPrepare
    rw [(h.update hg ha).nodeId i hi] at hown
    exact hown
  · have hown := hm.settled.ownPrepare
    rw [h.nodeId i hi] at hown
    exact ⟨[],h,.refl G c,hown⟩

/-- A member that has announced itself can be made to count a PREPARE. -/
theorem hearPrepare (h : Camp cfg G d c) {i x : ℕ} (hi : i ∈ G) (hh : cfg.honest i)
    (hv : (i,d) ∈ (c.nodes i).prepares slot)
    (hx : x ∈ cfg.byzantine ∨ ⟨x,none,.prepare (slotVote x d)⟩ ∈ c.network) :
    Reaches cfg digest G d c fun c' => (x,d) ∈ (c'.nodes i).prepares slot := by
  by_cases hxi : x = i
  · subst x
    exact ⟨[],h,.refl G c,hv⟩
  apply h.inject hx rfl
  intro c' h' hext he
  have hm := h'.announced hi ((hext.members i hi).prepares hv)
  obtain ⟨hs,hg,hmem,hsent⟩ := hm.settled.handlePrepare x
  rw [h'.nodeId i hi] at hsent
  refine h'.deliver hi hh he (Ne.symm hxi) hg ⟨?_,List.mem_append_left _ hm.prepare,fun hp => ?_⟩ ?_
  · rw [update_self]
    exact hs
  · rw [update_self] at hp
    rcases hsent hp with hp | hb
    · exact List.mem_append_left _ (hm.commit hp)
    · exact List.mem_append_right _ (List.mem_map_of_mem hb)
  · rw [update_self]
    exact hmem

/-- The same for a COMMIT. -/
theorem hearCommit (h : Camp cfg G d c) {i x : ℕ} (hi : i ∈ G) (hh : cfg.honest i)
    (hv : (i,d) ∈ (c.nodes i).prepares slot) (hp : slot ∈ (c.nodes i).preparedPredicate)
    (hx : x ∈ cfg.byzantine ∨ ⟨x,none,.commit (slotVote x d)⟩ ∈ c.network) :
    Reaches cfg digest G d c fun c' => (x,d) ∈ (c'.nodes i).commits slot := by
  by_cases hxi : x = i
  · subst x
    have hown := (h.announced hi hv).settled.ownCommit hp
    rw [h.nodeId i hi] at hown
    exact ⟨[],h,.refl G c,hown⟩
  apply h.inject hx rfl
  intro c' h' hext he
  have hm := h'.announced hi ((hext.members i hi).prepares hv)
  obtain ⟨hs,hg,hmem,hpred⟩ := hm.settled.handleCommit x
  refine h'.deliver hi hh he (Ne.symm hxi) hg ⟨?_,List.mem_append_left _ hm.prepare,fun hp => ?_⟩ ?_
  · rw [update_self]
    exact hs
  · rw [update_self] at hp
    exact List.mem_append_left _ (hm.commit (hpred ▸ hp))
  · rw [update_self]
    exact hmem

/-- Goals that stay reached can be reached together. -/
theorem reaches_all {X : Type} (h : Camp cfg G d c) {Q : X → System Op Dig → Prop} (goals : Finset X)
    (hQ : ∀ x ∈ goals, ∀ s t, Extends G s t → Q x s → Q x t)
    (hgoal : ∀ x ∈ goals, ∀ s, Camp cfg G d s → Extends G c s → Reaches cfg digest G d s (Q x)) :
    Reaches cfg digest G d c fun c' => ∀ x ∈ goals, Q x c' := by
  have hall := Runs.reach_all (System.step cfg digest) (I := fun s => Camp cfg G d s ∧ Extends G c s)
    (R := Extends G) (Q := Q) (.refl G) (fun _ _ _ => .trans) goals.toList
    (fun x hx => hQ x (Finset.mem_toList.mp hx)) ?_ ⟨h,.refl G c⟩
  · obtain ⟨schedule,⟨hc,-⟩,he,hq⟩ := hall
    exact ⟨schedule,hc,he,fun x hx => hq x (Finset.mem_toList.mpr hx)⟩
  · intro x hx s hs
    obtain ⟨schedule,hc,he,hq⟩ := hgoal x (Finset.mem_toList.mp hx) s hs.1 hs.2
    exact ⟨schedule,⟨hc,hs.2.trans he⟩,he,hq⟩

theorem Reaches.trans {Q Q' : System Op Dig → Prop} (h : Reaches cfg digest G d c Q)
    (h' : ∀ c', Camp cfg G d c' → Extends G c c' → Q c' → Reaches cfg digest G d c' Q') :
    Reaches cfg digest G d c Q' := by
  obtain ⟨schedule,hc,he,hq⟩ := h
  obtain ⟨schedule',hc',he',hq'⟩ := h' _ hc he hq
  refine ⟨schedule ++ schedule',?_⟩
  rw [Runs.run_append]
  exact ⟨hc',he.trans he',hq'⟩

/-- Votes of the camp and of the Byzantine nodes for the digest. -/
theorem card_votes {votes : Finset (ℕ × Dig)} {voters : Finset ℕ} (h : ∀ x ∈ voters, (x,d) ∈ votes) :
    voters.card ≤ (votes.filter (·.2 = d)).card := by
  have hinj : Function.Injective fun x : ℕ => (x,d) := fun _ _ h => congrArg Prod.fst h
  rw [← Finset.card_image_of_injective voters hinj]
  apply Finset.card_le_card
  intro p hp
  obtain ⟨x,hx,rfl⟩ := Finset.mem_image.mp hp
  exact Finset.mem_filter.mpr ⟨h x hx,rfl⟩

/-- A camp that makes a quorum with the Byzantine nodes commits its digest: its members
announce themselves, count each other's PREPAREs and then each other's COMMITs. -/
theorem commits (h : Camp cfg G d c) (digest : Op → Option Dig) (hG : ∀ i ∈ G, cfg.honest i ∧ i ≠ 0)
    (hf : ∀ i ∈ G, 2 * (c.nodes i).f + 1 ≤ (G ∪ cfg.byzantine).card) :
    Reaches cfg digest G d c fun c' => ∀ i ∈ G, (c'.nodes i).CommittedWith slot d := by
  have hsplit : ∀ {p : ℕ × ℕ}, p ∈ G ×ˢ (G ∪ cfg.byzantine) → p.1 ∈ G ∧ (p.2 ∈ G ∨ p.2 ∈ cfg.byzantine) :=
    fun hp => ⟨(Finset.mem_product.mp hp).1,Finset.mem_union.mp (Finset.mem_product.mp hp).2⟩
  refine (h.reaches_all (Q := fun i s => (i,d) ∈ (s.nodes i).prepares slot) G ?_ ?_).trans ?_
  · intro i hi s t hst hv
    exact (hst.members i hi).prepares hv
  · intro i hi s hs _
    exact hs.announce hi (hG i hi).1 (hG i hi).2
  intro c₁ h₁ he₁ hv₁
  refine (h₁.reaches_all (Q := fun p s => (p.2,d) ∈ (s.nodes p.1).prepares slot) (G ×ˢ (G ∪ cfg.byzantine)) ?_ ?_).trans ?_
  · intro p hp s t hst hv
    exact (hst.members p.1 (hsplit hp).1).prepares hv
  · intro p hp s hs hext
    obtain ⟨hi,hx⟩ := hsplit hp
    apply hs.hearPrepare hi (hG p.1 hi).1 ((hext.members p.1 hi).prepares (hv₁ p.1 hi))
    rcases hx with hx | hx
    · exact Or.inr (hs.announced hx ((hext.members p.2 hx).prepares (hv₁ p.2 hx))).prepare
    · exact Or.inl hx
  intro c₂ h₂ he₂ hv₂
  have hself : ∀ i ∈ G, (i,d) ∈ (c₂.nodes i).prepares slot := fun i hi => (he₂.members i hi).prepares (hv₁ i hi)
  have hprep : ∀ i ∈ G, slot ∈ (c₂.nodes i).preparedPredicate := by
    intro i hi
    have hcard : (G ∪ cfg.byzantine).card ≤ (((c₂.nodes i).prepares slot).filter (·.2 = d)).card :=
      card_votes fun x hx => hv₂ (i,x) (Finset.mem_product.mpr ⟨hi,hx⟩)
    have hfi : (c₂.nodes i).f = (c.nodes i).f := ((he₁.trans he₂).members i hi).f
    have hfi' := hf i hi
    exact (h₂.announced hi (hself i hi)).settled.prepares (by omega)
  refine (h₂.reaches_all (Q := fun p s => (p.2,d) ∈ (s.nodes p.1).commits slot) (G ×ˢ (G ∪ cfg.byzantine)) ?_ ?_).trans ?_
  · intro p hp s t hst hv
    exact (hst.members p.1 (hsplit hp).1).commits hv
  · intro p hp s hs hext
    obtain ⟨hi,hx⟩ := hsplit hp
    refine hs.hearCommit hi (hG p.1 hi).1 ((hext.members p.1 hi).prepares (hself p.1 hi))
      ((hext.members p.1 hi).prepared (hprep p.1 hi)) ?_
    rcases hx with hx | hx
    · exact Or.inr ((hs.announced hx ((hext.members p.2 hx).prepares (hself p.2 hx))).commit
        ((hext.members p.2 hx).prepared (hprep p.2 hx)))
    · exact Or.inl hx
  intro c₃ h₃ he₃ hv₃
  refine ⟨[],h₃,.refl G c₃,fun i hi => ?_⟩
  have hcard : (G ∪ cfg.byzantine).card ≤ (((c₃.nodes i).commits slot).filter (·.2 = d)).card :=
    card_votes fun x hx => hv₃ (i,x) (Finset.mem_product.mpr ⟨hi,hx⟩)
  have hfi : (c₃.nodes i).f = (c.nodes i).f := (((he₁.trans he₂).trans he₃).members i hi).f
  have hfi' := hf i hi
  exact (h₃.announced hi ((he₃.members i hi).prepares (hself i hi))).settled.commits
    ((he₃.members i hi).prepared (hprep i hi)) (by omega)

/-- New members become a camp once a Byzantine primary has sent their PRE-PREPARE. -/
theorem commits_of_init (c : System Op Dig) (digest : Op → Option Dig) (d : Dig) (h0 : 0 ∈ cfg.byzantine) (hG : ∀ i ∈ G, cfg.honest i)
    (hnew : ∀ i ∈ G, c.nodes i = PBFTNode.init i cfg.totalNodes)
    (hcard : 2 * ((cfg.totalNodes - 1) / 3) + 1 ≤ (G ∪ cfg.byzantine).card) :
    ∃ schedule, (∀ j ∉ G, (Runs.run (System.step cfg digest) c schedule).nodes j = c.nodes j) ∧
      ∀ i ∈ G, ((Runs.run (System.step cfg digest) c schedule).nodes i).CommittedWith slot d := by
  let e : Envelope Op Dig := ⟨0,none,.prePrepare ⟨0,0,1,d,none⟩⟩
  let c' : System Op Dig := { c with network := c.network ++ [e] }
  have hstep : c.step cfg digest (.inject e) = c' := if_pos ⟨h0,rfl⟩
  have hcamp : Camp cfg G d c' :=
    ⟨fun i hi => by rw [show c'.nodes i = _ from hnew i hi]; rfl,fun i hi => Or.inl (hnew i hi),
      List.mem_append_right _ (List.mem_singleton.mpr rfl)⟩
  obtain ⟨schedule,-,he,hq⟩ := hcamp.commits digest
    (fun i hi => ⟨hG i hi,fun hi0 => (hG i hi).2 (hi0 ▸ h0)⟩)
    (fun i hi => by rw [show c'.nodes i = _ from hnew i hi]; exact hcard)
  refine ⟨.inject e :: schedule,?_⟩
  rw [Runs.run_cons,hstep]
  exact ⟨he.others,hq⟩

end Camp

/-- A cluster with two or three nodes more than `3f`, the first `f` of them Byzantine. -/
def splitConfig (N : ℕ) : Config where
  totalNodes := N
  byzantine := Finset.range ((N - 1) / 3)
  members i hi := by
    have := Finset.mem_range.mp hi
    omega
  bound := by rw [Finset.card_range]

variable (Op) in
theorem not_agreement (N : ℕ) (hN : 3 < N) (hmod : N % 3 ≠ 1) {d d' : Dig} (hd : d ≠ d')
    (digest : Op → Option Dig) :
    ∃ schedule, ¬(Runs.run (System.step (splitConfig N) digest) (System.init Op Dig (splitConfig N)) schedule).Agreement
      (splitConfig N) := by
  obtain ⟨f,hf⟩ : ∃ f, f = (N - 1) / 3 := ⟨_,rfl⟩
  have hbyz : ∀ i, i ∈ (splitConfig N).byzantine ↔ i < f := fun i => by rw [hf]; exact Finset.mem_range
  -- each camp has `f + 1` members and none of them is Byzantine
  have hhonest : ∀ a, f ≤ a → a ≤ 2 * f + 1 → ∀ i ∈ Finset.Ico a (a + f + 1), (splitConfig N).honest i := by
    intro a ha ha' i hi
    obtain ⟨hai,hia⟩ := Finset.mem_Ico.mp hi
    refine ⟨?_,fun hb => ?_⟩
    · change i < N
      omega
    · have := (hbyz i).mp hb
      omega
  have hcard : ∀ a, f ≤ a →
      2 * (((splitConfig N).totalNodes - 1) / 3) + 1 ≤ (Finset.Ico a (a + f + 1) ∪ (splitConfig N).byzantine).card := by
    intro a ha
    have hdisj : Disjoint (Finset.Ico a (a + f + 1)) (splitConfig N).byzantine := by
      apply Finset.disjoint_left.mpr
      intro i hi hb
      have hai := (Finset.mem_Ico.mp hi).1
      have hif := (hbyz i).mp hb
      omega
    rw [Finset.card_union_of_disjoint hdisj,Nat.card_Ico]
    change 2 * ((N - 1) / 3) + 1 ≤ a + f + 1 - a + (Finset.range ((N - 1) / 3)).card
    rw [Finset.card_range]
    omega
  have h0 : 0 ∈ (splitConfig N).byzantine := (hbyz 0).mpr (by omega)
  obtain ⟨first,hothers,hleft⟩ := Camp.commits_of_init (System.init Op Dig (splitConfig N)) digest d h0
    (hhonest f (le_refl f) (by omega)) (fun _ _ => rfl) (hcard f (le_refl f))
  have hnew : ∀ i ∈ Finset.Ico (2 * f + 1) (2 * f + 1 + f + 1),
      i ∉ Finset.Ico f (f + f + 1) := by
    intro i hi hi'
    have := (Finset.mem_Ico.mp hi).1
    have := (Finset.mem_Ico.mp hi').2
    omega
  obtain ⟨second,hothers',hright⟩ := Camp.commits_of_init
    (Runs.run (System.step (splitConfig N) digest) (System.init Op Dig (splitConfig N)) first) digest d' h0
    (hhonest (2 * f + 1) (by omega) (le_refl _)) (fun i hi => hothers i (hnew i hi)) (hcard (2 * f + 1) (by omega))
  refine ⟨first ++ second,fun hagree => hd ?_⟩
  rw [Runs.run_append] at hagree
  have hl : f ∈ Finset.Ico f (f + f + 1) := Finset.mem_Ico.mpr ⟨le_refl f,by omega⟩
  have hr : 2 * f + 1 ∈ Finset.Ico (2 * f + 1) (2 * f + 1 + f + 1) := Finset.mem_Ico.mpr ⟨le_refl _,by omega⟩
  have hl' : f ∉ Finset.Ico (2 * f + 1) (2 * f + 1 + f + 1) := fun hmem => hnew f hmem hl
  refine hagree f (2 * f + 1) slot d d' (hhonest f (le_refl f) (by omega) f hl)
    (hhonest (2 * f + 1) (by omega) (le_refl _) _ hr) ?_ (hright _ hr)
  rw [hothers' f hl']
  exact hleft f hl

/-- Agreement holds in every run exactly for the cluster sizes that tolerate no fault or
have one node more than three times the tolerated faults. -/
theorem agreement_iff [Nontrivial Dig] (N : ℕ) :
    (∀ cfg : Config, cfg.totalNodes = N → ∀ (digest : Op → Option Dig) (schedule : List (Action Op Dig)),
      (Runs.run (System.step cfg digest) (System.init Op Dig cfg) schedule).Agreement cfg) ↔
    (N % 3 = 1 ∨ N ≤ 3) := by
  constructor
  · intro h
    by_contra hN
    obtain ⟨d,d',hd⟩ := exists_pair_ne Dig
    obtain ⟨schedule,hbad⟩ := not_agreement Op N (by omega) (by omega) hd fun _ => none
    exact hbad (h (splitConfig N) rfl _ schedule)
  · rintro hN cfg rfl digest schedule
    exact agreement_of_totalNodes hN digest schedule

/-- Five nodes, node 0 Byzantine: nodes 1 and 2 are sent digest 7, nodes 3 and 4 digest 8. -/
def splitSchedule : List (Action ℕ ℕ) :=
  [.inject ⟨0,none,.prePrepare ⟨0,0,1,7,none⟩⟩,.deliver 0 1,.deliver 0 2,.deliver 2 1,.deliver 1 2,
    .inject ⟨0,none,.commit ⟨0,0,1,7⟩⟩,.deliver 4 1,.deliver 5 1,
    .inject ⟨0,none,.prePrepare ⟨0,0,1,8,none⟩⟩,.deliver 6 3,.deliver 6 4,.deliver 8 3,.deliver 7 4,
    .inject ⟨0,none,.commit ⟨0,0,1,8⟩⟩,.deliver 10 3,.deliver 11 3]

theorem agreement_iff_of_four :
    (Runs.run (System.step (splitConfig 4) some) (System.init ℕ ℕ (splitConfig 4)) splitSchedule).Agreement
      (splitConfig 4) :=
  (agreement_iff 4).mpr (Or.inl rfl) (splitConfig 4) rfl some splitSchedule

theorem two_digests_committed :
    ¬(Runs.run (System.step (splitConfig 5) some) (System.init ℕ ℕ (splitConfig 5)) splitSchedule).Agreement
      (splitConfig 5) := by
  intro h
  have hd := h 1 3 (0,1) 7 8 (by decide) (by decide) (by decide) (by decide)
  exact absurd hd (by decide)

end System

end DistributedSystems.Pbft
