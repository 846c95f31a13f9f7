import DistributedSystems.Pbft.System

/-! # The commit votes of a node

A node broadcasts one COMMIT for each key, counts only votes it was sent or cast
itself, and executes a stored PRE-PREPARE once enough votes for its digest are in.
-/
namespace DistributedSystems.Pbft
variable {Op Dig : Type} [DecidableEq Dig]

/-- The commit side of a node. `Voted key x d` says that `x` may have voted `d` for `key`. -/
structure CommitInv (Voted : Key → ℕ → Dig → Prop) (n : PBFTNode Op Dig) : Prop where
  stored : ∀ key pp, n.prePrepares key = some pp → pp.key = key ∧ pp ∈ n.accepted
  prepared : ∀ key d, n.commitSent key = some d → key ∈ n.preparedPredicate
  counted : ∀ key x d, (x,d) ∈ n.commits key → Voted key x d ∨ (x = n.nodeId ∧ n.commitSent key = some d)
  executed : ∀ pp ∈ n.executed, pp ∈ n.accepted ∧
    2 * n.f + 1 ≤ ((n.commits pp.key).filter (·.2 = pp.digest)).card
  committed : ∀ key, key ∈ n.committedPredicate ↔ ∃ pp ∈ n.executed, pp.key = key

/-- A handler keeps the invariant and every COMMIT already sent, and sends a COMMIT
only in its own name and on record. -/
structure CommitStep (Voted : Key → ℕ → Dig → Prop) (n : PBFTNode Op Dig)
    (out : PBFTNode Op Dig × List (Outgoing Op Dig)) : Prop where
  inv : CommitInv Voted out.1
  nodeId : out.1.nodeId = n.nodeId
  f : out.1.f = n.f
  sent : ∀ key d, n.commitSent key = some d → out.1.commitSent key = some d
  broadcast : ∀ m, .broadcast (.commit m) ∈ out.2 → m.sender = n.nodeId ∧ out.1.commitSent m.key = some m.digest
  send : ∀ m destination, .send (.commit m) destination ∉ out.2

namespace CommitInv
variable {Voted : Key → ℕ → Dig → Prop} {n : PBFTNode Op Dig}

theorem init (Voted : Key → ℕ → Dig → Prop) (i totalNodes : ℕ) :
    CommitInv Voted (PBFTNode.init i totalNodes : PBFTNode Op Dig) where
  stored _ _ h := by cases h
  prepared _ _ h := by cases h
  counted _ _ _ h := absurd h (Finset.notMem_empty _)
  executed _ h := absurd h List.not_mem_nil
  committed _ := by simp [PBFTNode.init]

/-- A handler that touches no field of the commit side and sends no COMMIT. -/
theorem quiet (h : CommitInv Voted n) {out : List (Outgoing Op Dig)}
    (hb : ∀ m, Outgoing.broadcast (.commit m) ∉ out) (hs : ∀ m destination, .send (.commit m) destination ∉ out) :
    CommitStep Voted n (n,out) :=
  ⟨h,rfl,rfl,fun _ _ hd => hd,fun m hm => absurd hm (hb m),hs⟩

theorem storePrePrepare (h : CommitInv Voted n) (msg : PrePrepareMessage Op Dig) :
    CommitInv Voted (n.storePrePrepare msg) where
  stored := by
    intro key pp hpp
    change Function.update n.prePrepares msg.key (some msg) key = some pp at hpp
    change pp.key = key ∧ pp ∈ n.accepted ++ [msg]
    by_cases hk : key = msg.key
    · subst key
      rw [Function.update_self] at hpp
      cases hpp
      exact ⟨rfl,List.mem_append_right _ (List.mem_singleton.mpr rfl)⟩
    · rw [Function.update_of_ne hk] at hpp
      exact ⟨(h.stored key pp hpp).1,List.mem_append_left _ (h.stored key pp hpp).2⟩
  prepared := h.prepared
  counted := h.counted
  executed pp hpp := ⟨List.mem_append_left _ (h.executed pp hpp).1,(h.executed pp hpp).2⟩
  committed := h.committed

theorem addPrepare (h : CommitInv Voted n) (key : Key) (x : ℕ) (d : Dig) : CommitInv Voted (n.addPrepare key x d) :=
  ⟨h.stored,h.prepared,h.counted,h.executed,h.committed⟩

/-- One more vote only adds to every count. -/
theorem card_insert_vote (n : PBFTNode Op Dig) (key key' : Key) (x : ℕ) (d d' : Dig) :
    ((n.commits key').filter (·.2 = d')).card ≤
      ((Function.update n.commits key (insert (x,d) (n.commits key)) key').filter (·.2 = d')).card := by
  refine Finset.card_le_card (Finset.filter_subset_filter _ ?_)
  by_cases hk : key' = key
  · subst key'
    rw [Function.update_self]
    exact Finset.subset_insert _ _
  · rw [Function.update_of_ne hk]

theorem mem_insert_vote {n : PBFTNode Op Dig} {key key' : Key} {x y : ℕ} {d d' : Dig}
    (h : (y,d') ∈ Function.update n.commits key (insert (x,d) (n.commits key)) key') :
    (key' = key ∧ y = x ∧ d' = d) ∨ (y,d') ∈ n.commits key' := by
  by_cases hk : key' = key
  · subst key'
    rw [Function.update_self] at h
    rcases Finset.mem_insert.mp h with he | hmem
    · cases he
      exact Or.inl ⟨rfl,rfl,rfl⟩
    · exact Or.inr hmem
  · rw [Function.update_of_ne hk] at h
    exact Or.inr h

theorem addCommit (h : CommitInv Voted n) {key : Key} {x : ℕ} {d : Dig} (hv : Voted key x d) :
    CommitInv Voted (n.addCommit key x d) where
  stored := h.stored
  prepared := h.prepared
  counted := by
    intro key' y d' hmem
    rcases mem_insert_vote hmem with ⟨rfl,rfl,rfl⟩ | hmem
    · exact Or.inl hv
    · exact h.counted key' y d' hmem
  executed pp hpp := ⟨(h.executed pp hpp).1,(h.executed pp hpp).2.trans (card_insert_vote n _ _ _ _ _)⟩
  committed := h.committed

/-- The node's own vote: the key was not prepared, so no COMMIT was sent for it. -/
theorem becomePrepared (h : CommitInv Voted n) {key : Key} {d : Dig} (hk : key ∉ n.preparedPredicate) :
    CommitInv Voted (n.becomePrepared key d) ∧
      ∀ key' d', n.commitSent key' = some d' → (n.becomePrepared key d).commitSent key' = some d' := by
  have hsent : ∀ key' d', n.commitSent key' = some d' → (n.becomePrepared key d).commitSent key' = some d' := by
    intro key' d' hd
    have hne : key' ≠ key := by
      rintro rfl
      exact hk (h.prepared key' d' hd)
    exact (Function.update_of_ne hne _ _).trans hd
  refine ⟨⟨h.stored,?_,?_,?_,h.committed⟩,hsent⟩
  · intro key' d' hd
    change Function.update n.commitSent key (some d) key' = some d' at hd
    by_cases hkk : key' = key
    · exact hkk ▸ Finset.mem_insert_self _ _
    · rw [Function.update_of_ne hkk] at hd
      exact Finset.mem_insert_of_mem (h.prepared key' d' hd)
  · intro key' y d' hmem
    rcases mem_insert_vote hmem with ⟨rfl,rfl,rfl⟩ | hmem
    · exact Or.inr ⟨rfl,Function.update_self ..⟩
    · exact (h.counted key' y d' hmem).imp id (fun ho => ⟨ho.1,hsent key' d' ho.2⟩)
  · intro pp hpp
    exact ⟨(h.executed pp hpp).1,(h.executed pp hpp).2.trans (card_insert_vote n _ _ _ _ _)⟩

/-- Execution needs the quorum that was just found. -/
theorem checkCommitted [DecidableEq Op] (h : CommitInv Voted n) {key : Key} {pp : PrePrepareMessage Op Dig}
    (hpp : n.prePrepares key = some pp) : CommitInv Voted (n.checkCommitted key pp.digest) ∧
      (n.checkCommitted key pp.digest).nodeId = n.nodeId ∧ (n.checkCommitted key pp.digest).f = n.f ∧
      (n.checkCommitted key pp.digest).commitSent = n.commitSent := by
  rcases n.checkCommitted_cases key pp.digest with ⟨-,heq⟩ | ⟨-,-,hcard,heq⟩
  · rw [heq]
    exact ⟨h,rfl,rfl,rfl⟩
  · rw [heq]
    unfold PBFTNode.executeRequest
    dsimp only
    rw [hpp]
    obtain ⟨hkey,hacc⟩ := h.stored key pp hpp
    refine ⟨⟨h.stored,h.prepared,h.counted,?_,?_⟩,rfl,rfl,rfl⟩
    · intro pp' hmem
      rcases List.mem_append.mp hmem with hmem | hmem
      · exact h.executed pp' hmem
      · rw [List.mem_singleton.mp hmem]
        exact ⟨hacc,by rw [hkey]; exact hcard⟩
    · intro key'
      simp only [Finset.mem_insert,List.mem_append,List.mem_singleton,h.committed key']
      constructor
      · rintro (rfl | ⟨pp',hmem,hk⟩)
        · exact ⟨pp,Or.inr rfl,hkey⟩
        · exact ⟨pp',Or.inl hmem,hk⟩
      · rintro ⟨pp',hmem | rfl,hk⟩
        · exact Or.inr ⟨pp',hmem,hk⟩
        · exact Or.inl (hk.symm.trans hkey)

theorem checkPrepared [DecidableEq Op] (h : CommitInv Voted n) {key : Key} {pp : PrePrepareMessage Op Dig}
    (hpp : n.prePrepares key = some pp) (hview : key.1 = n.view) :
    CommitStep Voted n (n.checkPrepared key pp.digest) := by
  rcases n.checkPrepared_cases key pp.digest with ⟨-,heq⟩ | ⟨hk,-,heq⟩
  · rw [heq]
    exact h.quiet (fun _ => List.not_mem_nil) (fun _ _ => List.not_mem_nil)
  · rw [heq]
    obtain ⟨hinv,hsent⟩ := h.becomePrepared (d := pp.digest) hk
    obtain ⟨hcom,hid,hf,hcs⟩ := CommitInv.checkCommitted hinv hpp
    refine ⟨hcom,hid,hf,?_,?_,?_⟩
    · intro key' d' hd
      rw [hcs]
      exact hsent key' d' hd
    · intro m hm
      cases List.mem_singleton.mp hm
      refine ⟨rfl,?_⟩
      change (PBFTNode.checkCommitted _ key pp.digest).commitSent (n.view,key.2) = some pp.digest
      rw [hcs,← hview]
      exact Function.update_self ..
    · intro m destination hm
      cases List.mem_singleton.mp hm

theorem handleRequest (h : CommitInv Voted n) (digest : Op → Option Dig) (msg : RequestMessage Op) :
    CommitStep Voted n (n.handleRequest digest msg) := by
  unfold PBFTNode.handleRequest
  split
  · exact h.quiet (by simp) (by simp)
  dsimp only
  have hnum : CommitInv Voted { n with seqNum := n.seqNum + 1 } := ⟨h.stored,h.prepared,h.counted,h.executed,h.committed⟩
  cases digest msg.operation with
  | none => exact ⟨hnum,rfl,rfl,fun _ _ hd => hd,by simp,by simp⟩
  | some d => exact ⟨hnum.storePrePrepare _,rfl,rfl,fun _ _ hd => hd,by simp,by simp⟩

theorem handlePrePrepare [DecidableEq Op] (h : CommitInv Voted n) (msg : PrePrepareMessage Op Dig) :
    CommitStep Voted n (n.handlePrePrepare msg) := by
  rcases n.handlePrePrepare_cases msg with ⟨-,heq⟩ | ⟨hview,-,heq⟩
  · rw [heq]
    exact h.quiet (by simp) (by simp)
  rw [heq]
  have hs := (h.storePrePrepare msg).addPrepare msg.key n.nodeId msg.digest
  have hstep := hs.checkPrepared (n.storePrePrepare_prePrepares_self msg) hview
  refine ⟨hstep.inv,hstep.nodeId,hstep.f,hstep.sent,?_,?_⟩
  · intro m hm
    rcases List.mem_cons.mp hm with hm | hm
    · cases hm
    · exact hstep.broadcast m hm
  · intro m destination hm
    rcases List.mem_cons.mp hm with hm | hm
    · cases hm
    · exact hstep.send m destination hm

theorem handlePrepare [DecidableEq Op] (h : CommitInv Voted n) (msg : VoteMessage Dig) :
    CommitStep Voted n (n.handlePrepare msg) := by
  have hs := h.addPrepare msg.key msg.sender msg.digest
  rcases n.handlePrepare_cases msg with ⟨-,heq⟩ | ⟨-,-,heq⟩ | ⟨hview,pp,hpp,-,heq⟩
  · rw [heq]
    exact h.quiet (by simp) (by simp)
  · rw [heq]
    exact ⟨hs,rfl,rfl,fun _ _ hd => hd,by simp,by simp⟩
  · rw [heq]
    have hstep := hs.checkPrepared hpp hview
    exact ⟨hstep.inv,hstep.nodeId,hstep.f,hstep.sent,hstep.broadcast,hstep.send⟩

theorem handleCommit [DecidableEq Op] (h : CommitInv Voted n) {msg : VoteMessage Dig}
    (hv : Voted msg.key msg.sender msg.digest) :
    CommitStep Voted n (n.handleCommit msg,[]) := by
  have hs := h.addCommit hv
  rcases n.handleCommit_cases msg with ⟨-,heq⟩ | ⟨-,-,heq⟩ | ⟨-,pp,hpp,-,heq⟩
  · rw [heq]
    exact h.quiet (by simp) (by simp)
  · rw [heq]
    exact ⟨hs,rfl,rfl,fun _ _ hd => hd,by simp,by simp⟩
  · rw [heq]
    obtain ⟨hinv,hid,hf,hcs⟩ := hs.checkCommitted hpp
    exact ⟨hinv,hid,hf,fun key d hd => by rw [hcs]; exact hd,by simp,by simp⟩

theorem handleViewChange (h : CommitInv Voted n) (msg : ViewChangeMessage) :
    CommitStep Voted n (n.handleViewChange msg) := by
  unfold PBFTNode.handleViewChange
  split
  · exact h.quiet (by simp) (by simp)
  dsimp only
  split
  · exact ⟨⟨h.stored,h.prepared,h.counted,h.executed,h.committed⟩,rfl,rfl,fun _ _ hd => hd,by simp [PBFTNode.sendNewView],
      by simp [PBFTNode.sendNewView]⟩
  · exact ⟨⟨h.stored,h.prepared,h.counted,h.executed,h.committed⟩,rfl,rfl,fun _ _ hd => hd,by simp,by simp⟩

theorem receive [DecidableEq Op] (h : CommitInv Voted n) (digest : Op → Option Dig) (message : Message Op Dig)
    (hv : ∀ m, message = .commit m → Voted m.key m.sender m.digest) :
    CommitStep Voted n (n.receive digest message) := by
  cases message with
  | request msg => exact h.handleRequest digest msg
  | prePrepare msg => exact h.handlePrePrepare msg
  | prepare msg => exact h.handlePrepare msg
  | commit msg => exact h.handleCommit (hv msg rfl)
  | viewChange msg => exact h.handleViewChange msg
  | newView msg =>
    exact ⟨⟨h.stored,h.prepared,h.counted,h.executed,h.committed⟩,rfl,rfl,fun _ _ hd => hd,by simp [PBFTNode.receive],
      by simp [PBFTNode.receive]⟩

theorem propose (h : CommitInv Voted n) (digest : Op → Option Dig) (operation : Op) (reqId : ℤ) :
    CommitStep Voted n (n.propose digest operation reqId) := by
  have hr : CommitInv Voted { n with
      clientRequests := Function.update n.clientRequests reqId (some ⟨false,none⟩) } :=
    ⟨h.stored,h.prepared,h.counted,h.executed,h.committed⟩
  unfold PBFTNode.propose
  dsimp only
  split
  · have hstep := hr.handleRequest digest ⟨n.nodeId,n.view,n.nodeId,operation,reqId⟩
    exact ⟨hstep.inv,hstep.nodeId,hstep.f,hstep.sent,hstep.broadcast,hstep.send⟩
  · exact ⟨hr,rfl,rfl,fun _ _ hd => hd,by simp,by simp⟩

theorem triggerViewChange (h : CommitInv Voted n) : CommitStep Voted n n.triggerViewChange :=
  ⟨⟨h.stored,h.prepared,h.counted,h.executed,h.committed⟩,rfl,rfl,fun _ _ hd => hd,by simp [PBFTNode.triggerViewChange],
    by simp [PBFTNode.triggerViewChange]⟩

/-- Votes that become known do not hurt. -/
theorem mono {Voted' : Key → ℕ → Dig → Prop} (h : CommitInv Voted n)
    (hv : ∀ key x d, Voted key x d → Voted' key x d) : CommitInv Voted' n :=
  ⟨h.stored,h.prepared,fun key x d hmem => (h.counted key x d hmem).imp (hv key x d) id,h.executed,h.committed⟩

end CommitInv

end DistributedSystems.Pbft
