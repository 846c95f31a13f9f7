import DistributedSystems.Pbft.Agreement
import DistributedSystems.Pbft.ViewChange

/-! # Nodes that act as soon as they can

Every handler that adds a vote looks at the counts again, so between two handlers no key
has enough votes without having been acted on. A primary casts no PREPARE: with no
tolerated fault its own key waits for the first PREPARE of a backup.
-/
namespace DistributedSystems.Pbft
variable {Op Dig : Type} [DecidableEq Dig]

namespace PBFTNode

def prepareCount (n : PBFTNode Op Dig) (key : Key) (d : Dig) : ℕ := ((n.prepares key).filter (·.2 = d)).card
def commitCount (n : PBFTNode Op Dig) (key : Key) (d : Dig) : ℕ := ((n.commits key).filter (·.2 = d)).card

/-- Everything the counts allow has been done, except perhaps for the PREPAREs of the key
`prep` and the COMMITs of the key `com`. -/
structure PromptBut (prep com : Option Key) (n : PBFTNode Op Dig) : Prop where
  stored : ∀ key pp, n.prePrepares key = some pp → pp.key = key
  prepared : ∀ key ∈ n.preparedPredicate, ∃ pp, n.prePrepares key = some pp ∧ (n.nodeId,pp.digest) ∈ n.commits key
  committed : ∀ key ∈ n.committedPredicate, ∃ pp, n.prePrepares key = some pp ∧ n.CommittedWith key pp.digest
  prepares : ∀ key pp, prep ≠ some key → n.prePrepares key = some pp → 0 < n.prepareCount key pp.digest →
    2 * n.f ≤ n.prepareCount key pp.digest → key ∈ n.preparedPredicate
  commits : ∀ key pp, com ≠ some key → n.prePrepares key = some pp → key ∈ n.preparedPredicate →
    2 * n.f + 1 ≤ n.commitCount key pp.digest → n.CommittedWith key pp.digest

abbrev Prompt (n : PBFTNode Op Dig) : Prop := PromptBut none none n

/-- What a node knows only grows. -/
structure Learns (n n' : PBFTNode Op Dig) : Prop where
  prePrepares : ∀ key pp, n.prePrepares key = some pp → n'.prePrepares key = some pp
  prepares : ∀ key, n.prepares key ⊆ n'.prepares key
  commits : ∀ key, n.commits key ⊆ n'.commits key
  prepared : n.preparedPredicate ⊆ n'.preparedPredicate

omit [DecidableEq Dig] in
theorem Learns.refl (n : PBFTNode Op Dig) : Learns n n :=
  ⟨fun _ _ h => h,fun _ => Finset.Subset.refl _,fun _ => Finset.Subset.refl _,Finset.Subset.refl _⟩

omit [DecidableEq Dig] in
theorem Learns.trans {n n' n'' : PBFTNode Op Dig} (h : Learns n n') (h' : Learns n' n'') : Learns n n'' :=
  ⟨fun key pp hpp => h'.prePrepares key pp (h.prePrepares key pp hpp),
    fun key => (h.prepares key).trans (h'.prepares key),fun key => (h.commits key).trans (h'.commits key),
    h.prepared.trans h'.prepared⟩

theorem init_prompt (i totalNodes : ℕ) : Prompt (PBFTNode.init i totalNodes : PBFTNode Op Dig) where
  stored _ _ h := by cases h
  prepared _ h := absurd h (Finset.notMem_empty _)
  committed _ h := absurd h (Finset.notMem_empty _)
  prepares _ _ _ h := by cases h
  commits _ _ _ h := by cases h

namespace PromptBut
variable {prep com : Option Key} {n : PBFTNode Op Dig} {key : Key} {pp : PrePrepareMessage Op Dig}

theorem checkCommitted [DecidableEq Op] (h : PromptBut prep (some key) n) (hpp : n.prePrepares key = some pp) :
    PromptBut prep none (n.checkCommitted key pp.digest) ∧ Learns n (n.checkCommitted key pp.digest) ∧
      (n.checkCommitted key pp.digest).preparedPredicate = n.preparedPredicate := by
  -- for every other key the node was prompt before
  have hother : (key ∈ n.preparedPredicate → 2 * n.f + 1 ≤ n.commitCount key pp.digest →
      n.CommittedWith key pp.digest) → PromptBut prep none n := by
    intro hkey
    refine ⟨h.stored,h.prepared,h.committed,h.prepares,fun key' pp' _ hpp' => ?_⟩
    by_cases hk : key' = key
    · subst key'
      rw [hpp] at hpp'
      cases hpp'
      exact hkey
    · exact h.commits key' pp' (fun he => hk (Option.some.inj he).symm) hpp'
  rcases n.checkCommitted_cases key pp.digest with ⟨hno,heq⟩ | ⟨-,-,-,heq⟩
  · rw [heq]
    refine ⟨hother fun hp hcard => ?_,.refl n,rfl⟩
    by_cases hc : key ∈ n.committedPredicate
    · obtain ⟨pp',hpp',hcw⟩ := h.committed key hc
      rw [hpp] at hpp'
      cases hpp'
      exact hcw
    · exact absurd ⟨hc,hp,hcard⟩ hno
  · rw [heq]
    unfold executeRequest
    dsimp only
    rw [hpp]
    have hdone : ∀ key', (∃ pp', n.prePrepares key' = some pp' ∧ n.CommittedWith key' pp'.digest) ∨ key' = key →
        ∃ pp', n.prePrepares key' = some pp' ∧ key' ∈ insert key n.committedPredicate ∧
          ∃ x ∈ n.executed ++ [pp], x.key = key' ∧ x.digest = pp'.digest := by
      rintro key' (⟨pp',hpp',hmem,x,hx,heq⟩ | rfl)
      · exact ⟨pp',hpp',Finset.mem_insert_of_mem hmem,x,List.mem_append_left _ hx,heq⟩
      · exact ⟨pp,hpp,Finset.mem_insert_self _ _,pp,List.mem_append_right _ (List.mem_singleton.mpr rfl),
          h.stored _ pp hpp,rfl⟩
    refine ⟨⟨h.stored,h.prepared,fun key' hmem => hdone key' ?_,h.prepares,fun key' pp' _ hpp' hp hcard => ?_⟩,
      ⟨fun _ _ h => h,fun _ => Finset.Subset.refl _,fun _ => Finset.Subset.refl _,Finset.Subset.refl _⟩,rfl⟩
    · rcases Finset.mem_insert.mp hmem with hk | hmem
      · exact Or.inr hk
      · exact Or.inl (h.committed key' hmem)
    · obtain ⟨pp'',hpp'',hcw⟩ := hdone key' (by
        by_cases hk : key' = key
        · exact Or.inr hk
        · exact Or.inl ⟨pp',hpp',h.commits key' pp' (fun he => hk (Option.some.inj he).symm) hpp' hp hcard⟩)
      rw [hpp''] at hpp'
      cases hpp'
      exact hcw

/-- The own vote for a key with enough PREPAREs. -/
theorem becomePrepared (h : PromptBut (some key) com n) (hpp : n.prePrepares key = some pp)
    (hk : key ∉ n.preparedPredicate) (hcom : com = none ∨ com = some key) :
    PromptBut none (some key) (n.becomePrepared key pp.digest) ∧ Learns n (n.becomePrepared key pp.digest) := by
  have hne : ∀ key', key' ≠ key → (n.becomePrepared key pp.digest).commits key' = n.commits key' :=
    fun key' hk => Function.update_of_ne hk _ _
  have hsub : ∀ key', n.commits key' ⊆ (n.becomePrepared key pp.digest).commits key' := by
    intro key'
    by_cases hk' : key' = key
    · subst key'
      rw [becomePrepared_commits_self]
      exact Finset.subset_insert _ _
    · rw [hne key' hk']
  refine ⟨⟨h.stored,fun key' hmem => ?_,h.committed,fun key' pp' _ hpp' hpos hcard => ?_,
      fun key' pp' hk' hpp' hp hcard => ?_⟩,fun _ _ h => h,fun _ => Finset.Subset.refl _,hsub,Finset.subset_insert _ _⟩
  · rcases Finset.mem_insert.mp hmem with rfl | hmem
    · refine ⟨pp,hpp,?_⟩
      rw [becomePrepared_commits_self]
      exact Finset.mem_insert_self _ _
    · obtain ⟨pp',hpp',hown⟩ := h.prepared key' hmem
      exact ⟨pp',hpp',hsub key' hown⟩
  · by_cases hk' : key' = key
    · rw [hk']
      exact Finset.mem_insert_self _ _
    · exact Finset.mem_insert_of_mem (h.prepares key' pp' (fun he => hk' (Option.some.inj he).symm) hpp' hpos hcard)
  · have hk'' : key' ≠ key := fun he => hk' (congrArg some he.symm)
    have hp' : key' ∈ n.preparedPredicate := (Finset.mem_insert.mp hp).resolve_left hk''
    unfold commitCount at hcard
    rw [hne key' hk''] at hcard
    refine h.commits key' pp' ?_ hpp' hp' hcard
    rcases hcom with rfl | rfl
    · exact fun he => by cases he
    · exact hk'

/-- After `check_prepared` nothing is left to do, and a new COMMIT has been broadcast. -/
theorem checkPrepared [DecidableEq Op] (h : PromptBut (some key) none n) (hpp : n.prePrepares key = some pp) :
    Prompt (n.checkPrepared key pp.digest).1 ∧ Learns n (n.checkPrepared key pp.digest).1 ∧
      (∀ key' ∈ (n.checkPrepared key pp.digest).1.preparedPredicate, key' ∈ n.preparedPredicate ∨
        (key' = key ∧ .broadcast (.commit ⟨n.nodeId,n.view,key.2,pp.digest⟩) ∈ (n.checkPrepared key pp.digest).2)) ∧
      ∀ o ∈ (n.checkPrepared key pp.digest).2, o = .broadcast (.commit ⟨n.nodeId,n.view,key.2,pp.digest⟩) := by
  have hother : (0 < n.prepareCount key pp.digest → 2 * n.f ≤ n.prepareCount key pp.digest →
      key ∈ n.preparedPredicate) → Prompt n := by
    intro hkey
    refine ⟨h.stored,h.prepared,h.committed,fun key' pp' _ hpp' => ?_,h.commits⟩
    by_cases hk : key' = key
    · subst key'
      rw [hpp] at hpp'
      cases hpp'
      exact hkey
    · exact h.prepares key' pp' (fun he => hk (Option.some.inj he).symm) hpp'
  rcases n.checkPrepared_cases key pp.digest with ⟨hno,heq⟩ | ⟨hk,-,heq⟩
  · rw [heq]
    exact ⟨hother fun _ hcard => by_contra fun hp => hno ⟨hp,hcard⟩,.refl n,fun _ hmem => Or.inl hmem,by simp⟩
  · rw [heq]
    obtain ⟨hb,hl⟩ := h.becomePrepared hpp hk (Or.inl rfl)
    obtain ⟨hc,hl',hpred⟩ := hb.checkCommitted hpp
    refine ⟨hc,hl.trans hl',fun key' hmem => ?_,fun o ho => List.mem_singleton.mp ho⟩
    dsimp only at hmem
    rw [hpred] at hmem
    rcases Finset.mem_insert.mp hmem with rfl | hmem
    · exact Or.inr ⟨rfl,List.mem_cons_self⟩
    · exact Or.inl hmem

theorem learns_addPrepare (n : PBFTNode Op Dig) (key : Key) (x : ℕ) (d : Dig) : Learns n (n.addPrepare key x d) := by
  refine ⟨fun _ _ h => h,fun key' => ?_,fun _ => Finset.Subset.refl _,Finset.Subset.refl _⟩
  by_cases hk : key' = key
  · subst key'
    rw [addPrepare_prepares_self]
    exact Finset.subset_insert _ _
  · exact (Function.update_of_ne hk _ _ : (n.addPrepare key x d).prepares key' = _).ge

theorem learns_addCommit (n : PBFTNode Op Dig) (key : Key) (x : ℕ) (d : Dig) : Learns n (n.addCommit key x d) := by
  refine ⟨fun _ _ h => h,fun _ => Finset.Subset.refl _,fun key' => ?_,Finset.Subset.refl _⟩
  by_cases hk : key' = key
  · subst key'
    rw [addCommit_commits_self]
    exact Finset.subset_insert _ _
  · exact (Function.update_of_ne hk _ _ : (n.addCommit key x d).commits key' = _).ge

theorem addPrepare (h : PromptBut prep com n) (hprep : prep = none ∨ prep = some key) (x : ℕ) (d : Dig) :
    PromptBut (some key) com (n.addPrepare key x d) := by
  refine ⟨h.stored,h.prepared,h.committed,fun key' pp' hk hpp' hpos hcard => ?_,h.commits⟩
  have hne : key' ≠ key := fun he => hk (congrArg some he.symm)
  have hsame : (n.addPrepare key x d).prepares key' = n.prepares key' := Function.update_of_ne hne _ _
  unfold prepareCount at hpos hcard
  rw [hsame] at hpos hcard
  refine h.prepares key' pp' ?_ hpp' hpos hcard
  rcases hprep with rfl | rfl
  · exact fun he => by cases he
  · exact hk

theorem addCommit (h : PromptBut prep none n) (key : Key) (x : ℕ) (d : Dig) :
    PromptBut prep (some key) (n.addCommit key x d) := by
  refine ⟨h.stored,fun key' hmem => ?_,h.committed,h.prepares,fun key' pp' hk hpp' hp hcard => ?_⟩
  · obtain ⟨pp',hpp',hown⟩ := h.prepared key' hmem
    exact ⟨pp',hpp',(learns_addCommit n key x d).commits key' hown⟩
  · have hne : key' ≠ key := fun he => hk (congrArg some he.symm)
    have hsame : (n.addCommit key x d).commits key' = n.commits key' := Function.update_of_ne hne _ _
    unfold commitCount at hcard
    rw [hsame] at hcard
    exact h.commits key' pp' (fun he => by cases he) hpp' hp hcard

theorem mem_addPrepare_self (n : PBFTNode Op Dig) (key : Key) (x : ℕ) (d : Dig) :
    (x,d) ∈ (n.addPrepare key x d).prepares key := by
  rw [addPrepare_prepares_self]
  exact Finset.mem_insert_self _ _

theorem mem_addCommit_self (n : PBFTNode Op Dig) (key : Key) (x : ℕ) (d : Dig) :
    (x,d) ∈ (n.addCommit key x d).commits key := by
  rw [addCommit_commits_self]
  exact Finset.mem_insert_self _ _

theorem prepares_addPrepare_nonempty {x : ℕ} {d : Dig} {key' : Key} (h : ((n.addPrepare key x d).prepares key').Nonempty) :
    (n.prepares key').Nonempty ∨ key = key' := by
  by_cases hk : key' = key
  · exact Or.inr hk.symm
  · have hsame : (n.addPrepare key x d).prepares key' = n.prepares key' := Function.update_of_ne hk _ _
    rw [hsame] at h
    exact Or.inl h

/-- A PREPARE for another digest than the stored one changes no count that matters. -/
theorem addPrepare_other (h : Prompt n) {key : Key} {d : Dig}
    (hother : ∀ pp, n.prePrepares key = some pp → pp.digest ≠ d) (x : ℕ) : Prompt (n.addPrepare key x d) := by
  have hp : PromptBut (some key) none (n.addPrepare key x d) := PromptBut.addPrepare h (Or.inl rfl) x d
  refine ⟨hp.stored,hp.prepared,hp.committed,fun key' pp _ hpp hpos hcard => ?_,hp.commits⟩
  by_cases hk : key' = key
  · subst key'
    have hsame : (n.addPrepare key x d).prepareCount key pp.digest = n.prepareCount key pp.digest := by
      unfold prepareCount
      rw [addPrepare_prepares_self,Finset.filter_insert,if_neg fun he => hother pp hpp he.symm]
    rw [hsame] at hpos hcard
    exact h.prepares _ pp (fun he => by cases he) hpp hpos hcard
  · exact hp.prepares key' pp (fun he => hk (Option.some.inj he).symm) hpp hpos hcard

theorem addCommit_other (h : Prompt n) {key : Key} {d : Dig}
    (hother : ∀ pp, n.prePrepares key = some pp → pp.digest ≠ d) (x : ℕ) : Prompt (n.addCommit key x d) := by
  have hp : PromptBut none (some key) (n.addCommit key x d) := PromptBut.addCommit h key x d
  refine ⟨hp.stored,hp.prepared,hp.committed,hp.prepares,fun key' pp _ hpp hprep hcard => ?_⟩
  by_cases hk : key' = key
  · subst key'
    have hsame : (n.addCommit key x d).commitCount key pp.digest = n.commitCount key pp.digest := by
      unfold commitCount
      rw [addCommit_commits_self,Finset.filter_insert,if_neg fun he => hother pp hpp he.symm]
    rw [hsame] at hcard
    exact h.commits _ pp (fun he => by cases he) hpp hprep hcard
  · exact hp.commits key' pp (fun he => hk (Option.some.inj he).symm) hpp hprep hcard

/-- Storing a PRE-PREPARE under a new key leaves its PREPAREs to be looked at. -/
theorem storePrePrepare (h : Prompt n) {msg : PrePrepareMessage Op Dig} (hnew : n.prePrepares msg.key = none) :
    PromptBut (some msg.key) none (n.storePrePrepare msg) ∧ Learns n (n.storePrePrepare msg) := by
  have hold : ∀ key' pp', n.prePrepares key' = some pp' → (n.storePrePrepare msg).prePrepares key' = some pp' := by
    intro key' pp' hpp'
    have hne : key' ≠ msg.key := by
      rintro rfl
      rw [hnew] at hpp'
      cases hpp'
    exact (Function.update_of_ne hne _ _).trans hpp'
  have hback : ∀ key' pp', key' ≠ msg.key → (n.storePrePrepare msg).prePrepares key' = some pp' →
      n.prePrepares key' = some pp' := by
    intro key' pp' hne hpp'
    exact (Function.update_of_ne hne _ _).symm.trans hpp'
  refine ⟨⟨fun key' pp' hpp' => ?_,fun key' hmem => ?_,fun key' hmem => ?_,fun key' pp' hk hpp' => ?_,
    fun key' pp' _ hpp' hp => ?_⟩,hold,fun _ => Finset.Subset.refl _,fun _ => Finset.Subset.refl _,Finset.Subset.refl _⟩
  · by_cases hk : key' = msg.key
    · subst key'
      rw [storePrePrepare_prePrepares_self] at hpp'
      cases hpp'
      rfl
    · exact h.stored key' pp' (hback key' pp' hk hpp')
  · obtain ⟨pp',hpp',hown⟩ := h.prepared key' hmem
    exact ⟨pp',hold key' pp' hpp',hown⟩
  · obtain ⟨pp',hpp',hcw⟩ := h.committed key' hmem
    exact ⟨pp',hold key' pp' hpp',hcw⟩
  · have hne : key' ≠ msg.key := fun he => hk (congrArg some he.symm)
    exact h.prepares key' pp' (fun he => by cases he) (hback key' pp' hne hpp')
  · -- a prepared key is an old one
    have hne : key' ≠ msg.key := by
      rintro rfl
      obtain ⟨pp'',hpp'',-⟩ := h.prepared _ hp
      rw [hnew] at hpp''
      cases hpp''
    exact h.commits key' pp' (fun he => by cases he) (hback key' pp' hne hpp') hp

end PromptBut

/-- The node stores what the message is about. -/
def Grounded (n : PBFTNode Op Dig) : Message Op Dig → Prop
  | .request _ => True
  | .prePrepare pp => n.prePrepares pp.key = some pp
  | .prepare msg => ∃ pp, n.prePrepares msg.key = some pp ∧ pp.digest = msg.digest
  | .commit msg => ∃ pp, n.prePrepares msg.key = some pp ∧ pp.digest = msg.digest
  | .viewChange _ => False
  | .newView _ => False

/-- The node has taken the message in. -/
def Noted (n : PBFTNode Op Dig) : Message Op Dig → Prop
  | .prePrepare pp => ∃ pp', n.prePrepares pp.key = some pp'
  | .prepare msg => (msg.sender,msg.digest) ∈ n.prepares msg.key
  | .commit msg => (msg.sender,msg.digest) ∈ n.commits msg.key
  | _ => True

/-- The message belongs to the view. -/
def OfView (v : ℤ) : Message Op Dig → Prop
  | .prePrepare pp => pp.view = v
  | .prepare msg => msg.view = v
  | .commit msg => msg.view = v
  | _ => True

omit [DecidableEq Dig] in
theorem Learns.grounded {n n' : PBFTNode Op Dig} (h : Learns n n') {message : Message Op Dig}
    (hg : n.Grounded message) : n'.Grounded message := by
  cases message with
  | request msg => trivial
  | prePrepare pp => exact h.prePrepares _ _ hg
  | prepare msg =>
    obtain ⟨pp,hpp,hd⟩ := hg
    exact ⟨pp,h.prePrepares _ _ hpp,hd⟩
  | commit msg =>
    obtain ⟨pp,hpp,hd⟩ := hg
    exact ⟨pp,h.prePrepares _ _ hpp,hd⟩
  | viewChange msg => exact hg
  | newView msg => exact hg

omit [DecidableEq Dig] in
theorem Learns.noted {n n' : PBFTNode Op Dig} (h : Learns n n') {message : Message Op Dig}
    (hn : n.Noted message) : n'.Noted message := by
  cases message with
  | prePrepare pp =>
    obtain ⟨pp',hpp⟩ := hn
    exact ⟨pp',h.prePrepares _ _ hpp⟩
  | prepare msg => exact h.prepares _ hn
  | commit msg => exact h.commits _ hn
  | _ => trivial

/-- What a handler of the normal case does with the message it was handed, if any. -/
structure NormalStep (message : Option (Message Op Dig)) (n : PBFTNode Op Dig)
    (out : PBFTNode Op Dig × List (Outgoing Op Dig)) : Prop where
  keepsView : KeepsView n out
  learns : Learns n out.1
  prompt : Prompt out.1
  seqNum : n.seqNum ≤ out.1.seqNum
  stored : ∀ key pp, out.1.prePrepares key = some pp → n.prePrepares key = some pp ∨
    (message = some (.prePrepare pp) ∧ (n.nodeId,pp.digest) ∈ out.1.prepares key ∧
      .broadcast (.prepare ⟨n.nodeId,key.1,key.2,pp.digest⟩) ∈ out.2) ∨
    (n.isPrimary ∧ key = (n.view,n.seqNum + 1) ∧ out.1.seqNum = n.seqNum + 1 ∧ .broadcast (.prePrepare pp) ∈ out.2)
  prepared : ∀ key ∈ out.1.preparedPredicate, key ∈ n.preparedPredicate ∨
    ∃ pp, out.1.prePrepares key = some pp ∧ .broadcast (.commit ⟨n.nodeId,key.1,key.2,pp.digest⟩) ∈ out.2
  counted : ∀ key, (out.1.prepares key).Nonempty → (n.prepares key).Nonempty ∨
    (∃ pp, out.1.prePrepares key = some pp) ∨ ∃ msg, message = some (.prepare msg) ∧ msg.key = key
  grounded : ∀ o ∈ out.2, out.1.Grounded o.message
  noted : ∀ m ∈ message, OfView n.view m → out.1.Noted m

namespace NormalStep
variable {n : PBFTNode Op Dig}

/-- A handler that does nothing on the normal side. -/
theorem idle (h : Prompt n) {message : Option (Message Op Dig)} (hm : ∀ m ∈ message, OfView n.view m → n.Noted m) :
    NormalStep message n (n,[]) where
  keepsView := .refl n (by simp) (by simp)
  learns := .refl n
  prompt := h
  seqNum := le_refl _
  stored _ _ hpp := Or.inl hpp
  prepared _ hmem := Or.inl hmem
  counted _ hne := Or.inl hne
  grounded _ ho := absurd ho List.not_mem_nil
  noted := hm

theorem handleRequest (h : Prompt n) (digest : Op → Option Dig) (msg : RequestMessage Op)
    (hnew : n.isPrimary → n.prePrepares (n.view,n.seqNum + 1) = none ∧ n.prepares (n.view,n.seqNum + 1) = ∅) :
    NormalStep (some (.request msg)) n (n.handleRequest digest msg) := by
  have hnum : Prompt { n with seqNum := n.seqNum + 1 } := ⟨h.stored,h.prepared,h.committed,h.prepares,h.commits⟩
  have hkeep := KeepsView.handleRequest digest n msg
  unfold PBFTNode.handleRequest at hkeep ⊢
  split
  · refine ⟨.refl n (by simp [Outgoing.message]) (by simp [Outgoing.message]),.refl n,h,le_refl _,
      fun _ _ hpp => Or.inl hpp,fun _ hmem => Or.inl hmem,fun _ hne => Or.inl hne,fun o ho => ?_,fun m hm _ => ?_⟩
    · rw [List.mem_singleton.mp ho]
      trivial
    · cases hm
      trivial
  rename_i hprim
  rw [if_neg hprim] at hkeep
  obtain ⟨hfree,hnone⟩ := hnew (not_not.mp hprim)
  dsimp only at hkeep ⊢
  cases hd : digest msg.operation with
  | none =>
    refine ⟨⟨rfl,rfl,rfl,rfl,rfl,rfl,by simp,by simp⟩,⟨fun _ _ h => h,fun _ => Finset.Subset.refl _,
      fun _ => Finset.Subset.refl _,Finset.Subset.refl _⟩,hnum,by simp,fun _ _ hpp => Or.inl hpp,
      fun _ hmem => Or.inl hmem,fun _ hne => Or.inl hne,by simp,fun m hm _ => ?_⟩
    cases hm
    trivial
  | some d =>
    rw [hd] at hkeep
    let pp : PrePrepareMessage Op Dig := n.proposal d msg
    have hpp : ({ n with seqNum := n.seqNum + 1 } : PBFTNode Op Dig).prePrepares pp.key = none := hfree
    obtain ⟨hs,hl⟩ := PromptBut.storePrePrepare hnum hpp
    have hself := ({ n with seqNum := n.seqNum + 1 } : PBFTNode Op Dig).storePrePrepare_prePrepares_self pp
    refine ⟨hkeep,⟨hl.prePrepares,hl.prepares,hl.commits,hl.prepared⟩,⟨hs.stored,hs.prepared,hs.committed,?_,hs.commits⟩,
      ?_,fun key pp' hpp' => ?_,fun _ hmem => Or.inl hmem,fun _ hne => Or.inl hne,fun o ho => ?_,fun m hm _ => ?_⟩
    · -- no PREPARE has been counted for the new key
      intro key pp' _ hpp' hpos
      refine hs.prepares key pp' ?_ hpp' hpos
      intro he
      cases he
      apply absurd hpos
      change ¬0 < ((n.prepares (n.view,n.seqNum + 1)).filter (·.2 = pp'.digest)).card
      rw [hnone]
      exact lt_irrefl 0
    · change n.seqNum ≤ n.seqNum + 1
      omega
    · by_cases hk : key = pp.key
      · subst hk
        cases Option.some.inj (hself.symm.trans hpp')
        exact Or.inr (Or.inr ⟨not_not.mp hprim,rfl,rfl,List.mem_cons_self⟩)
      · exact Or.inl ((Function.update_of_ne hk _ _).symm.trans hpp')
    · rw [List.mem_singleton.mp ho]
      exact hself
    · cases hm
      trivial

theorem handlePrePrepare [DecidableEq Op] (h : Prompt n) (msg : PrePrepareMessage Op Dig) :
    NormalStep (some (.prePrepare msg)) n (n.handlePrePrepare msg) := by
  have hkeep := KeepsView.handlePrePrepare n msg
  rcases n.handlePrePrepare_cases msg with ⟨hno,heq⟩ | ⟨hview,hnew,heq⟩
  · rw [heq]
    apply idle h
    intro m hm hv
    cases hm
    exact Option.ne_none_iff_exists'.mp fun hnone => hno ⟨hv,hnone⟩
  rw [heq] at hkeep ⊢
  have hkv : msg.key.1 = n.view := hview
  obtain ⟨hs,hl⟩ := PromptBut.storePrePrepare h hnew
  have ha := hs.addPrepare (Or.inr rfl) n.nodeId msg.digest
  have hla := PromptBut.learns_addPrepare (n.storePrePrepare msg) msg.key n.nodeId msg.digest
  have hself : ((n.storePrePrepare msg).addPrepare msg.key n.nodeId msg.digest).prePrepares msg.key = some msg :=
    n.storePrePrepare_prePrepares_self msg
  have hown : (n.nodeId,msg.digest) ∈
      ((n.storePrePrepare msg).addPrepare msg.key n.nodeId msg.digest).prepares msg.key :=
    PromptBut.mem_addPrepare_self ..
  obtain ⟨hp,hlp,hpred,hout⟩ := ha.checkPrepared hself
  obtain ⟨hfpp,hfp,hfs⟩ := checkPrepared_frame
    ((n.storePrePrepare msg).addPrepare msg.key n.nodeId msg.digest) msg.key msg.digest
  refine ⟨hkeep,(hl.trans hla).trans hlp,hp,hfs.ge,fun key pp hpp => ?_,fun key hmem => ?_,fun key hne => ?_,
    fun o ho => ?_,fun m hm _ => ?_⟩
  · by_cases hk : key = msg.key
    · subst hk
      cases Option.some.inj ((hlp.prePrepares _ _ hself).symm.trans hpp)
      refine Or.inr (Or.inl ⟨rfl,hlp.prepares _ hown,?_⟩)
      rw [hkv]
      exact List.mem_cons_self
    · left
      change (PBFTNode.checkPrepared _ msg.key msg.digest).1.prePrepares key = some pp at hpp
      rw [hfpp] at hpp
      exact (Function.update_of_ne hk _ _).symm.trans hpp
  · rcases hpred key hmem with hmem | ⟨rfl,hb⟩
    · exact Or.inl hmem
    · refine Or.inr ⟨msg,hlp.prePrepares _ _ hself,List.mem_cons_of_mem _ ?_⟩
      rw [hkv]
      exact hb
  · by_cases hk : key = msg.key
    · subst hk
      exact Or.inr (Or.inl ⟨msg,hlp.prePrepares _ _ hself⟩)
    · change ((PBFTNode.checkPrepared _ msg.key msg.digest).1.prepares key).Nonempty at hne
      rw [hfp] at hne
      have hsame : ((n.storePrePrepare msg).addPrepare msg.key n.nodeId msg.digest).prepares key = n.prepares key :=
        Function.update_of_ne hk _ _
      rw [hsame] at hne
      exact Or.inl hne
  · have hkey : msg.key = (n.view,msg.sequenceNumber) := Prod.ext hkv rfl
    rcases List.mem_cons.mp ho with rfl | ho
    · refine ⟨msg,?_,rfl⟩
      change (PBFTNode.checkPrepared _ msg.key msg.digest).1.prePrepares (n.view,msg.sequenceNumber) = some msg
      rw [← hkey]
      exact hlp.prePrepares _ _ hself
    · rw [hout o ho]
      refine ⟨msg,?_,rfl⟩
      change (PBFTNode.checkPrepared _ msg.key msg.digest).1.prePrepares (n.view,msg.sequenceNumber) = some msg
      rw [← hkey]
      exact hlp.prePrepares _ _ hself
  · cases hm
    exact ⟨msg,hlp.prePrepares _ _ hself⟩

/-- A counted PREPARE is looked at if its PRE-PREPARE is there. -/
theorem handlePrepare [DecidableEq Op] (h : Prompt n) (msg : VoteMessage Dig) :
    NormalStep (some (.prepare msg)) n (n.handlePrepare msg) := by
  have hkeep := KeepsView.handlePrepare n msg
  have hl := PromptBut.learns_addPrepare n msg.key msg.sender msg.digest
  have hnoted := PromptBut.mem_addPrepare_self n msg.key msg.sender msg.digest
  have hcounted : ∀ {key : Key}, ((n.addPrepare msg.key msg.sender msg.digest).prepares key).Nonempty →
      (n.prepares key).Nonempty ∨ msg.key = key := PromptBut.prepares_addPrepare_nonempty
  rcases n.handlePrepare_cases msg with ⟨hview,heq⟩ | ⟨-,hother,heq⟩ | ⟨hview,pp,hpp,-,heq⟩
  · rw [heq]
    apply idle h
    intro m hm hv
    cases hm
    exact absurd hv hview
  · rw [heq] at hkeep ⊢
    refine ⟨hkeep,hl,PromptBut.addPrepare_other h hother msg.sender,le_refl _,
      fun _ _ hpp => Or.inl hpp,fun _ hmem => Or.inl hmem,fun key hne => ?_,by simp,fun m hm _ => ?_⟩
    · exact (hcounted hne).imp id fun hk => Or.inr ⟨msg,rfl,hk⟩
    · cases hm
      exact hnoted
  · rw [heq] at hkeep ⊢
    have hkv : msg.key.1 = n.view := hview
    have hp : PromptBut (some msg.key) none (n.addPrepare msg.key msg.sender msg.digest) :=
      PromptBut.addPrepare h (Or.inl rfl) msg.sender msg.digest
    obtain ⟨hprompt,hlp,hpred,hout⟩ := PromptBut.checkPrepared hp hpp
    obtain ⟨hfpp,hfp,hfs⟩ := checkPrepared_frame (n.addPrepare msg.key msg.sender msg.digest) msg.key pp.digest
    refine ⟨hkeep,hl.trans hlp,hprompt,hfs.ge,fun key pp' hpp' => ?_,fun key hmem => ?_,fun key hne => ?_,
      fun o ho => ?_,fun m hm _ => ?_⟩
    · rw [hfpp] at hpp'
      exact Or.inl hpp'
    · rcases hpred key hmem with hmem | ⟨rfl,hb⟩
      · exact Or.inl hmem
      · refine Or.inr ⟨pp,hlp.prePrepares _ _ hpp,?_⟩
        rw [hkv]
        exact hb
    · rw [hfp] at hne
      exact (hcounted hne).imp id fun hk => Or.inr ⟨msg,rfl,hk⟩
    · rw [hout o ho]
      refine ⟨pp,?_,rfl⟩
      have hkey : msg.key = (n.view,msg.key.2) := Prod.ext hkv rfl
      change (PBFTNode.checkPrepared _ msg.key pp.digest).1.prePrepares (n.view,msg.key.2) = some pp
      rw [← hkey]
      exact hlp.prePrepares _ _ hpp
    · cases hm
      exact hlp.prepares _ hnoted

theorem handleCommit [DecidableEq Op] (h : Prompt n) (msg : VoteMessage Dig) :
    NormalStep (some (.commit msg)) n (n.handleCommit msg,[]) := by
  have hkeep := KeepsView.handleCommit n msg
  have hl := PromptBut.learns_addCommit n msg.key msg.sender msg.digest
  have hnoted := PromptBut.mem_addCommit_self n msg.key msg.sender msg.digest
  rcases n.handleCommit_cases msg with ⟨hview,heq⟩ | ⟨-,hother,heq⟩ | ⟨-,pp,hpp,-,heq⟩
  · rw [heq]
    apply idle h
    intro m hm hv
    cases hm
    exact absurd hv hview
  · rw [heq] at hkeep ⊢
    refine ⟨hkeep,hl,PromptBut.addCommit_other h hother msg.sender,le_refl _,
      fun _ _ hpp => Or.inl hpp,fun _ hmem => Or.inl hmem,fun _ hne => Or.inl hne,by simp,fun m hm _ => ?_⟩
    cases hm
    exact hnoted
  · rw [heq] at hkeep ⊢
    have hp := PromptBut.addCommit h msg.key msg.sender msg.digest
    obtain ⟨hprompt,hlp,-⟩ := PromptBut.checkCommitted hp hpp
    obtain ⟨committed,requests,executed,hc⟩ :=
      (n.addCommit msg.key msg.sender msg.digest).checkCommitted_eq msg.key pp.digest
    rw [hc] at hkeep hprompt hlp ⊢
    refine ⟨hkeep,hl.trans hlp,hprompt,le_refl _,fun _ _ hpp' => Or.inl hpp',fun _ hmem => Or.inl hmem,
      fun _ hne => Or.inl hne,by simp,fun m hm _ => ?_⟩
    cases hm
    exact hlp.commits _ hnoted

theorem propose (h : Prompt n) (digest : Op → Option Dig) (operation : Op) (reqId : ℤ)
    (hnew : n.isPrimary → n.prePrepares (n.view,n.seqNum + 1) = none ∧ n.prepares (n.view,n.seqNum + 1) = ∅) :
    NormalStep none n (n.propose digest operation reqId) := by
  have hkeep := KeepsView.propose digest n operation reqId
  have hr : Prompt { n with
      clientRequests := Function.update n.clientRequests reqId (some ⟨false,none⟩) } :=
    ⟨h.stored,h.prepared,h.committed,h.prepares,h.commits⟩
  have hs := handleRequest hr digest (n.clientRequest operation reqId) hnew
  unfold PBFTNode.propose at hkeep ⊢
  dsimp only at hkeep ⊢
  split
  · rename_i hprim
    rw [if_pos hprim] at hkeep
    refine ⟨hkeep,⟨hs.learns.prePrepares,hs.learns.prepares,hs.learns.commits,hs.learns.prepared⟩,hs.prompt,hs.seqNum,
      fun key pp hpp => ?_,hs.prepared,fun key hne => ?_,hs.grounded,fun m hm => by cases hm⟩
    · rcases hs.stored key pp hpp with hold | ⟨hm,-⟩ | hnew
      · exact Or.inl hold
      · cases hm
      · exact Or.inr (Or.inr hnew)
    · rcases hs.counted key hne with hold | hold | ⟨msg,hm,-⟩
      · exact Or.inl hold
      · exact Or.inr (Or.inl hold)
      · cases hm
  · rename_i hprim
    rw [if_neg hprim] at hkeep
    refine ⟨hkeep,⟨fun _ _ h => h,fun _ => Finset.Subset.refl _,fun _ => Finset.Subset.refl _,Finset.Subset.refl _⟩,hr,
      le_refl _,fun _ _ hpp => Or.inl hpp,fun _ hmem => Or.inl hmem,fun _ hne => Or.inl hne,fun o ho => ?_,
      fun m hm => by cases hm⟩
    rw [List.mem_singleton.mp ho]
    trivial

end NormalStep

end PBFTNode

end DistributedSystems.Pbft
