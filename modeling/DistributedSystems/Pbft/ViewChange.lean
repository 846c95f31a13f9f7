import DistributedSystems.Pbft.System

/-! # The views of a cluster

A node changes its view when it announces one itself, which takes `2f + 1` logged
VIEW_CHANGEs, or when it is told so by a NEW_VIEW, which takes nothing.
-/
namespace DistributedSystems.Pbft
variable {Op Dig : Type} [DecidableEq Op] [DecidableEq Dig]

namespace PBFTNode

def loggedSenders (n : PBFTNode Op Dig) (v : ℤ) : Finset ℕ :=
  ((n.viewChangeLog v).map ViewChangeMessage.sender).toFinset

/-- A handler that has nothing to do with views. -/
structure KeepsView (n : PBFTNode Op Dig) (out : PBFTNode Op Dig × List (Outgoing Op Dig)) : Prop where
  nodeId : out.1.nodeId = n.nodeId
  totalNodes : out.1.totalNodes = n.totalNodes
  f : out.1.f = n.f
  view : out.1.view = n.view
  status : out.1.status = n.status
  log : out.1.viewChangeLog = n.viewChangeLog
  viewChange : ∀ o ∈ out.2, ∀ msg, o.message ≠ .viewChange msg
  newView : ∀ o ∈ out.2, ∀ msg, o.message ≠ .newView msg

/-- Node `i` of a cluster of `N`. -/
structure Member (N i : ℕ) (n : PBFTNode Op Dig) : Prop where
  nodeId : n.nodeId = i
  totalNodes : n.totalNodes = N
  f : n.f = (N - 1) / 3

namespace KeepsView
variable {n : PBFTNode Op Dig}

omit [DecidableEq Op] [DecidableEq Dig] in
theorem member {out : PBFTNode Op Dig × List (Outgoing Op Dig)} (h : KeepsView n out) {N i : ℕ}
    (hm : Member N i n) : Member N i out.1 :=
  ⟨h.nodeId.trans hm.nodeId,h.totalNodes.trans hm.totalNodes,h.f.trans hm.f⟩

omit [DecidableEq Op] [DecidableEq Dig] in
theorem refl (n : PBFTNode Op Dig) {out : List (Outgoing Op Dig)} (hv : ∀ o ∈ out, ∀ msg, o.message ≠ .viewChange msg)
    (hn : ∀ o ∈ out, ∀ msg, o.message ≠ .newView msg) : KeepsView n (n,out) :=
  ⟨rfl,rfl,rfl,rfl,rfl,rfl,hv,hn⟩

theorem checkCommitted (n : PBFTNode Op Dig) (key : Key) (d : Dig) : KeepsView n (n.checkCommitted key d,[]) := by
  obtain ⟨committed,requests,executed,hc⟩ := n.checkCommitted_eq key d
  rw [hc]
  exact ⟨rfl,rfl,rfl,rfl,rfl,rfl,by simp,by simp⟩

theorem checkPrepared (n : PBFTNode Op Dig) (key : Key) (d : Dig) : KeepsView n (n.checkPrepared key d) := by
  rcases n.checkPrepared_cases key d with ⟨-,h⟩ | ⟨-,-,h⟩
  · rw [h]
    exact .refl n (by simp) (by simp)
  · rw [h]
    have hc := checkCommitted (n.becomePrepared key d) key d
    exact ⟨hc.nodeId,hc.totalNodes,hc.f,hc.view,hc.status,hc.log,by simp [Outgoing.message],by simp [Outgoing.message]⟩

omit [DecidableEq Op] [DecidableEq Dig] in
theorem handleRequest (digest : Op → Option Dig) (n : PBFTNode Op Dig) (msg : RequestMessage Op) :
    KeepsView n (n.handleRequest digest msg) := by
  unfold PBFTNode.handleRequest
  split
  · exact .refl n (by simp [Outgoing.message]) (by simp [Outgoing.message])
  dsimp only
  split
  · exact ⟨rfl,rfl,rfl,rfl,rfl,rfl,by simp,by simp⟩
  · exact ⟨rfl,rfl,rfl,rfl,rfl,rfl,by simp [Outgoing.message],by simp [Outgoing.message]⟩

theorem handlePrePrepare (n : PBFTNode Op Dig) (msg : PrePrepareMessage Op Dig) :
    KeepsView n (n.handlePrePrepare msg) := by
  rcases n.handlePrePrepare_cases msg with ⟨-,h⟩ | ⟨-,-,h⟩
  · rw [h]
    exact .refl n (by simp) (by simp)
  rw [h]
  have hc := checkPrepared ((n.storePrePrepare msg).addPrepare msg.key n.nodeId msg.digest) msg.key msg.digest
  refine ⟨hc.nodeId,hc.totalNodes,hc.f,hc.view,hc.status,hc.log,?_,?_⟩
  · intro o ho
    rcases List.mem_cons.mp ho with rfl | ho
    · simp [Outgoing.message]
    · exact hc.viewChange o ho
  · intro o ho
    rcases List.mem_cons.mp ho with rfl | ho
    · simp [Outgoing.message]
    · exact hc.newView o ho

theorem handlePrepare (n : PBFTNode Op Dig) (msg : VoteMessage Dig) : KeepsView n (n.handlePrepare msg) := by
  rcases n.handlePrepare_cases msg with ⟨-,h⟩ | ⟨-,-,h⟩ | ⟨-,pp,-,-,h⟩
  · rw [h]
    exact .refl n (by simp) (by simp)
  · rw [h]
    exact ⟨rfl,rfl,rfl,rfl,rfl,rfl,by simp,by simp⟩
  · rw [h]
    have hc := checkPrepared (n.addPrepare msg.key msg.sender msg.digest) msg.key pp.digest
    exact ⟨hc.nodeId,hc.totalNodes,hc.f,hc.view,hc.status,hc.log,hc.viewChange,hc.newView⟩

theorem handleCommit (n : PBFTNode Op Dig) (msg : VoteMessage Dig) : KeepsView n (n.handleCommit msg,[]) := by
  rcases n.handleCommit_cases msg with ⟨-,h⟩ | ⟨-,-,h⟩ | ⟨-,pp,-,-,h⟩
  · rw [h]
    exact .refl n (by simp) (by simp)
  · rw [h]
    exact ⟨rfl,rfl,rfl,rfl,rfl,rfl,by simp,by simp⟩
  · rw [h]
    have hc := checkCommitted (n.addCommit msg.key msg.sender msg.digest) msg.key pp.digest
    exact ⟨hc.nodeId,hc.totalNodes,hc.f,hc.view,hc.status,hc.log,hc.viewChange,hc.newView⟩

omit [DecidableEq Op] [DecidableEq Dig] in
theorem propose (digest : Op → Option Dig) (n : PBFTNode Op Dig) (operation : Op) (reqId : ℤ) :
    KeepsView n (n.propose digest operation reqId) := by
  unfold PBFTNode.propose
  dsimp only
  split
  · have h := handleRequest digest
      { n with clientRequests := Function.update n.clientRequests reqId (some ⟨false,none⟩) }
      ⟨n.nodeId,n.view,n.nodeId,operation,reqId⟩
    exact ⟨h.nodeId,h.totalNodes,h.f,h.view,h.status,h.log,h.viewChange,h.newView⟩
  · exact ⟨rfl,rfl,rfl,rfl,rfl,rfl,by simp [Outgoing.message],by simp [Outgoing.message]⟩

end KeepsView

/-- Only two kinds of message reach the view of a node. -/
theorem receive_cases (digest : Op → Option Dig) (n : PBFTNode Op Dig) (message : Message Op Dig) :
    KeepsView n (n.receive digest message) ∨ (∃ msg, message = .viewChange msg) ∨ ∃ msg, message = .newView msg := by
  cases message with
  | request msg => exact Or.inl (.handleRequest digest n msg)
  | prePrepare msg => exact Or.inl (.handlePrePrepare n msg)
  | prepare msg => exact Or.inl (.handlePrepare n msg)
  | commit msg => exact Or.inl (.handleCommit n msg)
  | viewChange msg => exact Or.inr (Or.inl ⟨msg,rfl⟩)
  | newView msg => exact Or.inr (Or.inr ⟨msg,rfl⟩)

omit [DecidableEq Op] [DecidableEq Dig] in
/-- A VIEW_CHANGE is ignored, logged, or makes the node announce the view. -/
theorem handleViewChange_cases (n : PBFTNode Op Dig) (msg : ViewChangeMessage) :
    (msg.view ≤ n.view ∧ n.handleViewChange msg = (n,[])) ∨
    (n.view < msg.view ∧ ¬(2 * n.f + 1 ≤ ((n.logViewChange msg).loggedSenders msg.view).card ∧
        msg.view % n.totalNodes = n.nodeId) ∧
      n.handleViewChange msg = (n.logViewChange msg,[])) ∨
    (n.view < msg.view ∧ 2 * n.f + 1 ≤ ((n.logViewChange msg).loggedSenders msg.view).card ∧
      msg.view % n.totalNodes = n.nodeId ∧
      n.handleViewChange msg =
        (n.logViewChange msg).sendNewView msg.view ((n.logViewChange msg).viewChangeLog msg.view)) := by
  unfold handleViewChange
  split
  · rename_i hle
    exact Or.inl ⟨hle,rfl⟩
  rename_i hlt
  dsimp only
  split
  · rename_i hq
    exact Or.inr (Or.inr ⟨not_le.mp hlt,hq.1,hq.2,rfl⟩)
  · rename_i hq
    exact Or.inr (Or.inl ⟨not_le.mp hlt,hq,rfl⟩)

omit [DecidableEq Op] [DecidableEq Dig] in
/-- What a log holds after one more entry. -/
theorem mem_logViewChange {n : PBFTNode Op Dig} {msg m : ViewChangeMessage} {v : ℤ}
    (h : m ∈ (n.logViewChange msg).viewChangeLog v) : m ∈ n.viewChangeLog v ∨ (v = msg.view ∧ m = msg) := by
  change m ∈ Function.update n.viewChangeLog msg.view _ v at h
  by_cases hv : v = msg.view
  · subst v
    rw [Function.update_self] at h
    rcases List.mem_append.mp h with h | h
    · exact Or.inl h
    · exact Or.inr ⟨rfl,List.mem_singleton.mp h⟩
  · rw [Function.update_of_ne hv] at h
    exact Or.inl h

end PBFTNode

end DistributedSystems.Pbft
