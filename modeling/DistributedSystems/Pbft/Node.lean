import DistributedSystems.Pbft.Messages
import Mathlib.Data.Finset.Card
import Mathlib.Data.Finset.Image
import Mathlib.Data.Int.ModEq

/-! # One PBFT node

Every handler returns the node and what it hands to the network. A handler runs to
its end before the node receives anything else.
-/
namespace DistributedSystems.Pbft

/-- What a handler hands to the network. -/
inductive Outgoing (Op Dig : Type)
  | broadcast (message : Message Op Dig)
  | send (message : Message Op Dig) (destination : ℕ)

inductive Status
  | normal
  | viewChange
  deriving DecidableEq

structure RequestState where
  committed : Bool
  result : Option String
  deriving DecidableEq

/-- The fields of a node. The last three are histories: every PRE-PREPARE written to
`pre_prepares`, the digest of the COMMIT broadcast for each key, and the PRE-PREPAREs
executed, in order, each recorded as its key enters `committed_predicate`. -/
structure PBFTNode (Op Dig : Type) where
  nodeId : ℕ
  totalNodes : ℕ
  f : ℕ
  view : ℤ
  seqNum : ℤ
  prePrepares : Key → Option (PrePrepareMessage Op Dig)
  prepares : Key → Finset (ℕ × Dig)
  commits : Key → Finset (ℕ × Dig)
  viewChangeLog : ℤ → List ViewChangeMessage
  status : Status
  preparedPredicate : Finset Key
  committedPredicate : Finset Key
  clientRequests : ℤ → Option RequestState
  accepted : List (PrePrepareMessage Op Dig)
  commitSent : Key → Option Dig
  executed : List (PrePrepareMessage Op Dig)

namespace PBFTNode
variable {Op Dig : Type} [DecidableEq Op] [DecidableEq Dig]

/-- `__init__`. With no nodes at all the quotient is not used. -/
def init (nodeId totalNodes : ℕ) : PBFTNode Op Dig where
  nodeId := nodeId
  totalNodes := totalNodes
  f := (totalNodes - 1) / 3
  view := 0
  seqNum := 0
  prePrepares _ := none
  prepares _ := ∅
  commits _ := ∅
  viewChangeLog _ := []
  status := .normal
  preparedPredicate := ∅
  committedPredicate := ∅
  clientRequests _ := none
  accepted := []
  commitSent _ := none
  executed := []

def getPrimaryId (n : PBFTNode Op Dig) : ℕ := (n.view % n.totalNodes).toNat

def isPrimary (n : PBFTNode Op Dig) : Prop := (n.nodeId : ℤ) = n.view % n.totalNodes

omit [DecidableEq Op] [DecidableEq Dig] in
instance (n : PBFTNode Op Dig) : Decidable n.isPrimary := inferInstanceAs (Decidable (_ = _))

/-- Writes a message to `pre_prepares` under its key. -/
def storePrePrepare (n : PBFTNode Op Dig) (msg : PrePrepareMessage Op Dig) : PBFTNode Op Dig :=
  { n with
    prePrepares := Function.update n.prePrepares msg.key (some msg)
    accepted := n.accepted ++ [msg] }

/-- The request id looked up among the client requests, `none` for a missing key. -/
def requestIdOf (request : Option (RequestDict Op)) : Option ℤ :=
  match request with
  | none => some 0
  | some dict => if dict = RequestDict.empty then some 0 else dict.requestId

/-- The key is in `pre_prepares` whenever this runs; without it nothing is recorded. -/
def executeRequest (n : PBFTNode Op Dig) (key : Key) : PBFTNode Op Dig :=
  match n.prePrepares key with
  | none => n
  | some prePrepare =>
    { n with
      clientRequests := fun reqId =>
        if requestIdOf prePrepare.request = some reqId then
          (n.clientRequests reqId).map fun _ => { committed := true, result := some "Executed" }
        else n.clientRequests reqId
      executed := n.executed ++ [prePrepare] }

def checkCommitted (n : PBFTNode Op Dig) (key : Key) (digest : Dig) : PBFTNode Op Dig :=
  if key ∈ n.committedPredicate then n
  else if key ∉ n.preparedPredicate then n
  else if ((n.commits key).filter (·.2 = digest)).card ≥ 2 * n.f + 1 then
    executeRequest { n with committedPredicate := insert key n.committedPredicate } key
  else n

/-- Marks the key prepared and adds the node's own commit vote. -/
def becomePrepared (n : PBFTNode Op Dig) (key : Key) (digest : Dig) : PBFTNode Op Dig :=
  { n with
    preparedPredicate := insert key n.preparedPredicate
    commits := Function.update n.commits key (insert (n.nodeId,digest) (n.commits key))
    commitSent := Function.update n.commitSent key (some digest) }

def checkPrepared (n : PBFTNode Op Dig) (key : Key) (digest : Dig) :
    PBFTNode Op Dig × List (Outgoing Op Dig) :=
  if key ∈ n.preparedPredicate then (n,[])
  else if ((n.prepares key).filter (·.2 = digest)).card ≥ 2 * n.f then
    ((n.becomePrepared key digest).checkCommitted key digest,
      [.broadcast (.commit ⟨n.nodeId,n.view,key.2,digest⟩)])
  else (n,[])

/-- The commit check records what it commits and nothing else. -/
theorem checkCommitted_eq (n : PBFTNode Op Dig) (key : Key) (d : Dig) : ∃ committed requests executed,
    n.checkCommitted key d =
      { n with committedPredicate := committed, clientRequests := requests, executed := executed } := by
  unfold checkCommitted
  split
  · exact ⟨_,_,_,rfl⟩
  split
  · exact ⟨_,_,_,rfl⟩
  split
  · unfold executeRequest
    split
    · exact ⟨_,_,_,rfl⟩
    · exact ⟨_,_,_,rfl⟩
  · exact ⟨_,_,_,rfl⟩

def addPrepare (n : PBFTNode Op Dig) (key : Key) (sender : ℕ) (digest : Dig) : PBFTNode Op Dig :=
  { n with prepares := Function.update n.prepares key (insert (sender,digest) (n.prepares key)) }

def addCommit (n : PBFTNode Op Dig) (key : Key) (sender : ℕ) (digest : Dig) : PBFTNode Op Dig :=
  { n with commits := Function.update n.commits key (insert (sender,digest) (n.commits key)) }

omit [DecidableEq Op] in
@[simp] theorem becomePrepared_commits_self (n : PBFTNode Op Dig) (key : Key) (d : Dig) :
    (n.becomePrepared key d).commits key = insert (n.nodeId,d) (n.commits key) := by
  unfold becomePrepared
  exact Function.update_self ..

omit [DecidableEq Op] in
@[simp] theorem addPrepare_prepares_self (n : PBFTNode Op Dig) (key : Key) (x : ℕ) (d : Dig) :
    (n.addPrepare key x d).prepares key = insert (x,d) (n.prepares key) := by
  unfold addPrepare
  exact Function.update_self ..

omit [DecidableEq Op] in
@[simp] theorem addCommit_commits_self (n : PBFTNode Op Dig) (key : Key) (x : ℕ) (d : Dig) :
    (n.addCommit key x d).commits key = insert (x,d) (n.commits key) := by
  unfold addCommit
  exact Function.update_self ..

omit [DecidableEq Op] [DecidableEq Dig] in
@[simp] theorem storePrePrepare_prePrepares_self (n : PBFTNode Op Dig) (msg : PrePrepareMessage Op Dig) :
    (n.storePrePrepare msg).prePrepares msg.key = some msg := by
  unfold storePrePrepare
  exact Function.update_self ..

/-- A primary takes the next number even when the operation cannot be serialised;
`digest` then has no value and the handler raises. -/
def handleRequest (digest : Op → Option Dig) (n : PBFTNode Op Dig) (msg : RequestMessage Op) :
    PBFTNode Op Dig × List (Outgoing Op Dig) :=
  if ¬n.isPrimary then (n,[.send (.request msg) n.getPrimaryId])
  else
    let n := { n with seqNum := n.seqNum + 1 }
    match digest msg.operation with
    | none => (n,[])
    | some d =>
      let prePrepare : PrePrepareMessage Op Dig :=
        { sender := n.nodeId, view := n.view, sequenceNumber := n.seqNum, digest := d, request := some msg.asdict }
      (n.storePrePrepare prePrepare,[.broadcast (.prePrepare prePrepare)])

def handlePrePrepare (n : PBFTNode Op Dig) (msg : PrePrepareMessage Op Dig) :
    PBFTNode Op Dig × List (Outgoing Op Dig) :=
  if msg.view ≠ n.view then (n,[])
  else if (n.prePrepares msg.key).isSome then (n,[])
  else
    let n := (n.storePrePrepare msg).addPrepare msg.key n.nodeId msg.digest
    let out := n.checkPrepared msg.key msg.digest
    (out.1,.broadcast (.prepare ⟨n.nodeId,n.view,msg.sequenceNumber,msg.digest⟩) :: out.2)

def handlePrepare (n : PBFTNode Op Dig) (msg : VoteMessage Dig) :
    PBFTNode Op Dig × List (Outgoing Op Dig) :=
  if msg.view ≠ n.view then (n,[])
  else
    let n := n.addPrepare msg.key msg.sender msg.digest
    match n.prePrepares msg.key with
    | none => (n,[])
    | some prePrepare =>
      if msg.digest ≠ prePrepare.digest then (n,[]) else n.checkPrepared msg.key prePrepare.digest

def handleCommit (n : PBFTNode Op Dig) (msg : VoteMessage Dig) : PBFTNode Op Dig :=
  if msg.view ≠ n.view then n
  else
    let n := n.addCommit msg.key msg.sender msg.digest
    match n.prePrepares msg.key with
    | none => n
    | some prePrepare =>
      if msg.digest ≠ prePrepare.digest then n else n.checkCommitted msg.key prePrepare.digest

def logViewChange (n : PBFTNode Op Dig) (msg : ViewChangeMessage) : PBFTNode Op Dig :=
  { n with viewChangeLog := Function.update n.viewChangeLog msg.view (n.viewChangeLog msg.view ++ [msg]) }

def triggerViewChange (n : PBFTNode Op Dig) : PBFTNode Op Dig × List (Outgoing Op Dig) :=
  let vcMsg : ViewChangeMessage := ⟨n.nodeId,n.view + 1⟩
  (logViewChange { n with status := .viewChange } vcMsg,[.broadcast (.viewChange vcMsg)])

def sendNewView (n : PBFTNode Op Dig) (newView : ℤ) (viewChanges : List ViewChangeMessage) :
    PBFTNode Op Dig × List (Outgoing Op Dig) :=
  ({ n with view := newView, status := .normal },[.broadcast (.newView ⟨n.nodeId,newView,viewChanges⟩)])

def handleViewChange (n : PBFTNode Op Dig) (msg : ViewChangeMessage) :
    PBFTNode Op Dig × List (Outgoing Op Dig) :=
  if msg.view ≤ n.view then (n,[])
  else
    let n := n.logViewChange msg
    let senders := ((n.viewChangeLog msg.view).map ViewChangeMessage.sender).toFinset
    if senders.card ≥ 2 * n.f + 1 ∧ msg.view % n.totalNodes = n.nodeId then
      n.sendNewView msg.view (n.viewChangeLog msg.view)
    else (n,[])

/-- The message is believed as it stands. -/
def handleNewView (n : PBFTNode Op Dig) (msg : NewViewMessage) : PBFTNode Op Dig :=
  { n with view := msg.view, status := .normal }

def receive (digest : Op → Option Dig) (n : PBFTNode Op Dig) :
    Message Op Dig → PBFTNode Op Dig × List (Outgoing Op Dig)
  | .request msg => n.handleRequest digest msg
  | .prePrepare msg => n.handlePrePrepare msg
  | .prepare msg => n.handlePrepare msg
  | .commit msg => (n.handleCommit msg,[])
  | .viewChange msg => n.handleViewChange msg
  | .newView msg => (n.handleNewView msg,[])

/-- The request id is read from the clock. -/
def propose (digest : Op → Option Dig) (n : PBFTNode Op Dig) (operation : Op) (reqId : ℤ) :
    PBFTNode Op Dig × List (Outgoing Op Dig) :=
  let n := { n with clientRequests := Function.update n.clientRequests reqId (some ⟨false,none⟩) }
  let reqMsg : RequestMessage Op :=
    { sender := n.nodeId, view := n.view, clientId := n.nodeId, operation := operation, requestId := reqId }
  if n.isPrimary then n.handleRequest digest reqMsg else (n,[.send (.request reqMsg) n.getPrimaryId])

/-- The commit check does nothing, or finds a quorum and executes. -/
theorem checkCommitted_cases (n : PBFTNode Op Dig) (key : Key) (d : Dig) :
    (¬(key ∉ n.committedPredicate ∧ key ∈ n.preparedPredicate ∧ 2 * n.f + 1 ≤ ((n.commits key).filter (·.2 = d)).card) ∧
      n.checkCommitted key d = n) ∨
    (key ∉ n.committedPredicate ∧ key ∈ n.preparedPredicate ∧ 2 * n.f + 1 ≤ ((n.commits key).filter (·.2 = d)).card ∧
      n.checkCommitted key d = executeRequest { n with committedPredicate := insert key n.committedPredicate } key) := by
  unfold checkCommitted
  split
  · rename_i hc
    exact Or.inl ⟨fun h => h.1 hc,rfl⟩
  rename_i hc
  split
  · rename_i hp
    exact Or.inl ⟨fun h => hp h.2.1,rfl⟩
  rename_i hp
  split
  · rename_i hcard
    exact Or.inr ⟨hc,not_not.mp hp,hcard,rfl⟩
  · rename_i hcard
    exact Or.inl ⟨fun h => hcard h.2.2,rfl⟩

/-- The prepare check does nothing, or prepares the key and goes on to the commit check. -/
theorem checkPrepared_cases (n : PBFTNode Op Dig) (key : Key) (d : Dig) :
    (¬(key ∉ n.preparedPredicate ∧ 2 * n.f ≤ ((n.prepares key).filter (·.2 = d)).card) ∧
      n.checkPrepared key d = (n,[])) ∨
    (key ∉ n.preparedPredicate ∧ 2 * n.f ≤ ((n.prepares key).filter (·.2 = d)).card ∧ n.checkPrepared key d =
      ((n.becomePrepared key d).checkCommitted key d,[.broadcast (.commit ⟨n.nodeId,n.view,key.2,d⟩)])) := by
  unfold checkPrepared
  split
  · rename_i hp
    exact Or.inl ⟨fun h => h.1 hp,rfl⟩
  rename_i hp
  split
  · rename_i hcard
    exact Or.inr ⟨hp,hcard,rfl⟩
  · rename_i hcard
    exact Or.inl ⟨fun h => hcard h.2,rfl⟩

/-- The checks look at PRE-PREPAREs and PREPAREs without changing them. -/
theorem checkPrepared_frame (n : PBFTNode Op Dig) (key : Key) (d : Dig) :
    (n.checkPrepared key d).1.prePrepares = n.prePrepares ∧ (n.checkPrepared key d).1.prepares = n.prepares ∧
      (n.checkPrepared key d).1.seqNum = n.seqNum := by
  rcases n.checkPrepared_cases key d with ⟨-,h⟩ | ⟨-,-,h⟩
  · rw [h]
    exact ⟨rfl,rfl,rfl⟩
  · obtain ⟨committed,requests,executed,hc⟩ := (n.becomePrepared key d).checkCommitted_eq key d
    rw [h,hc]
    exact ⟨rfl,rfl,rfl⟩

/-- A PRE-PREPARE is ignored, or stored with the node's own vote and looked at. -/
theorem handlePrePrepare_cases (n : PBFTNode Op Dig) (msg : PrePrepareMessage Op Dig) :
    (¬(msg.view = n.view ∧ n.prePrepares msg.key = none) ∧ n.handlePrePrepare msg = (n,[])) ∨
    (msg.view = n.view ∧ n.prePrepares msg.key = none ∧ n.handlePrePrepare msg =
      ((((n.storePrePrepare msg).addPrepare msg.key n.nodeId msg.digest).checkPrepared msg.key msg.digest).1,
        .broadcast (.prepare ⟨n.nodeId,n.view,msg.sequenceNumber,msg.digest⟩) ::
          (((n.storePrePrepare msg).addPrepare msg.key n.nodeId msg.digest).checkPrepared msg.key msg.digest).2)) := by
  unfold handlePrePrepare
  split
  · rename_i hview
    exact Or.inl ⟨fun h => hview h.1,rfl⟩
  rename_i hview
  split
  · rename_i hsome
    exact Or.inl ⟨fun h => absurd hsome (by simp [h.2]),rfl⟩
  · rename_i hnone
    exact Or.inr ⟨not_not.mp hview,Option.not_isSome_iff_eq_none.mp hnone,rfl⟩

omit [DecidableEq Op] in
/-- A vote is ignored, counted only, or counted and looked at. -/
theorem vote_cases {β : Type} (n : PBFTNode Op Dig) (msg : VoteMessage Dig) {ignored counted out : β} (check : Dig → β)
    (hout : out = if msg.view ≠ n.view then ignored else
      match n.prePrepares msg.key with
      | none => counted
      | some pp => if msg.digest ≠ pp.digest then counted else check pp.digest) :
    (msg.view ≠ n.view ∧ out = ignored) ∨
    (msg.view = n.view ∧ (∀ pp, n.prePrepares msg.key = some pp → pp.digest ≠ msg.digest) ∧ out = counted) ∨
    (msg.view = n.view ∧ ∃ pp, n.prePrepares msg.key = some pp ∧ pp.digest = msg.digest ∧ out = check pp.digest) := by
  subst hout
  by_cases hview : msg.view = n.view
  · rw [if_neg (not_not.mpr hview)]
    refine Or.inr ?_
    cases n.prePrepares msg.key with
    | none => exact Or.inl ⟨hview,fun _ h => (by cases h),rfl⟩
    | some pp =>
      dsimp only
      by_cases hd : pp.digest = msg.digest
      · rw [if_neg (not_not.mpr hd.symm)]
        exact Or.inr ⟨hview,pp,rfl,hd,rfl⟩
      · rw [if_pos (Ne.symm hd)]
        exact Or.inl ⟨hview,fun pp' h => Option.some.inj h ▸ hd,rfl⟩
  · rw [if_pos hview]
    exact Or.inl ⟨hview,rfl⟩

theorem handlePrepare_cases (n : PBFTNode Op Dig) (msg : VoteMessage Dig) :
    (msg.view ≠ n.view ∧ n.handlePrepare msg = (n,[])) ∨
    (msg.view = n.view ∧ (∀ pp, n.prePrepares msg.key = some pp → pp.digest ≠ msg.digest) ∧
      n.handlePrepare msg = (n.addPrepare msg.key msg.sender msg.digest,[])) ∨
    (msg.view = n.view ∧ ∃ pp, n.prePrepares msg.key = some pp ∧ pp.digest = msg.digest ∧
      n.handlePrepare msg = (n.addPrepare msg.key msg.sender msg.digest).checkPrepared msg.key pp.digest) :=
  n.vote_cases msg ((n.addPrepare msg.key msg.sender msg.digest).checkPrepared msg.key) rfl

theorem handleCommit_cases (n : PBFTNode Op Dig) (msg : VoteMessage Dig) :
    (msg.view ≠ n.view ∧ n.handleCommit msg = n) ∨
    (msg.view = n.view ∧ (∀ pp, n.prePrepares msg.key = some pp → pp.digest ≠ msg.digest) ∧
      n.handleCommit msg = n.addCommit msg.key msg.sender msg.digest) ∨
    (msg.view = n.view ∧ ∃ pp, n.prePrepares msg.key = some pp ∧ pp.digest = msg.digest ∧
      n.handleCommit msg = (n.addCommit msg.key msg.sender msg.digest).checkCommitted msg.key pp.digest) :=
  n.vote_cases msg ((n.addCommit msg.key msg.sender msg.digest).checkCommitted msg.key) rfl

end PBFTNode

end DistributedSystems.Pbft
