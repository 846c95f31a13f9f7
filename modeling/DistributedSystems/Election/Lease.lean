import Mathlib.Data.Finset.Card
import Mathlib.Order.Defs.LinearOrder

/-! # One node of the lease-based election

What runs under the lock of the node is one step and reads the clock once; the checks
that a thread makes before it takes the lock are steps of their own. Terms are counted
from 0 and only ever copied or incremented, so they are natural numbers.
-/
namespace DistributedSystems.Election

inductive LeaseMessageType
  | requestLease
  | grantLease
  | heartbeat
  deriving DecidableEq

structure LeaseMessage where
  type : LeaseMessageType
  senderId : ℕ
  term : ℕ
  deriving DecidableEq

/-- A message on its way to a node. -/
structure Packet where
  destination : ℕ
  message : LeaseMessage
  deriving DecidableEq

structure Lease (T : Type) where
  holder : ℕ
  issuedTime : T
  duration : T
  term : ℕ

variable {T : Type} [Add T] [LinearOrder T]

def Lease.isValid (lease : Lease T) (now : T) : Prop := now < lease.issuedTime + lease.duration

instance (lease : Lease T) (now : T) : Decidable (lease.isValid now) := inferInstanceAs (Decidable (_ < _))

/-- Threads between two steps: callers of `_start_contention` that passed its check, those
that wait to call `_attempt_acquire_lease` and `_contention_timeout`, rounds of the monitor
and of the renewal loop that passed the check of the loop, and the terms of heartbeats
that are composed and not sent yet. -/
structure Threads where
  triggers : ℕ
  attempts : ℕ
  timeouts : ℕ
  monitors : ℕ
  renewals : ℕ
  heartbeats : List ℕ

/-- The fields of a node; the peers, a set in the source, in some order. The last four are
histories: the votes cast as pairs of term and candidate, the term of the last own
request, the terms in which the node became leader, and the voters counted then. -/
structure LeaseBasedElection (T : Type) where
  nodeId : ℕ
  peers : List ℕ
  leaseDuration : T
  quorumSize : ℕ
  currentLease : Option (Lease T)
  term : ℕ
  votesReceived : Finset ℕ
  isLeaderFlag : Bool
  inContention : Bool
  running : Bool
  votedFor : Option ℕ
  voteTimestamp : Option T
  threads : Threads
  casts : List (ℕ × ℕ)
  attemptTerm : ℕ
  wins : List ℕ
  electors : Finset ℕ

/-- What a handler leaves behind: the node, what it sent, and the leaders that the
registered callbacks were called with. -/
structure Reaction (T : Type) where
  node : LeaseBasedElection T
  sent : List Packet
  notified : List (Option ℕ)

namespace LeaseBasedElection

/-- `__init__`. A missing or zero `quorum_size` means a majority. -/
def init (nodeId : ℕ) (peers : List ℕ) (leaseDuration : T) (quorumSize : Option ℕ) : LeaseBasedElection T where
  nodeId := nodeId
  peers := peers.dedup
  leaseDuration := leaseDuration
  quorumSize :=
    match quorumSize with
    | none | some 0 => (insert nodeId peers.toFinset).card / 2 + 1
    | some size => size
  currentLease := none
  term := 0
  votesReceived := ∅
  isLeaderFlag := false
  inContention := false
  running := false
  votedFor := none
  voteTimestamp := none
  threads := ⟨0,0,0,0,0,[]⟩
  casts := []
  attemptTerm := 0
  wins := []
  electors := ∅

/-- The node knows of a lease that has not expired. -/
def leaseValid (n : LeaseBasedElection T) (now : T) : Prop := ∃ lease ∈ n.currentLease, lease.isValid now

instance (n : LeaseBasedElection T) (now : T) : Decidable (n.leaseValid now) :=
  inferInstanceAs (Decidable (∃ lease ∈ n.currentLease, lease.isValid now))

/-- The node knows of a lease, valid or not, of this holder. -/
def isOwner (n : LeaseBasedElection T) (holder : ℕ) : Prop := ∃ lease ∈ n.currentLease, lease.holder = holder

instance (n : LeaseBasedElection T) (holder : ℕ) : Decidable (n.isOwner holder) :=
  inferInstanceAs (Decidable (∃ lease ∈ n.currentLease, lease.holder = holder))

def getLeader (n : LeaseBasedElection T) (now : T) : Option ℕ :=
  n.currentLease.bind fun lease => if lease.isValid now then some lease.holder else none

/-- The part of `_start_contention` after its check. -/
def contend (n : LeaseBasedElection T) : LeaseBasedElection T :=
  { n with inContention := true, threads.attempts := n.threads.attempts + 1 }

def startContention (n : LeaseBasedElection T) : LeaseBasedElection T :=
  if n.inContention ∨ n.isLeaderFlag then n else n.contend

/-- Calls `_start_contention` without the lock. -/
def triggerElection (n : LeaseBasedElection T) : LeaseBasedElection T :=
  if n.inContention ∨ n.isLeaderFlag then n else { n with threads.triggers := n.threads.triggers + 1 }

def start (n : LeaseBasedElection T) : LeaseBasedElection T :=
  if n.running then n else startContention { n with running := true }

def stepDown (n : LeaseBasedElection T) : LeaseBasedElection T := { n with isLeaderFlag := false }

def relinquishLease (n : LeaseBasedElection T) : LeaseBasedElection T := { n.stepDown with currentLease := none }

def stop (n : LeaseBasedElection T) : LeaseBasedElection T :=
  let n := { n with running := false }
  if n.isLeaderFlag then n.relinquishLease else n

/-- A vote, for a candidate of a term. -/
def cast (n : LeaseBasedElection T) (term candidate : ℕ) : LeaseBasedElection T :=
  { n with votedFor := some candidate, casts := n.casts ++ [(term,candidate)] }

def toPeers (n : LeaseBasedElection T) (message : LeaseMessage) : List Packet :=
  n.peers.map fun peer => ⟨peer,message⟩

def attemptAcquireLease (n : LeaseBasedElection T) (now : T) : Reaction T :=
  if ¬n.running then ⟨n,[],[]⟩
  else if n.leaseValid now then ⟨{ n with inContention := false },[],[]⟩
  else
    let n := { n with
      term := n.term + 1
      votesReceived := {n.nodeId}
      attemptTerm := n.term + 1
      threads.timeouts := n.threads.timeouts + 1 }
    let n := n.cast n.term n.nodeId
    ⟨n,n.toPeers ⟨.requestLease,n.nodeId,n.term⟩,[]⟩

def contentionTimeout (n : LeaseBasedElection T) : LeaseBasedElection T :=
  if n.inContention ∧ ¬n.isLeaderFlag then { n with inContention := false } else n

/-- A higher term makes the node forget its vote. -/
def adoptTerm (n : LeaseBasedElection T) (term : ℕ) : LeaseBasedElection T :=
  if n.term < term then { n with term := term, votedFor := none } else n

/-- Whether a request is granted, after its term has been adopted. -/
def shouldGrant (n : LeaseBasedElection T) (now : T) (senderId : ℕ) : Prop :=
  n.isOwner senderId ∨ (¬n.leaseValid now ∧ (n.votedFor = none ∨ n.votedFor = some senderId))

instance (n : LeaseBasedElection T) (now : T) (senderId : ℕ) : Decidable (n.shouldGrant now senderId) :=
  inferInstanceAs (Decidable (_ ∨ _))

def handleRequestLease (n : LeaseBasedElection T) (now : T) (msg : LeaseMessage) : Reaction T :=
  let n := n.adoptTerm msg.term
  if n.shouldGrant now msg.senderId then
    ⟨{ n.cast msg.term msg.senderId with voteTimestamp := some now },
      [⟨msg.senderId,⟨.grantLease,n.nodeId,msg.term⟩⟩],[]⟩
  else ⟨n,[],[]⟩

def becomeLeader (n : LeaseBasedElection T) (now : T) : Reaction T :=
  let n := { n with
    isLeaderFlag := true
    inContention := false
    currentLease := some ⟨n.nodeId,now,n.leaseDuration,n.term⟩
    wins := n.wins ++ [n.term]
    electors := n.votesReceived }
  ⟨n,[],[n.getLeader now]⟩

def handleGrantLease (n : LeaseBasedElection T) (now : T) (msg : LeaseMessage) : Reaction T :=
  if ¬n.inContention ∧ ¬n.isLeaderFlag then ⟨n,[],[]⟩
  else if msg.term ≠ n.term then ⟨n,[],[]⟩
  else
    let n := { n with votesReceived := insert msg.senderId n.votesReceived }
    if n.quorumSize ≤ n.votesReceived.card ∧ ¬n.isLeaderFlag then n.becomeLeader now else ⟨n,[],[]⟩

def handleHeartbeat (n : LeaseBasedElection T) (now : T) (msg : LeaseMessage) : LeaseBasedElection T :=
  if n.term ≤ msg.term then
    let n := { n with
      currentLease := some ⟨msg.senderId,now,n.leaseDuration,msg.term⟩
      term := msg.term
      inContention := false }
    if n.isLeaderFlag ∧ msg.senderId ≠ n.nodeId then n.stepDown else n
  else n

/-- The messages that a leader sends to renew its lease; the terms of heartbeat and request
are read one after the other. -/
def renewal (n : LeaseBasedElection T) (heartbeatTerm : ℕ) : List Packet :=
  n.peers.flatMap fun peer =>
    [⟨peer,⟨.requestLease,n.nodeId,n.term⟩⟩,⟨peer,⟨.heartbeat,n.nodeId,heartbeatTerm⟩⟩]

/-- The part of one round of `_monitor_lease` under the lock. -/
def monitorLease (n : LeaseBasedElection T) (now : T) : LeaseBasedElection T :=
  if n.currentLease.isSome ∧ ¬n.leaseValid now then
    let n := if n.isLeaderFlag then n.stepDown else n
    if ¬n.inContention then n.startContention else n
  else n

def handleMessage (n : LeaseBasedElection T) (now : T) (msg : LeaseMessage) : Reaction T :=
  match msg.type with
  | .requestLease => n.handleRequestLease now msg
  | .grantLease => n.handleGrantLease now msg
  | .heartbeat => ⟨n.handleHeartbeat now msg,[],[]⟩

/-- What a node does of its own accord, each by a call from outside or by one of its threads. -/
inductive Move
  | start
  | stop
  | triggerElection
  | contend
  | attemptAcquireLease
  | contentionTimeout
  | monitorCheck
  | monitorLease
  | renewalCheck
  | composeHeartbeat
  | sendHeartbeat (k : ℕ)

/-- A thread that takes its step is no longer waiting. -/
def act (n : LeaseBasedElection T) (now : T) : Move → Reaction T
  | .start => ⟨n.start,[],[]⟩
  | .stop => ⟨n.stop,[],[]⟩
  | .triggerElection => ⟨n.triggerElection,[],[]⟩
  | .contend =>
    if n.threads.triggers = 0 then ⟨n,[],[]⟩
    else ⟨({ n with threads.triggers := n.threads.triggers - 1 } : LeaseBasedElection T).contend,[],[]⟩
  | .attemptAcquireLease =>
    if n.threads.attempts = 0 then ⟨n,[],[]⟩
    else ({ n with threads.attempts := n.threads.attempts - 1 } : LeaseBasedElection T).attemptAcquireLease now
  | .contentionTimeout =>
    if n.threads.timeouts = 0 then ⟨n,[],[]⟩
    else ⟨({ n with threads.timeouts := n.threads.timeouts - 1 } : LeaseBasedElection T).contentionTimeout,[],[]⟩
  | .monitorCheck =>
    if n.running then ⟨{ n with threads.monitors := n.threads.monitors + 1 },[],[]⟩ else ⟨n,[],[]⟩
  | .monitorLease =>
    if n.threads.monitors = 0 then ⟨n,[],[]⟩
    else ⟨({ n with threads.monitors := n.threads.monitors - 1 } : LeaseBasedElection T).monitorLease now,[],[]⟩
  | .renewalCheck =>
    if n.running ∧ n.isLeaderFlag then ⟨{ n with threads.renewals := n.threads.renewals + 1 },[],[]⟩ else ⟨n,[],[]⟩
  | .composeHeartbeat =>
    if n.threads.renewals = 0 then ⟨n,[],[]⟩
    else ⟨{ n with
        threads.renewals := n.threads.renewals - 1
        threads.heartbeats := n.threads.heartbeats ++ [n.term] },[],[]⟩
  | .sendHeartbeat k =>
    match n.threads.heartbeats[k]? with
    | none => ⟨n,[],[]⟩
    | some term => ⟨{ n with threads.heartbeats := n.threads.heartbeats.eraseIdx k },n.renewal term,[]⟩

/-- The node takes itself for the leader, under an own lease that has not expired. -/
def leads (n : LeaseBasedElection T) (now : T) : Prop :=
  n.isLeaderFlag = true ∧ ∃ lease ∈ n.currentLease, lease.holder = n.nodeId ∧ lease.isValid now

instance (n : LeaseBasedElection T) (now : T) : Decidable (n.leads now) :=
  inferInstanceAs (Decidable (_ ∧ ∃ lease ∈ n.currentLease, lease.holder = n.nodeId ∧ lease.isValid now))

/-- A handler that neither casts nor counts a vote. -/
structure Steady (n n' : LeaseBasedElection T) : Prop where
  nodeId : n'.nodeId = n.nodeId
  peers : n'.peers = n.peers
  quorumSize : n'.quorumSize = n.quorumSize
  votesReceived : n'.votesReceived = n.votesReceived
  casts : n'.casts = n.casts
  attemptTerm : n'.attemptTerm = n.attemptTerm
  wins : n'.wins = n.wins
  electors : n'.electors = n.electors
  term : n.term ≤ n'.term
  votedFor : n'.term = n.term → n'.votedFor = n.votedFor
  leads : ∀ now, n'.leads now → n.leads now

namespace Steady

theorem refl (n : LeaseBasedElection T) : Steady n n :=
  ⟨rfl,rfl,rfl,rfl,rfl,rfl,rfl,rfl,le_refl _,fun _ => rfl,fun _ h => h⟩

theorem trans {n n' n'' : LeaseBasedElection T} (h : Steady n n') (h' : Steady n' n'') : Steady n n'' where
  nodeId := h'.nodeId.trans h.nodeId
  peers := h'.peers.trans h.peers
  quorumSize := h'.quorumSize.trans h.quorumSize
  votesReceived := h'.votesReceived.trans h.votesReceived
  casts := h'.casts.trans h.casts
  attemptTerm := h'.attemptTerm.trans h.attemptTerm
  wins := h'.wins.trans h.wins
  electors := h'.electors.trans h.electors
  term := h.term.trans h'.term
  votedFor ht := by
    have hmid : n'.term = n.term := le_antisymm (ht ▸ h'.term) h.term
    exact (h'.votedFor (ht.trans hmid.symm)).trans (h.votedFor hmid)
  leads now hl := h.leads now (h'.leads now hl)

/-- A waiting thread is no reason to vote. -/
theorem setThreads (n : LeaseBasedElection T) (threads : Threads) : Steady n { n with threads := threads } :=
  ⟨rfl,rfl,rfl,rfl,rfl,rfl,rfl,rfl,le_refl _,fun _ => rfl,fun _ h => h⟩

theorem contend (n : LeaseBasedElection T) : Steady n n.contend :=
  ⟨rfl,rfl,rfl,rfl,rfl,rfl,rfl,rfl,le_refl _,fun _ => rfl,fun _ h => h⟩

theorem startContention (n : LeaseBasedElection T) : Steady n n.startContention := by
  unfold LeaseBasedElection.startContention
  split
  · exact .refl n
  · exact .contend n

theorem triggerElection (n : LeaseBasedElection T) : Steady n n.triggerElection := by
  unfold LeaseBasedElection.triggerElection
  split
  · exact .refl n
  · exact .setThreads n _

theorem start (n : LeaseBasedElection T) : Steady n n.start := by
  unfold LeaseBasedElection.start
  split
  · exact .refl n
  · have h : Steady n { n with running := true } :=
      ⟨rfl,rfl,rfl,rfl,rfl,rfl,rfl,rfl,le_refl _,fun _ => rfl,fun _ h => h⟩
    exact h.trans (.startContention _)

theorem stepDown (n : LeaseBasedElection T) : Steady n n.stepDown :=
  ⟨rfl,rfl,rfl,rfl,rfl,rfl,rfl,rfl,le_refl _,fun _ => rfl,fun _ h => by cases h.1⟩

theorem stop (n : LeaseBasedElection T) : Steady n n.stop := by
  unfold LeaseBasedElection.stop
  dsimp only
  split
  · exact ⟨rfl,rfl,rfl,rfl,rfl,rfl,rfl,rfl,le_refl _,fun _ => rfl,fun _ h => by cases h.1⟩
  · exact ⟨rfl,rfl,rfl,rfl,rfl,rfl,rfl,rfl,le_refl _,fun _ => rfl,fun _ h => h⟩

theorem contentionTimeout (n : LeaseBasedElection T) : Steady n n.contentionTimeout := by
  unfold LeaseBasedElection.contentionTimeout
  split
  · exact ⟨rfl,rfl,rfl,rfl,rfl,rfl,rfl,rfl,le_refl _,fun _ => rfl,fun _ h => h⟩
  · exact .refl n

theorem monitorLease (n : LeaseBasedElection T) (now : T) : Steady n (n.monitorLease now) := by
  have h : Steady n (if n.isLeaderFlag then n.stepDown else n) := by
    split
    · exact .stepDown n
    · exact .refl n
  unfold LeaseBasedElection.monitorLease
  split
  · by_cases hc : (if n.isLeaderFlag then n.stepDown else n).inContention
    · rw [if_neg (not_not.mpr hc)]
      exact h
    · rw [if_pos hc]
      exact h.trans (.startContention _)
  · exact .refl n

/-- A heartbeat of another node ends the leadership of the node that accepts it. -/
theorem handleHeartbeat (n : LeaseBasedElection T) (now : T) {msg : LeaseMessage} (hs : msg.senderId ≠ n.nodeId) :
    Steady n (n.handleHeartbeat now msg) := by
  unfold LeaseBasedElection.handleHeartbeat
  split
  · rename_i hterm
    dsimp only
    split
    · exact ⟨rfl,rfl,rfl,rfl,rfl,rfl,rfl,rfl,hterm,fun _ => rfl,fun _ h => by cases h.1⟩
    · rename_i hflag
      refine ⟨rfl,rfl,rfl,rfl,rfl,rfl,rfl,rfl,hterm,fun _ => rfl,fun _ h => ?_⟩
      exact absurd ⟨h.1,hs⟩ hflag
  · exact .refl n

theorem adoptTerm (n : LeaseBasedElection T) (term : ℕ) : Steady n (n.adoptTerm term) := by
  unfold LeaseBasedElection.adoptTerm
  split
  · rename_i hlt
    exact ⟨rfl,rfl,rfl,rfl,rfl,rfl,rfl,rfl,hlt.le,fun h => absurd h hlt.ne',fun _ h => h⟩
  · exact .refl n

end Steady

/-- Messages to peers that give nobody a vote. -/
def Addressed (n : LeaseBasedElection T) (sent : List Packet) : Prop :=
  ∀ p ∈ sent, p.destination ∈ n.peers ∧ p.message.senderId = n.nodeId ∧ p.message.type ≠ .grantLease

omit [Add T] [LinearOrder T] in
theorem addressed_nil (n : LeaseBasedElection T) : n.Addressed [] := fun _ h => absurd h List.not_mem_nil

omit [Add T] [LinearOrder T] in
theorem addressed_toPeers (n : LeaseBasedElection T) (term : ℕ) :
    n.Addressed (n.toPeers ⟨.requestLease,n.nodeId,term⟩) := by
  intro p hp
  obtain ⟨peer,hpeer,rfl⟩ := List.mem_map.mp hp
  exact ⟨hpeer,rfl,nofun⟩

omit [Add T] [LinearOrder T] in
theorem addressed_renewal (n : LeaseBasedElection T) (term : ℕ) : n.Addressed (n.renewal term) := by
  intro p hp
  obtain ⟨peer,hpeer,hp⟩ := List.mem_flatMap.mp hp
  rcases List.mem_cons.mp hp with rfl | hp
  · exact ⟨hpeer,rfl,nofun⟩
  · cases List.mem_singleton.mp hp
    exact ⟨hpeer,rfl,nofun⟩

/-- A request for votes in a new term, with the vote of the node for itself. -/
def requestVotes (n : LeaseBasedElection T) (threads : Threads) : Reaction T :=
  ⟨{ n with
      term := n.term + 1
      votesReceived := {n.nodeId}
      attemptTerm := n.term + 1
      votedFor := some n.nodeId
      casts := n.casts ++ [(n.term + 1,n.nodeId)]
      threads := threads },n.toPeers ⟨.requestLease,n.nodeId,n.term + 1⟩,[]⟩

/-- A step in which a node gives nobody a vote. -/
def Silent (n : LeaseBasedElection T) (r : Reaction T) : Prop := n.Steady r.node ∧ n.Addressed r.sent

theorem Steady.silent {n n' : LeaseBasedElection T} (h : n.Steady n') : n.Silent ⟨n',[],[]⟩ := ⟨h,n.addressed_nil⟩

theorem Silent.ite {c : Prop} [Decidable c] {n : LeaseBasedElection T} {r r' : Reaction T} (h : n.Silent r)
    (h' : n.Silent r') : n.Silent (if c then r else r') := by
  split
  · exact h
  · exact h'

/-- Why a node takes a step. -/
inductive Cause
  | own (move : Move)
  | message (msg : LeaseMessage)

def respond (n : LeaseBasedElection T) (now : T) : Cause → Reaction T
  | .own move => n.act now move
  | .message msg => n.handleMessage now msg

/-- The candidate that the node votes for in its step. -/
def ballot (n : LeaseBasedElection T) (now : T) : Cause → Option ℕ
  | .own .attemptAcquireLease =>
    if n.threads.attempts ≠ 0 ∧ n.running ∧ ¬n.leaseValid now then some n.nodeId else none
  | .own _ => none
  | .message msg =>
    if msg.type = .requestLease ∧ (n.adoptTerm msg.term).shouldGrant now msg.senderId then some msg.senderId
    else none

/-- Whether a grant completes a quorum for a node that is not leader yet. -/
def completesQuorum (n : LeaseBasedElection T) (msg : LeaseMessage) : Prop :=
  n.inContention = true ∧ n.isLeaderFlag = false ∧ msg.term = n.term ∧
    n.quorumSize ≤ (insert msg.senderId n.votesReceived).card

instance (n : LeaseBasedElection T) (msg : LeaseMessage) : Decidable (n.completesQuorum msg) :=
  inferInstanceAs (Decidable (_ ∧ _))

/-- Everything that a step can do to the votes. -/
inductive Reacts (n : LeaseBasedElection T) (now : T) : Cause → Reaction T → Prop
  | silent {cause : Cause} {r : Reaction T} (h : n.Silent r) : Reacts n now cause r
  | request {threads : Threads} (h : n.ballot now (.own .attemptAcquireLease) = some n.nodeId) :
      Reacts n now (.own .attemptAcquireLease) (n.requestVotes threads)
  | grant {msg : LeaseMessage} (ht : msg.type = .requestLease)
      (h : (n.adoptTerm msg.term).shouldGrant now msg.senderId) :
      Reacts n now (.message msg)
        ⟨{ (n.adoptTerm msg.term).cast msg.term msg.senderId with voteTimestamp := some now },
        [⟨msg.senderId,⟨.grantLease,n.nodeId,msg.term⟩⟩],[]⟩
  | count {msg : LeaseMessage} (ht : msg.type = .grantLease) (h : msg.term = n.term) :
      Reacts n now (.message msg) ⟨{ n with votesReceived := insert msg.senderId n.votesReceived },[],[]⟩
  | lead {msg : LeaseMessage} (ht : msg.type = .grantLease) (h : n.completesQuorum msg) :
      Reacts n now (.message msg)
        (({ n with votesReceived := insert msg.senderId n.votesReceived } : LeaseBasedElection T).becomeLeader now)

/-- Of its own accord a node votes for itself at most. -/
theorem act_reacts (n : LeaseBasedElection T) (now : T) (move : Move) :
    n.Reacts now (.own move) (n.act now move) := by
  have hidle : n.Silent ⟨n,[],[]⟩ := (Steady.refl n).silent
  cases move with
  | start => exact .silent (Steady.start n).silent
  | stop => exact .silent (Steady.stop n).silent
  | triggerElection => exact .silent (Steady.triggerElection n).silent
  | contend => exact .silent (hidle.ite ((Steady.setThreads n _).trans (.contend _)).silent)
  | attemptAcquireLease =>
    unfold act attemptAcquireLease
    dsimp only
    split
    · exact .silent hidle
    rename_i hattempts
    split
    · exact .silent (Steady.setThreads n _).silent
    rename_i hrunning
    split
    · refine .silent (Steady.silent ?_)
      exact ⟨rfl,rfl,rfl,rfl,rfl,rfl,rfl,rfl,le_refl _,fun _ => rfl,fun _ h => h⟩
    · rename_i hvalid
      exact .request (if_pos ⟨hattempts,not_not.mp hrunning,hvalid⟩)
  | contentionTimeout => exact .silent (hidle.ite ((Steady.setThreads n _).trans (.contentionTimeout _)).silent)
  | monitorCheck => exact .silent (Silent.ite (Steady.setThreads n _).silent hidle)
  | monitorLease => exact .silent (hidle.ite ((Steady.setThreads n _).trans (.monitorLease _ now)).silent)
  | renewalCheck => exact .silent (Silent.ite (Steady.setThreads n _).silent hidle)
  | composeHeartbeat => exact .silent (hidle.ite (Steady.setThreads n _).silent)
  | sendHeartbeat k =>
    refine .silent ?_
    unfold act
    dsimp only
    split
    · exact hidle
    · exact ⟨.setThreads n _,n.addressed_renewal _⟩

theorem handleMessage_reacts (n : LeaseBasedElection T) (now : T) {msg : LeaseMessage}
    (hs : msg.senderId ≠ n.nodeId) : n.Reacts now (.message msg) (n.handleMessage now msg) := by
  unfold handleMessage
  cases ht : msg.type with
  | requestLease =>
    dsimp only
    unfold handleRequestLease
    dsimp only
    split
    · rename_i hg
      rw [(Steady.adoptTerm n msg.term).nodeId]
      exact .grant ht hg
    · exact .silent (Steady.adoptTerm n msg.term).silent
  | grantLease =>
    dsimp only
    unfold handleGrantLease
    split
    · exact .silent (Steady.refl n).silent
    rename_i hactive
    split
    · exact .silent (Steady.refl n).silent
    rename_i hterm
    dsimp only
    split
    · rename_i hq
      have hcontention : n.inContention = true := by
        by_contra hc
        exact hactive ⟨hc,hq.2⟩
      exact .lead ht ⟨hcontention,Bool.not_eq_true _ |>.mp hq.2,not_not.mp hterm,hq.1⟩
    · exact .count ht (not_not.mp hterm)
  | heartbeat => exact .silent (Steady.handleHeartbeat n now hs).silent

theorem respond_reacts (n : LeaseBasedElection T) (now : T) {cause : Cause}
    (hs : ∀ msg, cause = .message msg → msg.senderId ≠ n.nodeId) : n.Reacts now cause (n.respond now cause) := by
  cases cause with
  | own move => exact n.act_reacts now move
  | message msg => exact n.handleMessage_reacts now (hs msg rfl)

namespace Reacts
variable {n : LeaseBasedElection T} {now : T} {cause : Cause} {r : Reaction T}

theorem nodeId (h : n.Reacts now cause r) : r.node.nodeId = n.nodeId := by
  cases h with
  | silent h => exact h.1.nodeId
  | grant => exact (Steady.adoptTerm n _).nodeId
  | _ => rfl

theorem peers (h : n.Reacts now cause r) : r.node.peers = n.peers := by
  cases h with
  | silent h => exact h.1.peers
  | grant => exact (Steady.adoptTerm n _).peers
  | _ => rfl

theorem quorumSize (h : n.Reacts now cause r) : r.node.quorumSize = n.quorumSize := by
  cases h with
  | silent h => exact h.1.quorumSize
  | grant => exact (Steady.adoptTerm n _).quorumSize
  | _ => rfl

/-- A step casts the vote of its ballot, or none. -/
theorem casts (h : n.Reacts now cause r) :
    r.node.casts = n.casts ∨ ∃ t x, n.ballot now cause = some x ∧ r.node.casts = n.casts ++ [(t,x)] := by
  cases h with
  | silent h => exact Or.inl h.1.casts
  | request h => exact Or.inr ⟨_,_,h,rfl⟩
  | @grant msg ht h =>
    refine Or.inr ⟨msg.term,msg.senderId,if_pos ⟨ht,h⟩,?_⟩
    change (n.adoptTerm msg.term).casts ++ _ = _
    rw [(Steady.adoptTerm n _).casts]
  | count => exact Or.inl rfl
  | lead => exact Or.inl rfl

theorem casts_subset (h : n.Reacts now cause r) : n.casts ⊆ r.node.casts := by
  rcases h.casts with hc | ⟨t,x,-,hc⟩
  · rw [hc]
    exact List.Subset.refl _
  · rw [hc]
    exact List.subset_append_left _ _

/-- Everything sent carries the name of the sender, and goes to a peer or back to the
sender of the message that is answered. -/
theorem sent (h : n.Reacts now cause r) {p : Packet} (hp : p ∈ r.sent) :
    p.message.senderId = n.nodeId ∧
    (p.destination ∈ n.peers ∨ ∃ msg, cause = .message msg ∧ p.destination = msg.senderId) := by
  cases h with
  | silent h =>
    obtain ⟨hd,hs,-⟩ := h.2 p hp
    exact ⟨hs,Or.inl hd⟩
  | request =>
    obtain ⟨hd,hs,-⟩ := n.addressed_toPeers _ p hp
    exact ⟨hs,Or.inl hd⟩
  | grant =>
    cases List.mem_singleton.mp hp
    exact ⟨rfl,Or.inr ⟨_,rfl,rfl⟩⟩
  | count => cases hp
  | lead => cases hp

/-- A grant that is sent has been cast. -/
theorem sent_grant (h : n.Reacts now cause r) {p : Packet} (hp : p ∈ r.sent) (ht : p.message.type = .grantLease) :
    (p.message.term,p.destination) ∈ r.node.casts := by
  cases h with
  | silent h => exact absurd ht (h.2 p hp).2.2
  | request => exact absurd ht (n.addressed_toPeers _ p hp).2.2
  | grant =>
    cases List.mem_singleton.mp hp
    exact List.mem_append_right _ List.mem_cons_self
  | count => cases hp
  | lead => cases hp

/-- The node that votes for itself or answers a grant counts nobody but itself and the
sender of the grant. -/
theorem votesReceived (h : n.Reacts now cause r) {v : ℕ} (hv : v ∈ r.node.votesReceived) :
    v ∈ n.votesReceived ∨ v = n.nodeId ∨ ∃ msg, cause = .message msg ∧ v = msg.senderId := by
  cases h with
  | silent h => exact Or.inl (h.1.votesReceived ▸ hv)
  | request => exact Or.inr (Or.inl (Finset.mem_singleton.mp hv))
  | @grant msg => exact Or.inl ((Steady.adoptTerm n msg.term).votesReceived ▸ hv)
  | count =>
    rcases Finset.mem_insert.mp hv with rfl | hv
    · exact Or.inr (Or.inr ⟨_,rfl,rfl⟩)
    · exact Or.inl hv
  | lead =>
    rcases Finset.mem_insert.mp hv with rfl | hv
    · exact Or.inr (Or.inr ⟨_,rfl,rfl⟩)
    · exact Or.inl hv

end Reacts

end LeaseBasedElection

end DistributedSystems.Election
