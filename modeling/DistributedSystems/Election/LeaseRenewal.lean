import DistributedSystems.Election.LeaseCluster
import Mathlib.Algebra.GroupWithZero.Nat
import Mathlib.Data.List.Count

/-! # Renewals of a lease

A leader asks for renewals, and its peers grant them. The grants are counted as votes, but the
lease that the monitor of the leader looks at stays the one of the election.
-/
namespace DistributedSystems.Election
open Runs LeaseBasedElection

variable {T : Type} [Add T] [LinearOrder T]

namespace LeaseBasedElection

/-- What a step leaves of the reign of a leader: a leader has been one before, with the same
lease, or has been elected in this step. -/
structure Reigns (n n' : LeaseBasedElection T) (now : T) : Prop where
  leaseDuration : n'.leaseDuration = n.leaseDuration
  wins : n.wins.length ≤ n'.wins.length
  lease : n'.isLeaderFlag = true →
    n.isLeaderFlag = true ∧ n'.currentLease = n.currentLease ∧ n'.wins = n.wins ∨
    n.isLeaderFlag = false ∧ n'.currentLease = some ⟨n.nodeId,now,n.leaseDuration,n.term⟩ ∧
      n.wins.length < n'.wins.length

namespace Reigns
variable {n n' n'' : LeaseBasedElection T} {now : T}

omit [Add T] [LinearOrder T] in
theorem refl (n : LeaseBasedElection T) (now : T) : Reigns n n now := ⟨rfl,le_rfl,fun h => Or.inl ⟨h,rfl,rfl⟩⟩

omit [Add T] [LinearOrder T] in
/-- A step that elects nobody. -/
theorem of_kept (hd : n'.leaseDuration = n.leaseDuration) (hw : n'.wins = n.wins)
    (hl : n'.isLeaderFlag = true → n.isLeaderFlag = true ∧ n'.currentLease = n.currentLease) : Reigns n n' now where
  leaseDuration := hd
  wins := hw ▸ le_rfl
  lease h := Or.inl ⟨(hl h).1,(hl h).2,hw⟩

omit [Add T] [LinearOrder T] in
/-- A step after one that changes neither the lease nor who leads. -/
theorem comp (h : Reigns n' n'' now) (hd : n'.leaseDuration = n.leaseDuration) (hw : n'.wins = n.wins)
    (hf : n'.isLeaderFlag = n.isLeaderFlag) (hl : n'.currentLease = n.currentLease) (hi : n'.nodeId = n.nodeId)
    (ht : n'.term = n.term) : Reigns n n'' now where
  leaseDuration := h.leaseDuration.trans hd
  wins := hw ▸ h.wins
  lease hleader := by
    have := h.lease hleader
    rwa [hd,hw,hf,hl,hi,ht] at this

omit [Add T] [LinearOrder T] in
theorem ite {c : Prop} [Decidable c] {r r' : Reaction T} (h : Reigns n r.node now) (h' : Reigns n r'.node now) :
    Reigns n (if c then r else r').node now := by
  split
  · exact h
  · exact h'

omit [Add T] [LinearOrder T] in
/-- Contending comes after the step. -/
theorem startContention (h : Reigns n n' now) : Reigns n n'.startContention now := by
  unfold LeaseBasedElection.startContention
  split
  · exact h
  · exact ⟨h.leaseDuration,h.wins,h.lease⟩

omit [Add T] [LinearOrder T] in
theorem start (n : LeaseBasedElection T) (now : T) : Reigns n n.start now := by
  unfold LeaseBasedElection.start
  split
  · exact .refl n now
  · exact startContention (.of_kept rfl rfl fun h => ⟨h,rfl⟩)

omit [Add T] [LinearOrder T] in
theorem stop (n : LeaseBasedElection T) (now : T) : Reigns n n.stop now := by
  unfold LeaseBasedElection.stop
  dsimp only
  split
  · exact .of_kept rfl rfl nofun
  · exact .of_kept rfl rfl fun h => ⟨h,rfl⟩

omit [Add T] [LinearOrder T] in
theorem triggerElection (n : LeaseBasedElection T) (now : T) : Reigns n n.triggerElection now := by
  unfold LeaseBasedElection.triggerElection
  split
  · exact .refl n now
  · exact .of_kept rfl rfl fun h => ⟨h,rfl⟩

theorem attemptAcquireLease (n : LeaseBasedElection T) (now : T) : Reigns n (n.attemptAcquireLease now).node now := by
  unfold LeaseBasedElection.attemptAcquireLease
  split
  · exact .refl n now
  · split
    · exact .of_kept rfl rfl fun h => ⟨h,rfl⟩
    · exact .of_kept rfl rfl fun h => ⟨h,rfl⟩

omit [Add T] [LinearOrder T] in
theorem contentionTimeout (n : LeaseBasedElection T) (now : T) : Reigns n n.contentionTimeout now := by
  unfold LeaseBasedElection.contentionTimeout
  split
  · exact .of_kept rfl rfl fun h => ⟨h,rfl⟩
  · exact .refl n now

/-- The monitor takes away the leadership, at most. -/
theorem monitorLease (n : LeaseBasedElection T) (now : T) : Reigns n (n.monitorLease now) now := by
  have h : Reigns n (if n.isLeaderFlag then n.stepDown else n) now := by
    split
    · exact .of_kept rfl rfl nofun
    · exact .refl n now
  unfold LeaseBasedElection.monitorLease
  split
  · by_cases hc : (if n.isLeaderFlag then n.stepDown else n).inContention
    · rw [if_neg (not_not.mpr hc)]
      exact h
    · rw [if_pos hc]
      exact h.startContention
  · exact .refl n now

/-- A request may raise the term of a leader, and no more. -/
theorem handleRequestLease (n : LeaseBasedElection T) (now : T) (msg : LeaseMessage) :
    Reigns n (n.handleRequestLease now msg).node now := by
  have h : Reigns n (n.adoptTerm msg.term) now := by
    unfold LeaseBasedElection.adoptTerm
    split
    · exact .of_kept rfl rfl fun h => ⟨h,rfl⟩
    · exact .refl n now
  unfold LeaseBasedElection.handleRequestLease
  dsimp only
  split
  · exact ⟨h.leaseDuration,h.wins,h.lease⟩
  · exact h

/-- A grant elects a leader, and is only counted by one. -/
theorem handleGrantLease (n : LeaseBasedElection T) (now : T) (msg : LeaseMessage) :
    Reigns n (n.handleGrantLease now msg).node now := by
  unfold LeaseBasedElection.handleGrantLease
  split
  · exact .refl n now
  · split
    · exact .refl n now
    · dsimp only
      split
      · rename_i helected
        have hwins : n.wins.length < (n.wins ++ [n.term]).length := by simp
        exact ⟨rfl,hwins.le,fun _ => Or.inr ⟨Bool.not_eq_true _ |>.mp helected.2,rfl,hwins⟩⟩
      · exact .of_kept rfl rfl fun h => ⟨h,rfl⟩

omit [Add T] [LinearOrder T] in
/-- A heartbeat of another node ends the reign of a leader that accepts it. -/
theorem handleHeartbeat (n : LeaseBasedElection T) (now : T) {msg : LeaseMessage} (hs : msg.senderId ≠ n.nodeId) :
    Reigns n (n.handleHeartbeat now msg) now := by
  unfold LeaseBasedElection.handleHeartbeat
  split
  · dsimp only
    split
    · exact .of_kept rfl rfl nofun
    · rename_i hnot
      exact .of_kept rfl rfl fun h => absurd ⟨h,hs⟩ hnot
  · exact .refl n now

theorem act (n : LeaseBasedElection T) (now : T) (move : Move) : Reigns n (n.act now move).node now := by
  have hidle : Reigns n (⟨n,[],[]⟩ : Reaction T).node now := .refl n now
  unfold LeaseBasedElection.act
  cases move with
  | start => exact .start n now
  | stop => exact .stop n now
  | triggerElection => exact .triggerElection n now
  | contend => exact hidle.ite (.of_kept rfl rfl fun h => ⟨h,rfl⟩)
  | attemptAcquireLease => exact hidle.ite ((attemptAcquireLease _ now).comp rfl rfl rfl rfl rfl rfl)
  | contentionTimeout => exact hidle.ite ((contentionTimeout _ now).comp rfl rfl rfl rfl rfl rfl)
  | monitorCheck => exact ite (.of_kept rfl rfl fun h => ⟨h,rfl⟩) hidle
  | monitorLease => exact hidle.ite ((monitorLease _ now).comp rfl rfl rfl rfl rfl rfl)
  | renewalCheck => exact ite (.of_kept rfl rfl fun h => ⟨h,rfl⟩) hidle
  | composeHeartbeat => exact hidle.ite (.of_kept rfl rfl fun h => ⟨h,rfl⟩)
  | sendHeartbeat k =>
    dsimp only
    split
    · exact hidle
    · exact .of_kept rfl rfl fun h => ⟨h,rfl⟩

theorem respond (n : LeaseBasedElection T) (now : T) {cause : Cause}
    (hs : ∀ msg, cause = .message msg → msg.senderId ≠ n.nodeId) : Reigns n (n.respond now cause).node now := by
  cases cause with
  | own move => exact .act n now move
  | message msg =>
    unfold LeaseBasedElection.respond handleMessage
    dsimp only
    split
    · exact .handleRequestLease n now msg
    · exact .handleGrantLease n now msg
    · exact .handleHeartbeat n now (hs msg rfl)

end Reigns

omit [Add T] [LinearOrder T] in
@[simp] theorem startContention_isLeaderFlag (n : LeaseBasedElection T) :
    n.startContention.isLeaderFlag = n.isLeaderFlag := by
  unfold startContention
  split <;> rfl

/-- A leader survives a round of its monitor exactly while its lease is valid. -/
theorem monitorLease_isLeaderFlag (n : LeaseBasedElection T) (now : T) {lease : Lease T}
    (hlease : n.currentLease = some lease) (hflag : n.isLeaderFlag = true) :
    (n.monitorLease now).isLeaderFlag = true ↔ lease.isValid now := by
  have hvalid : n.leaseValid now ↔ lease.isValid now := by simp [leaseValid,hlease]
  unfold monitorLease
  split
  · rename_i hexpired
    refine iff_of_false ?_ fun h => hexpired.2 (hvalid.mpr h)
    dsimp only
    split <;> simp [stepDown]
  · rename_i hnot
    refine iff_of_true hflag (hvalid.mp (by_contra fun h => hnot ⟨by simp [hlease],h⟩))

end LeaseBasedElection

namespace LeaseCluster
variable (cfg : LeaseConfig T)

/-- The initial cluster with quorum sizes of choice. -/
def initWith (quorumSize : ℕ → Option ℕ) (time : T) : LeaseCluster T :=
  { init cfg time with
    nodes := fun i => .init i ((List.range cfg.totalNodes).filter (· ≠ i)) (cfg.leaseDuration i) (quorumSize i) }

/-- Nobody writes to itself. -/
structure Outward (c : LeaseCluster T) : Prop where
  nodeId : ∀ i, (c.nodes i).nodeId = i
  peers : ∀ i, i ∉ (c.nodes i).peers
  packets : ∀ p ∈ c.network, p.message.senderId ≠ p.destination
  leaseDuration : ∀ i, (c.nodes i).leaseDuration = cfg.leaseDuration i

omit [Add T] [LinearOrder T] in
theorem outward_initWith (quorumSize : ℕ → Option ℕ) (time : T) : Outward cfg (initWith cfg quorumSize time) where
  nodeId _ := rfl
  peers i hi := by
    have hne := (List.mem_filter.mp (List.mem_dedup.mp hi)).2
    exact of_decide_eq_true hne rfl
  packets _ hp := absurd hp List.not_mem_nil
  leaseDuration _ := rfl

variable {cfg} {c : LeaseCluster T}

omit [Add T] [LinearOrder T] in
/-- The sender of a message is another node. -/
theorem Outward.sender_ne (h : Outward cfg c) {a : LeaseAction T} {i : ℕ} {cause : Cause}
    (hc : c.cause cfg a = some (i,cause)) : ∀ msg, cause = .message msg → msg.senderId ≠ i := by
  rintro msg rfl
  cases a with
  | move j move =>
    unfold LeaseCluster.cause at hc
    dsimp only at hc
    split at hc
    · cases hc
    · cases hc
  | deliver k =>
    obtain ⟨p,hp,hpc⟩ := Option.map_eq_some_iff.mp hc
    cases hpc
    exact h.packets p (List.mem_of_getElem? hp)
  | elapse time => cases hc

/-- A step lets time pass at most, or lets one node respond to itself or to another node. -/
theorem Outward.step_cases (h : Outward cfg c) (a : LeaseAction T) :
    (∃ time, c.step cfg a = { c with time := time }) ∨
    ∃ i cause r, (∀ msg, cause = .message msg → msg.senderId ≠ i) ∧ (c.nodes i).Reacts (cfg.clock i c.time) cause r ∧
      (c.nodes i).Reigns r.node (cfg.clock i c.time) ∧ c.step cfg a = c.update i r := by
  cases hc : c.cause cfg a with
  | none =>
    left
    unfold LeaseCluster.step
    rw [hc]
    dsimp only
    split
    · rename_i time
      split
      · exact ⟨time,rfl⟩
      · exact ⟨c.time,rfl⟩
    · exact ⟨c.time,rfl⟩
  | some origin =>
    obtain ⟨i,cause⟩ := origin
    have hsender := h.sender_ne hc
    have hother : ∀ msg, cause = .message msg → msg.senderId ≠ (c.nodes i).nodeId := by
      rw [h.nodeId i]
      exact hsender
    refine Or.inr ⟨i,cause,_,hsender,respond_reacts _ _ hother,Reigns.respond _ _ hother,?_⟩
    unfold LeaseCluster.step
    rw [hc]

theorem Outward.step (h : Outward cfg c) (a : LeaseAction T) : Outward cfg (c.step cfg a) := by
  rcases h.step_cases a with ⟨time,hc⟩ | ⟨i,cause,r,hsender,hreacts,hreigns,hc⟩
  · rw [hc]
    exact ⟨h.nodeId,h.peers,h.packets,h.leaseDuration⟩
  rw [hc]
  constructor
  · exact forall_nodes_update (P := fun j n => n.nodeId = j) (hreacts.nodeId.trans (h.nodeId i)) h.nodeId
  · exact forall_nodes_update (P := fun j n => j ∉ n.peers) (hreacts.peers ▸ h.peers i) h.peers
  · intro p hp
    rcases mem_update_network hp with hp | hp
    · exact h.packets p hp
    obtain ⟨hs,hd⟩ := hreacts.sent hp
    rw [hs,h.nodeId i]
    rcases hd with hd | ⟨msg,rfl,hd⟩
    · exact fun heq => h.peers i (heq ▸ hd)
    · rw [hd]
      exact (hsender msg rfl).symm
  · exact forall_nodes_update (P := fun j n => n.leaseDuration = cfg.leaseDuration j)
      (hreigns.leaseDuration.trans (h.leaseDuration i)) h.leaseDuration

/-- The step makes node `i` leader. -/
def BecomesLeader (cfg : LeaseConfig T) (i : ℕ) (c : LeaseCluster T) (a : LeaseAction T) : Prop :=
  (c.nodes i).isLeaderFlag = false ∧ ((c.step cfg a).nodes i).isLeaderFlag = true

instance (i : ℕ) (a : LeaseAction T) : Decidable (c.BecomesLeader cfg i a) := inferInstanceAs (Decidable (_ ∧ _))

/-- Node `i` has been leader since it won for the last of these times. -/
def InReign (i : ℕ) (wins : List ℕ) (c : LeaseCluster T) : Prop :=
  (c.nodes i).isLeaderFlag = true ∧ (c.nodes i).wins = wins

instance (i : ℕ) (wins : List ℕ) : Decidable (c.InReign i wins) := inferInstanceAs (Decidable (_ ∧ _))

/-- A round of the monitor does not make the leader step down. -/
def MonitorKeeps (cfg : LeaseConfig T) (i : ℕ) (wins : List ℕ) (c : LeaseCluster T) : LeaseAction T → Prop
  | .move j .monitorLease => j = i → c.InReign i wins → ((c.step cfg (.move j .monitorLease)).nodes i).isLeaderFlag = true
  | _ => True

/-- The lease of an election at this time has not expired when a round of the monitor takes place. -/
def OnTime (cfg : LeaseConfig T) (i : ℕ) (wins : List ℕ) (elected : T) (c : LeaseCluster T) : LeaseAction T → Prop
  | .move j .monitorLease => j = i → i < cfg.totalNodes → (c.nodes i).threads.monitors ≠ 0 → c.InReign i wins →
      cfg.clock i c.time < elected + cfg.leaseDuration i
  | _ => True

/-- During the reign the lease is the one of the election. -/
structure FirstLease (cfg : LeaseConfig T) (i : ℕ) (wins : List ℕ) (elected : T) (c : LeaseCluster T) : Prop where
  outward : Outward cfg c
  won : wins.length ≤ (c.nodes i).wins.length
  lease : c.InReign i wins → ∃ term, (c.nodes i).currentLease = some ⟨i,elected,cfg.leaseDuration i,term⟩

variable {i : ℕ} {wins : List ℕ} {elected : T}

theorem FirstLease.step (h : FirstLease cfg i wins elected c) (a : LeaseAction T) :
    FirstLease cfg i wins elected (c.step cfg a) := by
  have houtward := h.outward.step a
  rcases h.outward.step_cases a with ⟨time,hc⟩ | ⟨j,cause,r,-,-,hreigns,hc⟩
  · rw [hc] at houtward ⊢
    exact ⟨houtward,h.won,h.lease⟩
  rw [hc] at houtward ⊢
  by_cases hj : j = i
  · subst j
    have hwon : wins.length ≤ r.node.wins.length := h.won.trans hreigns.wins
    refine ⟨houtward,by rwa [update_self],fun hreign => ?_⟩
    obtain ⟨hflag,hwins⟩ := hreign
    rw [update_self] at hflag hwins ⊢
    rcases hreigns.lease hflag with ⟨hflag',hlease,hwins'⟩ | ⟨-,-,hlt⟩
    · rw [hlease]
      exact h.lease ⟨hflag',hwins'.symm.trans hwins⟩
    · -- Another election would count one more.
      rw [hwins] at hlt
      exact absurd h.won (not_le.mpr hlt)
  · have hnode := update_ne c r (Ne.symm hj)
    refine ⟨houtward,by rw [hnode]; exact h.won,fun hreign => ?_⟩
    unfold InReign at hreign
    rw [hnode] at hreign ⊢
    exact h.lease hreign

/-- The step of the election writes the lease. -/
theorem BecomesLeader.firstLease (h : Outward cfg c) {a : LeaseAction T} (helected : c.BecomesLeader cfg i a) :
    FirstLease cfg i ((c.step cfg a).nodes i).wins (cfg.clock i c.time) (c.step cfg a) := by
  refine ⟨h.step a,le_rfl,fun _ => ?_⟩
  obtain ⟨hbefore,hafter⟩ := helected
  rcases h.step_cases a with ⟨time,hc⟩ | ⟨j,cause,r,-,-,hreigns,hc⟩
  · rw [hc,hbefore] at hafter
    cases hafter
  rw [hc] at hafter ⊢
  by_cases hj : j = i
  · subst j
    rw [update_self] at hafter ⊢
    rcases hreigns.lease hafter with ⟨hflag,-⟩ | ⟨-,hlease,-⟩
    · rw [hbefore] at hflag
      cases hflag
    · rw [hlease,h.nodeId i,h.leaseDuration i]
      exact ⟨_,rfl⟩
  · rw [update_ne c r (Ne.symm hj),hbefore] at hafter
    cases hafter

/-- The monitor of a leader asks whether its first lease has expired. -/
theorem FirstLease.monitorKeeps_iff (h : FirstLease cfg i wins elected c) (a : LeaseAction T) :
    c.MonitorKeeps cfg i wins a ↔ c.OnTime cfg i wins elected a := by
  cases a with
  | deliver k => exact Iff.rfl
  | elapse time => exact Iff.rfl
  | move j move =>
    cases move with
    | monitorLease =>
      refine forall_congr' fun hj => ?_
      subst j
      by_cases hi : i < cfg.totalNodes
      · have hstep : (c.step cfg (.move i .monitorLease)).nodes i =
            ((c.nodes i).act (cfg.clock i c.time) .monitorLease).node := by
          have hc : c.cause cfg (.move i .monitorLease) = some (i,.own .monitorLease) := if_pos hi
          unfold LeaseCluster.step
          rw [hc]
          exact update_self c i _
        rw [hstep,forall_prop_of_true hi,act]
        by_cases hm : (c.nodes i).threads.monitors = 0
        · rw [if_pos hm]
          exact iff_of_true And.left fun hne => absurd hm hne
        · rw [if_neg hm,forall_prop_of_true hm]
          refine forall_congr' fun hreign => ?_
          obtain ⟨term,hlease⟩ := h.lease hreign
          exact monitorLease_isLeaderFlag { c.nodes i with threads.monitors := (c.nodes i).threads.monitors - 1 }
            (cfg.clock i c.time) hlease hreign.1
      · have hstep : c.step cfg (.move i .monitorLease) = c := by
          have hc : c.cause cfg (.move i .monitorLease) = none := if_neg hi
          unfold LeaseCluster.step
          rw [hc]
        rw [hstep]
        exact iff_of_true And.left fun h => absurd h hi
    | _ => exact Iff.rfl

/-- The monitor of an elected node never makes it step down exactly when all its rounds in the
reign come before the lease of the election expires, whatever the leader asked for and its peers
granted in the meantime. -/
theorem monitor_keeps_iff (cfg : LeaseConfig T) (quorumSize : ℕ → Option ℕ) (time : T) {before : List (LeaseAction T)}
    {a : LeaseAction T} {i : ℕ} (helected : (run (step cfg) (initWith cfg quorumSize time) before).BecomesLeader cfg i a)
    (after : List (LeaseAction T)) :
    let c := run (step cfg) (initWith cfg quorumSize time) before
    let wins := ((c.step cfg a).nodes i).wins
    Along (step cfg) (MonitorKeeps cfg i wins) (c.step cfg a) after ↔
      Along (step cfg) (OnTime cfg i wins (cfg.clock i c.time)) (c.step cfg a) after := by
  dsimp only
  have houtward := run_invariant_of_step (I := Outward cfg) (fun _ a h => h.step a)
    (outward_initWith cfg quorumSize time) before
  have hfirst := helected.firstLease houtward
  exact along_congr (I := FirstLease cfg i _ _) (fun _ a h => h.step a) (fun _ a h => h.monitorKeeps_iff a) hfirst

/-- The message that node `i` handles in a step. -/
def handled (cfg : LeaseConfig T) (i : ℕ) (c : LeaseCluster T) (a : LeaseAction T) : Option LeaseMessage :=
  match c.cause cfg a with
  | some (j,.message msg) => if j = i then some msg else none
  | _ => none

/-- The grants of a term that node `i` handles along a schedule, by time and sender. -/
def grantsHandled (cfg : LeaseConfig T) (i term : ℕ) : LeaseCluster T → List (LeaseAction T) → List (T × ℕ)
  | _, [] => []
  | c, a :: rest =>
    ((c.handled cfg i a).toList.filter fun msg => msg.type = .grantLease ∧ msg.term = term).map
      (fun msg => (cfg.clock i c.time,msg.senderId)) ++ grantsHandled cfg i term (c.step cfg a) rest

/-- The times at which the renewal loop of node `i` begins a round. -/
def renewalTimes (cfg : LeaseConfig T) (i : ℕ) : LeaseCluster T → List (LeaseAction T) → List T
  | _, [] => []
  | c, a :: rest =>
    match a with
    | .move j .renewalCheck =>
      if j = i then cfg.clock i c.time :: renewalTimes cfg i (c.step cfg a) rest
      else renewalTimes cfg i (c.step cfg a) rest
    | _ => renewalTimes cfg i (c.step cfg a) rest

/-- A leader of a term that hears from enough peers and from no rival. Its renewal loop sleeps
between the rounds. -/
structure Healthy (cfg : LeaseConfig T) (i term : ℕ) (renewInterval : T) (c : LeaseCluster T)
    (schedule : List (LeaseAction T)) : Prop where
  interval : renewInterval < cfg.leaseDuration i
  rounds : (renewalTimes cfg i c schedule).IsChain fun x y => x + renewInterval ≤ y
  granted : ∀ x, cfg.clock i c.time ≤ x → x + cfg.leaseDuration i ≤ cfg.clock i (run (step cfg) c schedule).time →
    (c.nodes i).quorumSize - 1 ≤ (((grantsHandled cfg i term c schedule).filter
      fun grant => x ≤ grant.1 ∧ grant.1 ≤ x + cfg.leaseDuration i).map Prod.snd).toFinset.card
  unrivalled : Along (step cfg) (fun c a => ∀ msg ∈ c.handled cfg i a,
    msg.type = .heartbeat → msg.senderId ≠ i → msg.term < term) c schedule

/-- Two nodes with exact clocks. -/
def twoNodes : LeaseConfig ℕ := ⟨2,fun _ => 5,fun _ time => time⟩

/-- Node 0 asks for a renewal, node 1 grants it at once, and time goes on. -/
def renewalRound (k : ℕ) : List (LeaseAction ℕ) :=
  [.move 0 .renewalCheck,.move 0 .composeHeartbeat,.move 0 (.sendHeartbeat 0),.deliver (3 * k + 2),
    .deliver (3 * k + 3),.deliver (3 * k + 4),.elapse (k + 1)]

/-- Renewed every second, the leader steps down when its first lease of five seconds ends. -/
theorem renewed_leader_steps_down : ¬∀ (renewInterval : ℕ) (before : List (LeaseAction ℕ)) (a : LeaseAction ℕ) (i : ℕ)
    (after : List (LeaseAction ℕ)),
    let c := run (step twoNodes) (initWith twoNodes (fun _ => none) 0) before
    let leader := (c.step twoNodes a).nodes i
    c.BecomesLeader twoNodes i a → (c.step twoNodes a).Healthy twoNodes i leader.term renewInterval after →
    Along (step twoNodes) (MonitorKeeps twoNodes i leader.wins) (c.step twoNodes a) after := by
  intro h
  have hkept := h 1 [.move 0 .start,.move 0 .attemptAcquireLease,.deliver 0] (.deliver 1) 0
    ((List.range 5).flatMap renewalRound ++ [.move 0 .monitorCheck,.move 0 .monitorLease]) (by decide)
    ⟨by decide,by decide,fun x _ hx => by
      have hzero : x = 0 := Nat.le_zero.mp (Nat.le_of_add_le_add_right hx)
      subst x
      decide,by decide⟩
  have hmonitor := (Along.append hkept).2.2.1 rfl (by decide)
  revert hmonitor
  decide

/-- One second before, the same leader passes a round of its monitor. -/
theorem monitor_keeps_until_expiry :
    let c := run (step twoNodes) (initWith twoNodes (fun _ => none) 0)
      [.move 0 .start,.move 0 .attemptAcquireLease,.deliver 0]
    let wins := ((c.step twoNodes (.deliver 1)).nodes 0).wins
    Along (step twoNodes) (MonitorKeeps twoNodes 0 wins) (c.step twoNodes (.deliver 1))
      [.move 0 .monitorCheck,.elapse 4,.move 0 .monitorLease] :=
  (monitor_keeps_iff twoNodes (fun _ => none) 0 (by decide) _).mpr
    ⟨trivial,trivial,fun _ _ _ _ => by decide,trivial⟩

end LeaseCluster

end DistributedSystems.Election
