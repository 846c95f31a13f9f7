import DistributedSystems.Pbft.PrePrepares

/-! # What a handler executes

A message can complete the votes for one key. The node then executes the PRE-PREPARE that it
has stored for the key, and marks the client request of that id.
-/
namespace DistributedSystems.Pbft
variable {Op Dig : Type} [DecidableEq Op] [DecidableEq Dig]

namespace PBFTNode

/-- The test of `check_committed`. -/
def committing (n : PBFTNode Op Dig) (key : Key) (d : Dig) : Prop :=
  key ∉ n.committedPredicate ∧ key ∈ n.preparedPredicate ∧
    ((n.commits key).filter (·.2 = d)).card ≥ 2 * n.f + 1

/-- The test of `check_prepared`, and then that of `check_committed`. -/
def preparing (n : PBFTNode Op Dig) (key : Key) (d : Dig) : Prop :=
  key ∉ n.preparedPredicate ∧ ((n.prepares key).filter (·.2 = d)).card ≥ 2 * n.f ∧
    (n.becomePrepared key d).committing key d

instance (n : PBFTNode Op Dig) (key : Key) (d : Dig) : Decidable (n.committing key d) :=
  inferInstanceAs (Decidable (_ ∧ _ ∧ _))

instance (n : PBFTNode Op Dig) (key : Key) (d : Dig) : Decidable (n.preparing key d) :=
  inferInstanceAs (Decidable (_ ∧ _ ∧ _))

/-- The key whose votes a message completes. -/
def completes (n : PBFTNode Op Dig) : Message Op Dig → Option Key
  | .prePrepare msg =>
    if msg.view = n.view ∧ n.prePrepares msg.key = none ∧
      ((n.storePrePrepare msg).addPrepare msg.key n.nodeId msg.digest).preparing msg.key msg.digest
    then some msg.key else none
  | .prepare msg =>
    if msg.view = n.view ∧ (n.prePrepares msg.key).map PrePrepareMessage.digest = some msg.digest ∧
      (n.addPrepare msg.key msg.sender msg.digest).preparing msg.key msg.digest
    then some msg.key else none
  | .commit msg =>
    if msg.view = n.view ∧ (n.prePrepares msg.key).map PrePrepareMessage.digest = some msg.digest ∧
      (n.addCommit msg.key msg.sender msg.digest).committing msg.key msg.digest
    then some msg.key else none
  | _ => none

/-- The PRE-PREPARE whose request a message makes the node execute. -/
def executes (n : PBFTNode Op Dig) (message : Message Op Dig) : Option (PrePrepareMessage Op Dig) :=
  (n.completes message).bind fun key =>
    match message with
    | .prePrepare msg => some msg
    | _ => n.prePrepares key

/-- The client requests after the request of a PRE-PREPARE, if any, has been executed. -/
def marked (n : PBFTNode Op Dig) : Option (PrePrepareMessage Op Dig) → ℤ → Option RequestState
  | none => n.clientRequests
  | some prePrepare => fun reqId =>
    if requestIdOf prePrepare.request = some reqId then
      (n.clientRequests reqId).map fun _ => { committed := true, result := some "Executed" }
    else n.clientRequests reqId

end PBFTNode

/-- A handler that executes `ran`, and marks the state found under its id. -/
structure MarkStep (n : PBFTNode Op Dig) (ran : Option (PrePrepareMessage Op Dig)) (n' : PBFTNode Op Dig) : Prop where
  executed : n'.executed = n.executed ++ ran.toList
  clientRequests : n'.clientRequests = n.marked ran

namespace MarkStep
variable {n : PBFTNode Op Dig}

omit [DecidableEq Dig] in
/-- A handler that executes nothing. -/
theorem quiet {n' : PBFTNode Op Dig} (he : n'.executed = n.executed) (hc : n'.clientRequests = n.clientRequests) :
    MarkStep n none n' :=
  ⟨by rw [he]; exact (List.append_nil _).symm,hc⟩

omit [DecidableEq Dig] in
/-- A handler that votes first. -/
theorem of_vote {n₁ n' : PBFTNode Op Dig} {ran : Option (PrePrepareMessage Op Dig)} (h : MarkStep n₁ ran n')
    (he : n₁.executed = n.executed) (hc : n₁.clientRequests = n.clientRequests) : MarkStep n ran n' := by
  refine ⟨he ▸ h.executed,h.clientRequests.trans ?_⟩
  unfold PBFTNode.marked
  rw [hc]

theorem checkCommitted {key : Key} {pp : PrePrepareMessage Op Dig} (hpp : n.prePrepares key = some pp) (d : Dig) :
    MarkStep n (if n.committing key d then some pp else none) (n.checkCommitted key d) := by
  rcases n.checkCommitted_cases key d with ⟨hno,h⟩ | ⟨hc,hp,hcard,h⟩
  · rw [h,if_neg (show ¬n.committing key d from hno)]
    exact quiet rfl rfl
  · rw [h,if_pos (show n.committing key d from ⟨hc,hp,hcard⟩)]
    unfold PBFTNode.executeRequest
    dsimp only
    rw [hpp]
    exact ⟨rfl,rfl⟩

theorem checkPrepared {key : Key} {pp : PrePrepareMessage Op Dig} (hpp : n.prePrepares key = some pp) (d : Dig) :
    MarkStep n (if n.preparing key d then some pp else none) (n.checkPrepared key d).1 := by
  rcases n.checkPrepared_cases key d with ⟨hno,h⟩ | ⟨hp,hcard,h⟩
  · rw [h,if_neg (fun ht => hno ⟨ht.1,ht.2.1⟩)]
    exact quiet rfl rfl
  · have htest : n.preparing key d ↔ (n.becomePrepared key d).committing key d :=
      ⟨fun ht => ht.2.2,fun ht => ⟨hp,hcard,ht⟩⟩
    rw [h,if_congr htest rfl rfl]
    exact (checkCommitted (n := n.becomePrepared key d) hpp d).of_vote rfl rfl

omit [DecidableEq Dig] in
theorem handleRequest (digest : Op → Option Dig) (n : PBFTNode Op Dig) (msg : RequestMessage Op) :
    MarkStep n none (n.handleRequest digest msg).1 := by
  unfold PBFTNode.handleRequest
  split
  · exact quiet rfl rfl
  · dsimp only
    cases digest msg.operation with
    | none => exact quiet rfl rfl
    | some d => exact quiet rfl rfl

omit [DecidableEq Op] [DecidableEq Dig] in
theorem bind_completed {a b test : Prop} [Decidable a] [Decidable b] [Decidable test] (ha : a) (hb : b) {key : Key}
    {find : Key → Option (PrePrepareMessage Op Dig)} {pp : PrePrepareMessage Op Dig} (hpp : find key = some pp) :
    (if a ∧ b ∧ test then some key else none).bind find = if test then some pp else none := by
  by_cases ht : test
  · rw [if_pos ⟨ha,hb,ht⟩,if_pos ht,Option.bind_some,hpp]
  · rw [if_neg (fun h => ht h.2.2),if_neg ht,Option.bind_none]

theorem handlePrePrepare (n : PBFTNode Op Dig) (msg : PrePrepareMessage Op Dig) :
    MarkStep n (n.executes (.prePrepare msg)) (n.handlePrePrepare msg).1 := by
  unfold PBFTNode.executes PBFTNode.completes
  dsimp only
  rcases n.handlePrePrepare_cases msg with ⟨hno,h⟩ | ⟨hview,hnone,h⟩
  · rw [h,if_neg (fun ht => hno ⟨ht.1,ht.2.1⟩)]
    exact quiet rfl rfl
  · rw [h,bind_completed hview hnone rfl]
    exact (checkPrepared (n := (n.storePrePrepare msg).addPrepare msg.key n.nodeId msg.digest)
      (n.storePrePrepare_prePrepares_self msg) msg.digest).of_vote rfl rfl

omit [DecidableEq Op] in
/-- A vote that is not looked at completes nothing. -/
theorem completed_none {msg : VoteMessage Dig} (hother : ∀ pp, n.prePrepares msg.key = some pp → pp.digest ≠ msg.digest)
    {a test : Prop} [Decidable a] [Decidable test] :
    (if a ∧ (n.prePrepares msg.key).map PrePrepareMessage.digest = some msg.digest ∧ test then some msg.key
      else none : Option Key) = none := by
  refine if_neg fun ht => ?_
  obtain ⟨pp,hpp,hd⟩ := Option.map_eq_some_iff.mp ht.2.1
  exact hother pp hpp hd

theorem handlePrepare (n : PBFTNode Op Dig) (msg : VoteMessage Dig) :
    MarkStep n (n.executes (.prepare msg)) (n.handlePrepare msg).1 := by
  unfold PBFTNode.executes PBFTNode.completes
  dsimp only
  rcases n.handlePrepare_cases msg with ⟨hview,h⟩ | ⟨-,hother,h⟩ | ⟨hview,pp,hpp,hd,h⟩
  · rw [h,if_neg (fun ht => hview ht.1)]
    exact quiet rfl rfl
  · rw [h,completed_none hother]
    exact quiet rfl rfl
  · rw [h,hd,bind_completed hview (by rw [hpp,← hd]; rfl) hpp]
    exact (checkPrepared (n := n.addPrepare msg.key msg.sender msg.digest) hpp msg.digest).of_vote rfl rfl

theorem handleCommit (n : PBFTNode Op Dig) (msg : VoteMessage Dig) :
    MarkStep n (n.executes (.commit msg)) (n.handleCommit msg) := by
  unfold PBFTNode.executes PBFTNode.completes
  dsimp only
  rcases n.handleCommit_cases msg with ⟨hview,h⟩ | ⟨-,hother,h⟩ | ⟨hview,pp,hpp,hd,h⟩
  · rw [h,if_neg (fun ht => hview ht.1)]
    exact quiet rfl rfl
  · rw [h,completed_none hother]
    exact quiet rfl rfl
  · rw [h,hd,bind_completed hview (by rw [hpp,← hd]; rfl) hpp]
    exact (checkCommitted (n := n.addCommit msg.key msg.sender msg.digest) hpp msg.digest).of_vote rfl rfl

theorem receive (digest : Op → Option Dig) (n : PBFTNode Op Dig) (message : Message Op Dig) :
    MarkStep n (n.executes message) (n.receive digest message).1 := by
  cases message with
  | request msg => exact handleRequest digest n msg
  | prePrepare msg => exact handlePrePrepare n msg
  | prepare msg => exact handlePrepare n msg
  | commit msg => exact handleCommit n msg
  | viewChange msg =>
    unfold PBFTNode.receive PBFTNode.handleViewChange
    dsimp only
    split
    · exact quiet rfl rfl
    split
    · exact quiet rfl rfl
    · exact quiet rfl rfl
  | newView msg => exact quiet rfl rfl

omit [DecidableEq Dig] in
/-- `propose` executes nothing, and tracks its request under the given id. -/
theorem propose (digest : Op → Option Dig) (n : PBFTNode Op Dig) (operation : Op) (reqId : ℤ) :
    (n.propose digest operation reqId).1.executed = n.executed ∧
    (n.propose digest operation reqId).1.clientRequests =
      Function.update n.clientRequests reqId (some ⟨false,none⟩) := by
  unfold PBFTNode.propose
  dsimp only
  split
  · have h := handleRequest digest
      { n with clientRequests := Function.update n.clientRequests reqId (some ⟨false,none⟩) }
      (n.clientRequest operation reqId)
    exact ⟨h.executed.trans (List.append_nil _),h.clientRequests⟩
  · exact ⟨rfl,rfl⟩

end MarkStep

/-- What a handler executes: nothing, or the PRE-PREPARE stored for the completed key. -/
def ExecuteStep (n : PBFTNode Op Dig) (completed : Option Key) (n' : PBFTNode Op Dig) : Prop :=
  n'.executed = n.executed ∨
    ∃ key pp, completed = some key ∧ n'.prePrepares key = some pp ∧ n'.executed = n.executed ++ [pp]

namespace ExecuteStep
variable {n : PBFTNode Op Dig}

/-- The executed PRE-PREPARE is the one that is stored afterwards. -/
theorem prePrepares_receive (digest : Op → Option Dig) {message : Message Op Dig} {key : Key}
    (h : n.completes message = some key) : (n.receive digest message).1.prePrepares key = n.executes message := by
  unfold PBFTNode.executes
  rw [h,Option.bind_some]
  unfold PBFTNode.completes at h
  cases message with
  | prePrepare msg =>
    dsimp only at h
    split at h
    · rename_i ht
      cases h
      rcases n.handlePrePrepare_cases msg with ⟨hno,-⟩ | ⟨-,-,heq⟩
      · exact absurd ⟨ht.1,ht.2.1⟩ hno
      · rw [PBFTNode.receive,heq]
        exact (congrFun (PBFTNode.checkPrepared_frame ..).1 _).trans (n.storePrePrepare_prePrepares_self msg)
    · cases h
  | prepare msg =>
    rw [PBFTNode.receive]
    rcases n.handlePrepare_cases msg with ⟨-,heq⟩ | ⟨-,-,heq⟩ | ⟨-,pp,-,-,heq⟩
    · rw [heq]
    · rw [heq]
      rfl
    · rw [heq]
      exact congrFun (PBFTNode.checkPrepared_frame ..).1 _
  | commit msg =>
    rw [PBFTNode.receive]
    rcases n.handleCommit_cases msg with ⟨-,heq⟩ | ⟨-,-,heq⟩ | ⟨-,pp,-,-,heq⟩
    · rw [heq]
    · rw [heq]
      rfl
    · obtain ⟨committed,requests,executed,hc⟩ :=
        (n.addCommit msg.key msg.sender msg.digest).checkCommitted_eq msg.key pp.digest
      rw [heq,hc]
      rfl
  | _ => cases h

theorem receive (digest : Op → Option Dig) (n : PBFTNode Op Dig) (message : Message Op Dig) :
    ExecuteStep n (n.completes message) (n.receive digest message).1 := by
  have h := (MarkStep.receive digest n message).executed
  cases hran : n.executes message with
  | none =>
    rw [hran] at h
    exact Or.inl (h.trans (List.append_nil _))
  | some pp =>
    rw [hran] at h
    obtain ⟨key,hkey,-⟩ := Option.bind_eq_some_iff.mp hran
    exact Or.inr ⟨key,pp,hkey,(prePrepares_receive digest hkey).trans hran,h⟩

end ExecuteStep

end DistributedSystems.Pbft
