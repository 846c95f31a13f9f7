import DistributedSystems.Protocol.Dict
import DistributedSystems.Protocol.Runs

/-! # Membership of a gossip cluster

A membership keeps one entry for each node. What it hears of other nodes overrides older
incarnations, and by status at the same incarnation; what it hears of its own node does not.
-/
namespace DistributedSystems.Gossip
open Runs

inductive MemberStatus
  | alive
  | suspect
  | dead
  | left
  deriving DecidableEq

namespace MemberStatus

def value : MemberStatus → String
  | alive => "alive"
  | suspect => "suspect"
  | dead => "dead"
  | left => "left"

/-- The status of a value; other values raise. -/
def ofValue (value : String) : Option MemberStatus :=
  if value = "alive" then some alive
  else if value = "suspect" then some suspect
  else if value = "dead" then some dead
  else if value = "left" then some left
  else none

theorem ofValue_value (status : MemberStatus) : ofValue status.value = some status := by
  cases status <;> decide

end MemberStatus

structure Member where
  nodeId : String
  address : String × ℤ
  status : MemberStatus
  incarnation : ℤ
  deriving DecidableEq

/-- A member as it is sent. -/
structure MemberData where
  nodeId : String
  host : String
  port : ℤ
  status : String
  incarnation : ℤ
  deriving DecidableEq

structure Membership where
  localNodeId : String
  localAddress : String × ℤ
  members : Dict String Member

namespace Membership

/-- The membership with an entry written. -/
def put (s : Membership) (nodeId : String) (member : Member) : Membership :=
  { s with members := s.members.insert nodeId member }

def updateMember (s : Membership) (nodeId : String) (address : String × ℤ) (status : MemberStatus)
    (incarnation : ℤ) : Membership × Bool :=
  if nodeId = s.localNodeId then
    match s.members.get? nodeId with
    | none => (s,false)
    | some current =>
      if current.incarnation < incarnation then (s.put nodeId { current with incarnation := incarnation },true)
      else (s,false)
  else
    match s.members.get? nodeId with
    | none => (s.put nodeId ⟨nodeId,address,status,incarnation⟩,true)
    | some current =>
      if current.incarnation < incarnation then
        (s.put nodeId { current with incarnation := incarnation, status := status, address := address },true)
      else if incarnation = current.incarnation then
        if status = .dead ∧ current.status ≠ .dead then (s.put nodeId { current with status := .dead },true)
        else if status = .suspect ∧ current.status = .alive then
          (s.put nodeId { current with status := .suspect },true)
        else (s,false)
      else (s,false)

/-- The constructor adds the node itself. -/
def init (localNodeId : String) (localAddress : String × ℤ) : Membership :=
  (updateMember ⟨localNodeId,localAddress,Dict.empty⟩ localNodeId localAddress .alive 0).1

def getMember (s : Membership) (nodeId : String) : Option Member := s.members.get? nodeId

def getAllMembersData (s : Membership) : List MemberData :=
  s.members.entries.map fun e =>
    ⟨e.2.nodeId,e.2.address.1,e.2.address.2,e.2.status.value,e.2.incarnation⟩

/-- The records before one whose status is no value of the enumeration, where the call raises. -/
def mergeMembershipList (s : Membership) : List MemberData → Membership × Option String
  | [] => (s,none)
  | data :: rest =>
    match MemberStatus.ofValue data.status with
    | none => (s,some data.status)
    | some status =>
      (s.updateMember data.nodeId (data.host,data.port) status data.incarnation).1.mergeMembershipList rest

end Membership

/-- The calls that change a membership. -/
inductive MembershipCall
  | updateMember (nodeId : String) (address : String × ℤ) (status : MemberStatus) (incarnation : ℤ)
  | mergeMembershipList (remoteMembers : List MemberData)

namespace Membership

def step (s : Membership) : MembershipCall → Membership
  | .updateMember nodeId address status incarnation => (s.updateMember nodeId address status incarnation).1
  | .mergeMembershipList remoteMembers => (s.mergeMembershipList remoteMembers).1

/-- What a membership says of a node. -/
def view (s : Membership) (nodeId : String) : Option (ℤ × MemberStatus) :=
  (s.getMember nodeId).map fun member => (member.incarnation,member.status)

/-- What an update makes of it. -/
def override (v : Option (ℤ × MemberStatus)) (u : ℤ × MemberStatus) : ℤ × MemberStatus :=
  match v with
  | none => u
  | some c =>
    if c.1 < u.1 then u
    else if u.1 = c.1 ∧ u.2 = .dead then (c.1,.dead)
    else if u.1 = c.1 ∧ u.2 = .suspect ∧ c.2 = .alive then (c.1,.suspect)
    else c

theorem getMember_put (s : Membership) (nodeId other : String) (member : Member) :
    (s.put nodeId member).getMember other = if other = nodeId then some member else s.getMember other :=
  s.members.get?_insert nodeId other member

theorem view_put (s : Membership) (nodeId other : String) (member : Member) :
    (s.put nodeId member).view other =
      if other = nodeId then some (member.incarnation,member.status) else s.view other := by
  unfold view
  rw [getMember_put]
  split <;> rfl

/-- An update leaves all as it is or writes the entry of its node, for the local node only an
entry that is there. -/
theorem updateMember_cases (s : Membership) (nodeId : String) (address : String × ℤ) (status : MemberStatus)
    (incarnation : ℤ) : (s.updateMember nodeId address status incarnation).1 = s ∨
      ∃ member, (s.updateMember nodeId address status incarnation).1 = s.put nodeId member ∧
        (nodeId ≠ s.localNodeId ∧ member.nodeId = nodeId ∨
          ∃ current, s.getMember nodeId = some current ∧ member.nodeId = current.nodeId) := by
  unfold updateMember getMember
  cases s.members.get? nodeId with
  | none =>
    dsimp only
    split
    · exact Or.inl rfl
    · rename_i hother
      exact Or.inr ⟨_,rfl,Or.inl ⟨hother,rfl⟩⟩
  | some current =>
    dsimp only
    split_ifs
    · exact Or.inr ⟨_,rfl,Or.inr ⟨current,rfl,rfl⟩⟩
    · exact Or.inl rfl
    · exact Or.inr ⟨_,rfl,Or.inr ⟨current,rfl,rfl⟩⟩
    · exact Or.inr ⟨_,rfl,Or.inr ⟨current,rfl,rfl⟩⟩
    · exact Or.inr ⟨_,rfl,Or.inr ⟨current,rfl,rfl⟩⟩
    · exact Or.inl rfl
    · exact Or.inl rfl

theorem updateMember_localNodeId (s : Membership) (nodeId : String) (address : String × ℤ) (status : MemberStatus)
    (incarnation : ℤ) : (s.updateMember nodeId address status incarnation).1.localNodeId = s.localNodeId := by
  rcases s.updateMember_cases nodeId address status incarnation with heq | ⟨member,heq,-⟩
  · rw [heq]
  · rw [heq]
    rfl

/-- What is heard of one node says nothing of another. -/
theorem view_updateMember_of_ne (s : Membership) {nodeId other : String} (hne : other ≠ nodeId)
    (address : String × ℤ) (status : MemberStatus) (incarnation : ℤ) :
    (s.updateMember nodeId address status incarnation).1.view other = s.view other := by
  rcases s.updateMember_cases nodeId address status incarnation with heq | ⟨member,heq,-⟩
  · rw [heq]
  · rw [heq,view_put,if_neg hne]

/-- What is heard of another node overrides what is known of it. -/
theorem view_updateMember (s : Membership) {nodeId : String} (hother : nodeId ≠ s.localNodeId) (address : String × ℤ)
    (status : MemberStatus) (incarnation : ℤ) : (s.updateMember nodeId address status incarnation).1.view nodeId =
      some (override (s.view nodeId) (incarnation,status)) := by
  unfold updateMember
  rw [if_neg hother]
  cases hcurrent : s.members.get? nodeId with
  | none =>
    have hview : s.view nodeId = none := by
      unfold view getMember
      rw [hcurrent]
      rfl
    dsimp only
    rw [view_put,if_pos rfl,hview]
    rfl
  | some current =>
    have hview : s.view nodeId = some (current.incarnation,current.status) := by
      unfold view getMember
      rw [hcurrent]
      rfl
    rw [hview]
    unfold override
    dsimp only
    split_ifs <;> simp_all [view_put]

end Membership
end DistributedSystems.Gossip
