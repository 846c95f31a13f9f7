import DistributedSystems.Gossip.MembershipOrder

/-! # Refuting a suspicion

A node keeps no entry of its own: the constructor adds itself through the branch for the local
node, which only changes an entry that is there. So no suspicion is ever answered.
-/
namespace DistributedSystems.Gossip
open Runs

namespace Membership
variable {s : Membership}

/-- No entry is about the local node. -/
structure NoSelf (s : Membership) : Prop where
  absent : s.getMember s.localNodeId = none
  keyed : ∀ nodeId member, s.getMember nodeId = some member → member.nodeId = nodeId

theorem NoSelf.updateMember (h : s.NoSelf) (nodeId : String) (address : String × ℤ) (status : MemberStatus)
    (incarnation : ℤ) : (s.updateMember nodeId address status incarnation).1.NoSelf := by
  rcases s.updateMember_cases nodeId address status incarnation with heq | ⟨member,heq,hmember⟩
  · rwa [heq]
  · have hother : nodeId ≠ s.localNodeId ∧ member.nodeId = nodeId := by
      rcases hmember with hnew | ⟨current,hcurrent,hnodeId⟩
      · exact hnew
      · refine ⟨?_,hnodeId.trans (h.keyed nodeId current hcurrent)⟩
        rintro rfl
        rw [h.absent] at hcurrent
        cases hcurrent
    rw [heq]
    constructor
    · rw [getMember_put]
      exact (if_neg hother.1.symm).trans h.absent
    · intro other found hfound
      rw [getMember_put] at hfound
      split at hfound
      · rename_i hnode
        obtain rfl : member = found := Option.some.inj hfound
        exact hother.2.trans hnode.symm
      · exact h.keyed other found hfound

theorem NoSelf.mergeMembershipList (h : s.NoSelf) (remoteMembers : List MemberData) :
    (s.mergeMembershipList remoteMembers).1.NoSelf := by
  induction remoteMembers generalizing s with
  | nil => exact h
  | cons data rest ih =>
    unfold Membership.mergeMembershipList
    cases MemberStatus.ofValue data.status with
    | none => exact h
    | some status => exact ih (h.updateMember data.nodeId (data.host,data.port) status data.incarnation)

theorem NoSelf.step (h : s.NoSelf) (call : MembershipCall) : (s.step call).NoSelf := by
  cases call with
  | updateMember nodeId address status incarnation => exact h.updateMember nodeId address status incarnation
  | mergeMembershipList remoteMembers => exact h.mergeMembershipList remoteMembers

theorem noSelf_of_reached (h : Reached s) : s.NoSelf := by
  obtain ⟨localNodeId,localAddress,calls,rfl⟩ := h
  have hstart : NoSelf ⟨localNodeId,localAddress,Dict.empty⟩ := ⟨rfl,fun _ _ hmember => nomatch hmember⟩
  have hinit := hstart.updateMember localNodeId localAddress .alive 0
  exact run_invariant_of_step (fun _ call h => h.step call) hinit calls

/-- What a node sends says nothing of it. -/
theorem NoSelf.nodeId_ne (h : s.NoSelf) {data : MemberData} (hdata : data ∈ s.getAllMembersData) :
    data.nodeId ≠ s.localNodeId := by
  obtain ⟨⟨nodeId,member⟩,hmem,rfl⟩ := List.mem_map.mp hdata
  have hmember : s.getMember nodeId = some member := Dict.get?_of_mem hmem
  change member.nodeId ≠ s.localNodeId
  rw [h.keyed nodeId member hmember]
  rintro rfl
  rw [h.absent] at hmember
  cases hmember

theorem listed_eq_nil {nodeId : String} {remoteMembers : List MemberData}
    (h : ∀ data ∈ remoteMembers, data.nodeId ≠ nodeId) : listed nodeId remoteMembers = [] := by
  induction remoteMembers with
  | nil => rfl
  | cons data rest ih =>
    unfold listed
    cases MemberStatus.ofValue data.status with
    | none => rfl
    | some status =>
      exact (if_neg (h data List.mem_cons_self)).trans (ih fun d hd => h d (List.mem_cons_of_mem data hd))

/-- A record that suspects the local node or declares it dead. -/
def Suspects (s : Membership) (data : MemberData) : Prop :=
  data.nodeId = s.localNodeId ∧ (data.status = MemberStatus.suspect.value ∨ data.status = MemberStatus.dead.value)

/-- A suspicion is never refuted: what the node sends has no entry of its own, alive or not, and
who holds the suspicion keeps it. -/
theorem never_refuted (hs : Reached s) {data : MemberData} (_ : s.Suspects data) :
    let s' := (s.mergeMembershipList [data]).1
    (¬∃ own ∈ s'.getAllMembersData, own.nodeId = s.localNodeId ∧ own.status = MemberStatus.alive.value ∧
      data.incarnation < own.incarnation) ∧
    ∀ peer : Membership, s.localNodeId ≠ peer.localNodeId →
      (peer.mergeMembershipList s'.getAllMembersData).1.view s.localNodeId = peer.view s.localNodeId := by
  have hmerged := (noSelf_of_reached hs).mergeMembershipList [data]
  have hlocal := s.mergeMembershipList_localNodeId [data]
  have hne : ∀ own ∈ (s.mergeMembershipList [data]).1.getAllMembersData, own.nodeId ≠ s.localNodeId :=
    fun own hown => hlocal ▸ hmerged.nodeId_ne hown
  constructor
  · rintro ⟨own,hown,hself,-⟩
    exact hne own hown hself
  · intro peer hpeer
    rw [view_mergeMembershipList hpeer,listed_eq_nil hne]
    rfl

/-- The first suspicion of a node. -/
theorem never_refuted_first : let s' := ((init "a" ("",0)).mergeMembershipList [⟨"a","",0,"suspect",0⟩]).1
    (¬∃ own ∈ s'.getAllMembersData, own.nodeId = (init "a" ("",0)).localNodeId ∧
      own.status = MemberStatus.alive.value ∧ 0 < own.incarnation) ∧
    ∀ peer : Membership, (init "a" ("",0)).localNodeId ≠ peer.localNodeId →
      (peer.mergeMembershipList s'.getAllMembersData).1.view (init "a" ("",0)).localNodeId =
        peer.view (init "a" ("",0)).localNodeId :=
  never_refuted ⟨"a",("",0),[],rfl⟩ ⟨rfl,Or.inl rfl⟩

/-- A node that hears that it is suspected does not say that it is alive. -/
theorem first_suspicion_stands : ¬∀ (s : Membership) (data : MemberData), Reached s → s.Suspects data →
    ∃ own ∈ (s.mergeMembershipList [data]).1.getAllMembersData, own.nodeId = s.localNodeId ∧
      own.status = MemberStatus.alive.value ∧ data.incarnation < own.incarnation := by
  intro h
  obtain ⟨own,hown,-⟩ := h (init "a" ("",0)) ⟨"a","",0,"suspect",0⟩ ⟨"a",("",0),[],rfl⟩ ⟨rfl,Or.inl rfl⟩
  have hnone : ((init "a" ("",0)).mergeMembershipList [⟨"a","",0,"suspect",0⟩]).1.getAllMembersData = [] := by decide
  rw [hnone] at hown
  cases hown

end Membership
end DistributedSystems.Gossip
