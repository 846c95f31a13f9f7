import DistributedSystems.Gossip.Membership
import Mathlib.Tactic.Common

/-! # The order of membership updates

Of the updates of a node those of the highest incarnation count. Their statuses have a join
unless the node has left: `LEFT` neither overrides `ALIVE` and `SUSPECT` nor is overridden by
them, so the first one wins.
-/
namespace DistributedSystems.Gossip
open Runs

namespace Membership

/-- The updates of a node that a list of records brings, up to one that raises. -/
def listed (nodeId : String) : List MemberData → List (ℤ × MemberStatus)
  | [] => []
  | data :: rest =>
    match MemberStatus.ofValue data.status with
    | none => []
    | some status =>
      if data.nodeId = nodeId then (data.incarnation,status) :: listed nodeId rest else listed nodeId rest

/-- The updates of a node that a call brings. -/
def received (nodeId : String) : MembershipCall → List (ℤ × MemberStatus)
  | .updateMember other _ status incarnation => if other = nodeId then [(incarnation,status)] else []
  | .mergeMembershipList remoteMembers => listed nodeId remoteMembers

/-- What updates make of what is known, one after the other. -/
def overrideAll (v : Option (ℤ × MemberStatus)) (updates : List (ℤ × MemberStatus)) : Option (ℤ × MemberStatus) :=
  updates.foldl (fun v u => some (override v u)) v

section Views
variable {s : Membership} {nodeId : String}

theorem mergeMembershipList_localNodeId (s : Membership) (remoteMembers : List MemberData) :
    (s.mergeMembershipList remoteMembers).1.localNodeId = s.localNodeId := by
  induction remoteMembers generalizing s with
  | nil => rfl
  | cons data rest ih =>
    unfold mergeMembershipList
    split
    · rfl
    · rw [ih,updateMember_localNodeId]

theorem step_localNodeId (s : Membership) (call : MembershipCall) : (s.step call).localNodeId = s.localNodeId := by
  cases call with
  | updateMember nodeId address status incarnation => exact s.updateMember_localNodeId _ _ _ _
  | mergeMembershipList remoteMembers => exact s.mergeMembershipList_localNodeId remoteMembers

theorem run_localNodeId (s : Membership) (calls : List MembershipCall) :
    (run step s calls).localNodeId = s.localNodeId := by
  induction calls generalizing s with
  | nil => rfl
  | cons call rest ih => exact (ih _).trans (s.step_localNodeId call)

theorem view_mergeMembershipList (hother : nodeId ≠ s.localNodeId) (remoteMembers : List MemberData) :
    (s.mergeMembershipList remoteMembers).1.view nodeId =
      overrideAll (s.view nodeId) (listed nodeId remoteMembers) := by
  induction remoteMembers generalizing s with
  | nil => rfl
  | cons data rest ih =>
    unfold mergeMembershipList listed
    cases MemberStatus.ofValue data.status with
    | none => rfl
    | some status =>
      have hlocal := s.updateMember_localNodeId data.nodeId (data.host,data.port) status data.incarnation
      dsimp only
      rw [ih (hlocal.symm ▸ hother)]
      split
      · rename_i hnode
        subst nodeId
        rw [view_updateMember s hother]
        rfl
      · rename_i hnode
        rw [view_updateMember_of_ne s (Ne.symm hnode)]

theorem view_step (hother : nodeId ≠ s.localNodeId) (call : MembershipCall) :
    (s.step call).view nodeId = overrideAll (s.view nodeId) (received nodeId call) := by
  cases call with
  | updateMember other address status incarnation =>
    unfold received step
    dsimp only
    split
    · rename_i hnode
      subst nodeId
      exact view_updateMember s hother address status incarnation
    · rename_i hnode
      exact view_updateMember_of_ne s (Ne.symm hnode) address status incarnation
  | mergeMembershipList remoteMembers => exact view_mergeMembershipList hother remoteMembers

/-- What calls make of a node depends on the updates of it that they bring, in their order. -/
theorem view_run (hother : nodeId ≠ s.localNodeId) (calls : List MembershipCall) :
    (run step s calls).view nodeId = overrideAll (s.view nodeId) (calls.flatMap (received nodeId)) := by
  induction calls generalizing s with
  | nil => rfl
  | cons call rest ih =>
    rw [run_cons,ih ((s.step_localNodeId call).symm ▸ hother),view_step hother,List.flatMap_cons]
    unfold overrideAll
    rw [List.foldl_append]

end Views

section Outcome
variable {v : Option (ℤ × MemberStatus)} {updates updates' : List (ℤ × MemberStatus)} {r r' : ℤ × MemberStatus}

/-- What is left of all updates, whatever their order. -/
structure Outcome (v : Option (ℤ × MemberStatus)) (updates : List (ℤ × MemberStatus)) (r : ℤ × MemberStatus) :
    Prop where
  known : ∀ c, v = some c → c.1 ≤ r.1
  highest : ∀ u ∈ updates, u.1 ≤ r.1
  mem : v = some r ∨ r ∈ updates
  dead : v = some (r.1,.dead) ∨ (r.1,.dead) ∈ updates → r.2 = .dead
  alive : r.2 = .alive → v ≠ some (r.1,.suspect) ∧ (r.1,.suspect) ∉ updates
  kept : ∀ c, v = some c → c.1 = r.1 → r.2 = c.2 ∨ r.2 = .dead ∨ c.2 = .alive ∧ r.2 = .suspect

theorem Outcome.override (h : Outcome v updates r) (u : ℤ × MemberStatus) :
    Outcome v (updates ++ [u]) (Membership.override (some r) u) := by
  obtain ⟨i,status⟩ := u
  obtain ⟨j,current⟩ := r
  obtain ⟨hknown,hhighest,hmem,hdead,halive,hkept⟩ := h
  unfold Membership.override
  dsimp only at *
  split_ifs with h₁ h₂ h₃
  · constructor <;> grind
  · constructor <;> grind
  · constructor <;> grind
  · constructor <;> grind

theorem overrideAll_append (v : Option (ℤ × MemberStatus)) (updates : List (ℤ × MemberStatus))
    (u : ℤ × MemberStatus) : overrideAll v (updates ++ [u]) = some (Membership.override (overrideAll v updates) u) := by
  unfold overrideAll
  rw [List.foldl_append]
  rfl

theorem eq_of_overrideAll_eq_none (h : overrideAll v updates = none) : v = none ∧ updates = [] := by
  rcases List.eq_nil_or_concat updates with rfl | ⟨front,last,rfl⟩
  · exact ⟨h,rfl⟩
  · rw [List.concat_eq_append,overrideAll_append] at h
    cases h

theorem outcome_overrideAll (h : overrideAll v updates = some r) : Outcome v updates r := by
  induction updates using List.reverseRecOn generalizing r with
  | nil =>
    obtain rfl : v = some r := h
    exact ⟨by grind,nofun,Or.inl rfl,by grind,by grind,by grind⟩
  | append_singleton updates u ih =>
    rw [overrideAll_append] at h
    obtain rfl : Membership.override (overrideAll v updates) u = r := Option.some.inj h
    cases hprevious : overrideAll v updates with
    | none =>
      -- before the first update nothing is known
      obtain ⟨rfl,rfl⟩ := eq_of_overrideAll_eq_none hprevious
      refine ⟨nofun,fun u' hu' => ?_,Or.inr List.mem_cons_self,?_,?_,nofun⟩
      · rw [List.mem_singleton.mp hu']
        exact le_rfl
      · rintro (hv | hu)
        · cases hv
        · exact (congrArg Prod.snd (List.mem_singleton.mp hu)).symm
      · intro halive
        refine ⟨nofun,fun hu => ?_⟩
        have hsuspect := congrArg Prod.snd (List.mem_singleton.mp hu)
        cases halive.symm.trans hsuspect.symm
    | some previous => exact (ih hprevious).override u

theorem Outcome.congr (h : Outcome v updates' r) (hsame : ∀ u, u ∈ updates ↔ u ∈ updates') : Outcome v updates r where
  known := h.known
  highest := fun u hu => h.highest u ((hsame u).mp hu)
  mem := h.mem.imp_right (hsame r).mpr
  dead := fun hdead => h.dead (hdead.imp_right (hsame _).mp)
  alive := fun halive => (h.alive halive).imp_right fun hnot hu => hnot ((hsame _).mp hu)
  kept := h.kept

/-- No update of the highest incarnation can be overtaken, or it is known what stays. -/
def OrderFree (v : Option (ℤ × MemberStatus)) (updates : List (ℤ × MemberStatus)) : Prop :=
  ∀ m, (∃ status, (m,status) ∈ updates) → (∀ u ∈ updates, u.1 ≤ m) →
    (∃ c, v = some c ∧ m ≤ c.1) ∨
      ((m,.left) ∈ updates → (m,.alive) ∈ updates ∨ (m,.suspect) ∈ updates → (m,.dead) ∈ updates)

/-- Where the order does not matter, a node that has left in one order has not returned in another. -/
theorem Outcome.left_or_dead {i : ℤ} {status : MemberStatus} (h : Outcome v updates (i,.left))
    (h' : Outcome v updates (i,status)) (hfree : OrderFree v updates) : status = .left ∨ status = .dead := by
  by_cases hv : ∃ c, v = some c ∧ c.1 = i
  · obtain ⟨c,hc,hi⟩ := hv
    have hleft : c.2 = .left := by
      rcases h.kept c hc hi with heq | heq | ⟨-,heq⟩
      · exact heq.symm
      · cases heq
      · cases heq
    rcases h'.kept c hc hi with heq | heq | ⟨heq,-⟩
    · exact Or.inl (heq.trans hleft)
    · exact Or.inr heq
    · rw [hleft] at heq
      cases heq
  · have hmem : (i,.left) ∈ updates := h.mem.resolve_left fun hc => hv ⟨_,hc,rfl⟩
    have hmem' : (i,status) ∈ updates := h'.mem.resolve_left fun hc => hv ⟨_,hc,rfl⟩
    rcases hfree i ⟨_,hmem⟩ h.highest with ⟨c,hc,hle⟩ | hdead
    · exact absurd ⟨c,hc,le_antisymm (h.known c hc) hle⟩ hv
    · cases status with
      | left => exact Or.inl rfl
      | dead => exact Or.inr rfl
      | alive => exact absurd (h.dead (Or.inr (hdead hmem (Or.inl hmem')))) nofun
      | suspect => exact absurd (h.dead (Or.inr (hdead hmem (Or.inr hmem')))) nofun

theorem Outcome.dead_of_dead {i : ℤ} {status : MemberStatus} (h : Outcome v updates (i,.dead))
    (h' : Outcome v updates (i,status)) : status = .dead := h'.dead h.mem

theorem Outcome.not_alive {i : ℤ} (h : Outcome v updates (i,.suspect)) : ¬Outcome v updates (i,.alive) := by
  intro h'
  obtain ⟨hv,hu⟩ := h'.alive rfl
  exact h.mem.elim hv hu

/-- The outcome of the same updates is the same in every order in which it does not matter. -/
theorem Outcome.unique (h : Outcome v updates r) (h' : Outcome v updates r') (hfree : OrderFree v updates) :
    r = r' := by
  have hincarnation : r.1 = r'.1 :=
    le_antisymm (h.mem.elim (h'.known r) (h'.highest r)) (h'.mem.elim (h.known r') (h.highest r'))
  obtain ⟨i,status⟩ := r
  obtain ⟨j,status'⟩ := r'
  obtain rfl : i = j := hincarnation
  cases status with
  | dead => rw [h.dead_of_dead h']
  | left =>
    rcases h.left_or_dead h' hfree with rfl | rfl
    · rfl
    · exact absurd (h'.dead_of_dead h) (by decide)
  | alive =>
    cases status' with
    | alive => rfl
    | suspect => exact absurd h h'.not_alive
    | dead => exact absurd (h'.dead_of_dead h) (by decide)
    | left => exact absurd (h'.left_or_dead h hfree) (by decide)
  | suspect =>
    cases status' with
    | alive => exact absurd h' h.not_alive
    | suspect => rfl
    | dead => exact absurd (h'.dead_of_dead h) (by decide)
    | left => exact absurd (h'.left_or_dead h hfree) (by decide)

end Outcome

/-- A membership as calls make it. -/
def Reached (s : Membership) : Prop :=
  ∃ localNodeId localAddress calls, s = run step (init localNodeId localAddress) calls

/-- One call for each update. -/
def callsOf (nodeId : String) (updates : List (ℤ × MemberStatus)) : List MembershipCall :=
  updates.map fun u => .updateMember nodeId ("",0) u.2 u.1

theorem received_callsOf (nodeId : String) (updates : List (ℤ × MemberStatus)) :
    (callsOf nodeId updates).flatMap (received nodeId) = updates := by
  unfold callsOf
  rw [List.flatMap_map]
  simp [received]

theorem view_init (localNodeId nodeId : String) (localAddress : String × ℤ) :
    (init localNodeId localAddress).view nodeId = none ∧ (init localNodeId localAddress).localNodeId = localNodeId := by
  simp [init,updateMember,view,getMember,Dict.get?,Dict.empty,lookupEntry]

/-- Every view of another node is reached. -/
theorem exists_reached (nodeId : String) (v : Option (ℤ × MemberStatus)) :
    ∃ s, Reached s ∧ nodeId ≠ s.localNodeId ∧ s.view nodeId = v := by
  obtain ⟨localNodeId,hother⟩ : ∃ localNodeId, localNodeId ≠ nodeId := by
    by_cases hempty : nodeId = ""
    · exact ⟨"a",fun h => absurd (h.trans hempty) (by decide)⟩
    · exact ⟨"",Ne.symm hempty⟩
  obtain ⟨hnone,hlocal⟩ := view_init localNodeId nodeId ("",0)
  refine ⟨run step (init localNodeId ("",0)) (callsOf nodeId v.toList),⟨_,_,_,rfl⟩,?_,?_⟩
  · rw [run_localNodeId,hlocal]
    exact hother.symm
  · rw [view_run (hlocal.symm ▸ hother.symm),hnone,received_callsOf]
    cases v with
    | none => rfl
    | some c => rfl

theorem exists_overrideAll_some (c : ℤ × MemberStatus) (updates : List (ℤ × MemberStatus)) :
    ∃ r, overrideAll (some c) updates = some r := by
  induction updates generalizing c with
  | nil => exact ⟨c,rfl⟩
  | cons u rest ih => exact ih (override (some c) u)

/-- A member that is not declared dead has left exactly if it has left first. -/
theorem overrideAll_first {v : Option (ℤ × MemberStatus)} {updates : List (ℤ × MemberStatus)} {m : ℤ}
    (hv : ∀ c, v = some c → c.1 < m) (hhighest : ∀ u ∈ updates, u.1 ≤ m) (hdead : (m,.dead) ∉ updates)
    {status : MemberStatus} (hstatus : status ≠ .dead) :
    ∃ status', overrideAll v ((m,status) :: updates) = some (m,status') ∧ (status' = .left ↔ status = .left) := by
  have hfirst : overrideAll v ((m,status) :: updates) = overrideAll (some (m,status)) updates := by
    unfold overrideAll
    rw [List.foldl_cons]
    cases v with
    | none => rfl
    | some c => rw [override,if_pos (hv c rfl)]
  obtain ⟨⟨i,status'⟩,hr⟩ := exists_overrideAll_some (m,status) updates
  have h := outcome_overrideAll hr
  have hi : i = m := by
    refine le_antisymm ?_ (h.known _ rfl)
    rcases h.mem with heq | hu
    · exact (congrArg Prod.fst (Option.some.inj heq)).ge
    · exact hhighest _ hu
  subst i
  have hne : status' ≠ .dead := by
    rintro rfl
    rcases h.mem with heq | hu
    · exact hstatus (congrArg Prod.snd (Option.some.inj heq))
    · exact hdead hu
  refine ⟨status',hfirst.trans hr,?_⟩
  rcases h.kept _ rfl rfl with heq | heq | ⟨heq,heq'⟩
  · exact Eq.congr_left heq
  · exact absurd heq hne
  · exact ⟨fun hleft => absurd (heq'.symm.trans hleft) nofun,fun hleft => absurd (heq.symm.trans hleft) nofun⟩

/-- Two updates of the highest incarnation that exclude each other: the first one stays. -/
theorem exists_overrideAll_ne {v : Option (ℤ × MemberStatus)} {updates : List (ℤ × MemberStatus)}
    (h : ¬OrderFree v updates) :
    ∃ u ∈ updates, ∃ u' ∈ updates, overrideAll v (u :: updates) ≠ overrideAll v (u' :: updates) := by
  unfold OrderFree at h
  push Not at h
  obtain ⟨m,-,hhighest,hv,hleft,hreturned,hdead⟩ := h
  have hlow : ∀ c, v = some c → c.1 < m := fun c hc => hv c hc
  obtain ⟨other,hother,hne,hnotDead⟩ : ∃ other, (m,other) ∈ updates ∧ other ≠ .left ∧ other ≠ .dead := by
    rcases hreturned with hmem | hmem
    · exact ⟨.alive,hmem,nofun,nofun⟩
    · exact ⟨.suspect,hmem,nofun,nofun⟩
  obtain ⟨status₁,heq₁,hfirst⟩ := overrideAll_first hlow hhighest hdead (show MemberStatus.left ≠ .dead by decide)
  obtain ⟨status₂,heq₂,hsecond⟩ := overrideAll_first hlow hhighest hdead hnotDead
  refine ⟨_,hleft,_,hother,fun hsame => ?_⟩
  rw [heq₁,heq₂] at hsame
  have hstatus : status₁ = status₂ := congrArg Prod.snd (Option.some.inj hsame)
  exact hne (hsecond.mp (hstatus ▸ hfirst.mpr rfl))

theorem overrideAll_congr {v : Option (ℤ × MemberStatus)} {updates us us' : List (ℤ × MemberStatus)}
    (hfree : OrderFree v updates) (hus : ∀ u, u ∈ us ↔ u ∈ updates) (hus' : ∀ u, u ∈ us' ↔ u ∈ updates) :
    overrideAll v us = overrideAll v us' := by
  cases hr : overrideAll v us with
  | none =>
    obtain ⟨rfl,rfl⟩ := eq_of_overrideAll_eq_none hr
    obtain rfl : us' = [] := List.eq_nil_iff_forall_not_mem.mpr fun u hu =>
      absurd ((hus u).mpr ((hus' u).mp hu)) List.not_mem_nil
    rfl
  | some r =>
    cases hr' : overrideAll v us' with
    | none =>
      obtain ⟨rfl,rfl⟩ := eq_of_overrideAll_eq_none hr'
      obtain rfl : us = [] := List.eq_nil_iff_forall_not_mem.mpr fun u hu =>
        absurd ((hus' u).mpr ((hus u).mp hu)) List.not_mem_nil
      cases hr
    | some r' =>
      have h := (outcome_overrideAll hr).congr fun u => (hus u).symm
      have h' := (outcome_overrideAll hr').congr fun u => (hus' u).symm
      rw [h.unique h' hfree]

/-- The same updates about a node leave the same, in every order, with repetitions and through
either call, exactly when no two of the highest incarnation exclude each other. -/
theorem order_independent_iff (nodeId : String) (v : Option (ℤ × MemberStatus)) (updates : List (ℤ × MemberStatus)) :
    (∀ (s s' : Membership) (calls calls' : List MembershipCall), Reached s → Reached s' →
      nodeId ≠ s.localNodeId → nodeId ≠ s'.localNodeId → s.view nodeId = v → s'.view nodeId = v →
      (∀ u, u ∈ calls.flatMap (received nodeId) ↔ u ∈ updates) →
      (∀ u, u ∈ calls'.flatMap (received nodeId) ↔ u ∈ updates) →
      (run step s calls).view nodeId = (run step s' calls').view nodeId) ↔ OrderFree v updates := by
  constructor
  · intro h
    by_contra hnot
    obtain ⟨u,hu,u',hu',hne⟩ := exists_overrideAll_ne hnot
    obtain ⟨s,hreached,hs,hview⟩ := exists_reached nodeId v
    have hrepeated : ∀ u ∈ updates, ∀ w,
        w ∈ (callsOf nodeId (u :: updates)).flatMap (received nodeId) ↔ w ∈ updates := by
      intro u hu w
      rw [received_callsOf,List.mem_cons]
      exact or_iff_right_of_imp fun heq => heq ▸ hu
    have hsame := h s s _ _ hreached hreached hs hs hview hview (hrepeated u hu) (hrepeated u' hu')
    rw [view_run hs,view_run hs,received_callsOf,received_callsOf,hview] at hsame
    exact hne hsame
  · rintro hfree s s' calls calls' - - hs hs' hv hv' hcalls hcalls'
    rw [view_run hs,view_run hs',hv,hv']
    exact overrideAll_congr hfree hcalls hcalls'

/-- A node that is alive and one that has left, at the same incarnation. -/
def aliveThenLeft : List MembershipCall := [.mergeMembershipList [⟨"b","",0,"alive",1⟩,⟨"b","",0,"left",1⟩]]

def leftThenAlive : List MembershipCall := [.mergeMembershipList [⟨"b","",0,"left",1⟩,⟨"b","",0,"alive",1⟩]]

/-- Of the two updates the first stays. -/
theorem first_update_stays : ¬∀ (s s' : Membership) (nodeId : String) (calls calls' : List MembershipCall),
    Reached s → Reached s' → nodeId ≠ s.localNodeId → nodeId ≠ s'.localNodeId → s.view nodeId = s'.view nodeId →
    (∀ u, u ∈ calls.flatMap (received nodeId) ↔ u ∈ calls'.flatMap (received nodeId)) →
    (run step s calls).view nodeId = (run step s' calls').view nodeId := by
  intro h
  have hreached : Reached (init "a" ("",0)) := ⟨"a",("",0),[],rfl⟩
  have hfirst : aliveThenLeft.flatMap (received "b") = [(1,.alive),(1,.left)] := by decide
  have hsecond : leftThenAlive.flatMap (received "b") = [(1,.left),(1,.alive)] := by decide
  have hsame := h _ _ "b" aliveThenLeft leftThenAlive hreached hreached (by decide) (by decide) rfl fun u => by
    rw [hfirst,hsecond]
    exact (List.Perm.swap _ _ _).mem_iff
  revert hsame
  decide

end Membership
end DistributedSystems.Gossip
