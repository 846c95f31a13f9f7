import DistributedSystems.QuorumStore.Coordinator
import Mathlib.Data.List.Nodup

/-! # Hinted handoff

A successful write leaves a hint for each call that raised or timed out. A replica that
answers `False`, since storing has raised in it, is neither counted nor among the failed ones.
-/
namespace DistributedSystems.QuorumStore

namespace QuorumCoordinator
variable {ρ κ V : Type} [DecidableEq ρ] [DecidableEq κ]

omit [DecidableEq κ] in
/-- Every intended replica gets one hint for each time that it is named. -/
theorem foldl_writeHint (ids : List ℕ) (hints : ℕ → List (Hint κ V)) (key : κ) (value : Option V) (p : ℕ) :
    ids.foldl (fun hints id => writeHint hints key value id 0) hints p =
      hints p ++ List.replicate (ids.count p) ⟨key,value,0⟩ := by
  induction ids generalizing hints with
  | nil => simp
  | cons id rest ih =>
    rw [List.foldl_cons,ih,writeHint]
    by_cases hp : id = p
    · subst p
      rw [Function.update_self,List.count_cons_self,List.replicate_succ,List.append_assoc]
      rfl
    · rw [Function.update_of_ne (Ne.symm hp),List.count_cons_of_ne hp]

omit [DecidableEq κ] in
/-- With distinct names the failed replicas are mapped to the positions of the failed calls. -/
theorem mapReplicasToIds_failed {c : QuorumCoordinator ρ κ V} (hdistinct : c.replicas.Nodup) (fails : ℕ → Bool) :
    c.mapReplicasToIds ((c.replicas.zipIdx.filter fun call => fails call.2).map Prod.fst) =
      (List.range c.replicas.length).filter fails := by
  have hmem : ∀ call ∈ c.replicas.zipIdx, call.1 ∈ c.replicas ∧ c.replicas.idxOf call.1 = call.2 := by
    rintro ⟨r,p⟩ hcall
    obtain ⟨hp,hr⟩ := List.getElem?_eq_some_iff.mp (List.mem_zipIdx_iff_getElem?.mp hcall)
    rw [← hr]
    exact ⟨List.getElem_mem hp,hdistinct.idxOf_getElem p hp⟩
  have hknown : ((c.replicas.zipIdx.filter fun call => fails call.2).map Prod.fst).filter (· ∈ c.replicas) =
      (c.replicas.zipIdx.filter fun call => fails call.2).map Prod.fst := by
    refine List.filter_eq_self.mpr fun r hr => ?_
    obtain ⟨call,hcall,rfl⟩ := List.mem_map.mp hr
    exact decide_eq_true (hmem call (List.mem_filter.mp hcall).1).1
  rw [mapReplicasToIds,hknown,List.map_map]
  calc (c.replicas.zipIdx.filter fun call => fails call.2).map ((c.replicas.idxOf ·) ∘ Prod.fst)
      = (c.replicas.zipIdx.filter fun call => fails call.2).map Prod.snd :=
        List.map_congr_left fun call hcall => (hmem call (List.mem_filter.mp hcall).1).2
    _ = (c.replicas.zipIdx.map Prod.snd).filter fails := by
        rw [List.filter_map]
        rfl
    _ = (List.range c.replicas.length).filter fails := by rw [List.zipIdx_map_snd,List.range_eq_range']

section Write
variable (c : QuorumCoordinator ρ κ V) (key : κ) (value : Option V) (consistency : ConsistencyLevel) (version : ℕ)
  (outcomes : ℕ → WriteOutcome)

/-- The calls that answer `True` meet the required count. -/
def QuorumMet : Prop :=
  c.getConsistencyCounts consistency true ≤ c.replicas.zipIdx.countP fun call => outcomes call.2 = .stored

instance : Decidable (c.QuorumMet consistency outcomes) := inferInstanceAs (Decidable (_ ≤ _))

/-- A write that raises leaves the hints alone; one that returns adds a hint for each call that
raised or timed out. -/
theorem write_hints (hdistinct : c.replicas.Nodup) (p : ℕ) :
    (c.write key value consistency version outcomes).1.hints p =
      if c.QuorumMet consistency outcomes ∧ p < c.replicas.length ∧ (outcomes p).fails = true then
        c.hints p ++ [⟨key,value,0⟩]
      else c.hints p := by
  unfold write
  dsimp only
  split
  · rename_i hmet
    replace hmet : c.QuorumMet consistency outcomes := hmet
    change ((c.mapReplicasToIds _).foldl _ c.hints) p = _
    rw [mapReplicasToIds_failed hdistinct fun p => (outcomes p).fails,foldl_writeHint]
    by_cases hp : p < c.replicas.length ∧ (outcomes p).fails = true
    · rw [if_pos ⟨hmet,hp⟩,List.count_filter (p := fun p => (outcomes p).fails) hp.2,
        List.count_eq_one_of_mem List.nodup_range (List.mem_range.mpr hp.1)]
      rfl
    · rw [if_neg fun h => hp h.2,List.count_eq_zero_of_not_mem,List.replicate_zero,List.append_nil]
      intro hmem
      obtain ⟨hlt,hfails⟩ := List.mem_filter.mp hmem
      exact hp ⟨List.mem_range.mp hlt,hfails⟩
  · rename_i hmet
    rw [if_neg fun h => hmet h.1]

/-- A call that has not answered `True`. -/
def Missed (p : ℕ) : Prop := p < c.replicas.length ∧ outcomes p ≠ .stored

instance (p : ℕ) : Decidable (c.Missed outcomes p) := inferInstanceAs (Decidable (_ ∧ _))

/-- A write that returns adds one hint, with the key and the value, for each replica that it
missed and no other; a write that raises adds none. -/
def HintsMissed : Prop :=
  ((c.write key value consistency version outcomes).2 = .ok true → ∀ p, ∃ added,
    (c.write key value consistency version outcomes).1.hints p = c.hints p ++ added ∧
    (c.Missed outcomes p → ∃ tempNode, added = [⟨key,value,tempNode⟩]) ∧ (¬c.Missed outcomes p → added = [])) ∧
  ∀ e, (c.write key value consistency version outcomes).2 = .error e →
    (c.write key value consistency version outcomes).1.hints = c.hints

/-- The hints cover every missed replica exactly when no replica answers `False` to a write that
meets its quorum. -/
theorem hintsMissed_iff (hdistinct : c.replicas.Nodup) :
    c.HintsMissed key value consistency version outcomes ↔
      (c.QuorumMet consistency outcomes → ∀ p < c.replicas.length, outcomes p ≠ .refused) := by
  have hhints := c.write_hints key value consistency version outcomes hdistinct
  have hok : (c.write key value consistency version outcomes).2 = .ok true ↔ c.QuorumMet consistency outcomes :=
    write_eq_ok ..
  constructor
  · rintro ⟨hreturns,-⟩ hmet p hp hrefused
    obtain ⟨added,hadded,hmissed,-⟩ := hreturns (hok.mpr hmet) p
    obtain ⟨tempNode,rfl⟩ := hmissed ⟨hp,by simp [hrefused]⟩
    rw [hhints p,if_neg (by simp [hrefused,WriteOutcome.fails])] at hadded
    simp at hadded
  · intro hnone
    refine ⟨fun hreturns p => ?_,fun e he => funext fun p => ?_⟩
    · have hmet := hok.mp hreturns
      rw [hhints p]
      by_cases hp : p < c.replicas.length ∧ (outcomes p).fails = true
      · refine ⟨[⟨key,value,0⟩],if_pos ⟨hmet,hp⟩,fun _ => ⟨0,rfl⟩,fun hnot => absurd ⟨hp.1,?_⟩ hnot⟩
        intro hstored
        simp [hstored,WriteOutcome.fails] at hp
      · refine ⟨[],?_,fun hmissed => absurd ⟨hmissed.1,?_⟩ hp,fun _ => rfl⟩
        · rw [if_neg fun h => hp h.2,List.append_nil]
        · -- A call that neither stored nor was refused has failed.
          have hrefused := hnone hmet p hmissed.1
          have hstored := hmissed.2
          cases h : outcomes p <;> simp_all [WriteOutcome.fails]
    · rw [hhints p,if_neg]
      rintro ⟨hmet,-⟩
      rw [hok.mpr hmet] at he
      cases he

end Write

/-- Three replicas and majorities; storing raises in the last one, and nobody hears of it. -/
theorem refused_not_hinted : ¬∀ (replicas : List ℕ) (c : QuorumCoordinator ℕ ℕ ℕ) (outcomes : ℕ → WriteOutcome),
    replicas.Nodup → init replicas none none = .ok c → c.HintsMissed 0 (some 10) .quorum 1 outcomes := by
  intro h
  have hcovered := h [0,1,2] _ (fun p => if p = 2 then .refused else .stored) (by decide) rfl
  obtain ⟨added,hadded,hmissed,-⟩ := hcovered.1 rfl 2
  obtain ⟨tempNode,rfl⟩ := hmissed (by decide)
  cases hadded

/-- The last call times out instead, and its replica gets its hint. -/
theorem hintsMissed_timedOut : ∃ c : QuorumCoordinator ℕ ℕ ℕ, init [0,1,2] none none = .ok c ∧
    c.HintsMissed 0 (some 10) .quorum 1 fun p => if p = 2 then .timedOut false else .stored :=
  ⟨_,rfl,(hintsMissed_iff _ 0 (some 10) .quorum 1 (fun p => if p = 2 then .timedOut false else .stored)
    (by decide)).mpr (by decide)⟩

end QuorumCoordinator

end DistributedSystems.QuorumStore
