import DistributedSystems.Protocol.Causal
import DistributedSystems.Protocol.Pointwise
import Mathlib.Algebra.Ring.Int.Defs

/-! # Vectors that count updates

Where every update of a replica raises the component of that replica by one, and merges take
the maximum, the vector of a state counts its history, replica by replica. Such vectors compare
as the histories do.
-/
namespace DistributedSystems.Causal
variable {ι Op σ : Type*} [DecidableEq ι]

/-- `Own i s`: the state is one of replica `i`. -/
structure Object.Counts (O : Object ι Op σ) (Own : ι → σ → Prop) (view : σ → ι → ℤ) : Prop where
  init : ∀ i, Own i (O.init i) ∧ view (O.init i) = 0
  update : ∀ i s op s', Own i s → O.apply s op = some s' →
    Own i s' ∧ view s' = Function.update (view s) i (view s i + 1)
  merge : ∀ i s s', Own i s → Own i (O.merge s s') ∧ view (O.merge s s') = view s ⊔ view s'

namespace System
variable {O : Object ι Op σ} {Own : ι → σ → Prop} {view : σ → ι → ℤ}

/-- The updates of a replica in a history. -/
def ofOrigin (updates : List (Update ι Op)) (history : Finset ℕ) (o : ι) : Finset ℕ :=
  history.filter fun k => originAt updates k = some o

theorem mem_ofOrigin {updates : List (Update ι Op)} {history : Finset ℕ} {o : ι} {k : ℕ} :
    k ∈ ofOrigin updates history o ↔ k ∈ history ∧ originAt updates k = some o := Finset.mem_filter

theorem ofOrigin_append {updates : List (Update ι Op)} {history : Finset ℕ} (h : ∀ k ∈ history, k < updates.length)
    (u : Update ι Op) (o : ι) : ofOrigin (updates ++ [u]) history o = ofOrigin updates history o :=
  Finset.filter_congr fun k hk => by rw [originAt_append (h k hk)]

/-- Of two histories one has all that the other has of a replica, so the union has as many. -/
theorem Recorded.card_union {s : System ι Op σ} (h : Recorded s) {i j : ι} {t t' : Snapshot σ} (ht : s.Occurs i t)
    (ht' : s.Occurs j t') (o : ι) : (ofOrigin s.updates (t.history ∪ t'.history) o).card =
      max (ofOrigin s.updates t.history o).card (ofOrigin s.updates t'.history o).card := by
  have hunion : ofOrigin s.updates (t.history ∪ t'.history) o =
      ofOrigin s.updates t.history o ∪ ofOrigin s.updates t'.history o := Finset.filter_union _ _ _
  have hsub : ∀ {x y : Finset ℕ}, ofOrigin s.updates x o ⊆ y → ofOrigin s.updates x o ⊆ ofOrigin s.updates y o :=
    fun hxy k hk => mem_ofOrigin.mpr ⟨hxy hk,(mem_ofOrigin.mp hk).2⟩
  rw [hunion]
  rcases h.comparable ht ht' o with hle | hle
  · rw [Finset.union_eq_right.mpr (hsub hle),max_eq_right (Finset.card_le_card (hsub hle))]
  · rw [Finset.union_eq_left.mpr (hsub hle),max_eq_left (Finset.card_le_card (hsub hle))]

/-- Every vector counts the history of its state. -/
theorem view_eq_card (hO : O.Counts Own view) (schedule : List (Action ι Op)) : ∀ i t,
    (Runs.run (step O) (init O) schedule).Occurs i t → Own i t.state ∧
      ∀ o, view t.state o = (ofOrigin (Runs.run (step O) (init O) schedule).updates t.history o).card := by
  refine run_occurs (P := fun updates i t => Own i t.state ∧ ∀ o, view t.state o = (ofOrigin updates t.history o).card)
    ?_ ?_ ?_ ?_ schedule
  · intro i
    obtain ⟨hown,hview⟩ := hO.init i
    exact ⟨hown,fun o => by rw [hview]; rfl⟩
  · rintro s i t u hs ht - ⟨hown,hview⟩
    refine ⟨hown,fun o => ?_⟩
    rw [ofOrigin_append (hs.known i t ht),hview]
  · rintro s i op state hs ⟨hown,hview⟩ happly
    obtain ⟨hown',hview'⟩ := hO.update i _ op state hown happly
    refine ⟨hown',fun o => ?_⟩
    have hknown := hs.known i _ (hs.occurs i)
    have hnew : s.updates.length ∉ (s.replicas i).history := fun hmem => absurd (hknown _ hmem) (lt_irrefl _)
    have horigin : originAt (s.updates ++ [⟨i,op,(s.replicas i).history⟩]) s.updates.length = some i :=
      originAt_length _ _
    have hold := ofOrigin_append hknown ⟨i,op,(s.replicas i).history⟩ o
    unfold ofOrigin at hold ⊢
    rw [Finset.filter_insert,horigin,hold,hview']
    by_cases ho : o = i
    · subst ho
      rw [if_pos rfl,Function.update_self,hview,Finset.card_insert_of_notMem fun hmem => hnew (Finset.mem_filter.mp hmem).1]
      rfl
    · rw [if_neg (fun h => ho (Option.some.inj h).symm),Function.update_of_ne ho,hview]
      rfl
  · rintro s i j t t' hs ht ht' ⟨hown,hview⟩ ⟨-,hview'⟩
    obtain ⟨hown',hmerge⟩ := hO.merge i t.state t'.state hown
    refine ⟨hown',fun o => ?_⟩
    rw [hmerge,Pi.sup_apply,hview,hview',hs.card_union ht ht']
    omega

/-- Vectors compare as histories do. -/
theorem view_le_iff (hO : O.Counts Own view) (schedule : List (Action ι Op)) {i j : ι} {t t' : Snapshot σ}
    (ht : (Runs.run (step O) (init O) schedule).Occurs i t) (ht' : (Runs.run (step O) (init O) schedule).Occurs j t') :
    view t.state ≤ view t'.state ↔ t.history ⊆ t'.history := by
  have hs := recorded_run O schedule
  have hview := (view_eq_card hO schedule i t ht).2
  have hview' := (view_eq_card hO schedule j t' ht').2
  constructor
  · intro hle k hk
    obtain ⟨o,ho⟩ := originAt_of_lt (hs.known i t ht k hk)
    have hmem : k ∈ ofOrigin (Runs.run (step O) (init O) schedule).updates t.history o := mem_ofOrigin.mpr ⟨hk,ho⟩
    rcases hs.comparable ht ht' o with hsub | hsub
    · exact hsub hmem
    · -- no fewer updates of the replica there: the same ones
      have hcard := hle o
      rw [hview,hview',Int.ofNat_le] at hcard
      have hsub' : ofOrigin (Runs.run (step O) (init O) schedule).updates t'.history o ⊆
          ofOrigin (Runs.run (step O) (init O) schedule).updates t.history o :=
        fun l hl => mem_ofOrigin.mpr ⟨hsub hl,(mem_ofOrigin.mp hl).2⟩
      rw [← Finset.eq_of_subset_of_card_le hsub' hcard] at hmem
      exact (mem_ofOrigin.mp hmem).1
  · intro hsub o
    rw [hview,hview',Int.ofNat_le]
    exact Finset.card_le_card (Finset.filter_subset_filter _ hsub)

end System

end DistributedSystems.Causal
