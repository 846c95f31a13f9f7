import Mathlib.Data.Finset.Card
import Mathlib.Data.Finset.Image
import Mathlib.Data.Finset.Prod
import Mathlib.Data.Set.Basic
import Mathlib.Tactic.Linarith

/-! # Quorum systems

A quorum system is an upward closed family of sets of which any two meet. The
majority system and the Byzantine counting bound are the two instances that
replicated protocols use; both come from one inclusion-exclusion estimate.
-/
namespace DistributedSystems

/-- Upward closed sets of participants of which any two intersect. -/
structure QuorumSystem (N : Type*) where
  isQuorum : Set N → Prop
  mono : ∀ {A B : Set N}, isQuorum A → A ⊆ B → isQuorum B
  inter : ∀ {A B : Set N}, isQuorum A → isQuorum B → (A ∩ B).Nonempty

namespace QuorumSystem
variable {N C : Type*}

/-- Participants that vote for one candidate each elect at most one candidate. -/
theorem winner_unique (Q : QuorumSystem N) {vote : N → Option C} {c d : C}
    (hc : Q.isQuorum {v | vote v = some c}) (hd : Q.isQuorum {v | vote v = some d}) : c = d := by
  obtain ⟨v,hvc,hvd⟩ := Q.inter hc hd
  exact Option.some.inj (hvc.symm.trans hvd)

end QuorumSystem

section Counting
variable {N : Type*} [DecidableEq N]

/-- Two subsets of a universe overlap in at least the excess of their sizes. -/
theorem card_add_card_le_inter {U A B : Finset N} (hA : A ⊆ U) (hB : B ⊆ U) :
    A.card + B.card ≤ U.card + (A ∩ B).card := by
  have hu : (A ∪ B).card ≤ U.card := Finset.card_le_card (Finset.union_subset hA hB)
  have hi := Finset.card_union_add_card_inter A B
  omega

/-- Sets whose sizes exceed the universe together share an element. -/
theorem inter_nonempty_of_card {U A B : Finset N} (hA : A ⊆ U) (hB : B ⊆ U)
    (h : U.card < A.card + B.card) : (A ∩ B).Nonempty := by
  have hi := card_add_card_le_inter hA hB
  exact Finset.card_pos.mp (by omega)

/-- Sets that overlap in more than the faulty participants share a correct one. -/
theorem exists_correct_of_card {U A B faulty : Finset N} (hA : A ⊆ U) (hB : B ⊆ U)
    (h : U.card + faulty.card < A.card + B.card) : ∃ x ∈ A ∩ B, x ∉ faulty := by
  have hi := card_add_card_le_inter hA hB
  by_contra hall
  have hsub : A ∩ B ⊆ faulty := by
    intro x hx
    by_contra hf
    exact hall ⟨x,hx,hf⟩
  have := Finset.card_le_card hsub
  omega

/-- Two certificates, each a set of votes of participants for one value, name the same
value when their sizes force a common participant that votes only once. -/
theorem certificate_unique {C : Type*} {U : Finset N} (faulty : Finset N) (vote : N → Option C)
    {A B : Finset (N × C)} {c d : C}
    (hA : ∀ p ∈ A, p.2 = c ∧ p.1 ∈ U ∧ (p.1 ∉ faulty → vote p.1 = some c))
    (hB : ∀ p ∈ B, p.2 = d ∧ p.1 ∈ U ∧ (p.1 ∉ faulty → vote p.1 = some d))
    (h : U.card + faulty.card < A.card + B.card) : c = d := by
  have hcard : ∀ {e : C} {S : Finset (N × C)}, (∀ p ∈ S, p.2 = e) → (S.image Prod.fst).card = S.card := by
    intro e S hS
    refine Finset.card_image_of_injOn fun p hp q hq hpq => Prod.ext hpq ?_
    rw [hS p hp,hS q hq]
  have hsub : ∀ {e : C} {S : Finset (N × C)},
      (∀ p ∈ S, p.2 = e ∧ p.1 ∈ U ∧ (p.1 ∉ faulty → vote p.1 = some e)) → S.image Prod.fst ⊆ U := by
    intro e S hS x hx
    obtain ⟨p,hp,rfl⟩ := Finset.mem_image.mp hx
    exact (hS p hp).2.1
  rw [← hcard fun p hp => (hA p hp).1,← hcard fun p hp => (hB p hp).1] at h
  obtain ⟨x,hx,hxf⟩ := exists_correct_of_card (hsub hA) (hsub hB) h
  obtain ⟨hxA,hxB⟩ := Finset.mem_inter.mp hx
  obtain ⟨p,hp,rfl⟩ := Finset.mem_image.mp hxA
  obtain ⟨q,hq,hqp⟩ := Finset.mem_image.mp hxB
  have hc := (hA p hp).2.2 hxf
  have hd := (hB q hq).2.2 (by rw [hqp]; exact hxf)
  rw [hqp,hc] at hd
  exact Option.some.inj hd

/-- Two properties that hold more often than a list is long hold together somewhere. -/
theorem exists_of_length_lt_countP_add {α : Type*} {p q : α → Bool} {xs : List α}
    (h : xs.length < xs.countP p + xs.countP q) : ∃ x ∈ xs, p x = true ∧ q x = true := by
  by_contra hnone
  have hq : xs.countP q ≤ xs.countP fun x => !p x := by
    apply List.countP_mono_left
    intro x hx hqx
    by_contra hpx
    exact hnone ⟨x,hx,by simpa using hpx,hqx⟩
  have hlen := xs.length_eq_countP_add_countP (p := p)
  simp only [Bool.not_eq_true,Bool.decide_eq_false] at hlen
  omega

end Counting

open Classical in
/-- Sets that contain more than half of the members. -/
def majority {N : Type*} (members : Finset N) : QuorumSystem N where
  isQuorum A := members.card < 2 * (members.filter (· ∈ A)).card
  mono := by
    intro A B hA hAB
    have hsub : members.filter (· ∈ A) ⊆ members.filter (· ∈ B) := by
      intro v hv
      obtain ⟨hm,hv⟩ := Finset.mem_filter.mp hv
      exact Finset.mem_filter.mpr ⟨hm,hAB hv⟩
    have := Finset.card_le_card hsub
    omega
  inter := by
    intro A B hA hB
    have hne := inter_nonempty_of_card (Finset.filter_subset (· ∈ A) members)
      (Finset.filter_subset (· ∈ B) members) (by omega)
    obtain ⟨v,hv⟩ := hne
    obtain ⟨hvA,hvB⟩ := Finset.mem_inter.mp hv
    exact ⟨v,(Finset.mem_filter.mp hvA).2,(Finset.mem_filter.mp hvB).2⟩

/-- A finite set of members that outnumbers the rest is a majority quorum. -/
theorem majority_of_finset {N : Type*} {members : Finset N} {S : Finset N} {A : Set N}
    (hsub : S ⊆ members) (hSA : ∀ v ∈ S, v ∈ A) (hcard : members.card < 2 * S.card) :
    (majority members).isQuorum A := by
  classical
  have hS : S ⊆ members.filter (· ∈ A) := by
    intro v hv
    exact Finset.mem_filter.mpr ⟨hsub hv,hSA v hv⟩
  have hle := Finset.card_le_card hS
  change members.card < 2 * (members.filter (· ∈ A)).card
  convert (show members.card < 2 * (members.filter (· ∈ A)).card by omega)

/-- In a descending list, more than `k` elements reach the one at position `k`. -/
theorem lt_countP_of_getElem? {L : List ℕ} (h : L.Pairwise (· ≥ ·)) {k N : ℕ} (hN : L[k]? = some N) :
    k < L.countP (N ≤ ·) := by
  obtain ⟨hk,hkN⟩ := List.getElem?_eq_some_iff.mp hN
  have hall : ∀ x ∈ L.take (k + 1), decide (N ≤ x) = true := by
    intro x hx
    obtain ⟨j,hj,rfl⟩ := List.mem_iff_getElem.mp hx
    rw [List.length_take] at hj
    rw [List.getElem_take,decide_eq_true_iff,← hkN]
    rcases Nat.lt_or_ge j k with hlt | hge
    · exact List.pairwise_iff_getElem.mp h j k (by omega) hk hlt
    · have hjk : j = k := by omega
      subst j
      exact le_refl _
  have hcount := (List.take_sublist (k + 1) L).countP_le (p := (N ≤ ·))
  rw [List.countP_eq_length.mpr hall,List.length_take] at hcount
  omega

/-- In a descending list, the element at position `k` is the largest that more than `k`
elements reach. -/
theorem le_of_lt_countP {L : List ℕ} (h : L.Pairwise (· ≥ ·)) {k N m : ℕ} (hm : L[k]? = some m)
    (hN : k < L.countP (N ≤ ·)) : N ≤ m := by
  obtain ⟨hk,rfl⟩ := List.getElem?_eq_some_iff.mp hm
  by_contra hlt
  have htail : (L.drop k).countP (N ≤ ·) = 0 := by
    refine List.countP_eq_zero.mpr fun x hx => ?_
    obtain ⟨j,hj,rfl⟩ := List.mem_iff_getElem.mp hx
    rw [List.length_drop] at hj
    rw [List.getElem_drop,decide_eq_true_iff]
    rcases Nat.eq_zero_or_pos j with rfl | hpos
    · exact hlt
    · have hle := List.pairwise_iff_getElem.mp h k (k + j) hk (by omega) (by omega)
      omega
  have hhead : (L.take k).countP (N ≤ ·) ≤ k := by
    refine List.countP_le_length.trans ?_
    rw [List.length_take]
    omega
  rw [← List.take_append_drop k L,List.countP_append,htail] at hN
  omega

end DistributedSystems
