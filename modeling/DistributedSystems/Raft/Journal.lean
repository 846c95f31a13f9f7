import DistributedSystems.Raft.Storage
import Mathlib.Data.List.Pairwise
import Mathlib.Order.Basic
import Mathlib.Data.Nat.Basic

/-! # The state file as a journal

The saves of the state file form a sequence of pairs of a term and a vote. It
moves forward when the term only grows and a vote, once stored, stays as long as
its term. Any prefix of such a journal names one candidate for each term.
-/
namespace DistributedSystems.Raft
variable {Id Cmd Snap : Type}

/-- The terms and votes written to the state file, oldest first. -/
def stateSaves (saves : List (Save Id Cmd Snap)) : List (ℕ × Option Id) :=
  saves.filterMap fun w => match w with
    | .saveState currentTerm votedFor => some (currentTerm,votedFor)
    | _ => none

/-- A later pair has a newer term, or the same term and at most fills in the vote. -/
def Follows (p q : ℕ × Option Id) : Prop := p.1 < q.1 ∨ (p.1 = q.1 ∧ (p.2 = none ∨ p.2 = q.2))

theorem Follows.refl (p : ℕ × Option Id) : Follows p p := Or.inr ⟨rfl,Or.inr rfl⟩

theorem Follows.trans {p q r : ℕ × Option Id} (h : Follows p q) (h' : Follows q r) : Follows p r := by
  rcases h with h | ⟨h,hv⟩
  · rcases h' with h' | ⟨h',_⟩
    · exact Or.inl (h.trans h')
    · exact Or.inl (h'.symm ▸ h)
  · rcases h' with h' | ⟨h',hv'⟩
    · exact Or.inl (h ▸ h')
    · refine Or.inr ⟨h.trans h',?_⟩
      rcases hv with hv | hv
      · exact Or.inl hv
      · rw [hv]
        exact hv'

theorem Follows.term_le {p q : ℕ × Option Id} (h : Follows p q) : p.1 ≤ q.1 := by
  rcases h with h | ⟨h,_⟩
  · exact h.le
  · exact h.le

/-- The contents of the state file after a list of saves that started from `p`. -/
def latest (p : ℕ × Option Id) (saves : List (Save Id Cmd Snap)) : ℕ × Option Id :=
  saves.foldl (fun file w => match w with
    | .saveState currentTerm votedFor => (currentTerm,votedFor)
    | _ => file) p

theorem loadState_eq_latest (s : Storage Id Cmd Snap) : s.loadState = latest (0,none) s.saves := rfl

theorem latest_append (p : ℕ × Option Id) (xs ys : List (Save Id Cmd Snap)) :
    latest p (xs ++ ys) = latest (latest p xs) ys := List.foldl_append

/-- Saves whose state pairs only move forward, starting from `p`. -/
def Forward (p : ℕ × Option Id) (saves : List (Save Id Cmd Snap)) : Prop :=
  (p :: stateSaves saves).Pairwise Follows

@[simp] theorem stateSaves_append (xs ys : List (Save Id Cmd Snap)) :
    stateSaves (xs ++ ys) = stateSaves xs ++ stateSaves ys := by simp [stateSaves]

theorem Forward.mem_latest {p : ℕ × Option Id} {saves : List (Save Id Cmd Snap)} (h : Forward p saves) :
    ∀ q ∈ p :: stateSaves saves, Follows q (latest p saves) := by
  induction saves generalizing p with
  | nil =>
    intro q hq
    rw [List.mem_singleton.mp hq]
    exact Follows.refl p
  | cons w rest ih =>
    cases w with
    | saveState t v =>
      obtain ⟨hp,hrest⟩ := List.pairwise_cons.mp h
      have hlast : ∀ q ∈ (t,v) :: stateSaves rest, Follows q (latest (t,v) rest) := ih hrest
      intro q hq
      rcases List.mem_cons.mp hq with rfl | hq
      · exact (hp (t,v) List.mem_cons_self).trans (hlast (t,v) List.mem_cons_self)
      · exact hlast q hq
    | saveLog log => exact ih h
    | saveSnapshot b i t => exact ih h

theorem Forward.append {p : ℕ × Option Id} {xs ys : List (Save Id Cmd Snap)} (hx : Forward p xs)
    (hy : Forward (latest p xs) ys) : Forward p (xs ++ ys) := by
  have hmem := hx.mem_latest
  unfold Forward at *
  rw [stateSaves_append,← List.cons_append]
  refine List.pairwise_append.mpr ⟨hx,(List.pairwise_cons.mp hy).2,?_⟩
  intro a ha b hb
  exact (hmem a ha).trans ((List.pairwise_cons.mp hy).1 b hb)

theorem Forward.take {p : ℕ × Option Id} {saves : List (Save Id Cmd Snap)} (h : Forward p saves) (k : ℕ) :
    Forward p (saves.take k) := by
  unfold Forward at *
  refine h.sublist (List.Sublist.cons_cons p ?_)
  exact (List.take_sublist k saves).filterMap _

/-- A journal that moves forward names at most one candidate for each term. -/
theorem Forward.vote_unique {p : ℕ × Option Id} {saves : List (Save Id Cmd Snap)} (h : Forward p saves)
    {t : ℕ} {x y : Id} (hx : (t,some x) ∈ p :: stateSaves saves)
    (hy : (t,some y) ∈ p :: stateSaves saves) : x = y := by
  have key : ∀ a b : Id, Follows (t,some a) (t,some b) → a = b := by
    intro a b hab
    rcases hab with hab | ⟨_,hab | hab⟩
    · exact absurd hab (lt_irrefl t)
    · cases hab
    · exact Option.some.inj hab
  rcases List.mem_iff_getElem.mp hx with ⟨i,hi,hxi⟩
  rcases List.mem_iff_getElem.mp hy with ⟨j,hj,hyj⟩
  rcases lt_trichotomy i j with hij | hij | hij
  · have hf := List.pairwise_iff_getElem.mp h i j hi hj hij
    rw [hxi,hyj] at hf
    exact key x y hf
  · subst j
    exact Option.some.inj (congrArg Prod.snd (hxi.symm.trans hyj))
  · have hf := List.pairwise_iff_getElem.mp h j i hj hi hij
    rw [hxi,hyj] at hf
    exact (key y x hf).symm

theorem latest_mem (p : ℕ × Option Id) (saves : List (Save Id Cmd Snap)) :
    latest p saves ∈ p :: stateSaves saves := by
  induction saves generalizing p with
  | nil => exact List.mem_cons_self
  | cons w rest ih =>
    cases w with
    | saveState t v => exact List.mem_cons_of_mem p (ih (t,v))
    | saveLog log => exact ih p
    | saveSnapshot b i t => exact ih p

end DistributedSystems.Raft
