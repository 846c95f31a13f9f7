import DistributedSystems.Protocol.Runs
import Mathlib.Data.List.Chain

/-! # What the steps of a run show

Every step shows something to those who look, such as the answer to a call. A run shows the
list of these.
-/
namespace DistributedSystems.Runs
variable {S A B : Type*}

/-- What the steps of a schedule show, in order. -/
def observed (step : S → A → S) (look : S → A → B) : S → List A → List B
  | _, [] => []
  | s, a :: rest => look s a :: observed step look (step s a) rest

variable {step : S → A → S} {look : S → A → B}

theorem observed_append (s : S) (xs ys : List A) :
    observed step look s (xs ++ ys) = observed step look s xs ++ observed step look (run step s xs) ys := by
  induction xs generalizing s with
  | nil => rfl
  | cons a rest ih => exact congrArg (look s a :: ·) (ih (step s a))

theorem observed_concat (s : S) (xs : List A) (a : A) :
    observed step look s (xs ++ [a]) = observed step look s xs ++ [look (run step s xs) a] :=
  observed_append s xs [a]

/-- What a run so far has done, where it is and what it has shown, by its last step. -/
theorem observed_induction {J : List A → S → List B → Prop} (s : S) (nil : J [] s [])
    (concat : ∀ xs a, J xs (run step s xs) (observed step look s xs) →
      J (xs ++ [a]) (step (run step s xs) a) (observed step look s xs ++ [look (run step s xs) a])) (xs : List A) :
    J xs (run step s xs) (observed step look s xs) := by
  induction xs using List.reverseRecOn with
  | nil => exact nil
  | append_singleton xs a ih =>
    rw [run_append,observed_concat]
    exact concat xs a ih

/-- Where each thing shown tells enough about the state after it, consecutive ones are linked. -/
theorem isChain_observed {I : S → Prop} {P : S → A → Prop} {D : S → B → Prop} {R : B → B → Prop}
    (hstep : ∀ s a, I s → P s a → I (step s a)) (hlook : ∀ s a, I s → P s a → D (step s a) (look s a))
    (hlink : ∀ s b a, I s → P s a → D s b → R b (look s a)) {s : S} {schedule : List A} (hs : I s)
    (h : Along step P s schedule) : (observed step look s schedule).IsChain R := by
  induction schedule generalizing s with
  | nil => exact List.isChain_nil
  | cons a rest ih =>
    cases rest with
    | nil => exact List.isChain_singleton _
    | cons a' rest =>
      have hnext := hstep s a hs h.1
      exact List.isChain_cons_cons.mpr ⟨hlink _ _ a' hnext h.2.1 (hlook s a hs h.1),ih hnext h.2⟩

theorem forall_observed {I : S → Prop} {P : S → A → Prop} {Q : B → Prop} (hstep : ∀ s a, I s → P s a → I (step s a))
    (hlook : ∀ s a, I s → P s a → Q (look s a)) {s : S} {schedule : List A} (hs : I s)
    (h : Along step P s schedule) : ∀ b ∈ observed step look s schedule, Q b := by
  induction schedule generalizing s with
  | nil => exact fun b hb => absurd hb List.not_mem_nil
  | cons a rest ih =>
    intro b hb
    rcases List.mem_cons.mp hb with rfl | hb
    · exact hlook s a hs h.1
    · exact ih (hstep s a hs h.1) h.2 b hb

/-- Actions that the states related by `R` agree on are not disturbed by the others. -/
theorem filter_observed {R : S → S → Prop} {p : A → Bool} {q : B → Bool} (hlook : ∀ s a, q (look s a) = p a)
    (hsame : ∀ s t a, R s t → p a = true → look s a = look t a ∧ R (step s a) (step t a))
    (hother : ∀ s t a, R s t → p a = false → R (step s a) t) {s t : S} (h : R s t) (schedule : List A) :
    (observed step look s schedule).filter q = observed step look t (schedule.filter p) := by
  induction schedule generalizing s t with
  | nil => rfl
  | cons a rest ih =>
    change (look s a :: observed step look (step s a) rest).filter q = _
    rw [List.filter_cons,List.filter_cons,hlook]
    cases hp : p a with
    | true =>
      obtain ⟨hlooks,hnext⟩ := hsame s t a h hp
      rw [if_pos rfl,if_pos rfl,ih hnext,hlooks]
      rfl
    | false =>
      rw [if_neg (by decide),if_neg (by decide)]
      exact ih (hother s t a h hp)

end DistributedSystems.Runs
