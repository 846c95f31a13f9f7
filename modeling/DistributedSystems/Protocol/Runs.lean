import Mathlib.Data.List.Basic

/-! # Runs of deterministic action-labelled systems

A system is a total step function. A schedule is a finite list of actions, so a
property of every schedule is a property of every reachable state. `Along` keeps
the guard of each step next to the state in which the step is taken.
-/
namespace DistributedSystems.Runs
variable {S A : Type*} (step : S → A → S)

/-- The state reached from `s` by taking the actions of a schedule in order. -/
def run (s : S) (schedule : List A) : S := schedule.foldl step s

/-- Every step of the schedule starts in a state where `P` allows its action. -/
def Along (P : S → A → Prop) : S → List A → Prop
  | _, [] => True
  | s, a :: rest => P s a ∧ Along P (step s a) rest

instance decidableAlong {P : S → A → Prop} [∀ s a, Decidable (P s a)] :
    ∀ (s : S) (schedule : List A), Decidable (Along step P s schedule)
  | _, [] => isTrue trivial
  | s, a :: rest => @instDecidableAnd (P s a) _ _ (decidableAlong (step s a) rest)

@[simp] theorem run_nil (s : S) : run step s [] = s := rfl
@[simp] theorem run_cons (s : S) (a : A) (rest : List A) :
    run step s (a :: rest) = run step (step s a) rest := rfl

theorem run_append (s : S) (xs ys : List A) :
    run step s (xs ++ ys) = run step (run step s xs) ys := by
  simp [run]

variable {step}

theorem Along.append {P : S → A → Prop} {s : S} {xs ys : List A} (h : Along step P s (xs ++ ys)) :
    Along step P s xs ∧ Along step P (run step s xs) ys := by
  induction xs generalizing s with
  | nil => exact ⟨trivial,h⟩
  | cons a rest ih =>
    obtain ⟨hrest,hys⟩ := ih h.2
    exact ⟨⟨h.1,hrest⟩,hys⟩

theorem Along.of_append {P : S → A → Prop} {s : S} {xs ys : List A} (hxs : Along step P s xs)
    (hys : Along step P (run step s xs) ys) : Along step P s (xs ++ ys) := by
  induction xs generalizing s with
  | nil => exact hys
  | cons a rest ih => exact ⟨hxs.1,ih hxs.2 hys⟩

theorem Along.and {P Q : S → A → Prop} {s : S} {schedule : List A} (hP : Along step P s schedule)
    (hQ : Along step Q s schedule) : Along step (fun s a => P s a ∧ Q s a) s schedule := by
  induction schedule generalizing s with
  | nil => trivial
  | cons a rest ih => exact ⟨⟨hP.1,hQ.1⟩,ih hP.2 hQ.2⟩

/-- A guard that does not look at the state. -/
theorem along_of_forall {P : A → Prop} {schedule : List A} (h : ∀ a ∈ schedule, P a) (s : S) :
    Along step (fun _ => P) s schedule := by
  induction schedule generalizing s with
  | nil => trivial
  | cons a rest ih => exact ⟨h a List.mem_cons_self,ih (fun b hb => h b (List.mem_cons_of_mem a hb)) (step s a)⟩

/-- Guards that agree in every state of an invariant agree along every schedule. -/
theorem along_congr {I : S → Prop} {P Q : S → A → Prop} (hstep : ∀ s a, I s → I (step s a))
    (h : ∀ s a, I s → (P s a ↔ Q s a)) {s : S} (hs : I s) {schedule : List A} :
    Along step P s schedule ↔ Along step Q s schedule := by
  induction schedule generalizing s with
  | nil => exact Iff.rfl
  | cons a rest ih => exact and_congr (h s a hs) (ih (hstep s a hs))

/-- A property that a step keeps exactly when its guard holds is kept by a schedule
exactly when all its guards hold. -/
theorem run_iff_along {I Q : S → Prop} {P : S → A → Prop} (hstep : ∀ s a, I s → I (step s a))
    (h : ∀ s a, I s → (Q (step s a) ↔ Q s ∧ P s a)) {s : S} (hs : I s) {schedule : List A} :
    Q (run step s schedule) ↔ Q s ∧ Along step P s schedule := by
  induction schedule generalizing s with
  | nil => exact ⟨fun hq => ⟨hq,trivial⟩,And.left⟩
  | cons a rest ih =>
    rw [run_cons,ih (hstep s a hs),h s a hs,and_assoc]
    exact Iff.rfl

/-- A property that holds after a step exactly when its guard holds, in states of an invariant
that allowed steps keep, holds after every step exactly when all guards hold. -/
theorem along_iff_of_invariant {I Q : S → Prop} {P : S → A → Prop} (hstep : ∀ s a, I s → P s a → I (step s a))
    (h : ∀ s a, I s → (Q (step s a) ↔ P s a)) {s : S} (hs : I s) {schedule : List A} :
    Along step (fun s a => Q (step s a)) s schedule ↔ Along step P s schedule := by
  induction schedule generalizing s with
  | nil => exact Iff.rfl
  | cons a rest ih =>
    constructor
    · rintro ⟨hq,hrest⟩
      have hp := (h s a hs).mp hq
      exact ⟨hp,(ih (hstep s a hs hp)).mp hrest⟩
    · rintro ⟨hp,hrest⟩
      exact ⟨(h s a hs).mpr hp,(ih (hstep s a hs hp)).mpr hrest⟩

/-- A property that a step keeps exactly when its guard holds is kept by every step exactly
when all guards hold. -/
theorem along_kept_iff {Q : S → Prop} {P : S → A → Prop} (h : ∀ s a, Q s → (Q (step s a) ↔ P s a)) {s : S} (hs : Q s)
    {schedule : List A} : Along step (fun s a => Q (step s a)) s schedule ↔ Along step P s schedule :=
  along_iff_of_invariant (fun s a hs hp => (h s a hs).mpr hp) h hs

/-- The invariant rule: a property kept by every allowed step is kept by every
schedule whose steps are all allowed. -/
theorem run_invariant {I : S → Prop} {P : S → A → Prop}
    (hstep : ∀ s a, I s → P s a → I (step s a)) {s : S} {schedule : List A}
    (hs : I s) (h : Along step P s schedule) : I (run step s schedule) := by
  induction schedule generalizing s with
  | nil => exact hs
  | cons a rest ih => exact ih (hstep s a hs h.1) h.2

/-- What an allowed step in a state of the invariant satisfies, every step of an allowed
schedule satisfies. -/
theorem along_of_invariant {I : S → Prop} {P Q : S → A → Prop} (hstep : ∀ s a, I s → P s a → I (step s a))
    (h : ∀ s a, I s → P s a → Q s a) {s : S} (hs : I s) {schedule : List A} (hP : Along step P s schedule) :
    Along step Q s schedule := by
  induction schedule generalizing s with
  | nil => trivial
  | cons a rest ih => exact ⟨h s a hs hP.1,ih (hstep s a hs hP.1) hP.2⟩

/-- The same rule for systems whose steps need no guard. -/
theorem run_invariant_of_step {I : S → Prop} (hstep : ∀ s a, I s → I (step s a))
    {s : S} (hs : I s) (schedule : List A) : I (run step s schedule) := by
  induction schedule generalizing s with
  | nil => exact hs
  | cons a rest ih => exact ih (hstep s a hs)

/-- A map of states that commutes with the steps commutes with runs. -/
theorem run_map {S' A' : Type*} {step' : S' → A' → S'} (f : S → S') (g : A → A')
    (h : ∀ s a, f (step s a) = step' (f s) (g a)) (s : S) (schedule : List A) :
    f (run step s schedule) = run step' (f s) (schedule.map g) := by
  induction schedule generalizing s with
  | nil => rfl
  | cons a rest ih => rw [run_cons,ih,h,List.map_cons,run_cons]

variable (step) in
/-- Finitely many goals, each within reach of every state of the invariant and none lost
on the way to another, are reached by one schedule. -/
theorem reach_all {X : Type*} {I : S → Prop} {R : S → S → Prop} {Q : X → S → Prop} (hrefl : ∀ s, R s s)
    (htrans : ∀ s t u, R s t → R t u → R s u) (goals : List X) (hQ : ∀ x ∈ goals, ∀ s t, R s t → Q x s → Q x t)
    (hgoal : ∀ x ∈ goals, ∀ s, I s → ∃ schedule, I (run step s schedule) ∧ R s (run step s schedule) ∧
      Q x (run step s schedule)) {s : S} (hs : I s) :
    ∃ schedule, I (run step s schedule) ∧ R s (run step s schedule) ∧
      ∀ x ∈ goals, Q x (run step s schedule) := by
  induction goals with
  | nil => exact ⟨[],hs,hrefl s,fun _ hx => absurd hx List.not_mem_nil⟩
  | cons x rest ih =>
    obtain ⟨first,hI,hR,hrest⟩ := ih (fun y hy => hQ y (List.mem_cons_of_mem x hy))
      fun y hy => hgoal y (List.mem_cons_of_mem x hy)
    obtain ⟨second,hI',hR',hx⟩ := hgoal x List.mem_cons_self _ hI
    refine ⟨first ++ second,?_⟩
    rw [run_append]
    refine ⟨hI',htrans _ _ _ hR hR',?_⟩
    intro y hy
    rcases List.mem_cons.mp hy with rfl | hy
    · exact hx
    · exact hQ y (List.mem_cons_of_mem x hy) _ _ hR' (hrest y hy)

end DistributedSystems.Runs
