import Mathlib.Algebra.Order.Group.Defs
import Mathlib.Data.List.Count
import Mathlib.Data.Int.Order.Basic

/-! # Counting in sliding windows

Times come in order. If every new one found a free place in the window that ends with it, no
window has more times than places.
-/
namespace DistributedSystems
variable {K : Type*} [LinearOrder K]

section Start
variable {start : K → K} {t : K} {times : List K}

/-- The times in the window that ends at `t`, with a start of its own that is outside. -/
def countSince (start : K → K) (times : List K) (t : K) : ℕ := times.countP fun u => start t < u ∧ u ≤ t

theorem countSince_append (times times' : List K) :
    countSince start (times ++ times') t = countSince start times t + countSince start times' t :=
  List.countP_append

/-- At the last time only the start of the window matters. -/
theorem countSince_eq_length_filter (h : ∀ u ∈ times, u ≤ t) :
    countSince start times t = (times.filter fun u => start t < u).length := by
  rw [countSince,List.countP_eq_length_filter]
  refine congrArg List.length (List.filter_congr fun u hu => ?_)
  simp [h u hu]

/-- Every window, also one that ends between two times or later. -/
def CountBounded (start : K → K) (places : ℤ) (times : List K) : Prop := ∀ t, (countSince start times t : ℤ) ≤ places

theorem countBounded_nil {places : ℤ} (h : 0 ≤ places) : CountBounded start places [] := fun _ => h

/-- A new time finds a free place in its window. -/
theorem CountBounded.concat {places : ℤ} (hmono : Monotone start) (h : CountBounded start places times) {u : K}
    (hlast : ∀ v ∈ times, v ≤ u) (hfree : (countSince start times u : ℤ) < places) :
    CountBounded start places (times ++ [u]) := by
  intro t
  rw [countSince_append]
  by_cases hu : start t < u ∧ u ≤ t
  · -- the window at `t` has no more of the earlier times than the window at `u`
    have hle : countSince start times t ≤ countSince start times u := by
      refine List.countP_mono_left fun v hv hwindow => ?_
      have hstart := (of_decide_eq_true hwindow).1
      exact decide_eq_true ⟨(hmono hu.2).trans_lt hstart,hlast v hv⟩
    have hone : countSince start [u] t = 1 := by simp [countSince,hu]
    rw [hone]
    omega
  · have hnone : countSince start [u] t = 0 := by simpa [countSince] using hu
    rw [hnone,Nat.add_zero]
    exact h t

end Start

section Size
variable [AddCommGroup K] {size t : K} {times : List K}

/-- The times in the window of a given size that ends at `t`; its start is outside. -/
def windowCount (size : K) (times : List K) (t : K) : ℕ := times.countP fun u => t - size < u ∧ u ≤ t

theorem windowCount_append (times times' : List K) :
    windowCount size (times ++ times') t = windowCount size times t + windowCount size times' t :=
  List.countP_append

theorem windowCount_eq_length_filter (h : ∀ u ∈ times, u ≤ t) :
    windowCount size times t = (times.filter fun u => t - size < u).length :=
  @countSince_eq_length_filter K _ (fun t => t - size) t times h

def WindowBounded (size : K) (places : ℤ) (times : List K) : Prop := ∀ t, (windowCount size times t : ℤ) ≤ places

theorem windowBounded_nil {places : ℤ} (h : 0 ≤ places) : WindowBounded size places [] := fun _ => h

theorem WindowBounded.concat [IsOrderedAddMonoid K] {places : ℤ} (h : WindowBounded size places times) {u : K}
    (hlast : ∀ v ∈ times, v ≤ u) (hfree : (windowCount size times u : ℤ) < places) :
    WindowBounded size places (times ++ [u]) :=
  @CountBounded.concat K _ (fun t => t - size) times places (fun _ _ h => sub_le_sub_right h size) h u hlast hfree

end Size

/-- When times come in order, each one is before the last. -/
theorem pairwise_map_concat {A T : Type*} [LinearOrder T] {f : A → T} {xs : List A} {a : A}
    (h : ((xs ++ [a]).map f).Pairwise (· ≤ ·)) : (xs.map f).Pairwise (· ≤ ·) ∧ ∀ x ∈ xs, f x ≤ f a := by
  rw [List.map_append,List.pairwise_append] at h
  exact ⟨h.1,fun x hx => h.2.2 _ (List.mem_map_of_mem hx) _ List.mem_cons_self⟩

section Extent
variable {α : Type*} {p : α → Bool}

theorem exists_first_of_countP_pos {log : List α} (h : 0 < log.countP p) :
    ∃ before first rest, log = before ++ first :: rest ∧ p first = true ∧ before.countP p = 0 := by
  induction log with
  | nil => exact absurd h (lt_irrefl 0)
  | cons e log ih =>
    by_cases he : p e = true
    · exact ⟨[],e,log,rfl,he,rfl⟩
    · rw [List.countP_cons_of_neg he] at h
      obtain ⟨before,first,rest,rfl,hfirst,hnone⟩ := ih h
      exact ⟨e :: before,first,rest,rfl,hfirst,by rw [List.countP_cons_of_neg he,hnone]⟩

theorem exists_last_of_countP_pos {log : List α} (h : 0 < log.countP p) :
    ∃ before last after, log = before ++ last :: after ∧ p last = true ∧ after.countP p = 0 := by
  rw [← List.countP_reverse] at h
  obtain ⟨after,last,before,heq,hlast,hnone⟩ := exists_first_of_countP_pos h
  refine ⟨before.reverse,last,after.reverse,?_,hlast,by rw [List.countP_reverse,hnone]⟩
  rw [← List.reverse_reverse log,heq]
  simp

/-- What is counted in a log lies between the first and the last entry that counts. -/
theorem exists_infix_of_countP_pos {log : List α} (h : 0 < log.countP p) :
    ∃ window first last, window <:+: log ∧ window.head? = some first ∧ window.getLast? = some last ∧
      p first = true ∧ p last = true ∧ log.countP p = window.countP p := by
  obtain ⟨before,first,rest,rfl,hfirst,hnone⟩ := exists_first_of_countP_pos h
  have hpos : 0 < (first :: rest).countP p := by
    rw [List.countP_cons_of_pos hfirst]
    exact Nat.succ_pos _
  obtain ⟨middle,last,after,heq,hlast,hnone'⟩ := exists_last_of_countP_pos hpos
  rw [heq]
  have hhead : (middle ++ [last]).head? = some first := by
    cases middle with
    | nil => exact congrArg some (List.cons.inj heq).1.symm
    | cons e middle => exact congrArg some (List.cons.inj heq).1.symm
  refine ⟨middle ++ [last],first,last,⟨before,after,by simp⟩,hhead,by simp,hfirst,hlast,?_⟩
  rw [List.countP_append,List.countP_append,List.countP_append,List.countP_cons_of_pos hlast,
    List.countP_cons_of_pos hlast,hnone,hnone']
  simp

end Extent

end DistributedSystems
