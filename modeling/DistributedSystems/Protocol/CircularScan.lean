import Mathlib.Data.List.Rotate
import Mathlib.Order.Lattice

/-! # Circular scans of sorted lists

A scan of a sorted list starts behind the entries up to a given one and goes round once. The
labels it meets, each at its first place, lose or gain single labels as the list does.
-/
namespace DistributedSystems.CircularScan
variable {α β : Type*}

section FirstPlaces
variable [DecidableEq β]

theorem nodup_eraseDups (l : List β) : l.eraseDups.Nodup := by
  induction h : l.length using Nat.strong_induction_on generalizing l with
  | _ n ih =>
    cases l with
    | nil => simp
    | cons b rest =>
      rw [List.eraseDups_cons,List.nodup_cons]
      refine ⟨fun hb => ?_,ih _ ?_ _ rfl⟩
      · simp [List.mem_eraseDups] at hb
      · subst h
        exact Nat.lt_succ_of_le (List.length_filter_le _ _)

/-- What is removed from a list is removed from its first places. -/
theorem eraseDups_filter (p : β → Bool) (l : List β) : (l.filter p).eraseDups = l.eraseDups.filter p := by
  induction h : l.length using Nat.strong_induction_on generalizing l with
  | _ n ih =>
    cases l with
    | nil => simp
    | cons b rest =>
      have hrest := ih _ (by subst h; exact Nat.lt_succ_of_le (List.length_filter_le _ _))
        (rest.filter fun c => !c == b) rfl
      rw [List.eraseDups_cons]
      by_cases hb : p b = true
      · rw [List.filter_cons_of_pos hb,List.filter_cons_of_pos hb,List.eraseDups_cons,← hrest,List.filter_comm]
      · rw [List.filter_cons_of_neg hb,List.filter_cons_of_neg hb,← hrest,List.filter_filter]
        refine congrArg List.eraseDups (List.filter_congr fun c _ => ?_)
        by_cases hc : c = b
        · simp [hc,hb]
        · simp [hc]

/-- Without one of its members a list without duplicates falls into two parts around it. -/
theorem exists_split_of_nodup {l : List β} (h : l.Nodup) (b : β) : ∃ before after,
    l.filter (fun c => c ≠ b) = before ++ after ∧ l = before ++ (if b ∈ l then [b] else []) ++ after := by
  by_cases hb : b ∈ l
  · obtain ⟨before,after,rfl⟩ := List.append_of_mem hb
    obtain ⟨hnew,-⟩ := List.nodup_cons.mp (List.nodup_middle.mp h)
    rw [List.mem_append,not_or] at hnew
    have hne : ∀ l : List β, b ∉ l → l.filter (fun c => c ≠ b) = l := by
      intro l hl
      exact List.filter_eq_self.mpr fun c hc => decide_eq_true fun heq => hl (heq ▸ hc)
    refine ⟨before,after,?_,by simp⟩
    rw [List.filter_append,List.filter_cons_of_neg (by simp),hne _ hnew.1,hne _ hnew.2]
  · refine ⟨[],l,?_,by simp [hb]⟩
    exact List.filter_eq_self.mpr fun c hc => decide_eq_true fun heq => hb (heq ▸ hc)

end FirstPlaces

section Sorted
variable [LinearOrder α]

/-- The number of entries up to `x`, where a search of a sorted list ends. -/
def bisectRight (l : List α) (x : α) : ℕ := (l.takeWhile (· ≤ x)).length

/-- `x` inserted behind the entries up to it. -/
def insort (l : List α) (x : α) : List α := l.takeWhile (· ≤ x) ++ x :: l.dropWhile (· ≤ x)

theorem takeWhile_eq_filter {l : List α} (h : l.Pairwise (· ≤ ·)) (x : α) :
    l.takeWhile (· ≤ x) = l.filter (· ≤ x) ∧ l.dropWhile (· ≤ x) = l.filter (x < ·) := by
  induction l with
  | nil => simp
  | cons a rest ih =>
    obtain ⟨ha,hrest⟩ := List.pairwise_cons.mp h
    by_cases hax : a ≤ x
    · simp [hax,not_lt.mpr hax,ih hrest]
    · have hlt : ∀ b ∈ rest, x < b := fun b hb => (not_le.mp hax).trans_le (ha b hb)
      have hnone : rest.filter (· ≤ x) = [] := by
        simpa using hlt
      have hall : rest.filter (x < ·) = rest := by
        simpa using hlt
      simp [hax,not_le.mp hax,hnone,hall]

theorem sorted_insort {l : List α} (h : l.Pairwise (· ≤ ·)) (x : α) : (insort l x).Pairwise (· ≤ ·) := by
  obtain ⟨htake,hdrop⟩ := takeWhile_eq_filter h x
  rw [insort,htake,hdrop,List.pairwise_append,List.pairwise_cons]
  refine ⟨h.filter _,⟨?_,h.filter _⟩,?_⟩
  · intro b hb
    simp only [List.mem_filter,decide_eq_true_eq] at hb
    exact hb.2.le
  · intro a ha b hb
    simp only [List.mem_filter,decide_eq_true_eq,List.mem_cons] at ha hb
    rcases hb with rfl | hb
    · exact ha.2
    · exact ha.2.trans hb.2.le

theorem mem_insort {l : List α} {x a : α} : a ∈ insort l x ↔ a = x ∨ a ∈ l := by
  rw [insort,List.mem_append,List.mem_cons,or_left_comm,← List.mem_append,List.takeWhile_append_dropWhile]

/-- An insertion is not seen by a filter that drops it. -/
theorem filter_insort (l : List α) {x : α} {p : α → Bool} (hx : p x = false) : (insort l x).filter p = l.filter p := by
  rw [insort,List.filter_append,List.filter_cons_of_neg (by simp [hx]),← List.filter_append,
    List.takeWhile_append_dropWhile]

/-- The entries behind those up to `x`, then the ones up to `x`. -/
def entriesFrom (l : List α) (x : α) : List α := l.rotate (bisectRight l x)

theorem entriesFrom_eq (l : List α) (x : α) : entriesFrom l x = l.dropWhile (· ≤ x) ++ l.takeWhile (· ≤ x) := by
  have hrotate := List.rotate_append_length_eq (l.takeWhile (· ≤ x)) (l.dropWhile (· ≤ x))
  rwa [List.takeWhile_append_dropWhile] at hrotate

theorem entriesFrom_filter {l : List α} (h : l.Pairwise (· ≤ ·)) (x : α) (p : α → Bool) :
    entriesFrom (l.filter p) x = (entriesFrom l x).filter p := by
  obtain ⟨htake,hdrop⟩ := takeWhile_eq_filter h x
  obtain ⟨htake',hdrop'⟩ := takeWhile_eq_filter (h.filter p) x
  rw [entriesFrom_eq,entriesFrom_eq,htake,hdrop,htake',hdrop',List.filter_append,List.filter_comm,
    List.filter_comm (· ≤ x)]

/-- The labels of a circular scan, each at its first place. -/
def labelsFrom [DecidableEq β] (label : α → β) (l : List α) (x : α) : List β := ((entriesFrom l x).map label).eraseDups

theorem nodup_labelsFrom [DecidableEq β] (label : α → β) (l : List α) (x : α) : (labelsFrom label l x).Nodup :=
  nodup_eraseDups _

theorem mem_labelsFrom [DecidableEq β] {label : α → β} {l : List α} {x : α} {b : β} :
    b ∈ labelsFrom label l x ↔ ∃ a ∈ l, label a = b := by
  simp [labelsFrom,entriesFrom,List.mem_eraseDups]

/-- Without the entries of some labels a scan meets the other labels as before. -/
theorem labelsFrom_filter [DecidableEq β] {l : List α} (h : l.Pairwise (· ≤ ·)) (label : α → β) (x : α) (p : β → Bool) :
    labelsFrom label (l.filter fun a => p (label a)) x = (labelsFrom label l x).filter p := by
  rw [labelsFrom,entriesFrom_filter h,labelsFrom,← eraseDups_filter,List.filter_map]
  rfl

/-- The first label is the one where the search ends, or of the first entry if it ends behind
the last. -/
theorem head?_labelsFrom [DecidableEq β] (label : α → β) (l : List α) (x : α) :
    (labelsFrom label l x).head? = l[if bisectRight l x = l.length then 0 else bisectRight l x]?.map label := by
  have hhead : ∀ labels : List β, labels.eraseDups.head? = labels.head? := by
    intro labels
    cases labels with
    | nil => rfl
    | cons b rest => rw [List.eraseDups_cons,List.head?_cons,List.head?_cons]
  rw [labelsFrom,hhead,List.head?_map,entriesFrom]
  by_cases hend : bisectRight l x = l.length
  · rw [if_pos hend,hend,List.rotate_length,List.head?_eq_getElem?]
  · have hle : bisectRight l x ≤ l.length := (List.takeWhile_prefix _).length_le
    rw [if_neg hend,List.head?_rotate (lt_of_le_of_ne hle hend)]

end Sorted
end DistributedSystems.CircularScan
