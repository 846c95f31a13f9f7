import DistributedSystems.Tracing.Tracer
import Mathlib.Algebra.Ring.Int.Defs

/-! # Finished spans

A tracer keeps the sampled spans that were finished since it was cleared, each once and in the
order in which they were finished.
-/
namespace DistributedSystems.Tracing
open Runs

variable {ι R T : Type} [DecidableEq ι] [LinearOrder R] [One R] {uuid : ℕ → String}

namespace Services

variable (uuid) in
/-- Everything a step can do to spans and tracers. -/
theorem step_cases (s : Services ι R T) (a : TraceAction ι R T) :
    ((s.step uuid a).tracers = s.tracers ∧
      ((s.step uuid a).spans = s.spans ∨ ∃ span, span.endTime = none ∧ (s.step uuid a).spans = s.spans ++ [span])) ∨
    (∃ k span now, s.spans[k]? = some span ∧ span.endTime = none ∧ s.step uuid a = s.finish k span now) ∨
    ∃ t, a = .clear t ∧ s.step uuid a = { s with tracers := Function.update s.tracers t { s.tracers t with spans := [] } } := by
  cases a with
  | start t operationName random now => exact Or.inl ⟨rfl,Or.inr ⟨_,rfl,rfl⟩⟩
  | child t operationName parent random now =>
    simp only [step]
    cases s.spans[parent]? with
    | none => exact Or.inl ⟨rfl,Or.inl rfl⟩
    | some p => exact Or.inl ⟨rfl,Or.inr ⟨_,rfl,rfl⟩⟩
  | join t operationName carrier random now =>
    simp only [step]
    cases s.carriers[carrier]? with
    | none => exact Or.inl ⟨rfl,Or.inl rfl⟩
    | some c => exact Or.inl ⟨rfl,Or.inr ⟨_,rfl,rfl⟩⟩
  | inject span carrier =>
    simp only [step]
    cases s.spans[span]? with
    | none => exact Or.inl ⟨rfl,Or.inl rfl⟩
    | some p => exact Or.inl ⟨rfl,Or.inl rfl⟩
  | finish span now =>
    simp only [step]
    cases hk : s.spans[span]? with
    | none => exact Or.inl ⟨rfl,Or.inl rfl⟩
    | some p =>
      cases hend : p.endTime with
      | none => exact Or.inr (Or.inl ⟨span,p,now,hk,hend,rfl⟩)
      | some ended =>
        have hstep : s.finish span p now = s := s.finish_of_some span hend now
        exact Or.inl ⟨congrArg Services.tracers hstep,Or.inl (congrArg Services.spans hstep)⟩
  | clear t => exact Or.inr (Or.inr ⟨t,rfl,rfl⟩)

/-- Which spans of a tracer are finished now, and were not at some earlier moment. -/
def FinishedSince (earlier s : Services ι R T) (t : ι) (k : ℕ) : Prop :=
  ∃ span, s.spans[k]? = some span ∧ span.tracer = t ∧ span.context.sampled = true ∧ span.endTime ≠ none ∧
    ∀ old, earlier.spans[k]? = some old → old.endTime = none

/-- What a tracer keeps, and that no span is resumed. -/
structure Keeps (earlier s : Services ι R T) (t : ι) : Prop where
  nodup : (s.tracers t).spans.Nodup
  mem : ∀ k, k ∈ (s.tracers t).spans ↔ FinishedSince earlier s t k
  ended : ∀ (k : ℕ) old, earlier.spans[k]? = some old → ∃ span, s.spans[k]? = some span ∧
    (old.endTime ≠ none → span.endTime ≠ none)

namespace Keeps
variable {earlier s : Services ι R T} {t : ι}

theorem clear (earlier : Services ι R T) (t : ι) : Keeps earlier (earlier.step uuid (.clear t)) t where
  nodup := by simp [step]
  mem k := by
    constructor
    · intro hk
      simp [step] at hk
    · rintro ⟨span,hspan,-,-,hended,hnew⟩
      exact absurd (hnew span hspan) hended
  ended k old hold := ⟨old,hold,id⟩

omit [DecidableEq ι] [LinearOrder R] [One R] in
/-- A span more, not finished yet. -/
theorem append (h : Keeps earlier s t) {s' : Services ι R T} (htracers : s'.tracers = s.tracers) {span : Span ι T}
    (hspan : span.endTime = none) (hspans : s'.spans = s.spans ++ [span]) : Keeps earlier s' t where
  nodup := htracers ▸ h.nodup
  mem k := by
    rw [htracers,h.mem]
    refine exists_congr fun span' => and_congr_left fun ⟨_,_,hended,_⟩ => ?_
    rw [hspans]
    rcases lt_or_ge k s.spans.length with hk | hk
    · rw [List.getElem?_append_left hk]
    · rw [List.getElem?_eq_none hk,List.getElem?_append_right hk,List.getElem?_singleton]
      constructor
      · exact fun hnone => nomatch hnone
      · intro hsome
        split at hsome
        · rw [← Option.some.inj hsome] at hended
          exact absurd hspan hended
        · cases hsome
  ended k old hold := by
    obtain ⟨span',hspan',hended⟩ := h.ended k old hold
    exact ⟨span',by rw [hspans,List.getElem?_append_left (List.getElem?_eq_some_iff.mp hspan').1,hspan'],hended⟩

omit [LinearOrder R] [One R] in
theorem finish (h : Keeps earlier s t) {k : ℕ} {span : Span ι T} (hk : s.spans[k]? = some span)
    (hnone : span.endTime = none) (now : T) : Keeps earlier (s.finish k span now) t := by
  have hlt := (List.getElem?_eq_some_iff.mp hk).1
  have hget : ∀ j, (s.finish k span now).spans[j]? =
      if k = j then some { span with endTime := some now } else s.spans[j]? := by
    intro j
    rw [s.finish_of_none k hnone]
    exact (List.getElem?_set ..).trans (by rw [if_pos hlt])
  have hnotMem : ∀ t, FinishedSince earlier s t k → False := by
    rintro t ⟨span',hspan',-,-,hended,-⟩
    rw [hk] at hspan'
    exact hended (Option.some.inj hspan' ▸ hnone)
  have hsince : ∀ j, FinishedSince earlier (s.finish k span now) t j ↔
      FinishedSince earlier s t j ∨ (j = k ∧ span.tracer = t ∧ span.context.sampled = true) := by
    intro j
    by_cases hj : k = j
    · subst hj
      have hold : ∀ old, earlier.spans[k]? = some old → old.endTime = none := by
        intro old hold
        obtain ⟨span',hspan',hended⟩ := h.ended k old hold
        rw [hk] at hspan'
        by_contra hne
        exact hended hne (Option.some.inj hspan' ▸ hnone)
      constructor
      · rintro ⟨span',hspan',htracer,hsampled,-,-⟩
        rw [hget,if_pos rfl] at hspan'
        obtain rfl := Option.some.inj hspan'
        exact Or.inr ⟨rfl,htracer,hsampled⟩
      · rintro (hsince | ⟨-,htracer,hsampled⟩)
        · exact absurd hsince (hnotMem t)
        · have hspan' : (s.finish k span now).spans[k]? = some { span with endTime := some now } := by
            rw [hget,if_pos rfl]
          exact ⟨_,hspan',htracer,hsampled,Option.some_ne_none now,hold⟩
    · unfold FinishedSince
      rw [hget,if_neg hj]
      exact ⟨Or.inl,fun h => h.resolve_right fun hjk => hj hjk.1.symm⟩
  have htracers : ((s.finish k span now).tracers t).spans =
      if span.tracer = t ∧ span.context.sampled = true then (s.tracers t).spans ++ [k] else (s.tracers t).spans := by
    rw [s.finish_of_none k hnone]
    by_cases ht : span.tracer = t
    · subst ht
      cases span.context.sampled <;> simp
    · simp [ht,Function.update_of_ne (Ne.symm ht)]
  constructor
  · rw [htracers]
    split
    · refine List.nodup_append.mpr ⟨h.nodup,List.nodup_singleton k,fun j hj j' hj' heq => ?_⟩
      rw [List.mem_singleton.mp hj'] at heq
      exact hnotMem t ((h.mem k).mp (heq ▸ hj))
    · exact h.nodup
  · intro j
    rw [htracers,hsince,← h.mem]
    split
    · rename_i hboth
      rw [List.mem_append,List.mem_singleton]
      exact or_congr_right ⟨fun hj => ⟨hj,hboth⟩,And.left⟩
    · rename_i hnot
      exact ⟨Or.inl,fun hor => hor.resolve_right fun hj => hnot hj.2⟩
  · intro j old hold
    obtain ⟨span',hspan',hended⟩ := h.ended j old hold
    rw [hget]
    split
    · exact ⟨_,rfl,fun _ => Option.some_ne_none now⟩
    · exact ⟨span',hspan',hended⟩

variable (uuid) in
/-- Until the tracer is cleared again. -/
theorem step (h : Keeps earlier s t) {a : TraceAction ι R T} (ha : a ≠ .clear t) :
    Keeps earlier (s.step uuid a) t ∧ (s.tracers t).spans <+: ((s.step uuid a).tracers t).spans := by
  rcases s.step_cases uuid a with ⟨htracers,hspans⟩ | ⟨k,span,now,hk,hnone,hstep⟩ | ⟨t',rfl,hstep⟩
  · refine ⟨?_,by rw [htracers]⟩
    rcases hspans with hspans | ⟨span,hspan,hspans⟩
    · refine ⟨htracers ▸ h.nodup,fun k => ?_,fun k old hold => ?_⟩
      · rw [htracers,h.mem]
        unfold FinishedSince
        rw [hspans]
      · rw [hspans]
        exact h.ended k old hold
    · exact h.append htracers hspan hspans
  · rw [hstep]
    refine ⟨h.finish hk hnone now,?_⟩
    rw [s.finish_of_none k hnone]
    by_cases ht : span.tracer = t
    · subst ht
      cases span.context.sampled <;> simp
    · simp [Function.update_of_ne (Ne.symm ht)]
  · have ht : t ≠ t' := fun heq => ha (heq ▸ rfl)
    rw [hstep]
    refine ⟨⟨?_,fun k => ?_,h.ended⟩,?_⟩
    · simpa [Function.update_of_ne ht] using h.nodup
    · simpa [Function.update_of_ne ht,FinishedSince] using h.mem k
    · simp [Function.update_of_ne ht]

end Keeps

end Services

/-- After a tracer is cleared it has exactly its sampled spans that are finished from then on,
each once, and later ones come after those it has. -/
theorem finished_spans_recorded (samplingRate : ι → R) (before first second : List (TraceAction ι R T)) (t : ι)
    (hclear : ∀ a ∈ first ++ second, a ≠ .clear t) :
    let cleared := run (Services.step uuid) (Services.init ι T samplingRate) before
    let earlier := run (Services.step uuid) cleared (.clear t :: first)
    let later := run (Services.step uuid) earlier second
    (earlier.tracers t).spans <+: (later.tracers t).spans ∧ (later.tracers t).spans.Nodup ∧
      ∀ k, k ∈ (later.tracers t).spans ↔ Services.FinishedSince cleared later t k := by
  intro cleared earlier later
  have hrun : ∀ (schedule : List (TraceAction ι R T)) (s : Services ι R T), (∀ a ∈ schedule, a ≠ .clear t) →
      Services.Keeps cleared s t → Services.Keeps cleared (run (Services.step uuid) s schedule) t ∧
        (s.tracers t).spans <+: ((run (Services.step uuid) s schedule).tracers t).spans := by
    intro schedule
    induction schedule with
    | nil => exact fun s _ h => ⟨h,List.prefix_refl _⟩
    | cons a rest ih =>
      intro s ha h
      obtain ⟨hstep,hpre⟩ := h.step uuid (ha a List.mem_cons_self)
      obtain ⟨hrest,hpre'⟩ := ih (s.step uuid a) (fun b hb => ha b (List.mem_cons_of_mem _ hb)) hstep
      exact ⟨hrest,hpre.trans hpre'⟩
  have hfirst := (hrun first (cleared.step uuid (.clear t)) (fun a ha => hclear a (List.mem_append_left _ ha))
    (Services.Keeps.clear cleared t)).1
  obtain ⟨hsecond,hpre⟩ := hrun second earlier (fun a ha => hclear a (List.mem_append_right _ ha)) hfirst
  exact ⟨hpre,hsecond.nodup,hsecond.mem⟩

/-- Two spans that are open when their tracer is cleared. -/
theorem finished_spans_recorded_open : (0 : ℕ) ∈ ((run (Services.step fun k => if k = 0 then "t" else "s")
    (Services.init Unit ℤ fun _ => (1 : ℤ)) [.start () "a" 0 1,.child () "b" 0 0 2,.clear (),.finish 1 3,.finish 0 4]).tracers ()).spans :=
  ((finished_spans_recorded (fun _ : Unit => (1 : ℤ)) [.start () "a" 0 1,.child () "b" 0 0 2] [.finish 1 3] [.finish 0 4] ()
    (by simp)).2.2 0).mpr ⟨_,rfl,rfl,rfl,Option.some_ne_none 4,fun _ hold => Option.some.inj hold ▸ rfl⟩

end DistributedSystems.Tracing
