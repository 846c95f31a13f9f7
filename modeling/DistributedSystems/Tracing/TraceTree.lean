import DistributedSystems.Tracing.Tracer
import Mathlib.Algebra.Ring.Int.Defs

/-! # Traces are trees

Each trace has one root, under which all its spans are, whichever services made them. The
decision to sample is the one of the root, so a trace is recorded as a whole or not at all.
-/
namespace DistributedSystems.Tracing
open Runs

/-- The span at `i` was started under the one at `p`. -/
def ChildOf (contexts : List SpanContext) (i p : ℕ) : Prop :=
  ∃ c c', contexts[i]? = some c ∧ contexts[p]? = some c' ∧ c.parentId = some c'.spanId

/-- A list of contexts as the tracers make them: what a span has of its parent, and which names
are new. -/
structure Woven (contexts : List SpanContext) : Prop where
  named : ∀ c ∈ contexts, c.traceId ≠ "" ∧ c.spanId ≠ ""
  unique : ∀ (i j : ℕ) c c', contexts[i]? = some c → contexts[j]? = some c' → c.spanId = c'.spanId → i = j
  parent : ∀ (i : ℕ) c, contexts[i]? = some c → ∀ id, c.parentId = some id → ∃ p < i, ∃ c', contexts[p]? = some c' ∧
    c'.spanId = id ∧ c'.traceId = c.traceId ∧ c'.sampled = c.sampled
  roots : ∀ (i j : ℕ) c c', contexts[i]? = some c → contexts[j]? = some c' → c.parentId = none → c'.parentId = none →
    c.traceId = c'.traceId → i = j

namespace Woven
variable {contexts : List SpanContext}

/-- Parents come earlier, so every span is under a root of its trace. -/
theorem exists_root (h : Woven contexts) {i : ℕ} {c : SpanContext} (hc : contexts[i]? = some c) :
    ∃ r root, contexts[r]? = some root ∧ root.parentId = none ∧ root.traceId = c.traceId ∧ root.sampled = c.sampled ∧
      Relation.ReflTransGen (ChildOf contexts) i r := by
  induction i using Nat.strong_induction_on generalizing c with
  | _ i ih =>
    cases hparent : c.parentId with
    | none => exact ⟨i,c,hc,hparent,rfl,rfl,Relation.ReflTransGen.refl⟩
    | some id =>
      obtain ⟨p,hlt,c',hc',hid,htrace,hsampled⟩ := h.parent i c hc id hparent
      obtain ⟨r,root,hroot,hnone,htrace',hsampled',hup⟩ := ih p hlt hc'
      refine ⟨r,root,hroot,hnone,htrace'.trans htrace,hsampled'.trans hsampled,?_⟩
      exact Relation.ReflTransGen.head ⟨c,c',hc,hc',by rw [hid]; exact hparent⟩ hup

/-- A new context, of a new span of an old trace or of a new trace. -/
theorem append (h : Woven contexts) {c : SpanContext} (hnamed : c.traceId ≠ "" ∧ c.spanId ≠ "")
    (hnew : ∀ c' ∈ contexts, c'.spanId ≠ c.spanId)
    (hparent : (c.parentId = none ∧ ∀ c' ∈ contexts, c'.traceId ≠ c.traceId) ∨
      ∃ c' ∈ contexts, c.parentId = some c'.spanId ∧ c'.traceId = c.traceId ∧ c'.sampled = c.sampled) :
    Woven (contexts ++ [c]) := by
  have hget : ∀ {i : ℕ} {d : SpanContext}, (contexts ++ [c])[i]? = some d →
      contexts[i]? = some d ∨ (i = contexts.length ∧ d = c) := by
    intro i d hd
    rcases lt_or_ge i contexts.length with hi | hi
    · rw [List.getElem?_append_left hi] at hd
      exact Or.inl hd
    · rw [List.getElem?_append_right hi,List.getElem?_singleton] at hd
      split at hd
      · exact Or.inr ⟨by omega,(Option.some.inj hd).symm⟩
      · cases hd
  have hold : ∀ {i : ℕ} {d : SpanContext}, contexts[i]? = some d → (contexts ++ [c])[i]? = some d := by
    intro i d hd
    rw [List.getElem?_append_left (List.getElem?_eq_some_iff.mp hd).1,hd]
  constructor
  · intro d hd
    rcases List.mem_append.mp hd with hd | hd
    · exact h.named d hd
    · rwa [List.mem_singleton.mp hd]
  · intro i j d d' hd hd' heq
    rcases hget hd with hd₀ | ⟨rfl,rfl⟩ <;> rcases hget hd' with hd₀' | ⟨rfl,rfl⟩
    · exact h.unique i j d d' hd₀ hd₀' heq
    · exact absurd heq (hnew d (List.mem_of_getElem? hd₀))
    · exact absurd heq.symm (hnew d' (List.mem_of_getElem? hd₀'))
    · rfl
  · intro i d hd id hid
    rcases hget hd with hd | ⟨rfl,rfl⟩
    · obtain ⟨p,hlt,c',hc',hrest⟩ := h.parent i d hd id hid
      exact ⟨p,hlt,c',hold hc',hrest⟩
    · rcases hparent with ⟨hnone,-⟩ | ⟨c',hc',hsome,htrace,hsampled⟩
      · rw [hnone] at hid
        cases hid
      · obtain ⟨p,hp⟩ := List.getElem?_of_mem hc'
        exact ⟨p,(List.getElem?_eq_some_iff.mp hp).1,c',hold hp,Option.some.inj (hsome.symm.trans hid),htrace,hsampled⟩
  · intro i j d d' hd hd' hnone hnone' heq
    rcases hget hd with hd₀ | ⟨rfl,rfl⟩ <;> rcases hget hd' with hd₀' | ⟨rfl,rfl⟩
    · exact h.roots i j d d' hd₀ hd₀' hnone hnone' heq
    · rcases hparent with ⟨-,hfresh⟩ | ⟨c',-,hsome,-⟩
      · exact absurd heq (hfresh d (List.mem_of_getElem? hd₀))
      · rw [hsome] at hnone'
        cases hnone'
    · rcases hparent with ⟨-,hfresh⟩ | ⟨c',-,hsome,-⟩
      · exact absurd heq.symm (hfresh d' (List.mem_of_getElem? hd₀'))
      · rw [hsome] at hnone
        cases hnone
    · rfl

end Woven

variable {ι R T : Type} [DecidableEq ι] [LinearOrder R] [One R] {uuid : ℕ → String}

/-- Names of traces and spans come from different calls, and headers carry the context of a span. -/
structure Services.Sound (uuid : ℕ → String) (s : Services ι R T) : Prop where
  woven : Woven s.contexts
  used : ∀ c ∈ s.contexts, (∃ k < s.calls, c.traceId = uuid k) ∧ ∃ k < s.calls, c.spanId = uuid k
  carriers : ∀ carrier ∈ s.carriers, ∃ c ∈ s.contexts, Tracer.extract carrier = some { c with parentId := none }

namespace Services.Sound
variable {s : Services ι R T}

omit [DecidableEq ι] [LinearOrder R] [One R] in
theorem init (samplingRate : ι → R) : (Services.init ι T samplingRate).Sound uuid where
  woven := ⟨fun _ hc => absurd hc List.not_mem_nil,fun _ _ _ _ hc => (nomatch hc),fun _ _ hc => (nomatch hc),
    fun _ _ _ _ hc => (nomatch hc)⟩
  used _ hc := absurd hc List.not_mem_nil
  carriers _ hc := absurd hc List.not_mem_nil

omit [DecidableEq ι] [LinearOrder R] [One R] in
/-- Nothing new is known of spans and headers. -/
theorem keep (h : s.Sound uuid) {s' : Services ι R T} (hcontexts : s'.contexts = s.contexts)
    (hcarriers : s'.carriers = s.carriers) (hcalls : s'.calls = s.calls) : s'.Sound uuid := by
  obtain ⟨hwoven,hused,hheaders⟩ := h
  refine ⟨?_,?_,?_⟩
  · rwa [hcontexts]
  · rwa [hcontexts,hcalls]
  · rwa [hcontexts,hcarriers]

omit [DecidableEq ι] [LinearOrder R] [One R] in
/-- One more span, under a name of its own. -/
theorem add (huuid : Function.Injective uuid) (h : s.Sound uuid) {s' : Services ι R T} {c : SpanContext}
    (hcontexts : s'.contexts = s.contexts ++ [c]) (hcarriers : s'.carriers = s.carriers) {k : ℕ} (hk : s.calls ≤ k)
    (hk' : k < s'.calls) (hspan : c.spanId = uuid k) (hnamed : c.traceId ≠ "" ∧ c.spanId ≠ "")
    (htrace : ∃ m < s'.calls, c.traceId = uuid m)
    (hparent : (c.parentId = none ∧ ∃ m ≥ s.calls, c.traceId = uuid m) ∨
      ∃ c' ∈ s.contexts, c.parentId = some c'.spanId ∧ c'.traceId = c.traceId ∧ c'.sampled = c.sampled) :
    s'.Sound uuid := by
  have hcalls : s.calls ≤ s'.calls := hk.trans hk'.le
  constructor
  · rw [hcontexts]
    refine h.woven.append hnamed (fun c' hc' => ?_) (hparent.imp_left fun ⟨hnone,m,hm,htrace⟩ => ⟨hnone,fun c' hc' => ?_⟩)
    · obtain ⟨-,m,hm,hname⟩ := h.used c' hc'
      rw [hname,hspan]
      exact fun heq => absurd (huuid heq) (hm.trans_le hk).ne
    · obtain ⟨⟨n,hn,hname⟩,-⟩ := h.used c' hc'
      rw [hname,htrace]
      exact fun heq => absurd (huuid heq) (hn.trans_le hm).ne
  · rw [hcontexts]
    intro c' hc'
    rcases List.mem_append.mp hc' with hc' | hc'
    · obtain ⟨⟨m,hm,hm'⟩,n,hn,hn'⟩ := h.used c' hc'
      exact ⟨⟨m,hm.trans_le hcalls,hm'⟩,n,hn.trans_le hcalls,hn'⟩
    · rw [List.mem_singleton.mp hc']
      exact ⟨htrace,k,hk',hspan⟩
  · rw [hcontexts,hcarriers]
    intro carrier hcarrier
    obtain ⟨c',hc',hextract⟩ := h.carriers carrier hcarrier
    exact ⟨c',List.mem_append_left _ hc',hextract⟩

omit [DecidableEq ι] in
theorem startSpan (huuid : Function.Injective uuid) (hname : ∀ k, uuid k ≠ "") (h : s.Sound uuid) (t : ι)
    (operationName : String) (random : R) (now : T) {parent parentContext : Option SpanContext}
    (hparent : ∀ c, parent = some c ∨ parentContext = some c →
      ∃ c' ∈ s.contexts, c'.traceId = c.traceId ∧ c'.spanId = c.spanId ∧ c'.sampled = c.sampled) :
    (s.startSpan uuid t operationName random now parent parentContext).Sound uuid := by
  have hcontexts := s.contexts_startSpan uuid t operationName random now parent parentContext
  have hcalls : (s.startSpan uuid t operationName random now parent parentContext).calls =
      ((s.tracers t).startSpan uuid s.calls random parent parentContext).2 := rfl
  have hnamed : ∀ c, parent = some c ∨ parentContext = some c → c.traceId ≠ "" := by
    intro c hc
    obtain ⟨c',hc',htrace,-,-⟩ := hparent c hc
    rw [← htrace]
    exact (h.woven.named c' hc').1
  rcases (s.tracers t).startSpan_cases uuid s.calls random hnamed with ⟨c,hc,hstart⟩ | ⟨sampled,hstart⟩
  · obtain ⟨c',hc',htrace,hspan,hsampled⟩ := hparent c hc
    obtain ⟨⟨m,hm,hused⟩,-⟩ := h.used c' hc'
    rw [hstart] at hcontexts hcalls
    refine h.add huuid hcontexts rfl (le_refl _) (by omega) rfl ⟨hnamed c hc,hname _⟩
      ⟨m,by omega,htrace.symm.trans hused⟩ (Or.inr ⟨c',hc',?_,htrace,hsampled⟩)
    exact congrArg some hspan.symm
  · rw [hstart] at hcontexts hcalls
    exact h.add huuid hcontexts rfl (Nat.le_succ _) (by omega) rfl ⟨hname _,hname _⟩ ⟨s.calls,by omega,rfl⟩
      (Or.inl ⟨rfl,s.calls,le_refl _,rfl⟩)

theorem step (huuid : Function.Injective uuid) (hname : ∀ k, uuid k ≠ "") (h : s.Sound uuid) (a : TraceAction ι R T) :
    (s.step uuid a).Sound uuid := by
  have hmem : ∀ {k : ℕ} {span : Span ι T}, s.spans[k]? = some span → span.context ∈ s.contexts :=
    fun hk => List.mem_map_of_mem (List.mem_of_getElem? hk)
  have hnone : ∀ c : SpanContext, none = some c ∨ none = some c →
      ∃ c' ∈ s.contexts, c'.traceId = c.traceId ∧ c'.spanId = c.spanId ∧ c'.sampled = c.sampled := by
    rintro c (hc | hc) <;> cases hc
  cases a with
  | start t operationName random now => exact h.startSpan huuid hname t operationName random now hnone
  | child t operationName parent random now =>
    simp only [Services.step]
    cases hk : s.spans[parent]? with
    | none => exact h
    | some p =>
      refine h.startSpan huuid hname t operationName random now fun c hc => ?_
      rcases hc with hc | hc
      · cases hc
        exact ⟨p.context,hmem hk,rfl,rfl,rfl⟩
      · cases hc
  | join t operationName carrier random now =>
    simp only [Services.step]
    cases hk : s.carriers[carrier]? with
    | none => exact h
    | some headers =>
      obtain ⟨c',hc',hextract⟩ := h.carriers headers (List.mem_of_getElem? hk)
      refine h.startSpan huuid hname t operationName random now fun c hc => ?_
      rw [hextract] at hc
      rcases hc with hc | hc
      · cases hc
      · cases hc
        exact ⟨c',hc',rfl,rfl,rfl⟩
  | inject span carrier =>
    simp only [Services.step]
    cases hk : s.spans[span]? with
    | none => exact h
    | some p =>
      refine ⟨h.woven,h.used,fun headers hheaders => ?_⟩
      rcases List.mem_append.mp hheaders with hheaders | hheaders
      · exact h.carriers headers hheaders
      · obtain ⟨htrace,hspan⟩ := h.woven.named p.context (hmem hk)
        rw [List.mem_singleton.mp hheaders]
        exact ⟨p.context,hmem hk,Tracer.extract_inject htrace hspan carrier⟩
  | finish span now =>
    simp only [Services.step]
    cases hk : s.spans[span]? with
    | none => exact h
    | some p =>
      obtain ⟨hcarriers,hcalls⟩ := s.finish_carriers span p now
      exact h.keep (s.contexts_finish hk now) hcarriers hcalls
  | clear t => exact h.keep rfl rfl rfl

end Services.Sound

/-- Every span is under exactly one root of its trace, and shares its decision to sample. -/
theorem trace_tree (huuid : Function.Injective uuid) (hname : ∀ k, uuid k ≠ "") (samplingRate : ι → R)
    (schedule : List (TraceAction ι R T)) {i : ℕ} {c : SpanContext}
    (hc : (run (Services.step uuid) (Services.init ι T samplingRate) schedule).contexts[i]? = some c) :
    let contexts := (run (Services.step uuid) (Services.init ι T samplingRate) schedule).contexts
    ∃ r root, contexts[r]? = some root ∧ root.parentId = none ∧ root.traceId = c.traceId ∧ root.sampled = c.sampled ∧
      Relation.ReflTransGen (ChildOf contexts) i r ∧ ∀ (r' : ℕ) root', contexts[r']? = some root' → root'.parentId = none →
        root'.traceId = c.traceId → r' = r := by
  intro contexts
  have hsound : (run (Services.step uuid) (Services.init ι T samplingRate) schedule).Sound uuid :=
    run_invariant_of_step (I := fun s : Services ι R T => s.Sound uuid) (fun _ a h => h.step huuid hname a)
      (Services.Sound.init samplingRate) schedule
  obtain ⟨r,root,hroot,hnone,htrace,hsampled,hup⟩ := hsound.woven.exists_root hc
  refine ⟨r,root,hroot,hnone,htrace,hsampled,hup,fun r' root' hroot' hnone' htrace' => ?_⟩
  exact hsound.woven.roots r' r root' root hroot' hroot hnone' hnone (htrace'.trans htrace.symm)

/-- Names of growing length. -/
def tallyName (k : ℕ) : String := String.ofList (List.replicate (k + 1) 'u')

theorem tallyName_injective : Function.Injective tallyName := by
  intro k l h
  have hlength := congrArg List.length (String.ofList_injective h)
  simpa using hlength

theorem tallyName_ne_empty (k : ℕ) : tallyName k ≠ "" := by
  intro h
  have hlist := String.ofList_injective (h : String.ofList (List.replicate (k + 1) 'u') = String.ofList [])
  simp at hlist

/-- A request between two services, with a span inside the first one. -/
def request : List (TraceAction Bool ℤ ℤ) :=
  [.start false "client" 0 1,.child false "encode" 0 0 2,.inject 1 Dict.empty,.join true "server" 0 0 3,.finish 2 4]

theorem trace_tree_request :
    let contexts := (run (Services.step tallyName) (Services.init Bool ℤ fun _ => (1 : ℤ)) request).contexts
    ∃ r root, contexts[r]? = some root ∧ root.parentId = none ∧ root.traceId = tallyName 0 ∧ root.sampled = true ∧
      Relation.ReflTransGen (ChildOf contexts) 2 r ∧ ∀ (r' : ℕ) root', contexts[r']? = some root' → root'.parentId = none →
        root'.traceId = tallyName 0 → r' = r :=
  trace_tree tallyName_injective tallyName_ne_empty (fun _ => 1) request
    (i := 2) (c := ⟨tallyName 0,tallyName 3,some (tallyName 2),true⟩) (by decide)

end DistributedSystems.Tracing
