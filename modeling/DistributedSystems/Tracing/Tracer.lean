import DistributedSystems.Protocol.Dict
import DistributedSystems.Protocol.Runs
import Mathlib.Logic.Function.Basic

/-! # Distributed tracing

Spans are objects: they are numbered as they are made, and tracers keep references to those
that are finished. Contexts travel in headers. `uuid k` is what the `k`-th call of `uuid4` gives.
-/
namespace DistributedSystems.Tracing
open Runs

structure SpanContext where
  traceId : String
  spanId : String
  parentId : Option String
  sampled : Bool
  deriving DecidableEq

structure Span (ι T : Type) where
  tracer : ι
  operationName : String
  context : SpanContext
  startTime : T
  endTime : Option T

structure Tracer (R : Type) where
  samplingRate : R
  spans : List ℕ

variable {ι R T : Type} [DecidableEq ι] [LinearOrder R] [One R]

namespace Tracer

/-- The context of a new span and the number of calls of `uuid4` afterwards. Only a span without
a trace makes a decision of its own. -/
def startSpan (t : Tracer R) (uuid : ℕ → String) (calls : ℕ) (random : R) (parent parentContext : Option SpanContext) :
    SpanContext × ℕ :=
  let (traceId,parentId,sampled) :=
    match parent,parentContext with
    | some p,_ => (p.traceId,some p.spanId,p.sampled)
    | none,some c => (c.traceId,some c.spanId,c.sampled)
    | none,none => ("",none,true)
  if traceId = "" then
    (⟨uuid calls,uuid (calls + 1),parentId,!(decide (t.samplingRate < 1) && decide (t.samplingRate < random))⟩,calls + 2)
  else (⟨traceId,uuid calls,parentId,sampled⟩,calls + 1)

/-- A span goes on with the trace of its parent, or begins one. -/
theorem startSpan_cases (t : Tracer R) (uuid : ℕ → String) (calls : ℕ) (random : R) {parent parentContext : Option SpanContext}
    (hnamed : ∀ c, parent = some c ∨ parentContext = some c → c.traceId ≠ "") :
    (∃ c, (parent = some c ∨ parentContext = some c) ∧ t.startSpan uuid calls random parent parentContext =
      (⟨c.traceId,uuid calls,some c.spanId,c.sampled⟩,calls + 1)) ∨
    ∃ sampled, t.startSpan uuid calls random parent parentContext =
      (⟨uuid calls,uuid (calls + 1),none,sampled⟩,calls + 2) := by
  cases parent with
  | some c =>
    have hc := hnamed c (Or.inl rfl)
    exact Or.inl ⟨c,Or.inl rfl,by simp [startSpan,hc]⟩
  | none =>
    cases parentContext with
    | some c =>
      have hc := hnamed c (Or.inr rfl)
      exact Or.inl ⟨c,Or.inr rfl,by simp [startSpan,hc]⟩
    | none =>
      exact Or.inr ⟨!(decide (t.samplingRate < 1) && decide (t.samplingRate < random)),by simp [startSpan]⟩

def extract (carrier : Dict String String) : Option SpanContext :=
  let sampledStr := carrier.get? "x-trace-sampled"
  let sampled := !(decide (sampledStr = some "0") || decide (sampledStr = some "false"))
  match carrier.get? "x-trace-id",carrier.get? "x-span-id" with
  | some traceId,some spanId => if traceId ≠ "" ∧ spanId ≠ "" then some ⟨traceId,spanId,none,sampled⟩ else none
  | _,_ => none

def inject (context : SpanContext) (carrier : Dict String String) : Dict String String :=
  ((carrier.insert "x-trace-id" context.traceId).insert "x-span-id" context.spanId).insert "x-trace-sampled"
    (if context.sampled then "1" else "0")

/-- What is extracted is what was injected, but for the parent. -/
theorem extract_inject {context : SpanContext} (htrace : context.traceId ≠ "") (hspan : context.spanId ≠ "")
    (carrier : Dict String String) : extract (inject context carrier) = some { context with parentId := none } := by
  unfold extract inject
  simp only [Dict.get?_insert]
  cases hsampled : context.sampled <;> simp [htrace,hspan]

end Tracer

/-- The tracers of all services, all spans so far, and the headers that were sent. -/
structure Services (ι R T : Type) where
  tracers : ι → Tracer R
  spans : List (Span ι T)
  carriers : List (Dict String String)
  calls : ℕ

/-- `child` starts a span under one of the same process, `join` under the context of headers.
Headers have other entries too. -/
inductive TraceAction (ι R T : Type)
  | start (t : ι) (operationName : String) (random : R) (now : T)
  | child (t : ι) (operationName : String) (parent : ℕ) (random : R) (now : T)
  | join (t : ι) (operationName : String) (carrier : ℕ) (random : R) (now : T)
  | inject (span : ℕ) (carrier : Dict String String)
  | finish (span : ℕ) (now : T)
  | clear (t : ι)

namespace Services

def init (ι T : Type) (samplingRate : ι → R) : Services ι R T := ⟨fun t => ⟨samplingRate t,[]⟩,[],[],0⟩

def startSpan (s : Services ι R T) (uuid : ℕ → String) (t : ι) (operationName : String) (random : R) (now : T)
    (parent parentContext : Option SpanContext) : Services ι R T :=
  let (context,calls) := (s.tracers t).startSpan uuid s.calls random parent parentContext
  { s with
    spans := s.spans ++ [⟨t,operationName,context,now,none⟩]
    calls := calls }

/-- `finish` of a span, which happens once, and `record` of its tracer. -/
def finish (s : Services ι R T) (k : ℕ) (span : Span ι T) (now : T) : Services ι R T :=
  match span.endTime with
  | some _ => s
  | none =>
    let t := s.tracers span.tracer
    { s with
      spans := s.spans.set k { span with endTime := some now }
      tracers := Function.update s.tracers span.tracer
        (if span.context.sampled then { t with spans := t.spans ++ [k] } else t) }

def step (uuid : ℕ → String) (s : Services ι R T) : TraceAction ι R T → Services ι R T
  | .start t operationName random now => s.startSpan uuid t operationName random now none none
  | .child t operationName parent random now =>
    match s.spans[parent]? with
    | none => s
    | some p => s.startSpan uuid t operationName random now (some p.context) none
  | .join t operationName carrier random now =>
    match s.carriers[carrier]? with
    | none => s
    | some c => s.startSpan uuid t operationName random now none (Tracer.extract c)
  | .inject span carrier =>
    match s.spans[span]? with
    | none => s
    | some p => { s with carriers := s.carriers ++ [Tracer.inject p.context carrier] }
  | .finish span now =>
    match s.spans[span]? with
    | none => s
    | some p => s.finish span p now
  | .clear t => { s with tracers := Function.update s.tracers t { s.tracers t with spans := [] } }

/-- The contexts of all spans so far. -/
def contexts (s : Services ι R T) : List SpanContext := s.spans.map Span.context

omit [DecidableEq ι] in
theorem contexts_startSpan (s : Services ι R T) (uuid : ℕ → String) (t : ι) (operationName : String) (random : R) (now : T)
    (parent parentContext : Option SpanContext) : (s.startSpan uuid t operationName random now parent parentContext).contexts =
      s.contexts ++ [((s.tracers t).startSpan uuid s.calls random parent parentContext).1] := by
  simp [contexts,startSpan]

omit [LinearOrder R] [One R] in
theorem finish_of_some (s : Services ι R T) (k : ℕ) {span : Span ι T} {ended : T} (h : span.endTime = some ended) (now : T) :
    s.finish k span now = s := by
  simp only [finish,h]

omit [LinearOrder R] [One R] in
theorem finish_of_none (s : Services ι R T) (k : ℕ) {span : Span ι T} (h : span.endTime = none) (now : T) :
    s.finish k span now = { s with
      spans := s.spans.set k { span with endTime := some now }
      tracers := Function.update s.tracers span.tracer
        (if span.context.sampled then { s.tracers span.tracer with spans := (s.tracers span.tracer).spans ++ [k] }
          else s.tracers span.tracer) } := by
  simp only [finish,h]

omit [LinearOrder R] [One R] in
theorem finish_carriers (s : Services ι R T) (k : ℕ) (span : Span ι T) (now : T) :
    (s.finish k span now).carriers = s.carriers ∧ (s.finish k span now).calls = s.calls := by
  cases h : span.endTime with
  | none => rw [s.finish_of_none k h]; exact ⟨rfl,rfl⟩
  | some ended => rw [s.finish_of_some k h]; exact ⟨rfl,rfl⟩

omit [LinearOrder R] [One R] in
theorem contexts_finish (s : Services ι R T) {k : ℕ} {span : Span ι T} (hk : s.spans[k]? = some span) (now : T) :
    (s.finish k span now).contexts = s.contexts := by
  cases h : span.endTime with
  | some ended => rw [s.finish_of_some k h]
  | none =>
    rw [s.finish_of_none k h]
    refine List.ext_getElem? fun j => ?_
    simp only [contexts,List.getElem?_map,List.getElem?_set]
    split
    · rename_i hj
      subst hj
      rw [if_pos (List.getElem?_eq_some_iff.mp hk).1,hk]
      rfl
    · rfl

end Services

end DistributedSystems.Tracing
