import DistributedSystems.Locks.DistributedLock
import DistributedSystems.Protocol.Runs
import Mathlib.Algebra.GroupWithZero.Nat
import Mathlib.Data.Nat.Basic
import Mathlib.Order.Basic

/-! # Fencing tokens

`acquire_with_token` acquires the lock, generates a token, writes it to the field of its
wrapper and returns that field, each in a step of its own. The counter of tokens belongs to
the class, the field to the wrapper, and neither to the lock.
-/
namespace DistributedSystems.Locks
open Runs

/-- What a call of `acquire_with_token` does next. The position is that of its acquire among
all successful ones. -/
inductive FencedStage (T : Type)
  | acquire (call : Acquire T)
  | generate (position : ℕ)
  | store (position value : ℕ)
  | fetch (position : ℕ)

structure PendingFenced (T : Type) where
  client : ℕ
  wrapper : ℕ
  stage : FencedStage T

/-- What a call has returned after its acquire at a position. -/
structure FencedResult where
  client : ℕ
  position : ℕ
  token : Option ℕ
  deriving DecidableEq

/-- A token and the position of the acquire that it was generated after. -/
structure Generated where
  value : ℕ
  position : ℕ
  deriving DecidableEq

/-- `wrappers` holds the field `token` of each `FencedLock`. The holds of the successful
acquires, the tokens generated after them and the results are histories. -/
structure FencedClients (T : Type) where
  lock : DistributedLock T
  counter : ℕ
  wrappers : ℕ → Option ℕ
  calls : List (PendingFenced T)
  acquires : List Uuid
  generated : List Generated
  returned : List FencedResult
  drawn : ℕ
  time : T

/-- Tokens may also be generated, and the lock be released and renewed, by anybody else. -/
inductive FencedAction (T : Type)
  | acquireWithToken (client wrapper : ℕ) (named : Bool) (timeoutSec : Option T) (blocking : Bool) (ttlSec : Option T)
  | advance (k : ℕ)
  | generate
  | release (owner : Option Owner) (token : Option Uuid)
  | renew (owner : Option Owner) (ttlSec : Option T)
  | elapse (time : T)

variable {T : Type} [Add T] [Sub T] [Zero T] [LinearOrder T]

namespace FencedClients

def init (ttlSec timeoutSec time : T) : FencedClients T :=
  ⟨.init ttlSec timeoutSec,0,fun _ => none,[],[],[],[],0,time⟩

def acquireWithToken (s : FencedClients T) (client wrapper : ℕ) (owner : Option Owner) (timeoutSec : Option T)
    (blocking : Bool) (ttlSec : Option T) : FencedClients T :=
  { s with
    calls := s.calls ++
      [⟨client,wrapper,.acquire (s.lock.acquire owner timeoutSec blocking ttlSec ⟨client,s.drawn⟩ s.time)⟩]
    drawn := s.drawn + 1 }

/-- The call at position `k` goes on to another stage. -/
def goOn (s : FencedClients T) (k : ℕ) (p : PendingFenced T) (stage : FencedStage T) : FencedClients T :=
  { s with calls := s.calls.set k { p with stage := stage } }

def advance (s : FencedClients T) (k : ℕ) (p : PendingFenced T) : FencedClients T :=
  match p.stage with
  | .acquire call =>
    let r := call.advance s.lock ⟨p.client,s.drawn⟩ s.time
    let s := { s with lock := r.1, drawn := s.drawn + 1 }
    match r.2 with
    | .waits call => s.goOn k p (.acquire call)
    | .returns true => ({ s with acquires := s.acquires ++ s.lock.token.toList } : FencedClients T).goOn k p
        (.generate s.acquires.length)
    | .returns false => { s with calls := s.calls.eraseIdx k }
  | .generate position =>
    ({ s with counter := s.counter + 1, generated := s.generated ++ [⟨s.counter + 1,position⟩] } :
      FencedClients T).goOn k p (.store position (s.counter + 1))
  | .store position value =>
    ({ s with wrappers := Function.update s.wrappers p.wrapper (some value) } : FencedClients T).goOn k p (.fetch position)
  | .fetch position =>
    { s with
      calls := s.calls.eraseIdx k
      returned := s.returned ++ [⟨p.client,position,s.wrappers p.wrapper⟩] }

def step (s : FencedClients T) : FencedAction T → FencedClients T
  | .acquireWithToken client wrapper named timeoutSec blocking ttlSec =>
    s.acquireWithToken client wrapper (if named then some (.named client) else none) timeoutSec blocking ttlSec
  | .advance k =>
    match s.calls[k]? with
    | some p => s.advance k p
    | none => s
  | .generate => { s with counter := s.counter + 1 }
  | .release owner token => { s with lock := s.lock.released owner token }
  | .renew owner ttlSec => { s with lock := (s.lock.renew owner ttlSec s.time).1 }
  | .elapse time => if s.time ≤ time then { s with time := time } else s

/-- One acquire came before the other, and they are different holds. -/
def Precedes (s : FencedClients T) (i j : ℕ) : Prop := i < j ∧ s.acquires[i]? ≠ s.acquires[j]?

instance (s : FencedClients T) (i j : ℕ) : Decidable (s.Precedes i j) := inferInstanceAs (Decidable (_ ∧ _))

/-- No token has been generated for a later hold when one is generated, and what a call finds
in the field of its wrapper was generated for its own hold. -/
def InTime (s : FencedClients T) (wrapper : ℕ) : FencedStage T → Prop
  | .generate position => ∀ g ∈ s.generated, ¬s.Precedes position g.position
  | .fetch position => ∃ g ∈ s.generated, s.wrappers wrapper = some g.value ∧
      s.acquires[g.position]? = s.acquires[position]?
  | _ => True

instance (s : FencedClients T) (wrapper : ℕ) : ∀ stage, Decidable (s.InTime wrapper stage)
  | .generate position => inferInstanceAs (Decidable (∀ g ∈ s.generated, ¬s.Precedes position g.position))
  | .fetch position => inferInstanceAs (Decidable (∃ g ∈ s.generated, s.wrappers wrapper = some g.value ∧
      s.acquires[g.position]? = s.acquires[position]?))
  | .acquire _ | .store .. => isTrue trivial

def Careful (s : FencedClients T) : FencedAction T → Prop
  | .advance k => ∀ p ∈ s.calls[k]?, s.InTime p.wrapper p.stage
  | _ => True

instance (s : FencedClients T) : ∀ a, Decidable (s.Careful a)
  | .advance k => inferInstanceAs (Decidable (∀ p ∈ s.calls[k]?, s.InTime p.wrapper p.stage))
  | .acquireWithToken .. | .generate | .release .. | .renew .. | .elapse _ => isTrue trivial

/-- The token returned for an earlier hold is smaller. -/
def Ordered (s : FencedClients T) : Prop :=
  ∀ r ∈ s.returned, ∀ r' ∈ s.returned, s.Precedes r.position r'.position →
    ∃ v ∈ r.token, ∃ v' ∈ r'.token, v < v'

instance (s : FencedClients T) : Decidable s.Ordered :=
  inferInstanceAs (Decidable (∀ r ∈ s.returned, ∀ r' ∈ s.returned, s.Precedes r.position r'.position →
    ∃ v ∈ r.token, ∃ v' ∈ r'.token, v < v'))

/-- Every pending call knows an acquire that has happened. -/
def Located (s : FencedClients T) : FencedStage T → Prop
  | .acquire _ => True
  | .generate position | .store position _ | .fetch position => position < s.acquires.length

/-- Holds follow each other by the serial numbers of their tokens, no acquire is ahead of the
lock, and fencing tokens follow the holds that they were generated for. -/
structure Numbered (s : FencedClients T) : Prop where
  sorted : s.acquires.Pairwise fun a b => a = b ∨ a.serial < b.serial
  fresh : ∀ a ∈ s.acquires, a.serial < s.drawn
  current : s.lock.owner.isSome → ∃ t, s.lock.token = some t ∧ t.serial < s.drawn ∧
    ∀ a ∈ s.acquires, a = t ∨ a.serial < t.serial
  calls : ∀ p ∈ s.calls, s.Located p.stage
  generated : ∀ g ∈ s.generated, g.value ≤ s.counter ∧ g.position < s.acquires.length
  increasing : ∀ g ∈ s.generated, ∀ g' ∈ s.generated, s.Precedes g.position g'.position → g.value < g'.value
  returned : ∀ r ∈ s.returned, r.position < s.acquires.length ∧
    ∃ g ∈ s.generated, r.token = some g.value ∧ s.acquires[g.position]? = s.acquires[r.position]?

omit [Add T] [Sub T] [LinearOrder T] in
theorem numbered_init (ttlSec timeoutSec time : T) : (init ttlSec timeoutSec time).Numbered where
  sorted := List.Pairwise.nil
  fresh _ h := absurd h List.not_mem_nil
  current h := by simp [init,DistributedLock.init] at h
  calls _ h := absurd h List.not_mem_nil
  generated _ h := absurd h List.not_mem_nil
  increasing _ h := absurd h List.not_mem_nil
  returned _ h := absurd h List.not_mem_nil

omit [Add T] [Sub T] [Zero T] [LinearOrder T] in
/-- Among acquires in order, the different hold that came first is the one with the smaller serial number. -/
theorem Numbered.precedes_iff {s : FencedClients T} (h : s.Numbered) {i j : ℕ} {a b : Uuid}
    (hi : s.acquires[i]? = some a) (hj : s.acquires[j]? = some b) : s.Precedes i j ↔ a.serial < b.serial := by
  unfold Precedes
  rw [hi,hj]
  have hsorted := List.pairwise_iff_getElem.mp h.sorted
  obtain ⟨hilt,rfl⟩ := List.getElem?_eq_some_iff.mp hi
  obtain ⟨hjlt,rfl⟩ := List.getElem?_eq_some_iff.mp hj
  constructor
  · rintro ⟨hij,hne⟩
    exact (hsorted i j hilt hjlt hij).resolve_left fun heq => hne (congrArg some heq)
  · intro hlt
    have hne : i ≠ j := by
      rintro rfl
      exact absurd hlt (lt_irrefl _)
    refine ⟨?_,fun heq => ?_⟩
    · by_contra hge
      rcases hsorted j i hjlt hilt (by omega) with heq | hgt
      · rw [heq] at hlt
        exact absurd hlt (lt_irrefl _)
      · omega
    · rw [Option.some.inj heq] at hlt
      exact absurd hlt (lt_irrefl _)

omit [Add T] [Sub T] [Zero T] [LinearOrder T] in
/-- Tokens of the same hold may be exchanged, those of different holds are in the order of the holds. -/
theorem Numbered.ordered {s : FencedClients T} (h : s.Numbered) : s.Ordered := by
  intro r hr r' hr' hprec
  obtain ⟨hpos,g,hg,htoken,hsame⟩ := h.returned r hr
  obtain ⟨hpos',g',hg',htoken',hsame'⟩ := h.returned r' hr'
  have hi := List.getElem?_eq_getElem hpos
  have hj := List.getElem?_eq_getElem hpos'
  have hserial := (h.precedes_iff hi hj).mp hprec
  refine ⟨g.value,htoken,g'.value,htoken',h.increasing g hg g' hg' ?_⟩
  exact (h.precedes_iff (hsame.trans hi) (hsame'.trans hj)).mpr hserial

omit [Add T] [Sub T] [Zero T] [LinearOrder T] in
theorem Located.mono {s s' : FencedClients T} {stage : FencedStage T} (h : s.Located stage)
    (hle : s.acquires.length ≤ s'.acquires.length) : s'.Located stage := by
  cases stage with
  | acquire => trivial
  | generate => exact lt_of_lt_of_le h hle
  | store => exact lt_of_lt_of_le h hle
  | fetch => exact lt_of_lt_of_le h hle

omit [Add T] [Sub T] [Zero T] [LinearOrder T] in
/-- A step that takes no lock, generates no token and returns none. -/
theorem Numbered.keep {s s' : FencedClients T} (h : s.Numbered) (hacquires : s'.acquires = s.acquires)
    (hgenerated : s'.generated = s.generated) (hreturned : s'.returned = s.returned) (hcounter : s.counter ≤ s'.counter)
    (hdrawn : s.drawn ≤ s'.drawn)
    (hlock : s'.lock.owner.isSome → s.lock.owner.isSome ∧ s'.lock.token = s.lock.token)
    (hcalls : ∀ p ∈ s'.calls, s.Located p.stage) : s'.Numbered := by
  have hprec : ∀ i j, s'.Precedes i j ↔ s.Precedes i j := by simp [Precedes,hacquires]
  constructor
  · rw [hacquires]
    exact h.sorted
  · rw [hacquires]
    exact fun a ha => (h.fresh a ha).trans_le hdrawn
  · intro howner
    obtain ⟨howner,htoken⟩ := hlock howner
    obtain ⟨t,ht,hlt,hahead⟩ := h.current howner
    rw [htoken,hacquires]
    exact ⟨t,ht,hlt.trans_le hdrawn,hahead⟩
  · exact fun p hp => (hcalls p hp).mono (by rw [hacquires])
  · rw [hgenerated,hacquires]
    exact fun g hg => ⟨(h.generated g hg).1.trans hcounter,(h.generated g hg).2⟩
  · rw [hgenerated]
    exact fun g hg g' hg' hp => h.increasing g hg g' hg' ((hprec _ _).mp hp)
  · rw [hreturned,hgenerated,hacquires]
    exact h.returned

omit [Add T] [Sub T] [Zero T] [LinearOrder T] in
/-- What a call leaves behind when it goes on or is done. -/
theorem Numbered.located_set {s : FencedClients T} (h : s.Numbered) {k : ℕ} {p : PendingFenced T}
    (stage : FencedStage T) (hstage : s.Located stage) :
    ∀ q ∈ s.calls.set k { p with stage := stage }, s.Located q.stage := by
  intro q hq
  rcases List.mem_or_eq_of_mem_set hq with hq | rfl
  · exact h.calls q hq
  · exact hstage

omit [Add T] [Sub T] [Zero T] [LinearOrder T] in
theorem Numbered.located_erase {s : FencedClients T} (h : s.Numbered) (k : ℕ) :
    ∀ q ∈ s.calls.eraseIdx k, s.Located q.stage := fun q hq => h.calls q (List.mem_of_mem_eraseIdx hq)

omit [Add T] [Sub T] [Zero T] [LinearOrder T] in
/-- A successful acquire of the hold that the lock is in. -/
theorem Numbered.record {s : FencedClients T} (h : s.Numbered) {t : Uuid} (hlt : t.serial < s.drawn)
    (hahead : ∀ a ∈ s.acquires, a = t ∨ a.serial < t.serial) {s' : FencedClients T}
    (hacquires : s'.acquires = s.acquires ++ [t]) (hgenerated : s'.generated = s.generated)
    (hreturned : s'.returned = s.returned) (hcounter : s'.counter = s.counter) (hdrawn : s.drawn ≤ s'.drawn)
    (htoken : s'.lock.token = some t) (hcalls : ∀ p ∈ s'.calls, s'.Located p.stage) : s'.Numbered := by
  have hlookup : ∀ i < s.acquires.length, s'.acquires[i]? = s.acquires[i]? := by
    intro i hi
    rw [hacquires]
    exact List.getElem?_append_left hi
  have hprec : ∀ i < s.acquires.length, ∀ j < s.acquires.length, s'.Precedes i j → s.Precedes i j := by
    intro i hi j hj
    unfold Precedes
    rw [hlookup i hi,hlookup j hj]
    exact id
  have hlength : s.acquires.length ≤ s'.acquires.length := by simp [hacquires]
  constructor
  · rw [hacquires,List.pairwise_append]
    refine ⟨h.sorted,List.pairwise_singleton _ _,fun a ha b hb => ?_⟩
    rw [List.mem_singleton.mp hb]
    exact hahead a ha
  · intro a ha
    rw [hacquires] at ha
    rcases List.mem_append.mp ha with ha | ha
    · exact (h.fresh a ha).trans_le hdrawn
    · rw [List.mem_singleton.mp ha]
      exact hlt.trans_le hdrawn
  · intro _
    refine ⟨t,htoken,hlt.trans_le hdrawn,fun a ha => ?_⟩
    rw [hacquires] at ha
    rcases List.mem_append.mp ha with ha | ha
    · exact hahead a ha
    · exact Or.inl (List.mem_singleton.mp ha)
  · exact hcalls
  · rw [hgenerated,hcounter]
    exact fun g hg => ⟨(h.generated g hg).1,lt_of_lt_of_le (h.generated g hg).2 hlength⟩
  · rw [hgenerated]
    intro g hg g' hg' hp
    exact h.increasing g hg g' hg' (hprec _ (h.generated g hg).2 _ (h.generated g' hg').2 hp)
  · rw [hreturned,hgenerated]
    intro r hr
    obtain ⟨hpos,g,hg,htoken,hsame⟩ := h.returned r hr
    refine ⟨lt_of_lt_of_le hpos hlength,g,hg,htoken,?_⟩
    rw [hlookup _ hpos,hlookup _ (h.generated g hg).2]
    exact hsame

omit [Add T] [Sub T] [Zero T] [LinearOrder T] in
/-- A new token is the largest, so it has to belong to the latest hold. -/
theorem Numbered.generate {s : FencedClients T} (h : s.Numbered) {k position : ℕ} {p : PendingFenced T}
    (hpos : position < s.acquires.length) (hguard : ∀ g ∈ s.generated, ¬s.Precedes position g.position) :
    (({ s with counter := s.counter + 1, generated := s.generated ++ [⟨s.counter + 1,position⟩] } :
      FencedClients T).goOn k p (.store position (s.counter + 1))).Numbered := by
  have hmem : ∀ g ∈ s.generated, g ∈ s.generated ++ [⟨s.counter + 1,position⟩] :=
    fun g hg => List.mem_append_left _ hg
  refine ⟨h.sorted,h.fresh,h.current,h.located_set (.store position (s.counter + 1)) hpos,?_,?_,?_⟩
  · intro g hg
    rcases List.mem_append.mp hg with hg | hg
    · exact ⟨(h.generated g hg).1.trans (Nat.le_succ _),(h.generated g hg).2⟩
    · cases List.mem_singleton.mp hg
      exact ⟨le_refl _,hpos⟩
  · intro g hg g' hg' hp
    rcases List.mem_append.mp hg with hg | hg
    · rcases List.mem_append.mp hg' with hg' | hg'
      · exact h.increasing g hg g' hg' hp
      · cases List.mem_singleton.mp hg'
        exact Nat.lt_succ_of_le (h.generated g hg).1
    · cases List.mem_singleton.mp hg
      rcases List.mem_append.mp hg' with hg' | hg'
      · exact absurd hp (hguard g' hg')
      · cases List.mem_singleton.mp hg'
        exact absurd hp.1 (lt_irrefl _)
  · intro r hr
    obtain ⟨hrpos,g,hg,hrest⟩ := h.returned r hr
    exact ⟨hrpos,g,hmem g hg,hrest⟩

omit [Add T] [Sub T] [Zero T] [LinearOrder T] in
theorem Numbered.fetch {s : FencedClients T} (h : s.Numbered) {k position : ℕ} {p : PendingFenced T}
    (hpos : position < s.acquires.length)
    (hguard : ∃ g ∈ s.generated, s.wrappers p.wrapper = some g.value ∧
      s.acquires[g.position]? = s.acquires[position]?) :
    ({ s with
        calls := s.calls.eraseIdx k
        returned := s.returned ++ [⟨p.client,position,s.wrappers p.wrapper⟩] } : FencedClients T).Numbered := by
  refine ⟨h.sorted,h.fresh,h.current,h.located_erase k,h.generated,h.increasing,?_⟩
  intro r hr
  rcases List.mem_append.mp hr with hr | hr
  · exact h.returned r hr
  · cases List.mem_singleton.mp hr
    exact ⟨hpos,hguard⟩

omit [Zero T] in
/-- The call of `acquire` inside: a hold that is extended is the latest one, and so is one
that begins. -/
theorem Numbered.acquire {s : FencedClients T} (h : s.Numbered) {k : ℕ} {p : PendingFenced T} {call : Acquire T}
    (hstage : p.stage = .acquire call) : (s.advance k p).Numbered := by
  unfold FencedClients.advance
  rw [hstage]
  dsimp only
  have hadvance := call.advance_advances s.lock ⟨p.client,s.drawn⟩ s.time
  generalize call.advance s.lock ⟨p.client,s.drawn⟩ s.time = r at hadvance
  -- The call now waits to generate a token for the acquire that is appended last.
  have hcalls : ∀ t : Uuid, ∀ q ∈ s.calls.set k { p with stage := .generate s.acquires.length },
      ∀ s' : FencedClients T, s'.acquires = s.acquires ++ [t] → s'.Located q.stage := by
    intro t q hq s' hs'
    have hlength : s'.acquires.length = s.acquires.length + 1 := by simp [hs']
    rcases List.mem_or_eq_of_mem_set hq with hq | rfl
    · exact (h.calls q hq).mono (by omega)
    · change s.acquires.length < s'.acquires.length
      omega
  cases hadvance with
  | waits failed =>
    refine h.keep rfl rfl rfl (le_refl _) (Nat.le_succ _) (fun ho => ⟨ho,rfl⟩) ?_
    exact h.located_set (.acquire { call with failed := failed }) trivial
  | gaveUp =>
    exact h.keep rfl rfl rfl (le_refl _) (Nat.le_succ _) (fun ho => ⟨ho,rfl⟩) (h.located_erase k)
  | extended howner _ =>
    obtain ⟨t,ht,hlt,hahead⟩ := h.current (by simp [howner])
    have hacquires : s.acquires ++ s.lock.token.toList = s.acquires ++ [t] := by simp [ht]
    refine h.record hlt hahead hacquires rfl rfl rfl (Nat.le_succ _) ht ?_
    exact fun q hq => hcalls t q hq _ hacquires
  | taken _ =>
    have hnext : ({ s with drawn := s.drawn + 1 } : FencedClients T).Numbered :=
      h.keep rfl rfl rfl (le_refl _) (Nat.le_succ _) (fun ho => ⟨ho,rfl⟩) h.calls
    refine hnext.record (t := ⟨p.client,s.drawn⟩) (Nat.lt_succ_self _) (fun a ha => Or.inr (h.fresh a ha)) rfl rfl rfl rfl
      (le_refl _) rfl ?_
    exact fun q hq => hcalls _ q hq _ rfl

omit [Zero T] in
theorem Numbered.advance {s : FencedClients T} (h : s.Numbered) {k : ℕ} {p : PendingFenced T}
    (hp : s.calls[k]? = some p) (hguard : s.InTime p.wrapper p.stage) : (s.advance k p).Numbered := by
  have hlocated := h.calls p (List.mem_of_getElem? hp)
  cases hstage : p.stage with
  | acquire call => exact h.acquire hstage
  | generate position =>
    rw [hstage] at hlocated hguard
    unfold FencedClients.advance
    rw [hstage]
    exact h.generate hlocated hguard
  | store position value =>
    rw [hstage] at hlocated
    unfold FencedClients.advance
    rw [hstage]
    refine h.keep rfl rfl rfl (le_refl _) (le_refl _) (fun ho => ⟨ho,rfl⟩) ?_
    exact h.located_set (.fetch position) hlocated
  | fetch position =>
    rw [hstage] at hlocated hguard
    unfold FencedClients.advance
    rw [hstage]
    exact h.fetch hlocated hguard

theorem Numbered.step {s : FencedClients T} (h : s.Numbered) {a : FencedAction T} (hguard : s.Careful a) :
    (s.step a).Numbered := by
  cases a with
  | acquireWithToken client wrapper named timeoutSec blocking ttlSec =>
    refine h.keep rfl rfl rfl (le_refl _) (Nat.le_succ _) (fun ho => ⟨ho,rfl⟩) ?_
    intro p hp
    rcases List.mem_append.mp hp with hp | hp
    · exact h.calls p hp
    · cases List.mem_singleton.mp hp
      trivial
  | advance k =>
    unfold FencedClients.step
    dsimp only
    split
    · rename_i p hp
      exact h.advance hp (hguard p hp)
    · exact h
  | generate => exact h.keep rfl rfl rfl (Nat.le_succ _) (le_refl _) (fun ho => ⟨ho,rfl⟩) h.calls
  | release owner token =>
    refine h.keep rfl rfl rfl (le_refl _) (le_refl _) ?_ h.calls
    change (s.lock.released owner token).owner.isSome → _
    rcases s.lock.released_cases owner token with hr | ⟨-,-,hr⟩
    · rw [hr]
      exact fun ho => ⟨ho,congrArg DistributedLock.token hr⟩
    · rw [hr]
      exact fun ho => by cases ho
  | renew owner ttlSec =>
    refine h.keep rfl rfl rfl (le_refl _) (le_refl _) ?_ h.calls
    change (s.lock.renew owner ttlSec s.time).1.owner.isSome → _ ∧ (s.lock.renew owner ttlSec s.time).1.token = _
    rcases s.lock.renew_cases owner ttlSec s.time with hr | ⟨-,-,hr⟩
    · rw [hr]
      exact fun ho => ⟨ho,rfl⟩
    · rw [hr]
      exact fun ho => ⟨ho,rfl⟩
  | elapse time =>
    unfold FencedClients.step
    dsimp only
    split
    · exact h.keep rfl rfl rfl (le_refl _) (le_refl _) (fun ho => ⟨ho,rfl⟩) h.calls
    · exact h

/-- Where tokens are generated in the order of the holds and no wrapper returns the token of
another hold, fencing tokens are in the order of the holds. -/
theorem fencing_follows_lock (ttlSec timeoutSec time : T) {schedule : List (FencedAction T)}
    (hguard : Along step Careful (init ttlSec timeoutSec time) schedule) :
    (run step (init ttlSec timeoutSec time) schedule).Ordered :=
  (run_invariant (I := Numbered) (fun _ _ hs ha => hs.step ha) (numbered_init ttlSec timeoutSec time) hguard).ordered

/-- The hold of client 0 expires after its token has been generated; client 1 uses the same wrapper. -/
theorem fencing_follows_lock_expired :
    (run step (init 5 5 0) [.acquireWithToken 0 0 true none true none,.advance 0,.advance 0,.advance 0,.advance 0,
      .elapse 5,.acquireWithToken 1 0 true none true none,.advance 0,.advance 0,.advance 0,.advance 0] :
      FencedClients ℕ).Ordered :=
  fencing_follows_lock 5 5 0 (by decide)

/-- Client 0 pauses between its acquire and its token, and client 1 gets the smaller one. -/
theorem later_hold_smaller_token :
    ¬∀ schedule : List (FencedAction ℕ), (run step (init 5 5 0) schedule).Ordered := by
  intro h
  exact absurd (h [.acquireWithToken 0 0 true none true none,.advance 0,.elapse 5,
    .acquireWithToken 1 1 true none true none,.advance 1,.advance 1,.advance 1,.advance 1,.advance 0,.advance 0,
    .advance 0]) (by decide)

end FencedClients

end DistributedSystems.Locks
