import DistributedSystems.Locks.Redlock
import DistributedSystems.Protocol.Runs
import Mathlib.Algebra.Order.Floor.Ring
import Mathlib.Data.Finset.Dedup
import Mathlib.Tactic.Abel

/-! # Redlock is exclusive

The keys of an attempt are set after its start, so they outlive the time to live that is
counted from the start. A token is given up before anybody deletes its keys, and an attempt
whose token is `None` is granted nothing. So a win keeps its keys on more than half of the
servers until its end.
-/
namespace DistributedSystems.Locks
open Runs

def RedlockConfig.server {T : Type} (cfg : RedlockConfig T) (i : ℕ) : ℕ := cfg.servers.getD i 0

namespace RedlockCluster
variable {T : Type} [Ring T] [LinearOrder T] [IsStrictOrderedRing T] {cfg : RedlockConfig T}

/-- The token is at different positions until the end. -/
structure Granted (cfg : RedlockConfig T) (s : RedlockCluster T) (token : Uuid) (positions : List ℕ) (finish : T) :
    Prop where
  nodup : positions.Nodup
  lt : ∀ i ∈ positions, i < cfg.servers.length
  holds : ∀ i ∈ positions, s.stores.Holds s.time (cfg.server i) token finish

/-- A win has its own token, which is not given up, on a majority of the servers. -/
def Won (cfg : RedlockConfig T) (s : RedlockCluster T) (w : RedlockWin T) : Prop :=
  ∃ token, w.token = some token ∧ token.client = w.client ∧ token.serial < s.drawn ∧ token ∉ s.revoked ∧
    ∃ positions : List ℕ, cfg.quorum ≤ positions.length ∧
      s.Granted cfg token positions (cfg.finish w.client w.startTime)

/-- An attempt uses a token that nobody has won with or given up, or none. -/
structure Attempting (cfg : RedlockConfig T) (s : RedlockCluster T) (client : ℕ) (startTime : ℤ) (granted : List ℕ)
    (k : ℕ) : Prop where
  start : (startTime : T) ≤ s.time + cfg.offset client
  before : ∀ i ∈ granted, i < k
  empty : (s.clients client).token = none → granted = []
  token : ∀ token, (s.clients client).token = some token → token ∉ s.revoked ∧ (∀ w ∈ s.wins, w.token ≠ some token) ∧
    s.Granted cfg token granted (cfg.finish client startTime)

/-- A client that releases has given up its token, and has none before it retries. -/
def Fits (cfg : RedlockConfig T) (s : RedlockCluster T) (client : ℕ) : Prop :=
  match (s.clients client).phase with
  | .setting _ startTime granted k => s.Attempting cfg client startTime granted k
  | .releasing _ _ => ∀ token, (s.clients client).token = some token → token ∈ s.revoked
  | .sleeping _ => (s.clients client).token = none
  | .idle => True

omit [IsStrictOrderedRing T] in
theorem fits_setting {s : RedlockCluster T} {client attempt k : ℕ} {startTime : ℤ} {granted : List ℕ}
    (h : (s.clients client).phase = .setting attempt startTime granted k) :
    s.Fits cfg client ↔ s.Attempting cfg client startTime granted k := by
  unfold Fits
  rw [h]

omit [IsStrictOrderedRing T] in
theorem fits_releasing {s : RedlockCluster T} {client k : ℕ} {retry : Option ℕ}
    (h : (s.clients client).phase = .releasing retry k) :
    s.Fits cfg client ↔ ∀ token, (s.clients client).token = some token → token ∈ s.revoked := by
  unfold Fits
  rw [h]

structure Sound (cfg : RedlockConfig T) (s : RedlockCluster T) : Prop where
  tokens : ∀ client token, (s.clients client).token = some token → token.client = client ∧ token.serial < s.drawn
  fits : ∀ client, s.Fits cfg client
  revoked : ∀ token ∈ s.revoked, token.serial < s.drawn
  late : ∀ server token, .delete server token ∈ s.late → token ∈ s.revoked
  wins : ∀ w ∈ s.wins, s.Won cfg w
  apart : s.wins.Pairwise fun w w' => cfg.finish w.client w.startTime ≤ w'.returnTime

omit [IsStrictOrderedRing T] in
theorem sound_init (time : T) : (init time).Sound cfg where
  tokens _ _ h := nomatch h
  fits _ := trivial
  revoked _ h := absurd h List.not_mem_nil
  late _ _ h := absurd h List.not_mem_nil
  wins _ h := absurd h List.not_mem_nil
  apart := List.Pairwise.nil

omit [Ring T] [IsStrictOrderedRing T] in
/-- Two majorities share a server. -/
theorem Granted.unique {s : RedlockCluster T} {a b : Uuid} {as bs : List ℕ} {f g : T} (ha : s.Granted cfg a as f)
    (hb : s.Granted cfg b bs g) (has : cfg.quorum ≤ as.length) (hbs : cfg.quorum ≤ bs.length) (hf : s.time < f)
    (hg : s.time < g) : a = b := by
  unfold RedlockConfig.quorum at has hbs
  have hsub : ∀ {token : Uuid} {positions : List ℕ} {finish : T}, s.Granted cfg token positions finish →
      positions.toFinset ⊆ Finset.range cfg.servers.length := by
    intro token positions finish h i hi
    exact Finset.mem_range.mpr (h.lt i (List.mem_toFinset.mp hi))
  have hcard : (Finset.range cfg.servers.length).card < as.toFinset.card + bs.toFinset.card := by
    rw [Finset.card_range,List.toFinset_card_of_nodup ha.nodup,List.toFinset_card_of_nodup hb.nodup]
    omega
  exact ExpiringCells.Holds.unique (hsub ha) (hsub hb) hcard (fun i hi => ha.holds i (List.mem_toFinset.mp hi))
    (fun i hi => hb.holds i (List.mem_toFinset.mp hi)) hf hg

omit [Ring T] [IsStrictOrderedRing T] in
theorem Granted.mono {s s' : RedlockCluster T} {token : Uuid} {positions : List ℕ} {finish : T}
    (h : s.Granted cfg token positions finish)
    (hholds : ∀ server, s.stores.Holds s.time server token finish → s'.stores.Holds s'.time server token finish) :
    s'.Granted cfg token positions finish := ⟨h.nodup,h.lt,fun i hi => hholds _ (h.holds i hi)⟩

/-- A client that does not move stays as it is if nobody touches its token or its keys. -/
theorem Fits.frame {s s' : RedlockCluster T} {client : ℕ} (h : s.Fits cfg client)
    (hclient : s'.clients client = s.clients client) (htime : s.time ≤ s'.time)
    (hown : ∀ token, (s.clients client).token = some token → (token ∈ s'.revoked ↔ token ∈ s.revoked) ∧
      (∀ w ∈ s'.wins, w.token = some token → w ∈ s.wins) ∧
      (token ∉ s.revoked → ∀ server finish, s.stores.Holds s.time server token finish →
        s'.stores.Holds s'.time server token finish)) : s'.Fits cfg client := by
  unfold Fits at h ⊢
  rw [hclient]
  split
  · rename_i hphase
    rw [hphase] at h
    refine ⟨h.start.trans (add_le_add_left htime _),h.before,?_,?_⟩
    · rw [hclient]
      exact h.empty
    · rw [hclient]
      intro token ht
      obtain ⟨hrevoked,hwins,hholds⟩ := hown token ht
      obtain ⟨hnot,hnew,hg⟩ := h.token token ht
      refine ⟨fun hr => hnot (hrevoked.mp hr),fun w hw hwt => hnew w (hwins w hw hwt) hwt,?_⟩
      exact hg.mono fun server => hholds hnot server _
  · rename_i hphase
    rw [hphase] at h
    exact fun token ht => (hown token ht).1.mpr (h token ht)
  · rename_i hphase
    rw [hphase] at h
    exact h
  · trivial

omit [IsStrictOrderedRing T] in
theorem Won.frame {s s' : RedlockCluster T} {w : RedlockWin T} (h : s.Won cfg w) (hdrawn : s.drawn ≤ s'.drawn)
    (hrevoked : ∀ token, w.token = some token → token ∉ s.revoked → token ∉ s'.revoked)
    (hholds : ∀ token ∉ s.revoked, ∀ server finish, s.stores.Holds s.time server token finish →
      s'.stores.Holds s'.time server token finish) : s'.Won cfg w := by
  obtain ⟨token,htoken,hclient,hserial,hnot,positions,hquorum,hg⟩ := h
  exact ⟨token,htoken,hclient,hserial.trans_le hdrawn,hrevoked token htoken hnot,positions,hquorum,
    hg.mono fun server => hholds token hnot server _⟩

/-- What happens outside the clients: servers execute requests and time passes. Keys whose
tokens have not been given up stay. -/
structure Quiet (s s' : RedlockCluster T) : Prop where
  clients : s'.clients = s.clients
  wins : s'.wins = s.wins
  revoked : s'.revoked = s.revoked
  drawn : s.drawn ≤ s'.drawn
  time : s.time ≤ s'.time
  late : ∀ server token, .delete server token ∈ s'.late → .delete server token ∈ s.late ∨ token ∈ s.revoked
  holds : ∀ token ∉ s.revoked, ∀ server finish, s.stores.Holds s.time server token finish →
    s'.stores.Holds s'.time server token finish

namespace Quiet
variable {s s' : RedlockCluster T}

omit [Ring T] [IsStrictOrderedRing T] in
theorem refl (s : RedlockCluster T) : s.Quiet s :=
  ⟨rfl,rfl,rfl,le_refl _,le_refl _,fun _ _ h => Or.inl h,fun _ _ _ _ h => h⟩

theorem fits (h : s.Quiet s') {client : ℕ} (hf : s.Fits cfg client) : s'.Fits cfg client := by
  refine hf.frame (congrFun h.clients client) h.time fun token _ => ?_
  rw [h.revoked,h.wins]
  exact ⟨Iff.rfl,fun _ hw _ => hw,h.holds token⟩

theorem sound (h : s.Quiet s') (hs : s.Sound cfg) : s'.Sound cfg := by
  constructor
  · rw [h.clients]
    exact fun client token ht => ⟨(hs.tokens client token ht).1,(hs.tokens client token ht).2.trans_le h.drawn⟩
  · exact fun client => h.fits (hs.fits client)
  · rw [h.revoked]
    exact fun token ht => (hs.revoked token ht).trans_le h.drawn
  · rw [h.revoked]
    exact fun server token ht => (h.late server token ht).elim (hs.late server token) id
  · rw [h.wins]
    exact fun w hw => (hs.wins w hw).frame h.drawn (fun _ _ hnot => h.revoked ▸ hnot) h.holds
  · rw [h.wins]
    exact hs.apart

omit [IsStrictOrderedRing T] in
/-- A server deletes no key but those that have been given up. -/
theorem execute (s : RedlockCluster T) {r : RedlockRequest}
    (hr : ∀ server token, r = .delete server token → token ∈ s.revoked) : s.Quiet (s.execute cfg r).1 := by
  cases r with
  | set server token =>
    refine ⟨rfl,rfl,rfl,le_refl _,le_refl _,fun _ _ h => Or.inl h,?_⟩
    exact fun _ _ _ _ h => h.setIfFree _ _ _
  | delete server token =>
    refine ⟨rfl,rfl,rfl,le_refl _,le_refl _,fun _ _ h => Or.inl h,?_⟩
    intro token' htoken _ _ h
    refine h.deleteIf _ ?_
    rintro rfl
    exact htoken (hr _ _ rfl)

omit [IsStrictOrderedRing T] in
theorem request (s : RedlockCluster T) {r : Option RedlockRequest}
    (hr : ∀ server token, r = some (.delete server token) → token ∈ s.revoked) (outcome : Outcome) :
    s.Quiet (s.request cfg r outcome).1 := by
  unfold RedlockCluster.request
  cases r with
  | none => exact refl s
  | some r =>
    have hexecute : s.Quiet (s.execute cfg r).1 := execute s fun server token h => hr server token (congrArg some h)
    cases outcome with
    | answered => exact hexecute
    | replyLost => exact hexecute
    | failed => exact refl s
    | late =>
      refine ⟨rfl,rfl,rfl,le_refl _,le_refl _,?_,fun _ _ _ _ h => h⟩
      intro server token h
      rcases List.mem_append.mp h with h | h
      · exact Or.inl h
      · exact Or.inr (hr server token (congrArg some (List.mem_singleton.mp h).symm))

end Quiet

omit [IsStrictOrderedRing T] in
/-- A key that is counted is held for the time to live from now on. -/
theorem holds_request {s : RedlockCluster T} {server : ℕ} {token : Uuid} {outcome : Outcome}
    (h : (s.request cfg (some (.set server token)) outcome).2 = true) {finish : T} (hle : finish ≤ s.time + cfg.ttl) :
    (s.request cfg (some (.set server token)) outcome).1.stores.Holds s.time server token finish := by
  unfold request at h ⊢
  cases outcome with
  | answered => exact ExpiringCells.holds_setIfFree h hle
  | replyLost => cases h
  | failed => cases h
  | late => cases h

omit [Ring T] [LinearOrder T] [IsStrictOrderedRing T] in
@[simp] theorem setClient_self (s : RedlockCluster T) (client : ℕ) (l : Redlock) :
    (s.setClient client l).clients client = l := Function.update_self ..

omit [Ring T] [LinearOrder T] [IsStrictOrderedRing T] in
@[simp] theorem setPhase_self (s : RedlockCluster T) (client : ℕ) (phase : RedlockPhase) :
    (s.setPhase client phase).clients client = { s.clients client with phase := phase } := Function.update_self ..

omit [Ring T] [LinearOrder T] [IsStrictOrderedRing T] in
theorem setPhase_phase (s : RedlockCluster T) (client : ℕ) (phase : RedlockPhase) :
    ((s.setPhase client phase).clients client).phase = phase := congrArg Redlock.phase (setPhase_self s client phase)

omit [IsStrictOrderedRing T] in
/-- Clients have drawn their tokens themselves. -/
theorem Sound.tokens_setClient {s : RedlockCluster T} (h : s.Sound cfg) {client : ℕ} {l : Redlock}
    (htoken : ∀ token, l.token = some token → token.client = client ∧ token.serial < s.drawn) (c : ℕ) :
    ∀ token, ((s.setClient client l).clients c).token = some token → token.client = c ∧ token.serial < s.drawn :=
  (Function.forall_update_iff s.clients fun c l => ∀ token, l.token = some token →
    token.client = c ∧ token.serial < s.drawn).mpr ⟨htoken,fun c _ => h.tokens c⟩ c

/-- One client moves and the servers do not. -/
theorem Sound.setClient {s : RedlockCluster T} (h : s.Sound cfg) {client : ℕ} {l : Redlock}
    (htoken : ∀ token, l.token = some token → token.client = client ∧ token.serial < s.drawn)
    (hfits : (s.setClient client l).Fits cfg client) : (s.setClient client l).Sound cfg := by
  refine ⟨h.tokens_setClient htoken,?_,h.revoked,h.late,?_,h.apart⟩
  · intro c
    by_cases hc : c = client
    · exact hc ▸ hfits
    · refine (h.fits c).frame (Function.update_of_ne hc _ _) (le_refl _) fun _ _ => ?_
      exact ⟨Iff.rfl,fun _ hw _ => hw,fun _ _ _ hh => hh⟩
  · exact fun w hw => (h.wins w hw).frame (le_refl _) (fun _ _ hnot => hnot) fun _ _ _ _ hh => hh

theorem Sound.setPhase {s : RedlockCluster T} (h : s.Sound cfg) {client : ℕ} {phase : RedlockPhase}
    (hfits : (s.setPhase client phase).Fits cfg client) : (s.setPhase client phase).Sound cfg :=
  h.setClient (h.tokens client) hfits

/-- An attempt starts with no key, and with a token that is not in use or with none. -/
theorem Sound.startAttempt [FloorRing T] {s : RedlockCluster T} (h : s.Sound cfg) {client : ℕ} (attempt : ℕ)
    (hclean : ∀ token, (s.clients client).token = some token →
      token ∉ s.revoked ∧ ∀ w ∈ s.wins, w.token ≠ some token) : (s.startAttempt cfg client attempt).Sound cfg := by
  refine h.setPhase ((fits_setting (setPhase_phase s client _)).mpr ?_)
  refine ⟨Int.floor_le _,fun _ hi => absurd hi List.not_mem_nil,fun _ => rfl,?_⟩
  rw [setPhase_self]
  intro token ht
  obtain ⟨hrevoked,hwins⟩ := hclean token ht
  exact ⟨hrevoked,hwins,List.nodup_nil,fun _ hi => absurd hi List.not_mem_nil,fun _ hi => absurd hi List.not_mem_nil⟩

theorem Sound.acquire [FloorRing T] {s : RedlockCluster T} (h : s.Sound cfg) (client : ℕ) :
    (s.acquire cfg client).Sound cfg := by
  unfold RedlockCluster.acquire
  split
  · exact h
  have hquiet : s.Quiet { s with drawn := s.drawn + 1 } :=
    ⟨rfl,rfl,rfl,Nat.le_succ _,le_refl _,fun _ _ hd => Or.inl hd,fun _ _ _ _ hh => hh⟩
  have hfresh : ({ s.setClient client ⟨some ⟨client,s.drawn⟩,.idle⟩ with drawn := s.drawn + 1 } :
      RedlockCluster T).Sound cfg := by
    refine (hquiet.sound h).setClient ?_ ?_
    · intro token ht
      cases ht
      exact ⟨rfl,Nat.lt_succ_self _⟩
    · simp [Fits]
  dsimp only
  split
  · refine hfresh.startAttempt 0 fun token ht => ?_
    simp only [setClient_self,Option.some.injEq] at ht
    subst token
    refine ⟨fun hr => absurd (h.revoked _ hr) (lt_irrefl _),fun w hw hwt => ?_⟩
    obtain ⟨token,htoken,-,hserial,-⟩ := h.wins w hw
    rw [htoken] at hwt
    cases hwt
    exact absurd hserial (lt_irrefl _)
  · exact hfresh

/-- A token that nobody holds a win with is given up. -/
theorem Sound.beginRelease {s : RedlockCluster T} (h : s.Sound cfg) {client : ℕ} (retry : Option ℕ)
    (hwins : ∀ w ∈ s.wins, ∀ token, (s.clients client).token = some token → w.token ≠ some token) :
    (s.beginRelease client retry).Sound cfg := by
  have hrevoked : ∀ token, token ∈ s.revoked ++ (s.clients client).token.toList ↔
      token ∈ s.revoked ∨ (s.clients client).token = some token := by simp
  unfold RedlockCluster.beginRelease
  refine ⟨h.tokens_setClient (h.tokens client),?_,?_,?_,?_,h.apart⟩
  · intro c
    by_cases hc : c = client
    · subst c
      refine (fits_releasing (by exact setPhase_phase s client _)).mpr ?_
      simp only [setPhase_self]
      exact fun token ht => (hrevoked token).mpr (Or.inr ht)
    · refine (h.fits c).frame (Function.update_of_ne hc _ _) (le_refl _) fun token ht => ?_
      refine ⟨(hrevoked token).trans (or_iff_left fun hown => ?_),fun _ hw _ => hw,fun _ _ _ hh => hh⟩
      exact hc ((h.tokens c token ht).1.symm.trans (h.tokens client token hown).1)
  · intro token ht
    exact ((hrevoked token).mp ht).elim (h.revoked token) fun hown => (h.tokens client token hown).2
  · exact fun server token hd => (hrevoked token).mpr (Or.inl (h.late server token hd))
  · intro w hw
    refine (h.wins w hw).frame (le_refl _) (fun token htoken hnot hr => ?_) fun _ _ _ _ hh => hh
    exact ((hrevoked token).mp hr).elim hnot fun hown => hwins w hw token hown htoken

theorem Sound.endRelease {s : RedlockCluster T} (h : s.Sound cfg) (client : ℕ) (retry : Option ℕ) :
    (s.endRelease client retry).Sound cfg := by
  unfold RedlockCluster.endRelease
  refine h.setClient (fun _ ht => nomatch ht) ?_
  cases retry <;> simp [Fits]

/-- A win has counted a majority of the servers, and at that moment no earlier win is left. -/
theorem Sound.win {s : RedlockCluster T} (h : s.Sound cfg) {client : ℕ} {startTime : ℤ} {granted : List ℕ} {k : ℕ}
    (ha : s.Attempting cfg client startTime granted k) (hquorum : cfg.quorum ≤ granted.length)
    (hvalid : s.time < cfg.finish client startTime) :
    ({ s.setPhase client .idle with wins := s.wins ++ [⟨client,(s.clients client).token,startTime,s.time⟩] } :
      RedlockCluster T).Sound cfg := by
  obtain ⟨token,htoken⟩ : ∃ token, (s.clients client).token = some token := by
    refine Option.ne_none_iff_exists'.mp fun hnone => ?_
    rw [ha.empty hnone] at hquorum
    exact absurd hquorum (Nat.not_succ_le_zero _)
  obtain ⟨hrevoked,hnew,hgranted⟩ := ha.token token htoken
  obtain ⟨hclient,hserial⟩ := h.tokens client token htoken
  refine ⟨h.tokens_setClient (h.tokens client),?_,h.revoked,h.late,?_,?_⟩
  · intro c
    by_cases hc : c = client
    · subst c
      simp [Fits]
    · refine (h.fits c).frame (Function.update_of_ne hc _ _) (le_refl _) fun own hown => ?_
      refine ⟨Iff.rfl,fun w hw hwt => ?_,fun _ _ _ hh => hh⟩
      rcases List.mem_append.mp hw with hw | hw
      · exact hw
      -- The token of the new win is that of the client that moves.
      · cases List.mem_singleton.mp hw
        exact absurd ((h.tokens c own hown).1.symm.trans (h.tokens client own hwt).1) hc
  · intro w hw
    rcases List.mem_append.mp hw with hw | hw
    · exact (h.wins w hw).frame (le_refl _) (fun _ _ hnot => hnot) fun _ _ _ _ hh => hh
    · cases List.mem_singleton.mp hw
      exact ⟨token,htoken,hclient,hserial,hrevoked,granted,hquorum,hgranted.mono fun _ hh => hh⟩
  · refine List.pairwise_append.mpr ⟨h.apart,List.pairwise_singleton _ _,fun w hw w' hw' => ?_⟩
    cases List.mem_singleton.mp hw'
    obtain ⟨other,hother,-,-,-,positions,hpositions,hheld⟩ := h.wins w hw
    by_contra hlive
    have heq := hheld.unique hgranted hpositions hquorum (not_le.mp hlive) hvalid
    rw [heq] at hother
    exact hnew w hw hother

theorem Sound.finishAttempt [FloorRing T] {s : RedlockCluster T} (h : s.Sound cfg) {client attempt : ℕ} {startTime : ℤ}
    {granted : List ℕ} {k : ℕ} (ha : s.Attempting cfg client startTime granted k) :
    (s.finishAttempt cfg client attempt startTime granted).Sound cfg := by
  unfold RedlockCluster.finishAttempt
  dsimp only
  split
  · rename_i hwin
    refine h.win ha hwin.1 ?_
    -- The clock of the client has not reached the end, so the time has not either.
    have hclock : s.clock cfg client < startTime + cfg.ttl := by omega
    have htime : s.time + cfg.offset client < ((startTime + cfg.ttl : ℤ) : T) := Int.floor_lt.mp hclock
    rw [Int.cast_add] at htime
    have hfinish : cfg.finish client startTime = startTime + cfg.ttl - cfg.offset client := by
      unfold RedlockConfig.finish
      abel
    rw [hfinish]
    exact lt_sub_iff_add_lt.mpr htime
  · exact h.beginRelease _ fun w hw token ht => (ha.token token ht).2.1 w hw

omit [IsStrictOrderedRing T] in
theorem Attempting.skip {s : RedlockCluster T} {client k : ℕ} {startTime : ℤ} {granted : List ℕ}
    (h : s.Attempting cfg client startTime granted k) : s.Attempting cfg client startTime granted (k + 1) :=
  ⟨h.start,fun i hi => Nat.lt_succ_of_lt (h.before i hi),h.empty,h.token⟩

omit [IsStrictOrderedRing T] in
theorem Attempting.count {s : RedlockCluster T} {client k server : ℕ} {startTime : ℤ} {granted : List ℕ} {token : Uuid}
    (h : s.Attempting cfg client startTime granted k) (htoken : (s.clients client).token = some token)
    (hserver : cfg.servers[k]? = some server)
    (hheld : s.stores.Holds s.time server token (cfg.finish client startTime)) :
    s.Attempting cfg client startTime (granted ++ [k]) (k + 1) := by
  obtain ⟨hk,-⟩ := List.getElem?_eq_some_iff.mp hserver
  refine ⟨h.start,?_,fun hnone => ?_,?_⟩
  · intro i hi
    rcases List.mem_append.mp hi with hi | hi
    · exact Nat.lt_succ_of_lt (h.before i hi)
    · rw [List.mem_singleton.mp hi]
      exact Nat.lt_succ_self k
  · rw [htoken] at hnone
    cases hnone
  · intro token' ht
    cases Option.some.inj (htoken.symm.trans ht)
    obtain ⟨hrevoked,hwins,hg⟩ := h.token token htoken
    refine ⟨hrevoked,hwins,?_,?_,?_⟩
    · refine List.nodup_append.mpr ⟨hg.nodup,List.nodup_singleton k,fun i hi j hj => ?_⟩
      rw [List.mem_singleton.mp hj]
      exact (h.before i hi).ne
    · intro i hi
      rcases List.mem_append.mp hi with hi | hi
      · exact hg.lt i hi
      · rw [List.mem_singleton.mp hi]
        exact hk
    · intro i hi
      rcases List.mem_append.mp hi with hi | hi
      · exact hg.holds i hi
      · rw [List.mem_singleton.mp hi]
        simpa [RedlockConfig.server,hserver] using hheld

omit [IsStrictOrderedRing T] in
theorem Attempting.setPhase {s : RedlockCluster T} {client k : ℕ} {startTime : ℤ} {granted : List ℕ}
    (h : s.Attempting cfg client startTime granted k) (phase : RedlockPhase) :
    (s.setPhase client phase).Attempting cfg client startTime granted k := by
  refine ⟨h.start,h.before,?_,?_⟩
  · rw [setPhase_self]
    exact h.empty
  · rw [setPhase_self]
    intro token ht
    obtain ⟨hrevoked,hwins,hg⟩ := h.token token ht
    exact ⟨hrevoked,hwins,hg.mono fun _ hh => hh⟩

/-- The key at a server is asked for in an attempt, and counted if it is granted. -/
theorem Sound.set {s : RedlockCluster T} (h : s.Sound cfg) {client attempt k server : ℕ} {startTime : ℤ}
    {granted : List ℕ} (hphase : (s.clients client).phase = .setting attempt startTime granted k)
    (hserver : cfg.servers[k]? = some server) (outcome : Outcome) {r : RedlockCluster T × Bool}
    (hr : s.request cfg ((s.clients client).token.map (.set server)) outcome = r) :
    (r.1.setPhase client
      (.setting attempt startTime (if r.2 then granted ++ [k] else granted) (k + 1))).Sound cfg := by
  have hquiet : s.Quiet r.1 := by
    rw [← hr]
    refine Quiet.request s (fun _ _ hd => ?_) outcome
    simp at hd
  have hclient := congrFun hquiet.clients client
  have ha : r.1.Attempting cfg client startTime granted k :=
    (fits_setting (by rw [hclient]; exact hphase)).mp (hquiet.fits (h.fits client))
  refine (hquiet.sound h).setPhase ((fits_setting (by exact setPhase_phase r.1 client _)).mpr ?_)
  by_cases hreply : r.2 = true
  · rw [if_pos hreply]
    obtain ⟨token,htoken⟩ : ∃ token, (s.clients client).token = some token := by
      refine Option.ne_none_iff_exists'.mp fun hnone => ?_
      rw [← hr,hnone] at hreply
      cases hreply
    have htoken' : (r.1.clients client).token = some token := by
      rw [hclient]
      exact htoken
    refine Attempting.setPhase (ha.count htoken' hserver ?_) _
    rw [htoken] at hr
    subst r
    refine (holds_request hreply ?_).elapse hquiet.time
    -- The time to live runs from now, and the attempt has started before.
    have hstart := ((fits_setting hphase).mp (h.fits client)).start
    exact add_le_add_left (sub_le_iff_le_add.mpr hstart) _
  · rw [if_neg hreply]
    exact ha.skip.setPhase _

theorem Sound.delete {s : RedlockCluster T} (h : s.Sound cfg) {client k server : ℕ} {retry : Option ℕ}
    (hphase : (s.clients client).phase = .releasing retry k) (outcome : Outcome) :
    ((s.request cfg ((s.clients client).token.map (.delete server)) outcome).1.setPhase client
      (.releasing retry (k + 1))).Sound cfg := by
  have hrevoked := (fits_releasing hphase).mp (h.fits client)
  have hquiet : s.Quiet (s.request cfg ((s.clients client).token.map (.delete server)) outcome).1 := by
    refine Quiet.request s (fun server token hd => ?_) outcome
    obtain ⟨own,hown,heq⟩ := Option.map_eq_some_iff.mp hd
    cases heq
    exact hrevoked _ hown
  refine (hquiet.sound h).setPhase ((fits_releasing (by exact setPhase_phase _ client _)).mpr ?_)
  rw [setPhase_self,hquiet.clients]
  exact fun token ht => hquiet.revoked.symm ▸ hrevoked token ht

theorem Sound.advance [FloorRing T] {s : RedlockCluster T} (h : s.Sound cfg) (client : ℕ) (outcome : Outcome) :
    (s.advance cfg client outcome).Sound cfg := by
  unfold RedlockCluster.advance
  dsimp only
  split
  · exact h
  · rename_i hphase
    split
    · rename_i hserver
      exact h.set hphase hserver outcome rfl
    · exact h.finishAttempt ((fits_setting hphase).mp (h.fits client))
  · rename_i hphase
    split
    · exact h.delete hphase outcome
    · exact h.endRelease client _
  · rename_i hphase
    split
    · refine h.startAttempt _ fun token ht => ?_
      have hnone := h.fits client
      unfold Fits at hnone
      rw [hphase] at hnone
      rw [hnone] at ht
      cases ht
    · exact h.setPhase (by simp [Fits])

/-- The wins of a client that releases do not count any more. -/
theorem Sound.release {s : RedlockCluster T} (h : s.Sound cfg) (client : ℕ) : (s.release client).Sound cfg := by
  unfold RedlockCluster.release
  split
  · exact h
  have hmem : ∀ w ∈ s.wins.filter (·.client ≠ client), w ∈ s.wins ∧ w.client ≠ client := by
    intro w hw
    obtain ⟨hw,hne⟩ := List.mem_filter.mp hw
    exact ⟨hw,of_decide_eq_true hne⟩
  have hrest : ({ s with wins := s.wins.filter (·.client ≠ client) } : RedlockCluster T).Sound cfg := by
    refine ⟨h.tokens,fun c => ?_,h.revoked,h.late,fun w hw => ?_,h.apart.filter _⟩
    · exact (h.fits c).frame rfl (le_refl _) fun _ _ => ⟨Iff.rfl,fun w hw _ => (hmem w hw).1,fun _ _ _ hh => hh⟩
    · exact (h.wins w (hmem w hw).1).frame (le_refl _) (fun _ _ hnot => hnot) fun _ _ _ _ hh => hh
  refine hrest.beginRelease none fun w hw token ht hwt => ?_
  obtain ⟨hw,hne⟩ := hmem w hw
  obtain ⟨own,hown,hclient,-⟩ := h.wins w hw
  cases Option.some.inj (hown.symm.trans hwt)
  exact hne (hclient.symm.trans (h.tokens client _ ht).1)

theorem Sound.step [FloorRing T] {s : RedlockCluster T} (h : s.Sound cfg) (a : RedlockAction T) :
    (s.step cfg a).Sound cfg := by
  cases a with
  | acquire client => exact h.acquire client
  | advance client outcome => exact h.advance client outcome
  | release client => exact h.release client
  | arrive j =>
    unfold RedlockCluster.step
    dsimp only
    split
    · rename_i r hr
      have hquiet : s.Quiet { s with late := s.late.eraseIdx j } :=
        ⟨rfl,rfl,rfl,le_refl _,le_refl _,fun _ _ hd => Or.inl (List.mem_of_mem_eraseIdx hd),fun _ _ _ _ hh => hh⟩
      refine (Quiet.execute _ fun server token hd => ?_).sound (hquiet.sound h)
      subst r
      exact h.late server token (List.mem_of_getElem? hr)
    · exact h
  | elapse time =>
    unfold RedlockCluster.step
    dsimp only
    split
    · rename_i hle
      have hquiet : s.Quiet { s with time := time } :=
        ⟨rfl,rfl,rfl,le_refl _,hle,fun _ _ hd => Or.inl hd,fun _ _ _ _ hh => hh.elapse hle⟩
      exact hquiet.sound h
    · exact h

omit [IsStrictOrderedRing T] in
theorem Sound.exclusive {s : RedlockCluster T} (h : s.Sound cfg) : s.Exclusive cfg := by
  have hsymm : Std.Symm fun w w' : RedlockWin T => ∀ t, ¬(w.Covers cfg t ∧ w'.Covers cfg t) :=
    ⟨fun _ _ hw t ht => hw t ht.symm⟩
  have hpair : s.wins.Pairwise fun w w' => ∀ t, ¬(w.Covers cfg t ∧ w'.Covers cfg t) := by
    refine h.apart.imp fun hle t ht => ?_
    exact absurd (ht.1.2.trans_le hle) (not_lt.mpr ht.2.1)
  intro w hw w' hw' hne
  exact hpair.forall hw hw' fun heq => hne (congrArg RedlockWin.client heq)

/-- Whatever the order of the requests, their failures and retries, no two clients hold the
lock at one time. -/
theorem redlock_exclusive [FloorRing T] (cfg : RedlockConfig T) (time : T) (schedule : List (RedlockAction T)) :
    (run (step cfg) (init time) schedule).Exclusive cfg :=
  (run_invariant_of_step (I := Sound cfg) (fun _ a hs => hs.step a) (sound_init time) schedule).exclusive

/-- One server fails while client 0 acquires; client 1 fails and cleans up, and succeeds when
the time of client 0 has passed. -/
theorem redlock_exclusive_takeover :
    let cfg : RedlockConfig ℤ := ⟨[0,1,2],1000,fun _ => 1,fun client => 5 * client⟩
    let s := run (step cfg) (init 0) ([.acquire 0,.advance 0 .answered,.advance 0 .answered,.advance 0 .failed,
      .advance 0 .answered,.acquire 1] ++ List.replicate 9 (.advance 1 .answered) ++ [.elapse 1000,.acquire 1] ++
      List.replicate 4 (.advance 1 .answered))
    s.wins.map (·.client) = [0,1] ∧ s.Exclusive cfg :=
  ⟨by decide,redlock_exclusive _ 0 _⟩

end RedlockCluster

end DistributedSystems.Locks
