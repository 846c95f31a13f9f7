import DistributedSystems.Protocol.Dict
import DistributedSystems.Protocol.Observed
import DistributedSystems.Protocol.Windows
import Mathlib.Algebra.Order.Ring.Int
import Mathlib.Algebra.Order.Ring.Rat
import Mathlib.Tactic.Linarith

/-! # Sliding windows in a sorted set

The clients of a key share a sorted set on a server. The script counts the members of the set,
which are the timestamps of accepted requests and not the requests themselves.
-/
namespace DistributedSystems.RateLimiting
open Runs

/-- A sorted set with the score of each member, and when the key expires on the server's clock. A
key without members is a key that does not exist. -/
structure RedisKey (K : Type) where
  members : Dict K K
  expiresAt : Option K

namespace RedisKey
variable {K : Type} [Field K] [LinearOrder K]

def absent : RedisKey K := ⟨Dict.empty,none⟩

def Expired (key : RedisKey K) (server : K) : Prop := ∃ deadline ∈ key.expiresAt, deadline ≤ server

instance (key : RedisKey K) (server : K) : Decidable (key.Expired server) :=
  inferInstanceAs (Decidable (∃ deadline ∈ key.expiresAt, deadline ≤ server))

/-- The key that a command finds. -/
def find (key : RedisKey K) (server : K) : RedisKey K := if key.Expired server then absent else key

def zremrangebyscore (key : RedisKey K) (min max : K) : RedisKey K :=
  let members := key.members.filter fun e => ¬(min ≤ e.2 ∧ e.2 ≤ max)
  ⟨members,if members.size = 0 then none else key.expiresAt⟩

def zcard (key : RedisKey K) : ℕ := key.members.size

def zadd (key : RedisKey K) (score member : K) : RedisKey K := { key with members := key.members.insert member score }

/-- A time to live that is not positive deletes the key. -/
def expire (key : RedisKey K) (seconds : ℤ) (server : K) : RedisKey K :=
  if seconds ≤ 0 then absent else { key with expiresAt := some (server + seconds) }

/-- The script with the client's timestamp and the server's clock. -/
def script (key : RedisKey K) (window limit : ℤ) (now server : K) : RedisKey K × ℕ :=
  let key := key.find server
  let clearBefore := now - window
  let key := key.zremrangebyscore 0 clearBefore
  let count := key.zcard
  if count < limit then
    let key := key.zadd now now
    let key := key.expire (window + 1) server
    (key,1)
  else (key,0)

def allowRequest (key : RedisKey K) (maxRequests window : ℤ) (now server : K) : RedisKey K × Bool :=
  let result := key.script window maxRequests now server
  (result.1,result.2 ≠ 0)

end RedisKey

/-- A call of any client, in the order in which the server executes the scripts. -/
structure RedisCall (K : Type) where
  now : K
  server : K

structure RedisRecord (K : Type) where
  now : K
  allowed : Bool

namespace RedisKey
variable {K : Type} [Field K] [LinearOrder K]

section Calls
variable (maxRequests window : ℤ)

def step (key : RedisKey K) (call : RedisCall K) : RedisKey K :=
  (key.allowRequest maxRequests window call.now call.server).1

def record (key : RedisKey K) (call : RedisCall K) : RedisRecord K :=
  ⟨call.now,(key.allowRequest maxRequests window call.now call.server).2⟩

def records (key : RedisKey K) (calls : List (RedisCall K)) : List (RedisRecord K) :=
  observed (step maxRequests window) (record maxRequests window) key calls

/-- The members that the script counts. -/
def live (key : RedisKey K) (call : RedisCall K) : Dict K K :=
  ((key.find call.server).zremrangebyscore 0 (call.now - window)).members

/-- The key has expired on the server's clock only when its members are outside the window, and
the timestamp is not that of a member in the window, unless there is no free place. -/
def Regular (key : RedisKey K) (call : RedisCall K) : Prop :=
  (key.Expired call.server → ∀ u ∈ key.members.keys, u ≤ call.now - window) ∧
  (call.now ∈ (key.live window call).keys → maxRequests ≤ (key.live window call).size)

instance (key : RedisKey K) (call : RedisCall K) : Decidable (Regular maxRequests window key call) :=
  inferInstanceAs (Decidable ((key.Expired call.server → ∀ u ∈ key.members.keys, u ≤ call.now - window) ∧
    (call.now ∈ (key.live window call).keys → maxRequests ≤ (key.live window call).size)))

end Calls

/-- The timestamps of the accepted requests. -/
def accepted (records : List (RedisRecord K)) : List K := (records.filter RedisRecord.allowed).map RedisRecord.now

/-- The timestamps do not go back in the order of execution. -/
def Ordered (calls : List (RedisCall K)) : Prop := (calls.map RedisCall.now).Pairwise (· ≤ ·)

variable {maxRequests window : ℤ} {key : RedisKey K} {call : RedisCall K} {calls : List (RedisCall K)}
  {log : List (RedisRecord K)}

/-- Everything a call can do: it adds its timestamp to the members that it counts, or there is no
free place. -/
theorem allowRequest_cases (key : RedisKey K) (maxRequests : ℤ) (hwindow : 0 < window) (call : RedisCall K) :
    (key.live window call).size < maxRequests ∧ (key.record maxRequests window call).allowed = true ∧
      key.step maxRequests window call =
        ⟨(key.live window call).insert call.now call.now,some (call.server + (window + 1 : ℤ))⟩ ∨
    maxRequests ≤ (key.live window call).size ∧ (key.record maxRequests window call).allowed = false ∧
      (key.step maxRequests window call).members = key.live window call := by
  unfold record step allowRequest script
  dsimp only
  split
  · rename_i hroom
    refine Or.inl ⟨hroom,rfl,?_⟩
    rw [expire,if_neg (by omega)]
    rfl
  · rename_i hfull
    exact Or.inr ⟨not_lt.mp hfull,rfl,rfl⟩

omit [Field K] [LinearOrder K] in
theorem accepted_append (xs ys : List (RedisRecord K)) : accepted (xs ++ ys) = accepted xs ++ accepted ys := by
  rw [accepted,List.filter_append,List.map_append]
  rfl

omit [Field K] [LinearOrder K] in
theorem accepted_singleton {r : RedisRecord K} (h : r.allowed = true) : accepted [r] = [r.now] := by
  rw [accepted,List.filter_cons_of_pos h]
  rfl

omit [Field K] [LinearOrder K] in
theorem accepted_singleton_of_false {r : RedisRecord K} (h : r.allowed = false) : accepted [r] = [] := by
  rw [accepted,List.filter_cons_of_neg (by rw [h]; decide)]
  rfl

/-- Every member has its timestamp for its score. -/
def Scored (key : RedisKey K) : Prop := ∀ e ∈ key.members.entries, e.1 = e.2

theorem mem_keys_live (h : key.Scored) {u : K} : u ∈ (key.live window call).keys ↔
    ¬key.Expired call.server ∧ u ∈ key.members.keys ∧ ¬(0 ≤ u ∧ u ≤ call.now - window) := by
  unfold live find
  split
  · rename_i hexpired
    exact ⟨fun hu => absurd hu List.not_mem_nil,fun hu => absurd hexpired hu.1⟩
  · rename_i hlives
    constructor
    · intro hu
      obtain ⟨e,he,rfl⟩ := List.mem_map.mp hu
      obtain ⟨he,hkept⟩ := List.mem_filter.mp he
      rw [← h e he] at hkept
      exact ⟨hlives,List.mem_map_of_mem he,of_decide_eq_true hkept⟩
    · rintro ⟨-,hu,hkept⟩
      obtain ⟨e,he,rfl⟩ := List.mem_map.mp hu
      refine List.mem_map_of_mem (List.mem_filter.mpr ⟨he,?_⟩)
      rw [← h e he]
      exact decide_eq_true hkept

theorem Scored.live (h : key.Scored) : ∀ e ∈ (key.live window call).entries, e.1 = e.2 := by
  unfold RedisKey.live find
  split
  · exact fun e he => absurd he List.not_mem_nil
  · exact fun e he => h e (List.mem_filter.mp he).1

theorem Scored.step (hwindow : 0 < window) (h : key.Scored) : (key.step maxRequests window call).Scored := by
  rcases key.allowRequest_cases maxRequests hwindow call with ⟨-,-,hstep⟩ | ⟨-,-,hmembers⟩
  · rw [hstep]
    intro e he
    rcases mem_putEntry he with rfl | he
    · rfl
    · exact h.live e he
  · intro e he
    rw [hmembers] at he
    exact h.live e he

omit [Field K] in
theorem Ordered.before (h : Ordered (calls ++ [call])) : Ordered calls := (pairwise_map_concat h).1

omit [Field K] in
theorem Ordered.le_last (h : Ordered (calls ++ [call])) : ∀ call' ∈ calls, call'.now ≤ call.now :=
  (pairwise_map_concat h).2

/-- What every call keeps: the members are timestamps of accepted requests. -/
structure Sound (maxRequests : ℤ) (key : RedisKey K) (calls : List (RedisCall K)) (log : List (RedisRecord K)) :
    Prop where
  scored : key.Scored
  members_accepted : ∀ u ∈ key.members.keys, u ∈ accepted log
  accepted_now : ∀ u ∈ accepted log, ∃ call ∈ calls, call.now = u
  positive : accepted log ≠ [] → 0 < maxRequests

omit [Field K] in
theorem Sound.accepted_le (h : key.Sound maxRequests calls log) {now : K} (hnow : ∀ call ∈ calls, call.now ≤ now) :
    ∀ u ∈ accepted log, u ≤ now := by
  intro u hu
  obtain ⟨call,hcall,rfl⟩ := h.accepted_now u hu
  exact hnow call hcall

theorem Sound.step (h : key.Sound maxRequests calls log) (hwindow : 0 < window) (call : RedisCall K) :
    (key.step maxRequests window call).Sound maxRequests (calls ++ [call])
      (log ++ [key.record maxRequests window call]) := by
  have hlive : ∀ u ∈ (key.live window call).keys, u ∈ accepted log := fun u hu =>
    h.members_accepted u ((mem_keys_live h.scored).mp hu).2.1
  have hnow : ∀ u ∈ accepted log, ∃ call' ∈ calls ++ [call], call'.now = u := fun u hu => by
    obtain ⟨call',hmem,heq⟩ := h.accepted_now u hu
    exact ⟨call',List.mem_append_left _ hmem,heq⟩
  have hscored : (key.step maxRequests window call).Scored := h.scored.step hwindow
  rcases key.allowRequest_cases maxRequests hwindow call with ⟨hroom,hallowed,hstep⟩ | ⟨-,hrejected,hmembers⟩
  · have hlog : accepted (log ++ [key.record maxRequests window call]) = accepted log ++ [call.now] := by
      rw [accepted_append,accepted_singleton hallowed]
      rfl
    refine ⟨hscored,fun u hu => ?_,fun u hu => ?_,fun _ => (Int.natCast_nonneg _).trans_lt hroom⟩
    · rw [hlog]
      rw [hstep] at hu
      rcases Dict.mem_keys_insert.mp hu with rfl | hu
      · exact List.mem_append_right _ List.mem_cons_self
      · exact List.mem_append_left _ (hlive u hu)
    · rw [hlog] at hu
      rcases List.mem_append.mp hu with hu | hu
      · exact hnow u hu
      · exact ⟨call,List.mem_append_right _ List.mem_cons_self,(List.mem_singleton.mp hu).symm⟩
  · have hlog : accepted (log ++ [key.record maxRequests window call]) = accepted log := by
      rw [accepted_append,accepted_singleton_of_false hrejected,List.append_nil]
    refine ⟨hscored,fun u hu => ?_,fun u hu => hnow u (hlog ▸ hu),fun hne => h.positive (hlog ▸ hne)⟩
    rw [hlog]
    rw [hmembers] at hu
    exact hlive u hu

theorem sound_run (maxRequests : ℤ) (hwindow : 0 < window) (calls : List (RedisCall K)) :
    (run (RedisKey.step maxRequests window) absent calls).Sound maxRequests calls
      (records maxRequests window absent calls) := by
  refine observed_induction (J := fun calls key log => Sound maxRequests key calls log) absent ?_
    (fun calls call ih => ih.step hwindow call) calls
  exact ⟨fun e he => absurd he List.not_mem_nil,fun u hu => absurd hu List.not_mem_nil,
    fun u hu => absurd hu List.not_mem_nil,fun hne => absurd rfl hne⟩

section Bound
variable [IsStrictOrderedRing K]

/-- What regular calls keep: in every later window the accepted timestamps are distinct members. -/
structure Counted (maxRequests window : ℤ) (key : RedisKey K) (calls : List (RedisCall K))
    (log : List (RedisRecord K)) : Prop where
  bounded : WindowBounded (window : K) maxRequests (accepted log)
  nodup : ∀ now, (∀ call ∈ calls, call.now ≤ now) → ((accepted log).filter fun u => now - window < u).Nodup
  members : ∀ now, (∀ call ∈ calls, call.now ≤ now) → ∀ u ∈ accepted log, now - window < u → u ∈ key.members.keys

omit [IsStrictOrderedRing K] in
theorem Counted.mem_live (h : key.Counted maxRequests window calls log) (hs : key.Sound maxRequests calls log)
    (hcall : ∀ call' ∈ calls, call'.now ≤ call.now) (hregular : key.Regular maxRequests window call) :
    ∀ u ∈ accepted log, call.now - window < u → u ∈ (key.live window call).keys := by
  intro u hu hwithin
  have hmem := h.members call.now hcall u hu hwithin
  exact (mem_keys_live hs.scored).mpr ⟨fun hexpired => absurd hwithin (not_lt.mpr (hregular.1 hexpired u hmem)),hmem,
    fun hremoved => absurd hwithin (not_lt.mpr hremoved.2)⟩

omit [IsStrictOrderedRing K] in
/-- The script counts no fewer members than there are accepted requests in the window. -/
theorem Counted.windowCount_le (h : key.Counted maxRequests window calls log) (hs : key.Sound maxRequests calls log)
    (hcall : ∀ call' ∈ calls, call'.now ≤ call.now) (hregular : key.Regular maxRequests window call) :
    windowCount (window : K) (accepted log) call.now ≤ (key.live window call).size := by
  rw [windowCount_eq_length_filter (hs.accepted_le hcall)]
  refine Dict.length_le_size (h.nodup call.now hcall) fun u hu => ?_
  obtain ⟨hu,hwithin⟩ := List.mem_filter.mp hu
  exact h.mem_live hs hcall hregular u hu (of_decide_eq_true hwithin)

theorem Counted.step (h : key.Counted maxRequests window calls log) (hs : key.Sound maxRequests calls log)
    (hwindow : 0 < window) (hcall : ∀ call' ∈ calls, call'.now ≤ call.now)
    (hregular : key.Regular maxRequests window call) :
    (key.step maxRequests window call).Counted maxRequests window (calls ++ [call])
      (log ++ [key.record maxRequests window call]) := by
  have hlive := h.mem_live hs hcall hregular
  have hearlier : ∀ {now : K}, (∀ call' ∈ calls ++ [call], call'.now ≤ now) →
      (∀ call' ∈ calls, call'.now ≤ now) ∧ call.now - window ≤ now - window := fun hnow => by
    obtain ⟨hbefore,hlast⟩ := List.forall_mem_append.mp hnow
    exact ⟨hbefore,sub_le_sub_right (hlast call List.mem_cons_self) _⟩
  rcases key.allowRequest_cases maxRequests hwindow call with ⟨hroom,hallowed,hstep⟩ | ⟨-,hrejected,hmembers⟩
  · have hlog : accepted (log ++ [key.record maxRequests window call]) = accepted log ++ [call.now] := by
      rw [accepted_append,accepted_singleton hallowed]
      rfl
    -- a timestamp that is there already would not have found a free place
    have hfresh : call.now ∉ (key.live window call).keys := fun hmem => absurd hroom (not_lt.mpr (hregular.2 hmem))
    refine ⟨?_,fun now hnow => ?_,fun now hnow u hu hwithin => ?_⟩
    · rw [hlog]
      exact h.bounded.concat (hs.accepted_le hcall)
        ((Int.ofNat_le.mpr (h.windowCount_le hs hcall hregular)).trans_lt hroom)
    · rw [hlog,List.filter_append]
      refine List.Nodup.append (h.nodup now (hearlier hnow).1) ((List.nodup_singleton _).filter _) fun u hu hu' => ?_
      obtain rfl := List.mem_singleton.mp (List.mem_filter.mp hu').1
      obtain ⟨hu,hwithin⟩ := List.mem_filter.mp hu
      exact hfresh (hlive _ hu ((hearlier hnow).2.trans_lt (of_decide_eq_true hwithin)))
    · rw [hstep]
      rw [hlog] at hu
      rcases List.mem_append.mp hu with hu | hu
      · exact Dict.mem_keys_insert.mpr (Or.inr (hlive u hu ((hearlier hnow).2.trans_lt hwithin)))
      · exact Dict.mem_keys_insert.mpr (Or.inl (List.mem_singleton.mp hu))
  · have hlog : accepted (log ++ [key.record maxRequests window call]) = accepted log := by
      rw [accepted_append,accepted_singleton_of_false hrejected,List.append_nil]
    refine ⟨hlog ▸ h.bounded,fun now hnow => hlog ▸ h.nodup now (hearlier hnow).1,fun now hnow u hu hwithin => ?_⟩
    rw [hmembers]
    exact hlive u (hlog ▸ hu) ((hearlier hnow).2.trans_lt hwithin)

theorem counted_run (hwindow : 0 < window) (hmax : 0 ≤ maxRequests) {calls : List (RedisCall K)}
    (hordered : Ordered calls)
    (hregular : Along (RedisKey.step maxRequests window) (Regular maxRequests window) absent calls) :
    (run (RedisKey.step maxRequests window) absent calls).Counted maxRequests window calls
      (records maxRequests window absent calls) := by
  induction calls using List.reverseRecOn with
  | nil => exact ⟨windowBounded_nil hmax,fun _ _ => List.nodup_nil,fun _ _ u hu => absurd hu List.not_mem_nil⟩
  | append_singleton calls call ih =>
    rw [run_append,records,observed_concat]
    exact (ih hordered.before hregular.append.1).step (sound_run maxRequests hwindow calls) hwindow hordered.le_last
      hregular.append.2.1

end Bound

section Duplicates
variable [IsStrictOrderedRing K]

/-- The timestamp is that of a member, and there is a free place. -/
structure Stuck (maxRequests window : ℤ) (key : RedisKey K) (call : RedisCall K) : Prop where
  scored : key.Scored
  mem : call.now ∈ (key.live window call).keys
  room : (key.live window call).size < maxRequests

/-- After a call that is accepted, the next one with its timestamp counts no more members. -/
theorem live_step (hwindow : 0 < window) (hscored : key.Scored) (hroom : (key.live window call).size < maxRequests) :
    (key.record maxRequests window call).allowed = true ∧
      call.now ∈ ((key.step maxRequests window call).live window call).keys ∧
      ((key.step maxRequests window call).live window call).size ≤
        ((key.live window call).insert call.now call.now).size := by
  rcases key.allowRequest_cases maxRequests hwindow call with ⟨-,hallowed,hstep⟩ | ⟨hfull,-,-⟩
  · have hlater : ¬(key.step maxRequests window call).Expired call.server := by
      rw [hstep]
      rintro ⟨deadline,hdeadline,hle⟩
      obtain rfl := Option.mem_some_iff.mp hdeadline
      have hpos : (0 : K) < (window + 1 : ℤ) := by exact_mod_cast (by omega : 0 < window + 1)
      linarith
    refine ⟨hallowed,(mem_keys_live (hscored.step hwindow)).mpr ⟨hlater,?_,?_⟩,?_⟩
    · rw [hstep]
      exact Dict.mem_keys_insert.mpr (Or.inl rfl)
    · have hpos : (0 : K) < window := by exact_mod_cast hwindow
      exact fun hremoved => absurd hremoved.2 (by linarith)
    · unfold live find
      rw [if_neg hlater,hstep]
      exact Dict.size_filter_le _ _
  · exact absurd hroom (not_lt.mpr hfull)

theorem Stuck.step (h : key.Stuck maxRequests window call) (hwindow : 0 < window) :
    (key.step maxRequests window call).Stuck maxRequests window call := by
  obtain ⟨-,hmem,hsize⟩ := live_step hwindow h.scored h.room
  rw [Dict.size_insert_of_mem h.mem] at hsize
  exact ⟨h.scored.step hwindow,hmem,(Int.ofNat_le.mpr hsize).trans_lt h.room⟩

/-- From then on every request with the timestamp is accepted. -/
theorem Stuck.accepted_replicate (h : key.Stuck maxRequests window call) (hwindow : 0 < window) (n : ℕ) :
    accepted (key.records maxRequests window (List.replicate n call)) = List.replicate n call.now := by
  induction n generalizing key with
  | zero => rfl
  | succ n ih =>
    obtain ⟨hallowed,-⟩ := live_step hwindow h.scored h.room
    change accepted ([key.record maxRequests window call] ++
      (key.step maxRequests window call).records maxRequests window (List.replicate n call)) = _
    rw [accepted_append,accepted_singleton hallowed,ih (h.step hwindow)]
    rfl

theorem windowCount_replicate (hwindow : 0 < window) (n : ℕ) (now : K) :
    windowCount (window : K) (List.replicate n now) now = n := by
  have hpos : (0 : K) < window := by exact_mod_cast hwindow
  rw [windowCount,List.countP_replicate,if_pos (decide_eq_true ⟨by linarith,le_rfl⟩)]

theorem Stuck.exists_overfull (h : key.Stuck maxRequests window call) (hwindow : 0 < window)
    (log : List (RedisRecord K)) :
    ∃ n, maxRequests < (windowCount (window : K)
      (accepted (log ++ key.records maxRequests window (List.replicate n call))) call.now : ℤ) := by
  refine ⟨maxRequests.toNat + 1,?_⟩
  rw [accepted_append,windowCount_append,h.accepted_replicate hwindow,windowCount_replicate hwindow]
  push_cast
  omega

/-- After a call that is not regular there are soon too many requests with its timestamp. -/
theorem exists_overfull (hs : key.Sound maxRequests calls log) (hwindow : 0 < window)
    (hcall : ∀ call' ∈ calls, call'.now ≤ call.now) (hregular : ¬key.Regular maxRequests window call) :
    ∃ n, maxRequests < (windowCount (window : K)
      (accepted (log ++ key.records maxRequests window (List.replicate n call))) call.now : ℤ) := by
  rcases not_and_or.mp hregular with hexpired | hduplicate
  · -- the script does not see an accepted request that is in the window
    push Not at hexpired
    obtain ⟨hexpired,u,hu,hwithin⟩ := hexpired
    have hmem := hs.members_accepted u hu
    have hnone : key.live window call = Dict.empty := by
      unfold live find
      rw [if_pos hexpired]
      rfl
    have hroom : (key.live window call).size < maxRequests := by
      rw [hnone]
      exact hs.positive (List.ne_nil_of_mem hmem)
    obtain ⟨hallowed,hnow,hsize⟩ := live_step hwindow hs.scored hroom
    rw [hnone] at hsize
    rcases lt_or_ge 1 maxRequests with hmore | hone
    · have hstuck : (key.step maxRequests window call).Stuck maxRequests window call :=
        ⟨hs.scored.step hwindow,hnow,(Int.ofNat_le.mpr hsize).trans_lt hmore⟩
      obtain ⟨n,hn⟩ := hstuck.exists_overfull hwindow (log ++ [key.record maxRequests window call])
      rw [List.append_assoc] at hn
      exact ⟨n + 1,hn⟩
    · have hpos : (0 : K) < window := by exact_mod_cast hwindow
      have hfirst : 0 < windowCount (window : K) (accepted log) call.now :=
        List.countP_pos_iff.mpr ⟨u,hmem,decide_eq_true ⟨hwithin,hs.accepted_le hcall u hmem⟩⟩
      have hsecond : windowCount (window : K) (accepted [key.record maxRequests window call]) call.now = 1 := by
        rw [accepted_singleton hallowed]
        exact windowCount_replicate hwindow 1 call.now
      refine ⟨1,?_⟩
      change _ < (windowCount (window : K) (accepted (log ++ [key.record maxRequests window call])) call.now : ℤ)
      rw [accepted_append,windowCount_append,hsecond]
      push_cast
      omega
  · push Not at hduplicate
    have hstuck : key.Stuck maxRequests window call := ⟨hs.scored,hduplicate.1,hduplicate.2⟩
    exact hstuck.exists_overfull hwindow log

end Duplicates

theorem windowCount_of_nonpos [IsStrictOrderedRing K] (hwindow : window ≤ 0) (times : List K) (t : K) :
    windowCount (window : K) times t = 0 := by
  have hcast : (window : K) ≤ 0 := by exact_mod_cast hwindow
  refine List.countP_eq_zero.mpr fun u _ => ?_
  simp only [decide_eq_true_eq,not_and,not_le]
  exact fun hu => (le_sub_self_iff t).mpr hcast |>.trans_lt hu

/-- The bound holds when the calls are regular. After any other call more requests with its
timestamp exceed it. -/
theorem redis_window_bound [IsStrictOrderedRing K] (maxRequests window : ℤ) :
    (0 ≤ maxRequests → ∀ calls : List (RedisCall K), Ordered calls →
      (0 < window → Along (step maxRequests window) (Regular maxRequests window) absent calls) →
      ∀ t, (windowCount (window : K) (accepted (records maxRequests window absent calls)) t : ℤ) ≤ maxRequests) ∧
    (0 < window → ∀ (calls : List (RedisCall K)) call, Ordered (calls ++ [call]) →
      ¬(run (step maxRequests window) absent calls).Regular maxRequests window call →
      ∃ n, maxRequests < (windowCount (window : K)
        (accepted (records maxRequests window absent (calls ++ List.replicate n call))) call.now : ℤ)) ∧
    (maxRequests < 0 → ∀ (calls : List (RedisCall K)) (t : K),
      maxRequests < (windowCount (window : K) (accepted (records maxRequests window absent calls)) t : ℤ)) := by
  refine ⟨fun hmax calls hordered hregular t => ?_,fun hwindow calls call hordered hregular => ?_,
    fun hnegative calls t => hnegative.trans_le (Int.natCast_nonneg _)⟩
  · rcases lt_or_ge 0 window with hwindow | hnone
    · exact (counted_run hwindow hmax hordered (hregular hwindow)).bounded t
    · rw [windowCount_of_nonpos hnone]
      exact hmax
  · obtain ⟨n,hn⟩ := exists_overfull (sound_run maxRequests hwindow calls) hwindow hordered.le_last hregular
    refine ⟨n,?_⟩
    unfold records at hn ⊢
    rw [observed_append]
    exact hn

/-- Two requests in a minute, with timestamps of their own. -/
theorem redis_window_bound_two_requests :
    WindowBounded ((60 : ℤ) : ℚ) 2 (accepted (records 2 60 absent [⟨100,100⟩,⟨101,101⟩,⟨102,102⟩])) :=
  (redis_window_bound 2 60).1 (by decide) _ (by simp [Ordered]; decide) (fun _ => by decide +kernel)

/-- Three requests at one time fill one place of two. -/
theorem redis_window_with_equal_timestamps :
    ¬∀ (maxRequests window : ℤ) (calls : List (RedisCall ℚ)), 0 ≤ maxRequests → Ordered calls → ∀ t,
      (windowCount (window : ℚ) (accepted (records maxRequests window absent calls)) t : ℤ) ≤ maxRequests := by
  intro h
  have hbound := h 2 60 [⟨100,100⟩,⟨100,100⟩,⟨100,100⟩] (by decide) (by simp [Ordered]) 100
  have hcount : windowCount ((60 : ℤ) : ℚ)
      (accepted (records 2 60 absent [⟨100,100⟩,⟨100,100⟩,⟨100,100⟩])) 100 = 3 := by decide +kernel
  rw [hcount] at hbound
  exact absurd hbound (by decide)

end RedisKey
end DistributedSystems.RateLimiting
