import DistributedSystems.Raft.NextIndex
import DistributedSystems.Raft.Replies

/-! # Clients see one sequential machine

The committed entries are one sequence, which every node applies. A result that a client gets is
the answer of a single machine to the entry at one place of it, no two requests share a place, and
a request submitted after another one was answered stands behind it.
-/
namespace DistributedSystems.Raft
open ReplicatedLog
variable {Id Cmd : Type} [DecidableEq Id] {M : StateMachine Cmd} {cfg : Config Id}

/-- Lists of which any two are comparable are prefixes of one list. -/
theorem exists_isPrefix_all {ι α : Type} (P : ι → List α) (xs : List ι) (h : ∀ a b, P a <+: P b ∨ P b <+: P a) :
    ∃ H, ∀ a ∈ xs, P a <+: H := by
  rcases xs with _ | ⟨x,xs⟩
  · exact ⟨[],fun a ha => absurd ha List.not_mem_nil⟩
  have hlongest : ∃ y, ∀ a ∈ x :: xs, P a <+: P y := by
    induction xs generalizing x with
    | nil => exact ⟨x,fun a ha => List.mem_singleton.mp ha ▸ List.prefix_refl _⟩
    | cons x' xs ih =>
      obtain ⟨y,hy⟩ := ih x'
      rcases h x y with hxy | hyx
      · refine ⟨y,fun a ha => ?_⟩
        rcases List.mem_cons.mp ha with rfl | ha
        · exact hxy
        · exact hy a ha
      · refine ⟨x,fun a ha => ?_⟩
        rcases List.mem_cons.mp ha with rfl | ha
        · exact List.prefix_refl _
        · exact (hy a ha).trans hyx
  obtain ⟨y,hy⟩ := hlongest
  exact ⟨P y,hy⟩

namespace RaftNode

omit [DecidableEq Id] in
theorem Holds.appliedUpTo {n : RaftNode Id M} {L : List (LogEntry Cmd)} (h : n.Holds L) {m : ℕ} (hm : m ≤ n.lastApplied) :
    n.appliedUpTo m = L.take m := by
  have hle := h.applied_le
  have hlen := h.commit_le
  induction m with
  | zero => rfl
  | succ m ih =>
    have hlt : m < L.length := by omega
    rw [appliedUpTo_succ,ih (by omega),h.applied m (by omega),List.getElem?_eq_getElem hlt,Option.toList_some,
      List.take_concat_get' L m hlt]

omit [DecidableEq Id] in
/-- A reply is the result at its place of the log. -/
theorem Holds.resultAt {n : RaftNode Id M} {L H : List (LogEntry Cmd)} (h : n.Holds L) (hH : L.take n.commitIndex <+: H)
    {index : ℕ} {r : M.Result} (hr : n.Replied index r) : resultAt M H (index - 1) = some r := by
  obtain ⟨hpos,hle,e,he,hreply⟩ := hr
  have hcommit := h.applied_le
  have hlen := h.commit_le
  have hlt : index - 1 < (L.take n.commitIndex).length := by
    rw [List.length_take]
    omega
  obtain ⟨rest,rfl⟩ := hH
  have hentry : (L.take n.commitIndex)[index - 1] = e := by
    have happlied := h.applied (index - 1) (by omega)
    rw [Nat.sub_add_cancel hpos,he] at happlied
    rw [List.getElem_take]
    exact (List.getElem?_eq_some_iff.mp happlied.symm).2
  have htake : (L.take n.commitIndex).take (index - 1) = n.appliedUpTo (index - 1) := by
    rw [h.appliedUpTo (by omega),List.take_take,min_eq_left (by omega)]
  rw [resultAt_append hlt,resultAt_of_lt hlt,hentry,htake]
  exact hreply

end RaftNode

namespace Cluster

/-- Every future was handed out by the leader of the term of its entry, one place after the other. -/
structure Submissions (c : Cluster Id M) (s : Abstract Id Cmd) : Prop where
  own : ∀ i, ∀ e ∈ (c.nodes i).submitted, s.leader e.term = some i ∧ e.index ≤ (s.leaderLog e.term).length
  sorted : ∀ i, (c.nodes i).submitted.Pairwise fun a b => a.term = b.term → a.index < b.index

/-- What futures were handed out for since `c₁` lies beyond what leaders had then. -/
def Newer (c₁ : Cluster Id M) (s₁ : Abstract Id Cmd) (c : Cluster Id M) : Prop :=
  ∀ i, ∃ added, (c.nodes i).submitted = (c₁.nodes i).submitted ++ added ∧
    ∀ e ∈ added, s₁.Led e.term → (s₁.leaderLog e.term).length < e.index

section Step
variable {c : Cluster Id M} {s s' : Abstract Id Cmd}

/-- A new entry is the next one of the leader that appends it. -/
theorem submitted_step (h : Refines cfg c s) (hv : VoteInv cfg c) (a : Action Id Cmd) (h' : Refines cfg (c.step cfg a) s')
    (hv' : VoteInv cfg (c.step cfg a)) (i : Id) : ((c.step cfg a).nodes i).submitted = (c.nodes i).submitted ∨
      ∃ e, ((c.step cfg a).nodes i).submitted = (c.nodes i).submitted ++ [e] ∧ s.leader e.term = some i ∧
        e.index = (s.leaderLog e.term).length + 1 ∧ e.index ≤ (s'.leaderLog e.term).length := by
  have hnode := congrFun (step_nodes cfg c a) i
  cases hm : c.method cfg a with
  | none =>
    rw [hm] at hnode
    rw [hnode]
    exact Or.inl rfl
  | some im =>
    obtain ⟨j,m⟩ := im
    rw [hm] at hnode
    by_cases hij : i = j
    · subst hij
      have hcall : (c.step cfg a).nodes i = (c.nodes i).call m := hnode.trans (Function.update_self ..)
      rcases (c.nodes i).submitted_call m with he | ⟨command,rfl,hl,he⟩
      · rw [hcall]
        exact Or.inl he
      · have hi := h.node i
        have hlead := (hi.leader _).mpr ((hv.node i).leading.mp hl)
        have hlog : s.log i = s.leaderLog (c.nodes i).currentTerm := h.inv.matching.leading _ i hlead hi.term
        have hsubmit : (c.nodes i).call (.submitCommand command) = ((c.nodes i).submitCommand command).1 := rfl
        have hnext : ((c.step cfg a).nodes i).state = .leader ∧
            ((c.step cfg a).nodes i).currentTerm = (c.nodes i).currentTerm ∧
            ((c.step cfg a).nodes i).log.len = (c.nodes i).log.len + 1 := by
          rw [hcall,hsubmit]
          unfold RaftNode.submitCommand
          rw [if_neg (not_not.mpr hl)]
          exact ⟨hl,rfl,RaftLog.append_len ..⟩
        obtain ⟨hl',hterm,hlen⟩ := hnext
        have hi' := h'.node i
        have hlead' := (hi'.leader _).mpr ((hv'.node i).leading.mp hl')
        have hlog' : s'.log i = s'.leaderLog ((c.step cfg a).nodes i).currentTerm :=
          h'.inv.matching.leading _ i hlead' hi'.term
        rw [hi.holds.log.len,hi'.holds.log.len,hlog,hlog',hterm] at hlen
        refine Or.inr ⟨_,(congrArg RaftNode.submitted hcall).trans he,hlead,?_,?_⟩
        · rw [hi.holds.log.len,hlog]
        · rw [hi.holds.log.len,hlog]
          exact hlen.ge
    · refine Or.inl ?_
      rw [hnode]
      exact congrArg RaftNode.submitted (Function.update_of_ne hij ..)

theorem Submissions.step (h : Submissions c s) (href : Refines cfg c s) (hv : VoteInv cfg c) (a : Action Id Cmd)
    (href' : Refines cfg (c.step cfg a) s') (hv' : VoteInv cfg (c.step cfg a))
    (hs : Steps (quorums cfg) LogEntry.term Positioned s s') : Submissions (c.step cfg a) s' := by
  have hgrows := (href.inv.extends hs).grows
  have hold : ∀ i, ∀ e ∈ (c.nodes i).submitted, s'.leader e.term = some i ∧ e.index ≤ (s'.leaderLog e.term).length := by
    intro i e he
    obtain ⟨hlead,hle⟩ := h.own i e he
    exact ⟨hgrows.leader _ _ hlead,hle.trans (hgrows.prefix_leaderLog ⟨i,hlead⟩).length_le⟩
  constructor
  · intro i e he
    rcases submitted_step href hv a href' hv' i with heq | ⟨new,heq,hlead,-,hle⟩
    · rw [heq] at he
      exact hold i e he
    · rw [heq] at he
      rcases List.mem_append.mp he with he | he
      · exact hold i e he
      · rw [List.mem_singleton.mp he]
        exact ⟨hgrows.leader _ _ hlead,hle⟩
  · intro i
    rcases submitted_step href hv a href' hv' i with heq | ⟨new,heq,-,hindex,-⟩
    · rw [heq]
      exact h.sorted i
    · rw [heq,List.pairwise_append]
      refine ⟨h.sorted i,List.pairwise_singleton ..,fun e he e' he' hterm => ?_⟩
      obtain rfl := List.mem_singleton.mp he'
      have hle := (h.own i e he).2
      rw [hterm] at hle
      omega

theorem Newer.step {c₁ : Cluster Id M} {s₁ : Abstract Id Cmd} (h : Newer c₁ s₁ c) (hgrows : Grows LogEntry.term s₁ s)
    (href : Refines cfg c s) (hv : VoteInv cfg c) (a : Action Id Cmd) (href' : Refines cfg (c.step cfg a) s')
    (hv' : VoteInv cfg (c.step cfg a)) : Newer c₁ s₁ (c.step cfg a) := by
  intro i
  obtain ⟨added,hadded,hnew⟩ := h i
  rcases submitted_step href hv a href' hv' i with heq | ⟨e,heq,-,hindex,-⟩
  · exact ⟨added,heq.trans hadded,hnew⟩
  · refine ⟨added ++ [e],by rw [heq,hadded,List.append_assoc],fun e' he' hled => ?_⟩
    rcases List.mem_append.mp he' with he' | he'
    · exact hnew e' he' hled
    · obtain rfl := List.mem_singleton.mp he'
      have hle := (hgrows.prefix_leaderLog hled).length_le
      omega

end Step

/-- One sequence of entries explains the replies of the later state, and agrees with the order
in which clients asked. -/
structure Linearizes (cfg : Config Id) (earlier later : Cluster Id M) (history : List (LogEntry Cmd)) : Prop where
  applied : ∀ i ∈ cfg.members, (later.nodes i).stateMachine = replay M (history.take (later.nodes i).lastApplied) ∧
    ∀ k < (later.nodes i).lastApplied, (later.nodes i).applied (k + 1) = history[k]?
  replies : ∀ i ∈ cfg.members, ∀ future ∈ (later.nodes i).futures, ∀ r, future.result = some r →
    0 < future.entry.index ∧ history[future.entry.index - 1]? = some future.entry ∧
      resultAt M history (future.entry.index - 1) = some r
  once : ∀ (i j : Id) (f g : ℕ) (future future' : Future Cmd M.Result), (later.nodes i).futures[f]? = some future →
    (later.nodes j).futures[g]? = some future' → future.result.isSome → future'.result.isSome →
    future.entry.index = future'.entry.index → i = j ∧ f = g
  realTime : ∀ (i j : Id) (g : ℕ) (future future' : Future Cmd M.Result), future ∈ (earlier.nodes i).futures → future.result.isSome →
    (earlier.nodes j).futures.length ≤ g → (later.nodes j).futures[g]? = some future' → future'.result.isSome →
    future.entry.index < future'.entry.index

/-- What is known of a cluster in a run that goes on from `c₁`. -/
structure Follows (cfg : Config Id) (c₁ : Cluster Id M) (s₁ : Abstract Id Cmd) (c : Cluster Id M) (s : Abstract Id Cmd) :
    Prop where
  steps : Steps (quorums cfg) LogEntry.term Positioned s₁ s
  refines : Refines cfg c s
  votes : VoteInv cfg c
  submissions : Submissions c s
  newer : Newer c₁ s₁ c
  pending : ∀ i, (c.nodes i).PendingInv
  replays : ∀ i, (c.nodes i).Replays

namespace Follows
variable {c₁ c : Cluster Id M} {s₁ s : Abstract Id Cmd}

theorem init (M : StateMachine Cmd) (cfg : Config Id) :
    Follows cfg (Cluster.init M cfg) (State.init Id (LogEntry Cmd)) (Cluster.init M cfg) (State.init Id (LogEntry Cmd)) where
  steps := Relation.ReflTransGen.refl
  refines := Refines.init M cfg
  votes := VoteInv.init M cfg
  submissions := ⟨fun _ _ he => absurd he List.not_mem_nil,fun _ => List.Pairwise.nil⟩
  newer _ := ⟨[],rfl,fun _ he => absurd he List.not_mem_nil⟩
  pending _ := RaftNode.pendingInv_init ..
  replays _ := RaftNode.replays_init ..

/-- A run may be cut anywhere. -/
theorem restart (h : Follows cfg c₁ s₁ c s) : Follows cfg c s c s where
  steps := Relation.ReflTransGen.refl
  refines := h.refines
  votes := h.votes
  submissions := h.submissions
  newer _ := ⟨[],(List.append_nil _).symm,fun _ he => absurd he List.not_mem_nil⟩
  pending := h.pending
  replays := h.replays

theorem step (hinv : AbstractInv cfg s₁) (h : Follows cfg c₁ s₁ c s) {a : Action Id Cmd} (ha : Sound c a)
    (hk : KeepsPending c a) : ∃ s', Follows cfg c₁ s₁ (c.step cfg a) s' := by
  obtain ⟨s',hs,href'⟩ := h.refines.step h.votes a ha
  have hv' := h.votes.step a ha.1
  have hgrows := (hinv.extends h.steps).grows
  exact ⟨s',h.steps.trans hs,href',hv',h.submissions.step h.refines h.votes a href' hv' hs,
    h.newer.step hgrows h.refines h.votes a href' hv',pendingInv_step cfg h.pending hk,
    forall_nodes_step h.replays fun i m _ hi => hi.call m⟩

theorem run (hinv : AbstractInv cfg s₁) (h : Follows cfg c₁ s₁ c s) {schedule : List (Action Id Cmd)}
    (hrun : Runs.Along (Cluster.step cfg) (fun c a => Sound c a ∧ KeepsPending c a) c schedule) :
    ∃ s', Follows cfg c₁ s₁ (Runs.run (Cluster.step cfg) c schedule) s' :=
  Runs.run_invariant (P := fun c a => Sound c a ∧ KeepsPending c a) (I := fun c => ∃ s', Follows cfg c₁ s₁ c s')
    (fun _ _ ⟨_,hc⟩ ha => hc.step hinv ha.1 ha.2) ⟨s,h⟩ hrun

/-- A future that is resolved reports the entry that the log has at its place. -/
theorem resolved (h : Follows cfg c₁ s₁ c s) {i : Id} {future : Future Cmd M.Result} (hf : future ∈ (c.nodes i).futures)
    (hr : future.result.isSome) : 0 < future.entry.index ∧ future.entry.index ≤ (c.nodes i).lastApplied ∧
      (c.nodes i).applied future.entry.index = some future.entry ∧
      (s.log i)[future.entry.index - 1]? = some future.entry := by
  obtain ⟨r,hr'⟩ := Option.isSome_iff_exists.mp hr
  obtain ⟨hpos,hle,-⟩ := (h.replays i).results future hf r hr'
  have happlied := ((h.pending i).resolved future hf hr).2
  have hlog := (h.refines.node i).holds.applied (future.entry.index - 1) (by omega)
  rw [Nat.sub_add_cancel hpos] at hlog
  exact ⟨hpos,hle,happlied,hlog.symm.trans happlied⟩

/-- Futures of one leader in one term stand in the order in which they were handed out. -/
theorem index_lt (h : Follows cfg c₁ s₁ c s) {i : Id} {f g : ℕ} {future future' : Future Cmd M.Result} (hfg : f < g)
    (hf : (c.nodes i).futures[f]? = some future) (hg : (c.nodes i).futures[g]? = some future')
    (hterm : future.entry.term = future'.entry.term) : future.entry.index < future'.entry.index := by
  have hsorted := List.pairwise_iff_getElem.mp (h.submissions.sorted i)
  obtain ⟨hlt,rfl⟩ := List.getElem?_eq_some_iff.mp hf
  obtain ⟨hlt',rfl⟩ := List.getElem?_eq_some_iff.mp hg
  have he := hsorted f g (by simpa [RaftNode.submitted] using hlt) (by simpa [RaftNode.submitted] using hlt') hfg
  simp only [RaftNode.submitted,List.getElem_map] at he
  exact he hterm

theorem once (h : Follows cfg c₁ s₁ c s) {i j : Id} {f g : ℕ} {future future' : Future Cmd M.Result}
    (hf : (c.nodes i).futures[f]? = some future) (hg : (c.nodes j).futures[g]? = some future')
    (hr : future.result.isSome) (hr' : future'.result.isSome) (hindex : future.entry.index = future'.entry.index) :
    i = j ∧ f = g := by
  have hmem := List.mem_of_getElem? hf
  have hmem' := List.mem_of_getElem? hg
  obtain ⟨hpos,hle,happlied,-⟩ := h.resolved hmem hr
  obtain ⟨-,hle',happlied',-⟩ := h.resolved hmem' hr'
  rw [← hindex] at hle' happlied'
  obtain ⟨e,he,he'⟩ := h.refines.applied_eq hpos hle hle'
  have hentry : future.entry = future'.entry :=
    Option.some.inj ((happlied.symm.trans he).trans (he'.symm.trans happlied'))
  have hlead := (h.submissions.own i _ (List.mem_map_of_mem hmem)).1
  have hlead' := (h.submissions.own j _ (List.mem_map_of_mem hmem')).1
  rw [hentry] at hlead
  obtain rfl := Option.some.inj (hlead.symm.trans hlead')
  refine ⟨rfl,?_⟩
  rcases lt_trichotomy f g with hlt | heq | hgt
  · have := h.index_lt hlt hf hg (congrArg LogEntry.term hentry)
    omega
  · exact heq
  · have := h.index_lt hgt hg hf (congrArg LogEntry.term hentry.symm)
    omega

end Follows

/-- An answer that was given stands before every entry appended later: the log had no place left for it. -/
theorem index_lt_of_answered {c₁ c : Cluster Id M} {s₀ s₁ s : Abstract Id Cmd} {c₀ : Cluster Id M}
    (h₁ : Follows cfg c₀ s₀ c₁ s₁) (h : Follows cfg c₁ s₁ c s) {i j : Id} {g : ℕ} {future future' : Future Cmd M.Result}
    (hf : future ∈ (c₁.nodes i).futures) (hr : future.result.isSome) (hg : (c₁.nodes j).futures.length ≤ g)
    (hf' : (c.nodes j).futures[g]? = some future') (hr' : future'.result.isSome) :
    future.entry.index < future'.entry.index := by
  by_contra hge
  have hmem' := List.mem_of_getElem? hf'
  obtain ⟨-,hle,-,-⟩ := h₁.resolved hf hr
  obtain ⟨hpos',hle',-,hlog'⟩ := h.resolved hmem' hr'
  have hi := h₁.refines.node i
  have hj := h.refines.node j
  have happ := hi.holds.applied_le
  have happ' := hj.holds.applied_le
  have hlen := hi.holds.commit_le
  have hlen' := hj.holds.commit_le
  -- the entry of the later future was applied already
  have hcommitted := (h₁.refines.inv.extends h.steps).committed hi.committed (le_refl _)
  have hcomp := Refines.getElem?_of_comparable (k := future'.entry.index - 1)
    (h.refines.inv.committed_comparable hcommitted hj.committed) (by rw [List.length_take]; omega)
    (by rw [List.length_take]; omega)
  rw [List.getElem?_take_of_lt (by omega),List.getElem?_take_of_lt (by omega),hlog'] at hcomp
  obtain ⟨hlt,hentry⟩ := List.getElem?_eq_some_iff.mp hcomp
  obtain ⟨hled,hwithin⟩ := h₁.refines.inv.matching.log i (future'.entry.index - 1) hlt
  rw [hentry] at hled hwithin
  have hwithin := hwithin.length_le
  rw [List.length_take] at hwithin
  -- but a leader appends behind all it has
  obtain ⟨added,hadded,hnew⟩ := h.newer j
  have hin : future'.entry ∈ added := by
    have hat : (c.nodes j).submitted[g]? = some future'.entry := by
      unfold RaftNode.submitted
      rw [List.getElem?_map,hf']
      rfl
    rw [hadded,List.getElem?_append_right (by simpa [RaftNode.submitted] using hg)] at hat
    exact List.mem_of_getElem? hat
  have := hnew _ hin hled
  omega

/-- In a run that follows the protocol and overwrites no entry whose client waits, at any two
moments, the replies are those of one machine that takes the requests one by one, in an order that
puts a request behind those answered before it was made. -/
theorem linearizable (M : StateMachine Cmd) (cfg : Config Id) (first second : List (Action Id Cmd))
    (h : Runs.Along (Cluster.step cfg) (fun c a => Sound c a ∧ KeepsPending c a) (Cluster.init M cfg) (first ++ second)) :
    let earlier := Runs.run (Cluster.step cfg) (Cluster.init M cfg) first
    ∃ history, Linearizes cfg earlier (Runs.run (Cluster.step cfg) earlier second) history := by
  intro earlier
  obtain ⟨hfirst,hsecond⟩ := h.append
  obtain ⟨s₁,h₁⟩ := (Follows.init M cfg).run (Refines.init M cfg).inv hfirst
  obtain ⟨s,hlater⟩ := h₁.restart.run h₁.refines.inv hsecond
  set later := Runs.run (Cluster.step cfg) earlier second
  obtain ⟨history,hhistory⟩ := exists_isPrefix_all (fun i => (s.log i).take (later.nodes i).commitIndex) cfg.members
    fun i j => hlater.refines.inv.committed_comparable (hlater.refines.node i).committed (hlater.refines.node j).committed
  refine ⟨history,fun i hi => ?_,fun i hi future hf r hr => ?_,fun i j f g future future' hf hg hr hr' hindex => ?_,
    fun i j g future future' hf hr hg hf' hr' => index_lt_of_answered h₁ hlater hf hr hg hf' hr'⟩
  · have hh := (hlater.refines.node i).holds
    have happ := hh.applied_le
    have hlen := hh.commit_le
    have hwithin : (s.log i).take (later.nodes i).lastApplied <+: history :=
      (List.take_prefix_take_left happ).trans (hhistory i hi)
    constructor
    · rw [(hlater.replays i).store,hh.appliedUpTo (le_refl _),List.prefix_iff_eq_take.mp hwithin,List.length_take,
        min_eq_left (happ.trans hlen)]
    · intro k hk
      rw [hh.applied k hk]
      obtain ⟨rest,hrest⟩ := hwithin
      rw [← hrest,List.getElem?_append_left (by rw [List.length_take]; omega),List.getElem?_take_of_lt hk]
  · obtain ⟨hpos,hle,-,hlog⟩ := hlater.resolved hf (Option.isSome_iff_exists.mpr ⟨r,hr⟩)
    have hh := (hlater.refines.node i).holds
    have happ := hh.applied_le
    have hlen := hh.commit_le
    refine ⟨hpos,?_,hh.resultAt (hhistory i hi) ((hlater.replays i).results future hf r hr)⟩
    obtain ⟨rest,hrest⟩ := hhistory i hi
    rw [← hrest,List.getElem?_append_left (by rw [List.length_take]; omega),List.getElem?_take_of_lt (by omega)]
    exact hlog
  · exact hlater.once hf hg hr hr' hindex

/-- Node 0 leads and commits a write; when the client knows, it reads the key and learns the value. -/
theorem linearizable_read_after_write :
    let earlier := Runs.run (Cluster.step threeNodes) (Cluster.init (KeyValueStateMachine ℕ ℕ) threeNodes)
      [.start 0,.start 1,.start 2,.electionTimeout 0,.handleRequestVote 0,.requestVoteReply 0,
        .submitCommand 0 ⟨.set,some 1,some 10⟩,.sendAppendEntries 0 1,.handleAppendEntries 0,.appendEntriesReply 0]
    let later := Runs.run (Cluster.step threeNodes) earlier [.submitCommand 0 ⟨.get,some 1,none⟩,.sendAppendEntries 0 1,
      .handleAppendEntries 1,.appendEntriesReply 1]
    ((later.nodes 0).futures.map Future.result = [some (.stored 1),some (.found (some 10))]) ∧
      ∃ history, Linearizes threeNodes earlier later history :=
  ⟨rfl,linearizable (KeyValueStateMachine ℕ ℕ) threeNodes _ _ (by decide)⟩

end Cluster

end DistributedSystems.Raft
