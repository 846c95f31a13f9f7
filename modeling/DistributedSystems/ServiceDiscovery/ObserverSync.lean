import DistributedSystems.ServiceDiscovery.ServiceRegistry

/-! # What observers know

A health check tells the observers about every status it changes. A heartbeat changes a
status too, and tells nobody.
-/
namespace DistributedSystems.ServiceDiscovery.ServiceRegistry
open Runs

variable {s : ServiceRegistry} {callback : ℕ}

/-- The observer is there, and so are the instances that anything refers to. -/
structure Observed (callback : ℕ) (s : ServiceRegistry) : Prop where
  observer : callback ∈ s.observers
  notified : ∀ e ∈ s.notified, e.2.1 < s.instances.length
  known : ∀ inst ∈ s.instances, inst.status ≠ .unknown
  sync : s.InSync callback

/-- Registered instances exist. -/
theorem Observed.lt_length (h : Observed callback s) {serviceName : String} {k : ℕ} (hk : k ∈ s.registered serviceName) :
    k < s.instances.length := by
  obtain ⟨inst,hinst,-⟩ := Option.map_eq_some_iff.mp (h.sync serviceName k hk)
  exact (List.getElem?_eq_some_iff.mp hinst).1

theorem lastNotified_notifyObservers (hmem : callback ∈ s.observers) (k j : ℕ) (newStatus : ServiceStatus) :
    (s.notifyObservers k newStatus).lastNotified callback j = if j = k then newStatus else s.lastNotified callback j := by
  have hloop : ∀ (observers : List ℕ) (last : ServiceStatus),
      (observers.map fun c => (c,k,newStatus)).foldl
        (fun last e => if e.1 = callback ∧ e.2.1 = j then e.2.2 else last) last =
        if callback ∈ observers ∧ j = k then newStatus else last := by
    intro observers
    induction observers with
    | nil => simp
    | cons c rest ih =>
      intro last
      rw [List.map_cons,List.foldl_cons,ih]
      by_cases hj : j = k
      · by_cases hc : c = callback
        · simp [hj,hc]
        · simp [hj,hc,Ne.symm hc]
      · simp [hj,Ne.symm hj]
  unfold lastNotified notifyObservers
  rw [List.foldl_append,hloop]
  simp [hmem]

/-- Nobody was notified of an instance that is only being registered. -/
theorem Observed.lastNotified_length (h : Observed callback s) : s.lastNotified callback s.instances.length = .up := by
  have hloop : ∀ notified : List (ℕ × ℕ × ServiceStatus), (∀ e ∈ notified, e.2.1 < s.instances.length) →
      notified.foldl (fun last e => if e.1 = callback ∧ e.2.1 = s.instances.length then e.2.2 else last) .up = .up := by
    intro notified
    induction notified with
    | nil => exact fun _ => rfl
    | cons e rest ih =>
      intro hlt
      have he := hlt e List.mem_cons_self
      rw [List.foldl_cons,if_neg fun hand => by omega]
      exact ih fun e he => hlt e (List.mem_cons_of_mem _ he)
  exact hloop s.notified h.notified

theorem registered_insert (s : ServiceRegistry) (serviceName name : String) (instances : List ServiceInstance) (stats : Stats)
    (ks : List ℕ) : ({ s with instances := instances, services := s.services.insert serviceName ks, stats := stats } :
      ServiceRegistry).registered name = if name = serviceName then ks else s.registered name := by
  unfold registered
  rw [Dict.get?_insert]
  split <;> rfl

theorem observed_init (callback : ℕ) : Observed callback (init.addObserver callback) :=
  ⟨List.mem_singleton_self _,nofun,nofun,fun _ _ hk => absurd hk List.not_mem_nil⟩

theorem Observed.addObserver (h : Observed callback s) (c : ℕ) : Observed callback (s.addObserver c) :=
  ⟨List.mem_append_left _ h.observer,h.notified,h.known,h.sync⟩

theorem Observed.register (h : Observed callback s) {now : ℚ} {instanceId serviceName host : String} {port : ℤ}
    {url : Option String} {s' : ServiceRegistry} {id : String}
    (hs : s.register now instanceId serviceName host port url = .ok (s',id)) : Observed callback s' := by
  unfold ServiceRegistry.register at hs
  split_ifs at hs
  cases hs
  refine ⟨h.observer,?_,?_,?_⟩
  · intro e he
    rw [List.length_append]
    exact Nat.lt_add_right _ (h.notified e he)
  · intro inst hinst
    rcases List.mem_append.mp hinst with hinst | hinst
    · exact h.known inst hinst
    · simp [List.mem_singleton.mp hinst]
  · intro name k hk
    rw [registered_insert] at hk
    have hold : ∀ new : ServiceInstance, ∀ k ∈ s.registered name,
        (s.instances ++ [new])[k]?.map ServiceInstance.status = some (s.lastNotified callback k) := by
      intro new k hk
      rw [List.getElem?_append_left (h.lt_length hk)]
      exact h.sync name k hk
    split at hk
    · rename_i hname
      subst name
      rcases List.mem_append.mp hk with hk | hk
      · exact hold _ k hk
      · rw [List.mem_singleton.mp hk]
        simpa [lastNotified] using h.lastNotified_length.symm
    · exact hold _ k hk

theorem mem_registered_deregister {serviceName instanceId name : String} {k : ℕ}
    (hk : k ∈ (s.deregister serviceName instanceId).1.registered name) : k ∈ s.registered name := by
  by_cases hany : (s.registered serviceName).any (s.hasId instanceId) = true
  · have hservices : (s.deregister serviceName instanceId).1.services =
        if (s.registered serviceName).eraseP (s.hasId instanceId) = [] then s.services.erase serviceName
        else s.services.insert serviceName ((s.registered serviceName).eraseP (s.hasId instanceId)) := by
      rw [deregister,if_pos hany]
    rw [registered,hservices] at hk
    split at hk
    · rw [Dict.get?_erase] at hk
      split at hk
      · cases hk
      · exact hk
    · rw [Dict.get?_insert] at hk
      split at hk
      · rename_i hname
        rw [hname]
        exact List.mem_of_mem_eraseP hk
      · exact hk
  · rw [deregister,if_neg hany] at hk
    exact hk

theorem Observed.deregister (h : Observed callback s) (serviceName instanceId : String) :
    Observed callback (s.deregister serviceName instanceId).1 := by
  have hsame : (s.deregister serviceName instanceId).1.observers = s.observers ∧
      (s.deregister serviceName instanceId).1.notified = s.notified ∧
      (s.deregister serviceName instanceId).1.instances = s.instances := by
    unfold ServiceRegistry.deregister
    split <;> exact ⟨rfl,rfl,rfl⟩
  obtain ⟨hobservers,hnotified,hinstances⟩ := hsame
  refine ⟨hobservers ▸ h.observer,?_,hinstances ▸ h.known,?_⟩
  · rw [hnotified,hinstances]
    exact h.notified
  · intro name k hk
    rw [hinstances,lastNotified,hnotified]
    exact h.sync name k (mem_registered_deregister hk)

/-- The status of the instance at `k` after a change of one instance. -/
theorem status_modify (instances : List ServiceInstance) (k j : ℕ) (f : ServiceInstance → ServiceInstance) :
    (instances.modify k f)[j]?.map ServiceInstance.status =
      if j = k then instances[j]?.map fun inst => (f inst).status else instances[j]?.map ServiceInstance.status := by
  rw [List.getElem?_modify]
  by_cases hj : j = k
  · subst j
    cases instances[k]? <;> simp
  · cases instances[j]? <;> simp [hj,Ne.symm hj]

theorem forall_modify {instances : List ServiceInstance} {k : ℕ} {f : ServiceInstance → ServiceInstance}
    {P : ServiceInstance → Prop} (h : ∀ inst ∈ instances, P inst) (hf : ∀ inst, instances[k]? = some inst → P (f inst)) :
    ∀ inst ∈ instances.modify k f, P inst := by
  intro inst hinst
  obtain ⟨j,hj⟩ := List.mem_iff_getElem?.mp hinst
  rw [List.getElem?_modify] at hj
  obtain ⟨old,hold,rfl⟩ := Option.map_eq_some_iff.mp hj
  by_cases hk : k = j
  · subst j
    simpa using hf old hold
  · simpa [hk] using h old (List.mem_of_getElem? hold)

/-- A change of status that the observers are told about. -/
theorem Observed.setStatus (h : Observed callback s) {k : ℕ} (hk : k < s.instances.length) {newStatus : ServiceStatus}
    (hnew : newStatus ≠ .unknown) : Observed callback (notifyObservers
      { s with instances := s.instances.modify k fun inst => { inst with status := newStatus } } k newStatus) := by
  refine ⟨h.observer,?_,?_,?_⟩
  · intro e he
    change e.2.1 < (s.instances.modify k _).length
    rw [List.length_modify]
    rcases List.mem_append.mp he with he | he
    · exact h.notified e he
    · obtain ⟨c,-,rfl⟩ := List.mem_map.mp he
      exact hk
  · exact forall_modify h.known fun _ _ => hnew
  · intro name j hj
    rw [lastNotified_notifyObservers (s := { s with
      instances := s.instances.modify k fun inst => { inst with status := newStatus } }) h.observer]
    change (s.instances.modify k _)[j]?.map ServiceInstance.status = _
    rw [status_modify]
    split
    · rename_i hjk
      subst j
      rw [List.getElem?_eq_getElem hk]
      rfl
    · exact h.sync name j hj

theorem checkedStatus_ne_unknown (inst : ServiceInstance) (now : ℚ) (urlopen : String → Option ℕ) :
    inst.checkedStatus now urlopen ≠ .unknown := by
  unfold ServiceInstance.checkedStatus
  split_ifs <;> decide

theorem Observed.checkSingleInstance (h : Observed callback s) (now : ℚ) (urlopen : String → Option ℕ) (k : ℕ) :
    Observed callback (s.checkSingleInstance now urlopen k) := by
  unfold ServiceRegistry.checkSingleInstance
  cases hinst : s.instances[k]? with
  | none => exact h
  | some inst =>
    dsimp only
    split
    · have hset := h.setStatus (List.getElem?_eq_some_iff.mp hinst).1 (checkedStatus_ne_unknown inst now urlopen)
      exact ⟨hset.observer,hset.notified,hset.known,hset.sync⟩
    · exact ⟨h.observer,h.notified,h.known,h.sync⟩

/-- The heartbeat finds an instance that is DOWN, and has no URL that a health check probes. -/
def Revives (s : ServiceRegistry) : Action → Prop
  | .heartbeat _ serviceName instanceId => ∃ k inst, (s.registered serviceName).find? (s.hasId instanceId) = some k ∧
      s.instances[k]? = some inst ∧ inst.status = .down ∧ inst.checkUrl = none
  | _ => False

theorem status_beat (inst : ServiceInstance) (now : ℚ) (h : inst.status ≠ .unknown) :
    (inst.beat now).status = if inst.status = .down ∧ inst.checkUrl = none then .up else inst.status := by
  unfold ServiceInstance.beat
  dsimp only
  rw [if_neg h]
  by_cases hd : inst.status = .down ∧ inst.checkUrl = none
  · rw [if_pos hd,if_pos]
    exact hd
  · rw [if_neg hd,if_neg]
    exact hd

/-- A heartbeat changes the status of a revived instance only. -/
theorem Observed.heartbeat (h : Observed callback s) {now : ℚ} {serviceName instanceId : String}
    (ha : ¬s.Revives (.heartbeat now serviceName instanceId)) :
    Observed callback (s.heartbeat now serviceName instanceId).1 := by
  unfold ServiceRegistry.heartbeat
  cases hfind : (s.registered serviceName).find? (s.hasId instanceId) with
  | none => exact h
  | some k =>
    have hbeat : ∀ inst, s.instances[k]? = some inst → (inst.beat now).status = inst.status := by
      intro inst hinst
      rw [status_beat inst now (h.known inst (List.mem_of_getElem? hinst)),if_neg]
      exact fun hd => ha ⟨k,inst,hfind,hinst,hd⟩
    refine ⟨h.observer,?_,?_,?_⟩
    · intro e he
      change e.2.1 < (s.instances.modify k _).length
      rw [List.length_modify]
      exact h.notified e he
    · refine forall_modify h.known fun inst hinst => ?_
      rw [hbeat inst hinst]
      exact h.known inst (List.mem_of_getElem? hinst)
    · intro name j hj
      change (s.instances.modify k _)[j]?.map ServiceInstance.status = _
      rw [status_modify]
      refine Eq.trans ?_ (h.sync name j hj)
      split
      · rename_i hjk
        subst j
        exact Option.map_congr fun inst hinst => hbeat inst hinst
      · rfl

/-- The revived instance is UP, and the observer still takes it to be DOWN. -/
theorem Observed.not_inSync_of_revives (h : Observed callback s) {a : Action} (ha : s.Revives a) :
    ¬(s.step a).InSync callback := by
  cases a with
  | heartbeat now serviceName instanceId =>
    obtain ⟨k,inst,hfind,hinst,hdown,hurl⟩ := ha
    have hk : k ∈ s.registered serviceName := List.mem_of_find?_eq_some hfind
    have hlast : s.lastNotified callback k = .down := by
      have hsync := h.sync serviceName k hk
      rw [hinst] at hsync
      exact (Option.some.inj hsync).symm.trans hdown
    have hstep : s.step (.heartbeat now serviceName instanceId) =
        { s with instances := s.instances.modify k fun inst => inst.beat now } := by
      rw [step,ServiceRegistry.heartbeat,hfind]
    intro hsync
    have hafter := hsync serviceName k (by rw [hstep]; exact hk)
    rw [hstep] at hafter
    change (s.instances.modify k _)[k]?.map ServiceInstance.status = some (s.lastNotified callback k) at hafter
    rw [status_modify,if_pos rfl,hinst,hlast,Option.map_some,status_beat inst now (by rw [hdown]; decide),
      if_pos ⟨hdown,hurl⟩] at hafter
    cases hafter
  | addObserver c => exact ha.elim
  | register now instanceId serviceName host port url => exact ha.elim
  | checkSingleInstance now urlopen k => exact ha.elim
  | deregister serviceName instanceId => exact ha.elim

theorem Observed.step (h : Observed callback s) {a : Action} (ha : ¬s.Revives a) : Observed callback (s.step a) := by
  cases a with
  | addObserver c => exact h.addObserver c
  | register now instanceId serviceName host port url =>
    unfold ServiceRegistry.step
    dsimp only
    cases hs : s.register now instanceId serviceName host port url with
    | error e => exact h
    | ok r => exact h.register hs
  | heartbeat now serviceName instanceId => exact h.heartbeat ha
  | checkSingleInstance now urlopen k => exact h.checkSingleInstance now urlopen k
  | deregister serviceName instanceId => exact h.deregister serviceName instanceId

/-- In a run an observer that was there from the start knows every status after every step
exactly if no heartbeat revives an instance. -/
theorem inSync_along_iff (callback : ℕ) (schedule : List Action) :
    (init.addObserver callback).InSync callback ∧
    (Along step (fun s a => (s.step a).InSync callback) (init.addObserver callback) schedule ↔
      Along step (fun s a => ¬s.Revives a) (init.addObserver callback) schedule) :=
  ⟨(observed_init callback).sync,along_iff_of_invariant (fun _ _ h ha => h.step ha)
    (fun _ _ h => ⟨fun hsync ha => h.not_inSync_of_revives ha hsync,fun ha => (h.step ha).sync⟩) (observed_init callback)⟩

/-- An instance without a URL misses its heartbeats, and then sends one. -/
theorem revived_not_notified :
    ¬∀ schedule : List Action, (run step (init.addObserver 0) schedule).InSync 0 := by
  intro h
  have hsync := h [.register 0 "4f9a" "web" "10.0.0.1" 80 none,.checkSingleInstance 60 (fun _ => none) 0,
    .heartbeat 61 "web" "4f9a"] "web" 0 (by decide +kernel)
  exact absurd hsync (by decide +kernel)

end DistributedSystems.ServiceDiscovery.ServiceRegistry
