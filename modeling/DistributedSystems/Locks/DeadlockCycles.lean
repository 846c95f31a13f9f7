import DistributedSystems.Locks.DeadlockDetector
import DistributedSystems.Protocol.DepthFirst

/-! # Cycles of the wait-for graph

`has_cycle` and `get_deadlock_cycle` search the same graph. The first one looks at the visited
processes before those on the stack and answers yes or no; the second one looks at the stack
first and cuts the cycle out of it.
-/
namespace DistributedSystems.Locks

/-- The order of the resources that a process waits for, and of its neighbors in the graph. -/
structure SetOrder (P R : Type) where
  resources : P → ∀ s : Finset R, Listing s
  neighbors : P → ∀ s : Finset P, Listing s

/-- What the search of `has_cycle` has marked. -/
structure Marks (P : Type) where
  visited : Finset P
  recursionStack : Finset P

/-- What the search of `get_deadlock_cycle` has marked and cut out. -/
structure StackMarks (P : Type) where
  visited : Finset P
  stack : List P
  onStack : Finset P
  cycle : List P

variable {P R : Type} [DecidableEq P] [DecidableEq R]

/-- A set's `remove` raises if there is nothing to remove. -/
def remove (s : Finset P) (x : P) : Option (Finset P) := if x ∈ s then some (s.erase x) else none

/-- The neighbors of a process in the order of the iteration. -/
def SetOrder.neighborsOf (o : SetOrder P R) (adj : Dict P (Finset P)) (node : P) : List P :=
  match adj.get? node with
  | some s => (o.neighbors node s).items
  | none => []

namespace DeadlockDetector
section HasCycle
variable (adj : P → List P)

/-- The neighbors of a process, each in turn. `none` is an exception or the end of the fuel. -/
def hasCycleLoop (dfs : P → Marks P → Option (Bool × Marks P)) : List P → Marks P → Option (Bool × Marks P)
  | [], m => some (false,m)
  | neighbor :: rest, m =>
    if neighbor ∉ m.visited then
      (dfs neighbor m).bind fun r => if r.1 then some (true,r.2) else hasCycleLoop dfs rest r.2
    else if neighbor ∈ m.recursionStack then some (true,m)
    else hasCycleLoop dfs rest m

def hasCycleDfs : ℕ → P → Marks P → Option (Bool × Marks P)
  | 0, _, _ => none
  | fuel + 1, node, m =>
    let m : Marks P := ⟨insert node m.visited,insert node m.recursionStack⟩
    (hasCycleLoop (hasCycleDfs fuel) (adj node) m).bind fun r =>
      if r.1 then some (true,r.2)
      else (remove r.2.recursionStack node).map fun stack => (false,{ r.2 with recursionStack := stack })

/-- The loop over the keys of the graph. -/
def hasCycleFrom (dfs : P → Marks P → Option (Bool × Marks P)) : List P → Marks P → Option Bool
  | [], _ => some false
  | node :: rest, m =>
    if node ∉ m.visited then (dfs node m).bind fun r => if r.1 then some true else hasCycleFrom dfs rest r.2
    else hasCycleFrom dfs rest m

end HasCycle

section GetDeadlockCycle
variable (adj : P → List P)

/-- A neighbor that is on the stack closes the cycle that starts with it. -/
def getDeadlockCycleLoop (dfs : P → StackMarks P → Option (Bool × StackMarks P)) :
    List P → StackMarks P → Option (Bool × StackMarks P)
  | [], m => some (false,m)
  | neighbor :: rest, m =>
    if neighbor ∈ m.onStack then
      match m.stack.idxOf? neighbor with
      | some index => some (true,{ m with cycle := m.cycle ++ m.stack.drop index })
      | none => some (true,m)
    else if neighbor ∉ m.visited then
      (dfs neighbor m).bind fun r => if r.1 then some (true,r.2) else getDeadlockCycleLoop dfs rest r.2
    else getDeadlockCycleLoop dfs rest m

def getDeadlockCycleDfs : ℕ → P → StackMarks P → Option (Bool × StackMarks P)
  | 0, _, _ => none
  | fuel + 1, node, m =>
    let m : StackMarks P := ⟨insert node m.visited,m.stack ++ [node],insert node m.onStack,m.cycle⟩
    (getDeadlockCycleLoop (getDeadlockCycleDfs fuel) (adj node) m).bind fun r =>
      if r.1 then some (true,r.2)
      else (remove r.2.onStack node).bind fun onStack =>
        if r.2.stack = [] then none else some (false,{ r.2 with onStack, stack := r.2.stack.dropLast })

def getDeadlockCycleFrom (dfs : P → StackMarks P → Option (Bool × StackMarks P)) :
    List P → StackMarks P → Option (List P)
  | [], _ => some []
  | node :: rest, m =>
    if node ∉ m.visited then
      (dfs node m).bind fun r => if r.1 then some r.2.cycle else getDeadlockCycleFrom dfs rest r.2
    else getDeadlockCycleFrom dfs rest m

end GetDeadlockCycle

section Graph
variable (d : DeadlockDetector P R) (o : SetOrder P R)

/-- What one resource that a process waits for adds to the graph. -/
def addHolder (pWaiting : P) (adj : Dict P (Finset P)) (res : R) : Dict P (Finset P) :=
  match d.heldBy.get? res with
  | some pHolding => if pWaiting ≠ pHolding then adj.addTo pWaiting pHolding else adj
  | none => adj

/-- The graph that both searches build. -/
def buildAdj : Dict P (Finset P) :=
  d.waitingFor.entries.foldl (fun adj e => (o.resources e.1 e.2).items.foldl (d.addHolder e.1) adj) Dict.empty

/-- All processes of the graph; a search is never deeper than there are processes. -/
def processes : Finset P := d.waitingFor.keys.toFinset ∪ (d.heldBy.entries.map Prod.snd).toFinset

def hasCycle : Option Bool :=
  let adj := d.buildAdj o
  hasCycleFrom (hasCycleDfs (o.neighborsOf adj) d.processes.card) adj.keys ⟨∅,∅⟩

def getDeadlockCycle : Option (List P) :=
  let adj := d.buildAdj o
  getDeadlockCycleFrom (getDeadlockCycleDfs (o.neighborsOf adj) d.processes.card) adj.keys ⟨∅,[],∅,[]⟩

def chooseDeadlockVictim : Option (Option P) := (d.getDeadlockCycle o).map List.head?

end Graph

/-- `p` waits for a resource that another process `q` holds. -/
def WaitsFor (d : DeadlockDetector P R) (p q : P) : Prop :=
  p ≠ q ∧ ∃ r, d.waitingFor.Has p r ∧ d.heldBy.get? r = some q

variable {d : DeadlockDetector P R} {o : SetOrder P R}

theorem has_addHolder (pWaiting : P) (adj : Dict P (Finset P)) (res : R) (p q : P) :
    (d.addHolder pWaiting adj res).Has p q ↔ adj.Has p q ∨ p = pWaiting ∧ p ≠ q ∧ d.heldBy.get? res = some q := by
  unfold addHolder
  cases hres : d.heldBy.get? res with
  | none => simp
  | some pHolding =>
    dsimp only
    split
    · rename_i hne
      rw [Dict.has_addTo,Option.some_inj]
      constructor
      · rintro (⟨rfl,rfl⟩ | h)
        · exact Or.inr ⟨rfl,hne,rfl⟩
        · exact Or.inl h
      · rintro (h | ⟨rfl,-,rfl⟩)
        · exact Or.inr h
        · exact Or.inl ⟨rfl,rfl⟩
    · rename_i heq
      refine ⟨Or.inl,fun h => h.resolve_right ?_⟩
      rintro ⟨rfl,hne,hq⟩
      exact heq fun h => hne (h.trans (Option.some.inj hq))

theorem has_foldl_addHolder (pWaiting : P) (resources : List R) (adj : Dict P (Finset P)) (p q : P) :
    (resources.foldl (d.addHolder pWaiting) adj).Has p q ↔
      adj.Has p q ∨ p = pWaiting ∧ p ≠ q ∧ ∃ res ∈ resources, d.heldBy.get? res = some q := by
  induction resources generalizing adj with
  | nil => simp
  | cons res rest ih =>
    rw [List.foldl_cons,ih,has_addHolder,List.exists_mem_cons_iff]
    tauto

theorem has_foldl_entries (entries : List (P × Finset R)) (adj : Dict P (Finset P)) (p q : P) :
    (entries.foldl (fun adj e => (o.resources e.1 e.2).items.foldl (d.addHolder e.1) adj) adj).Has p q ↔
      adj.Has p q ∨ p ≠ q ∧ ∃ e ∈ entries, e.1 = p ∧ ∃ res ∈ e.2, d.heldBy.get? res = some q := by
  induction entries generalizing adj with
  | nil => simp
  | cons e rest ih =>
    rw [List.foldl_cons,ih,has_foldl_addHolder,List.exists_mem_cons_iff]
    simp only [Listing.mem_items,eq_comm (a := p)]
    rw [and_left_comm,or_assoc,and_or_left]

/-- The graph has the edges of the wait-for relation. -/
theorem has_buildAdj (p q : P) : (d.buildAdj o).Has p q ↔ d.WaitsFor p q := by
  rw [buildAdj,has_foldl_entries,or_iff_right (Dict.not_has_empty p q),WaitsFor]
  refine and_congr_right fun _ => ?_
  constructor
  · rintro ⟨e,he,rfl,r,hr,hq⟩
    exact ⟨r,⟨e.2,Dict.get?_of_mem he,hr⟩,hq⟩
  · rintro ⟨r,⟨s,hs,hr⟩,hq⟩
    exact ⟨(p,s),Dict.mem_entries_iff.mpr hs,rfl,r,hr,hq⟩

theorem noneEmpty_buildAdj : (d.buildAdj o).NoneEmpty := by
  refine List.foldlRecOn _ _ Dict.noneEmpty_empty fun adj h e _ => ?_
  refine List.foldlRecOn _ _ h fun adj h res _ => ?_
  unfold addHolder
  split
  · split
    · exact h.addTo _ _
    · exact h
  · exact h

omit [DecidableEq R] in
theorem mem_neighborsOf (adj : Dict P (Finset P)) (p q : P) : q ∈ o.neighborsOf adj p ↔ adj.Has p q := by
  unfold SetOrder.neighborsOf Dict.Has
  cases h : adj.get? p with
  | none => simp
  | some s => simp [Listing.mem_items]

/-- An edge goes from one process of the graph to another. -/
theorem WaitsFor.mem_processes {p q : P} (h : d.WaitsFor p q) : p ∈ d.processes ∧ q ∈ d.processes := by
  obtain ⟨-,r,⟨s,hs,-⟩,hq⟩ := h
  refine ⟨Finset.mem_union_left _ (List.mem_toFinset.mpr (Dict.mem_keys_iff.mpr ⟨s,hs⟩)),Finset.mem_union_right _ ?_⟩
  exact List.mem_toFinset.mpr (List.mem_map.mpr ⟨(r,q),Dict.mem_entries_iff.mpr hq,rfl⟩)

open DepthFirst
variable {adj : P → List P} {path : List P} {visited : Finset P} {out : SearchOutcome P}

theorem insert_toFinset (path : List P) (node : P) : insert node path.toFinset = (path ++ [node]).toFinset := by
  rw [List.toFinset_append,Finset.insert_eq,Finset.union_comm]
  rfl

/-- Leaving the process entered last. -/
theorem remove_toFinset {node : P} (hnode : node ∉ path) :
    remove (path ++ [node]).toFinset node = some path.toFinset := by
  rw [remove,← insert_toFinset,if_pos (Finset.mem_insert_self _ _),Finset.erase_insert]
  rwa [List.mem_toFinset]

/-- What `has_cycle` answers and has marked when the search ends. -/
def Answers (path : List P) : SearchOutcome P → Bool × Marks P → Prop
  | .cycle _, r => r.1 = true
  | .done visited, r => r = (false,⟨visited,path.toFinset⟩) ∧ path.toFinset ⊆ visited

/-- The visited processes are asked first, which changes nothing while the stack is visited. -/
theorem hasCycleLoop_answers {visit : P → Finset P → Option (SearchOutcome P)}
    {dfs : P → Marks P → Option (Bool × Marks P)} (hdfs : ∀ next visited out, path.toFinset ⊆ visited →
      next ∉ visited → visit next visited = some out →
        ∃ r, dfs next ⟨visited,path.toFinset⟩ = some r ∧ Answers path out r)
    {targets : List P} (hpath : path.toFinset ⊆ visited) (h : scan visit path targets visited = some out) :
    ∃ r, hasCycleLoop dfs targets ⟨visited,path.toFinset⟩ = some r ∧ Answers path out r := by
  induction targets generalizing visited with
  | nil =>
    obtain rfl := Option.some.inj h
    exact ⟨_,rfl,rfl,hpath⟩
  | cons neighbor rest ih =>
    unfold hasCycleLoop
    dsimp only
    rcases scan_cons_cases h with ⟨hstack,rfl⟩ | ⟨hstack,hvisited,hrest⟩ | ⟨-,hvisited,hvisit⟩
    · have hmem := List.mem_toFinset.mpr hstack
      rw [if_neg (not_not_intro (hpath hmem)),if_pos hmem]
      exact ⟨_,rfl,rfl⟩
    · rw [if_neg (not_not_intro hvisited),if_neg fun hmem => hstack (List.mem_toFinset.mp hmem)]
      exact ih hpath hrest
    · rw [if_pos hvisited]
      rcases hvisit with ⟨vertices,hvisit,rfl⟩ | ⟨visited',hvisit,hrest⟩
      · obtain ⟨r,hr,hfound⟩ := hdfs neighbor visited _ hpath hvisited hvisit
        replace hfound : r.1 = true := hfound
        rw [hr,Option.bind_some,if_pos hfound]
        exact ⟨_,rfl,rfl⟩
      · obtain ⟨r,hr,rfl,hpath'⟩ := hdfs neighbor visited _ hpath hvisited hvisit
        rw [hr]
        exact ih hpath' hrest

theorem hasCycleDfs_answers {fuel : ℕ} {node : P} (hpath : path.toFinset ⊆ visited) (hnode : node ∉ visited)
    (h : visit adj fuel path node visited = some out) :
    ∃ r, hasCycleDfs adj fuel node ⟨visited,path.toFinset⟩ = some r ∧ Answers path out r := by
  induction fuel generalizing path node visited out with
  | zero => cases h
  | succ fuel ih =>
    obtain ⟨r,hr,hanswers⟩ := hasCycleLoop_answers (fun next visited out => ih)
      (insert_toFinset path node ▸ Finset.insert_subset_insert node hpath) h
    unfold hasCycleDfs
    dsimp only
    rw [insert_toFinset,hr,Option.bind_some]
    cases out with
    | cycle vertices =>
      have hfound : r.1 = true := hanswers
      rw [if_pos hfound]
      exact ⟨_,rfl,rfl⟩
    | done visited' =>
      obtain ⟨rfl,hpath'⟩ := hanswers
      have hfresh : node ∉ path := fun hmem => hnode (hpath (List.mem_toFinset.mpr hmem))
      rw [if_neg Bool.false_ne_true,remove_toFinset hfresh]
      exact ⟨_,rfl,rfl,fun p hp => hpath' (insert_toFinset path node ▸ Finset.mem_insert_of_mem hp)⟩

theorem hasCycleFrom_iff {fuel : ℕ} {nodes : List P} (h : scan (visit adj fuel []) [] nodes visited = some out) :
    ∃ found, hasCycleFrom (hasCycleDfs adj fuel) nodes ⟨visited,∅⟩ = some found ∧
      (found = true ↔ ∃ cycle, out = .cycle cycle) := by
  induction nodes generalizing visited with
  | nil =>
    obtain rfl := Option.some.inj h
    exact ⟨_,rfl,by simp⟩
  | cons node rest ih =>
    unfold hasCycleFrom
    dsimp only
    rcases scan_cons_cases h with ⟨hnil,-⟩ | ⟨-,hvisited,hrest⟩ | ⟨-,hvisited,hvisit⟩
    · exact absurd hnil List.not_mem_nil
    · rw [if_neg (not_not_intro hvisited)]
      exact ih hrest
    · rw [if_pos hvisited]
      rcases hvisit with ⟨vertices,hvisit,rfl⟩ | ⟨visited',hvisit,hrest⟩
      · obtain ⟨r,hr,hfound⟩ := hasCycleDfs_answers (Finset.empty_subset _) hvisited hvisit
        replace hfound : r.1 = true := hfound
        rw [List.toFinset_nil] at hr
        rw [hr,Option.bind_some,if_pos hfound]
        exact ⟨_,rfl,iff_of_true rfl ⟨vertices,rfl⟩⟩
      · obtain ⟨r,hr,rfl,-⟩ := hasCycleDfs_answers (Finset.empty_subset _) hvisited hvisit
        rw [List.toFinset_nil] at hr
        rw [hr]
        exact ih hrest

/-- What `get_deadlock_cycle` has cut out and marked when the search ends. -/
def CutsOut (path : List P) : SearchOutcome P → Bool × StackMarks P → Prop
  | .cycle vertices, r => r.1 = true ∧ r.2.cycle = vertices
  | .done visited, r => r = (false,⟨visited,path,path.toFinset,[]⟩)

theorem idxOf?_of_mem {l : List P} {x : P} (h : x ∈ l) : l.idxOf? x = some (l.idxOf x) := by
  obtain ⟨i,hi⟩ := Option.isSome_iff_exists.mp (List.isSome_idxOf?.mpr h)
  rw [List.idxOf_eq_getD_idxOf?,hi]
  rfl

/-- The stack is asked first, as in the search itself. -/
theorem getDeadlockCycleLoop_cutsOut {visit : P → Finset P → Option (SearchOutcome P)}
    {dfs : P → StackMarks P → Option (Bool × StackMarks P)} (hdfs : ∀ next visited out, next ∉ path →
      visit next visited = some out → ∃ r, dfs next ⟨visited,path,path.toFinset,[]⟩ = some r ∧ CutsOut path out r)
    {targets : List P} (h : scan visit path targets visited = some out) :
    ∃ r, getDeadlockCycleLoop dfs targets ⟨visited,path,path.toFinset,[]⟩ = some r ∧ CutsOut path out r := by
  induction targets generalizing visited with
  | nil =>
    obtain rfl := Option.some.inj h
    exact ⟨_,rfl,rfl⟩
  | cons neighbor rest ih =>
    unfold getDeadlockCycleLoop
    dsimp only
    rcases scan_cons_cases h with ⟨hstack,rfl⟩ | ⟨hstack,hvisited,hrest⟩ | ⟨hstack,hvisited,hvisit⟩
    · rw [if_pos (List.mem_toFinset.mpr hstack),idxOf?_of_mem hstack]
      exact ⟨_,rfl,rfl,List.nil_append _⟩
    · rw [if_neg fun hmem => hstack (List.mem_toFinset.mp hmem),if_neg (not_not_intro hvisited)]
      exact ih hrest
    · rw [if_neg fun hmem => hstack (List.mem_toFinset.mp hmem),if_pos hvisited]
      rcases hvisit with ⟨vertices,hvisit,rfl⟩ | ⟨visited',hvisit,hrest⟩
      · obtain ⟨r,hr,hfound,hcut⟩ := hdfs neighbor visited _ hstack hvisit
        rw [hr,Option.bind_some,if_pos hfound]
        exact ⟨_,rfl,rfl,hcut⟩
      · obtain ⟨r,hr,rfl⟩ := hdfs neighbor visited _ hstack hvisit
        rw [hr]
        exact ih hrest

theorem getDeadlockCycleDfs_cutsOut {fuel : ℕ} {node : P} (hnode : node ∉ path)
    (h : visit adj fuel path node visited = some out) :
    ∃ r, getDeadlockCycleDfs adj fuel node ⟨visited,path,path.toFinset,[]⟩ = some r ∧ CutsOut path out r := by
  induction fuel generalizing path node visited out with
  | zero => cases h
  | succ fuel ih =>
    obtain ⟨r,hr,hcut⟩ := getDeadlockCycleLoop_cutsOut (fun next visited out => ih) h
    unfold getDeadlockCycleDfs
    dsimp only
    rw [insert_toFinset,hr,Option.bind_some]
    cases out with
    | cycle vertices =>
      rw [if_pos hcut.1]
      exact ⟨_,rfl,rfl,hcut.2⟩
    | done visited' =>
      obtain rfl := hcut
      rw [if_neg Bool.false_ne_true,remove_toFinset hnode,Option.bind_some,
        if_neg (List.append_ne_nil_of_right_ne_nil path (List.cons_ne_nil node [])),List.dropLast_concat]
      exact ⟨_,rfl,rfl⟩

theorem getDeadlockCycleFrom_eq {fuel : ℕ} {nodes : List P}
    (h : scan (visit adj fuel []) [] nodes visited = some out) :
    ∃ cycle, getDeadlockCycleFrom (getDeadlockCycleDfs adj fuel) nodes ⟨visited,[],∅,[]⟩ = some cycle ∧
      (out = .cycle cycle ∨ cycle = [] ∧ ∃ visited', out = .done visited') := by
  induction nodes generalizing visited with
  | nil =>
    obtain rfl := Option.some.inj h
    exact ⟨_,rfl,Or.inr ⟨rfl,_,rfl⟩⟩
  | cons node rest ih =>
    unfold getDeadlockCycleFrom
    dsimp only
    rcases scan_cons_cases h with ⟨hnil,-⟩ | ⟨-,hvisited,hrest⟩ | ⟨-,hvisited,hvisit⟩
    · exact absurd hnil List.not_mem_nil
    · rw [if_neg (not_not_intro hvisited)]
      exact ih hrest
    · rw [if_pos hvisited]
      rcases hvisit with ⟨vertices,hvisit,rfl⟩ | ⟨visited',hvisit,hrest⟩
      · obtain ⟨r,hr,hfound,hcut⟩ := getDeadlockCycleDfs_cutsOut List.not_mem_nil hvisit
        rw [List.toFinset_nil] at hr
        rw [hr,Option.bind_some,if_pos hfound]
        exact ⟨_,rfl,Or.inl (congrArg SearchOutcome.cycle hcut.symm)⟩
      · obtain ⟨r,hr,rfl⟩ := getDeadlockCycleDfs_cutsOut List.not_mem_nil hvisit
        rw [List.toFinset_nil] at hr
        rw [hr]
        exact ih hrest

/-- The search over the graph of a state comes to a sound end. -/
theorem search_buildAdj (d : DeadlockDetector P R) (o : SetOrder P R) :
    ∃ out, search (o.neighborsOf (d.buildAdj o)) d.processes.card (d.buildAdj o).keys ∅ = some out ∧
      Sound (o.neighborsOf (d.buildAdj o)) [] ∅ (d.buildAdj o).keys out := by
  refine search_sound (U := d.processes) ?_ le_rfl ?_
  · intro v _ w hw
    exact ((has_buildAdj v w).mp ((mem_neighborsOf _ v w).mp hw)).mem_processes.2
  · intro v hv
    obtain ⟨w,hw⟩ := (noneEmpty_buildAdj.mem_keys_iff v).mp hv
    exact ((has_buildAdj v w).mp hw).mem_processes.1

/-- A sound end is a cycle exactly when there is one. -/
theorem sound_buildAdj (h : Sound (o.neighborsOf (d.buildAdj o)) [] ∅ (d.buildAdj o).keys out) :
    (∀ cycle, out = .cycle cycle → DirectedCycle d.WaitsFor cycle) ∧
      ((∃ cycle, out = .cycle cycle) ↔ ∃ p, Relation.TransGen d.WaitsFor p p) := by
  have hedge : (fun v w => w ∈ o.neighborsOf (d.buildAdj o) v) = d.WaitsFor :=
    funext fun v => funext fun w => propext ((mem_neighborsOf _ v w).trans (has_buildAdj v w))
  cases out with
  | cycle vertices =>
    have hcycle : DirectedCycle d.WaitsFor vertices := hedge ▸ h
    refine ⟨?_,iff_of_true ⟨vertices,rfl⟩ hcycle.transGen⟩
    rintro cycle heq
    exact SearchOutcome.cycle.inj heq ▸ hcycle
  | done visited =>
    refine ⟨nofun,iff_of_false nofun ?_⟩
    rintro ⟨p,hp⟩
    refine h.acyclic (fun v w hw => ?_) p (hedge ▸ hp)
    exact (noneEmpty_buildAdj.mem_keys_iff v).mpr ⟨w,(mem_neighborsOf _ v w).mp hw⟩

theorem hasCycle_exact (d : DeadlockDetector P R) (o : SetOrder P R) :
    ∃ found, d.hasCycle o = some found ∧ (found = true ↔ ∃ p, Relation.TransGen d.WaitsFor p p) := by
  obtain ⟨out,hout,hsound⟩ := search_buildAdj d o
  obtain ⟨found,hfound,hiff⟩ := hasCycleFrom_iff hout
  exact ⟨found,hfound,hiff.trans (sound_buildAdj hsound).2⟩

theorem getDeadlockCycle_exact (d : DeadlockDetector P R) (o : SetOrder P R) :
    ∃ cycle, d.getDeadlockCycle o = some cycle ∧ (cycle ≠ [] ↔ ∃ p, Relation.TransGen d.WaitsFor p p) ∧
      (cycle ≠ [] → DirectedCycle d.WaitsFor cycle) := by
  obtain ⟨out,hout,hsound⟩ := search_buildAdj d o
  obtain ⟨cycle,hcycle,hend⟩ := getDeadlockCycleFrom_eq hout
  obtain ⟨hdirected,hiff⟩ := sound_buildAdj hsound
  refine ⟨cycle,hcycle,?_⟩
  rcases hend with rfl | ⟨rfl,visited',rfl⟩
  · have h := hdirected cycle rfl
    exact ⟨iff_of_true h.nonempty (hiff.mp ⟨cycle,rfl⟩),fun _ => h⟩
  · exact ⟨iff_of_false (fun h => h rfl) (mt hiff.mpr nofun),fun h => absurd rfl h⟩

/-- Both searches end, whatever the order in which the dictionaries and sets are iterated: the first
one answers whether there is a cycle, the second one returns a cycle whenever there is one, and the
victim is on it. -/
theorem deadlock_detection_exact (d : DeadlockDetector P R) (o o' : SetOrder P R) :
    ∃ found cycle victim, d.hasCycle o = some found ∧ d.getDeadlockCycle o' = some cycle ∧
      d.chooseDeadlockVictim o' = some victim ∧ (found = true ↔ ∃ p, Relation.TransGen d.WaitsFor p p) ∧
      (cycle ≠ [] ↔ found = true) ∧ (cycle ≠ [] → DirectedCycle d.WaitsFor cycle) ∧
      (∀ p, victim = some p → p ∈ cycle) ∧ (victim = none ↔ ¬∃ p, Relation.TransGen d.WaitsFor p p) := by
  obtain ⟨found,hfound,hfoundIff⟩ := hasCycle_exact d o
  obtain ⟨cycle,hcycle,hcycleIff,hdirected⟩ := getDeadlockCycle_exact d o'
  refine ⟨found,cycle,cycle.head?,hfound,hcycle,?_,hfoundIff,hcycleIff.trans hfoundIff.symm,hdirected,?_,?_⟩
  · rw [chooseDeadlockVictim,hcycle,Option.map_some]
  · intro p hp
    exact List.mem_of_head? hp
  · rw [List.head?_eq_none_iff,← hcycleIff,not_ne_iff]

end DeadlockDetector

end DistributedSystems.Locks
