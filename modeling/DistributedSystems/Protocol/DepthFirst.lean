import Mathlib.Data.Finset.Card
import Mathlib.Data.List.Chain
import Mathlib.Data.List.Nodup
import Mathlib.Data.Finset.Dedup
import Mathlib.Logic.Relation

/-! # Depth-first search for a directed cycle

The search goes along a path without repetitions and marks what it has visited. An edge back
into the path closes a cycle. A vertex that is left without a cycle has only edges to such
vertices, so it is on no cycle at all.
-/
namespace DistributedSystems.DepthFirst
variable {α : Type*} [DecidableEq α]

/-- The vertices of a cycle in order, each once. -/
structure DirectedCycle (edge : α → α → Prop) (cycle : List α) : Prop where
  nonempty : cycle ≠ []
  nodup : cycle.Nodup
  steps : cycle.IsChain edge
  closes : ∀ x ∈ cycle.head?, ∀ y ∈ cycle.getLast?, edge y x

inductive SearchOutcome (α : Type*)
  | cycle (vertices : List α)
  | done (visited : Finset α)

/-- The edges of the last vertex of a path, one after the other. -/
def scan (visit : α → Finset α → Option (SearchOutcome α)) (path : List α) : List α → Finset α → Option (SearchOutcome α)
  | [], visited => some (.done visited)
  | next :: rest, visited =>
    if next ∈ path then some (.cycle (path.drop (path.idxOf next)))
    else if next ∈ visited then scan visit path rest visited
    else
      match visit next visited with
      | none => none
      | some (.cycle vertices) => some (.cycle vertices)
      | some (.done visited) => scan visit path rest visited

/-- A new vertex at the end of a path. `none` means that the fuel has run out. -/
def visit (adj : α → List α) : ℕ → List α → α → Finset α → Option (SearchOutcome α)
  | 0, _, _, _ => none
  | fuel + 1, path, node, visited =>
    scan (visit adj fuel (path ++ [node])) (path ++ [node]) (adj node) (insert node visited)

/-- The search from each of some vertices that has not been visited before. -/
def search (adj : α → List α) (fuel : ℕ) (nodes : List α) (visited : Finset α) : Option (SearchOutcome α) :=
  scan (visit adj fuel []) [] nodes visited

/-- What a scan that ends has done with its first vertex. -/
theorem scan_cons_cases {visit : α → Finset α → Option (SearchOutcome α)} {path : List α} {next : α} {rest : List α}
    {visited : Finset α} {out : SearchOutcome α} (h : scan visit path (next :: rest) visited = some out) :
    next ∈ path ∧ out = .cycle (path.drop (path.idxOf next)) ∨
    next ∉ path ∧ next ∈ visited ∧ scan visit path rest visited = some out ∨
    next ∉ path ∧ next ∉ visited ∧ ((∃ vertices, visit next visited = some (.cycle vertices) ∧ out = .cycle vertices) ∨
      ∃ visited', visit next visited = some (.done visited') ∧ scan visit path rest visited' = some out) := by
  unfold scan at h
  split at h
  · rename_i hpath
    exact Or.inl ⟨hpath,(Option.some.inj h).symm⟩
  · rename_i hpath
    split at h
    · rename_i hvisited
      exact Or.inr (Or.inl ⟨hpath,hvisited,h⟩)
    · rename_i hvisited
      refine Or.inr (Or.inr ⟨hpath,hvisited,?_⟩)
      cases hvisit : visit next visited with
      | none =>
        rw [hvisit] at h
        cases h
      | some found =>
        rw [hvisit] at h
        cases found with
        | cycle vertices => exact Or.inl ⟨vertices,rfl,(Option.some.inj h).symm⟩
        | done visited' => exact Or.inr ⟨visited',rfl,h⟩

/-- Vertices that are left for good. -/
structure Finished (adj : α → List α) (F : Finset α) : Prop where
  closed : ∀ v ∈ F, ∀ w ∈ adj v, w ∈ F
  acyclic : ∀ v ∈ F, ¬Relation.TransGen (fun v w => w ∈ adj v) v v

/-- A path of visited vertices; all others that were visited are finished. -/
structure Searching (adj : α → List α) (path : List α) (visited : Finset α) : Prop where
  nodup : path.Nodup
  steps : path.IsChain fun v w => w ∈ adj v
  subset : ∀ v ∈ path, v ∈ visited
  finished : Finished adj (visited \ path.toFinset)

variable {adj : α → List α} {path : List α} {visited : Finset α} {node : α}

omit [DecidableEq α] in
theorem Finished.transGen_mem {F : Finset α} (h : Finished adj F) {v w : α} (hv : v ∈ F)
    (hreach : Relation.TransGen (fun v w => w ∈ adj v) v w) : w ∈ F := by
  induction hreach with
  | single hedge => exact h.closed _ hv _ hedge
  | tail _ hedge ih => exact h.closed _ ih _ hedge

/-- A cycle through a vertex with finished successors would have to leave them again. -/
theorem Finished.insert {F : Finset α} (h : Finished adj F) (hnode : node ∉ F) (hadj : ∀ w ∈ adj node, w ∈ F) :
    Finished adj (insert node F) where
  closed v hv w hw := by
    rcases Finset.mem_insert.mp hv with rfl | hv
    · exact Finset.mem_insert_of_mem (hadj w hw)
    · exact Finset.mem_insert_of_mem (h.closed v hv w hw)
  acyclic v hv hcycle := by
    rcases Finset.mem_insert.mp hv with rfl | hv
    · rcases Relation.TransGen.head'_iff.mp hcycle with ⟨w,hw,hback⟩
      rcases Relation.reflTransGen_iff_eq_or_transGen.mp hback with heq | hback
      · exact hnode (heq ▸ hadj w hw)
      · exact hnode (h.transGen_mem (hadj w hw) hback)
    · exact h.acyclic v hv hcycle

theorem searching_nil {F : Finset α} : Searching adj [] F ↔ Finished adj F := by
  constructor
  · intro h
    simpa using h.finished
  · intro h
    exact ⟨List.nodup_nil,List.IsChain.nil,by simp,by simpa using h⟩

/-- An edge from the end of a path back into it closes a cycle. -/
theorem Searching.directedCycle (h : Searching adj path visited) {last next : α} (hlast : path.getLast? = some last)
    (hedge : next ∈ adj last) (hmem : next ∈ path) :
    DirectedCycle (fun v w => w ∈ adj v) (path.drop (path.idxOf next)) where
  nonempty := by
    rw [Ne,List.drop_eq_nil_iff,not_le]
    exact List.idxOf_lt_length_of_mem hmem
  nodup := h.nodup.sublist (List.drop_sublist _ _)
  steps := h.steps.suffix (List.drop_suffix _ _)
  closes x hx y hy := by
    have hlt := List.idxOf_lt_length_of_mem hmem
    rw [List.head?_drop,List.getElem?_eq_getElem hlt] at hx
    rw [List.getLast?_drop,if_neg (not_le.mpr hlt),hlast] at hy
    obtain rfl := Option.some.inj hx
    obtain rfl := Option.some.inj hy
    rw [List.getElem_idxOf]
    exact hedge

/-- The path gets one vertex longer. -/
theorem Searching.push (h : Searching adj path visited) (hnode : node ∉ visited)
    (hedge : ∀ last ∈ path.getLast?, node ∈ adj last) : Searching adj (path ++ [node]) (insert node visited) where
  nodup := by
    refine h.nodup.append (List.nodup_singleton node) (List.disjoint_singleton.mpr fun hmem => hnode (h.subset node hmem))
  steps := by
    rw [List.isChain_append]
    refine ⟨h.steps,List.IsChain.singleton node,fun last hlast x hx => ?_⟩
    obtain rfl := Option.some.inj hx
    exact hedge last hlast
  subset v hv := by
    rcases List.mem_append.mp hv with hv | hv
    · exact Finset.mem_insert_of_mem (h.subset v hv)
    · exact List.mem_singleton.mp hv ▸ Finset.mem_insert_self _ _
  finished := by
    convert h.finished using 1
    ext v
    simp only [Finset.mem_sdiff,Finset.mem_insert,List.mem_toFinset,List.mem_append,List.mem_singleton]
    constructor
    · rintro ⟨rfl | hv,hnot⟩
      · exact absurd (Or.inr rfl) hnot
      · exact ⟨hv,fun hp => hnot (Or.inl hp)⟩
    · rintro ⟨hv,hnot⟩
      refine ⟨Or.inr hv,?_⟩
      rintro (hp | rfl)
      · exact hnot hp
      · exact hnode hv

/-- The last vertex of the path is finished when its successors are. -/
theorem Searching.pop (h : Searching adj (path ++ [node]) visited)
    (hadj : ∀ w ∈ adj node, w ∈ visited \ (path ++ [node]).toFinset) : Searching adj path visited where
  nodup := h.nodup.of_append_left
  steps := (List.isChain_append.mp h.steps).1
  subset v hv := h.subset v (List.mem_append_left _ hv)
  finished := by
    have hfresh : node ∉ path := fun hmem => by
      have hdisjoint := List.disjoint_of_nodup_append h.nodup
      exact hdisjoint hmem (List.mem_singleton_self node)
    convert h.finished.insert (by simp) hadj using 1
    ext v
    simp only [Finset.mem_sdiff,Finset.mem_insert,List.mem_toFinset,List.mem_append,List.mem_singleton]
    constructor
    · rintro ⟨hv,hp⟩
      by_cases hvn : v = node
      · exact Or.inl hvn
      · exact Or.inr ⟨hv,fun h => h.elim hp hvn⟩
    · rintro (rfl | ⟨hv,hnot⟩)
      · exact ⟨h.subset v (by simp),hfresh⟩
      · exact ⟨hv,fun hp => hnot (Or.inl hp)⟩

/-- A cycle was found, or everything that was to be visited is finished. -/
def Sound (adj : α → List α) (path : List α) (visited : Finset α) (targets : List α) : SearchOutcome α → Prop
  | .cycle vertices => DirectedCycle (fun v w => w ∈ adj v) vertices
  | .done visited' => visited ⊆ visited' ∧ Searching adj path visited' ∧ ∀ w ∈ targets, w ∈ visited' \ path.toFinset

/-- A target that is finished already goes in front of the others. -/
theorem Sound.cons {visited' : Finset α} {next : α} {rest : List α} {out : SearchOutcome α} (hsub : visited ⊆ visited')
    (hnext : next ∈ visited' \ path.toFinset) (h : Sound adj path visited' rest out) :
    Sound adj path visited (next :: rest) out := by
  cases out with
  | cycle vertices => exact h
  | done visited'' =>
    obtain ⟨hsub',hsearching,htargets⟩ := h
    refine ⟨hsub.trans hsub',hsearching,fun w hw => ?_⟩
    rcases List.mem_cons.mp hw with rfl | hw
    · obtain ⟨hv,hp⟩ := Finset.mem_sdiff.mp hnext
      exact Finset.mem_sdiff.mpr ⟨hsub' hv,hp⟩
    · exact htargets w hw

/-- Visits that are sound make a scan sound. -/
theorem scan_sound {visit : α → Finset α → Option (SearchOutcome α)} {targets : List α}
    (hvisit : ∀ next ∈ targets, ∀ visited', visited ⊆ visited' → Searching adj path visited' → next ∉ visited' →
      ∃ out, visit next visited' = some out ∧ Sound adj path visited' [next] out)
    (hedge : ∀ next ∈ targets, ∀ last ∈ path.getLast?, next ∈ adj last) (h : Searching adj path visited) :
    ∃ out, scan visit path targets visited = some out ∧ Sound adj path visited targets out := by
  induction targets generalizing visited with
  | nil => exact ⟨_,rfl,Finset.Subset.refl _,h,fun w hw => absurd hw List.not_mem_nil⟩
  | cons next rest ih =>
    have hrest : ∀ visited', visited ⊆ visited' → Searching adj path visited' → next ∈ visited' \ path.toFinset →
        ∃ out, scan visit path rest visited' = some out ∧ Sound adj path visited (next :: rest) out := by
      intro visited' hsub h' hnext
      obtain ⟨out,hout,hsound⟩ := ih
        (fun n hn visited'' hsub' => hvisit n (List.mem_cons_of_mem _ hn) visited'' (hsub.trans hsub'))
        (fun n hn => hedge n (List.mem_cons_of_mem _ hn)) h'
      exact ⟨out,hout,hsound.cons hsub hnext⟩
    unfold scan
    by_cases hpath : next ∈ path
    · rw [if_pos hpath]
      obtain ⟨last,hlast⟩ : ∃ last, path.getLast? = some last :=
        ⟨_,List.getLast?_eq_some_getLast (List.ne_nil_of_mem hpath)⟩
      exact ⟨_,rfl,h.directedCycle hlast (hedge next List.mem_cons_self last hlast) hpath⟩
    rw [if_neg hpath]
    by_cases hvisited : next ∈ visited
    · rw [if_pos hvisited]
      exact hrest visited (Finset.Subset.refl _) h (Finset.mem_sdiff.mpr ⟨hvisited,by simpa using hpath⟩)
    · rw [if_neg hvisited]
      obtain ⟨out,hout,hsound⟩ := hvisit next List.mem_cons_self visited (Finset.Subset.refl _) h hvisited
      rw [hout]
      cases out with
      | cycle vertices => exact ⟨_,rfl,hsound⟩
      | done visited' =>
        obtain ⟨hsub,hsearching,hdone⟩ := hsound
        exact hrest visited' hsub hsearching (hdone next (List.mem_singleton_self next))

/-- With as much fuel as there are vertices left, a visit comes to a sound end. -/
theorem visit_sound {U : Finset α} (hU : ∀ v ∈ U, ∀ w ∈ adj v, w ∈ U) {fuel : ℕ} (hfuel : (U \ visited).card ≤ fuel)
    (h : Searching adj path visited) (hnode : node ∉ visited) (hmem : node ∈ U)
    (hedge : ∀ last ∈ path.getLast?, node ∈ adj last) :
    ∃ out, visit adj fuel path node visited = some out ∧ Sound adj path visited [node] out := by
  induction fuel generalizing path node visited with
  | zero =>
    have hempty := Finset.card_eq_zero.mp (Nat.le_zero.mp hfuel)
    exact absurd (Finset.mem_sdiff.mpr ⟨hmem,hnode⟩) (hempty ▸ Finset.notMem_empty node)
  | succ fuel ih =>
    have hless : (U \ insert node visited).card ≤ fuel := by
      have hssub : U \ insert node visited ⊂ U \ visited := by
        refine Finset.ssubset_iff_subset_ne.mpr ⟨Finset.sdiff_subset_sdiff (le_refl U) (Finset.subset_insert _ _),?_⟩
        intro heq
        have hin : node ∈ U \ visited := Finset.mem_sdiff.mpr ⟨hmem,hnode⟩
        rw [← heq] at hin
        exact (Finset.mem_sdiff.mp hin).2 (Finset.mem_insert_self _ _)
      have hlt := Finset.card_lt_card hssub
      omega
    have hlast : (path ++ [node]).getLast? = some node := List.getLast?_concat
    have hlast' : ∀ next ∈ adj node, ∀ last ∈ (path ++ [node]).getLast?, next ∈ adj last := by
      intro next hnext last hl
      rw [hlast] at hl
      exact Option.some.inj hl ▸ hnext
    have hvisit : ∀ next ∈ adj node, ∀ visited', insert node visited ⊆ visited' →
        Searching adj (path ++ [node]) visited' → next ∉ visited' →
          ∃ out, visit adj fuel (path ++ [node]) next visited' = some out ∧
            Sound adj (path ++ [node]) visited' [next] out := fun next hnext visited' hsub hsearching hnot =>
      ih ((Finset.card_le_card (Finset.sdiff_subset_sdiff (le_refl U) hsub)).trans hless) hsearching hnot
        (hU node hmem next hnext) (hlast' next hnext)
    obtain ⟨out,hout,hsound⟩ := scan_sound hvisit hlast' (h.push hnode hedge)
    refine ⟨out,hout,?_⟩
    cases out with
    | cycle vertices => exact hsound
    | done visited' =>
      obtain ⟨hsub,hsearching,htargets⟩ := hsound
      refine ⟨(Finset.subset_insert _ _).trans hsub,hsearching.pop htargets,fun w hw => ?_⟩
      obtain rfl := List.mem_singleton.mp hw
      refine Finset.mem_sdiff.mpr ⟨hsub (Finset.mem_insert_self _ _),fun hp => hnode (h.subset _ ?_)⟩
      exact List.mem_toFinset.mp hp

/-- The search comes to a sound end. -/
theorem search_sound {U : Finset α} (hU : ∀ v ∈ U, ∀ w ∈ adj v, w ∈ U) {fuel : ℕ} (hfuel : U.card ≤ fuel)
    {nodes : List α} (hnodes : ∀ v ∈ nodes, v ∈ U) :
    ∃ out, search adj fuel nodes ∅ = some out ∧ Sound adj [] ∅ nodes out := by
  refine scan_sound (fun next hnext visited' _ hsearching hnot => ?_) (fun _ _ _ hlast => nomatch hlast)
    (searching_nil.mpr ⟨by simp,by simp⟩)
  have hless : (U \ visited').card ≤ fuel := (Finset.card_le_card Finset.sdiff_subset).trans hfuel
  exact visit_sound hU hless hsearching hnot (hnodes next hnext) nofun

/-- A search from all vertices with an edge that finds no cycle has seen them all finished. -/
theorem Sound.acyclic {nodes : List α} {visited' : Finset α} (h : Sound adj [] visited nodes (.done visited'))
    (hnodes : ∀ v w, w ∈ adj v → v ∈ nodes) (v : α) : ¬Relation.TransGen (fun v w => w ∈ adj v) v v := by
  intro hcycle
  obtain ⟨w,hw,-⟩ := Relation.TransGen.head'_iff.mp hcycle
  have hv := h.2.2 v (hnodes v w hw)
  rw [List.toFinset_nil,Finset.sdiff_empty] at hv
  exact (searching_nil.mp h.2.1).acyclic v hv hcycle

omit [DecidableEq α] in
theorem DirectedCycle.transGen {edge : α → α → Prop} {cycle : List α} (h : DirectedCycle edge cycle) :
    ∃ v, Relation.TransGen edge v v := by
  obtain ⟨x,xs,rfl⟩ := List.exists_cons_of_ne_nil h.nonempty
  have hlast : (x :: xs).getLast? = some ((x :: xs).getLast h.nonempty) := List.getLast?_eq_some_getLast h.nonempty
  refine ⟨x,Relation.TransGen.tail' ?_ (h.closes x rfl _ hlast)⟩
  exact List.relationReflTransGen_of_exists_isChain_cons xs h.steps rfl

end DistributedSystems.DepthFirst
