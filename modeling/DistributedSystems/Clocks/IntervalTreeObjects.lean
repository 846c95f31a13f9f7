import DistributedSystems.Clocks.IntervalTree
import Mathlib.Data.List.Forall2

/-! # Interval tree clocks as objects

A clock is an object that holds references to its children. A join makes new objects only: those
that it reads stay what they are, and the result shares none with them.
-/
namespace DistributedSystems.Clocks

structure ClockObject where
  id : String
  counter : ℤ
  children : List (String × ℕ)

/-- A reference is the position of its object; new objects come last. -/
abbrev ClockHeap := List ClockObject

namespace ClockHeap

/-- `object.children[key] = child` -/
def setChild (heap : ClockHeap) (object : ℕ) (key : String) (child : ℕ) : ClockHeap :=
  heap.modify object fun o => { o with children := putEntry key child o.children }

/-- The method returns a reference, or nothing when a reference is dangling or the calls are nested
more deeply than `depth`. -/
def copy : ClockHeap → ℕ → ℕ → Option (ClockHeap × ℕ)
  | _, 0, _ => none
  | heap, depth + 1, self => do
    let o ← heap[self]?
    let newItc := heap.length
    let heap : ClockHeap := heap ++ [⟨o.id,o.counter,[]⟩]
    let r ← o.children.foldlM (fun (r : ClockHeap × List (String × ℕ)) e => do
      let child ← copy r.1 depth e.2
      pure (child.1,putEntry e.1 child.2 r.2)) (heap,[])
    pure (r.1.modify newItc fun o => { o with children := r.2 },newItc)

/-- The loop reads the children of both clocks again for every key. -/
def join (order : IntervalTreeClock.KeyUnionOrder) : ClockHeap → ℕ → ℕ → ℕ → Option (ClockHeap × ℕ)
  | _, 0, _, _ => none
  | heap, depth + 1, self, other => do
    let s ← heap[self]?
    let o ← heap[other]?
    let joined := heap.length
    let heap : ClockHeap := heap ++ [⟨s.id,max s.counter o.counter,[]⟩]
    let allKeys := (order (s.children.map Prod.fst) (o.children.map Prod.fst)).items
    let heap ← allKeys.foldlM (fun (heap : ClockHeap) key => do
      let s ← heap[self]?
      let o ← heap[other]?
      let child ← match lookupEntry key s.children, lookupEntry key o.children with
        | some childSelf, some childOther => join order heap depth childSelf childOther
        | some childSelf, none => copy heap depth childSelf
        | none, some childOther => copy heap depth childOther
        | none, none => none
      pure (child.1.setChild joined key child.2)) heap
    pure (heap,joined)

end ClockHeap

namespace IntervalTreeClock

mutual
/-- The reference is that of an object with the clock's value; all its objects come from `start` on. -/
def Stored (heap : ClockHeap) (start : ℕ) : IntervalTreeClock → ℕ → Prop
  | mk id counter children, ref =>
    start ≤ ref ∧ ∃ refs, heap[ref]? = some ⟨id,counter,refs⟩ ∧ StoredAll heap start children refs

def StoredAll (heap : ClockHeap) (start : ℕ) : List (String × IntervalTreeClock) → List (String × ℕ) → Prop
  | [], refs => refs = []
  | (key,child) :: rest, refs =>
    ∃ ref refs', refs = (key,ref) :: refs' ∧ Stored heap start child ref ∧ StoredAll heap start rest refs'
end

variable {heap heap' : ClockHeap} {start start' : ℕ} {t u c : IntervalTreeClock} {ref : ℕ} {key : String}
  {children : List (String × IntervalTreeClock)} {refs : List (String × ℕ)}

theorem storedAll_iff : StoredAll heap start children refs ↔
    List.Forall₂ (fun e r => e.1 = r.1 ∧ Stored heap start e.2 r.2) children refs := by
  induction children generalizing refs with
  | nil => exact List.forall₂_nil_left_iff.symm
  | cons e rest ih =>
    rw [List.forall₂_cons_left_iff]
    constructor
    · rintro ⟨ref,refs,rfl,hfirst,hrest⟩
      exact ⟨(e.1,ref),refs,⟨rfl,hfirst⟩,ih.mp hrest,rfl⟩
    · rintro ⟨⟨key,ref⟩,refs,⟨rfl,hfirst⟩,hrest,rfl⟩
      exact ⟨ref,refs,rfl,hfirst,ih.mpr hrest⟩

/-- Objects from `start` on that stay keep the value. -/
theorem Stored.frame (h : Stored heap start t ref) (hstart : start' ≤ start)
    (hsame : ∀ i, start ≤ i → ∀ o, heap[i]? = some o → heap'[i]? = some o) : Stored heap' start' t ref := by
  induction t generalizing ref with
  | mk id counter children ih =>
    obtain ⟨hfrom,refs,hobject,hchildren⟩ := h
    refine ⟨hstart.trans hfrom,refs,hsame ref hfrom _ hobject,?_⟩
    rw [storedAll_iff] at hchildren ⊢
    clear hobject
    induction hchildren with
    | nil => exact .nil
    | cons hfirst hrest ihs =>
      exact .cons ⟨hfirst.1,ih _ List.mem_cons_self hfirst.2⟩ (ihs fun e he => ih e (List.mem_cons_of_mem _ he))

theorem StoredAll.frame (h : StoredAll heap start children refs) (hstart : start' ≤ start)
    (hsame : ∀ i, start ≤ i → ∀ o, heap[i]? = some o → heap'[i]? = some o) : StoredAll heap' start' children refs := by
  rw [storedAll_iff] at h ⊢
  exact h.imp fun _ _ he => ⟨he.1,he.2.frame hstart hsame⟩

/-- More objects change nothing. -/
theorem getElem?_of_grown {o : ClockObject} (hgrown : heap <+: heap') (h : heap[ref]? = some o) :
    heap'[ref]? = some o := by
  obtain ⟨more,rfl⟩ := hgrown
  rw [List.getElem?_append_left (List.getElem?_eq_some_iff.mp h).1,h]

theorem Stored.of_grown (h : Stored heap start t ref) (hgrown : heap <+: heap') : Stored heap' start t ref :=
  h.frame le_rfl fun _ _ _ ho => getElem?_of_grown hgrown ho

theorem StoredAll.map_fst (h : StoredAll heap start children refs) : refs.map Prod.fst = children.map Prod.fst := by
  rw [storedAll_iff] at h
  induction h with
  | nil => rfl
  | cons hfirst _ ih => rw [List.map_cons,List.map_cons,ih,hfirst.1]

theorem StoredAll.lookupEntry (h : StoredAll heap start children refs) (key : String) :
    (∀ c, lookupEntry key children = some c → ∃ r, lookupEntry key refs = some r ∧ Stored heap start c r) ∧
      (lookupEntry key children = none → lookupEntry key refs = none) := by
  rw [storedAll_iff] at h
  induction h with
  | nil => exact ⟨fun c hc => absurd hc (by simp [DistributedSystems.lookupEntry]),fun _ => rfl⟩
  | @cons e r rest refs hfirst _ ih =>
    rw [lookupEntry_cons,lookupEntry_cons,← hfirst.1]
    by_cases hkey : e.1 = key
    · rw [if_pos hkey,if_pos hkey]
      refine ⟨fun c hc => ⟨r.2,rfl,?_⟩,fun hnone => absurd hnone (by simp)⟩
      exact Option.some.inj hc ▸ hfirst.2
    · rw [if_neg hkey,if_neg hkey]
      exact ih

mutual
/-- How many levels a tree has. -/
def depth : IntervalTreeClock → ℕ
  | mk _ _ children => depthChildren children + 1

def depthChildren : List (String × IntervalTreeClock) → ℕ
  | [] => 0
  | (_,child) :: rest => max (depth child) (depthChildren rest)
end

theorem depth_le_depthChildren {e : String × IntervalTreeClock} (h : e ∈ children) :
    e.2.depth ≤ depthChildren children := by
  induction children with
  | nil => cases h
  | cons e' rest ih =>
    rw [depthChildren]
    rcases List.mem_cons.mp h with rfl | h
    · exact le_max_left _ _
    · exact (ih h).trans (le_max_right _ _)

/-- The object that a call makes comes first, and the children that it has so far come after it. -/
structure Making (base : ClockHeap) (object : ClockObject) (done : List (String × IntervalTreeClock)) (heap : ClockHeap)
    (refs : List (String × ℕ)) : Prop where
  objects : ∃ more, heap = base ++ object :: more
  stored : StoredAll heap (base.length + 1) done refs

namespace Making
variable {base : ClockHeap} {object : ClockObject} {done : List (String × IntervalTreeClock)}

theorem initial (base : ClockHeap) (object : ClockObject) : Making base object [] (base ++ [object]) [] :=
  ⟨⟨[],rfl⟩,rfl⟩

theorem prefix_base (h : Making base object done heap refs) : base <+: heap := by
  obtain ⟨more,rfl⟩ := h.objects
  exact List.prefix_append _ _

theorem length_lt (h : Making base object done heap refs) : base.length + 1 ≤ heap.length := by
  obtain ⟨more,rfl⟩ := h.objects
  rw [List.length_append,List.length_cons]
  omega

/-- A call for a child makes more objects and returns one of them. -/
theorem add (h : Making base object done heap refs) (hgrown : heap <+: heap') (hchild : Stored heap' heap.length c ref)
    (hnew : key ∉ done.map Prod.fst) : Making base object (done ++ [(key,c)]) heap' (putEntry key ref refs) := by
  refine ⟨?_,?_⟩
  · obtain ⟨more,rfl⟩ := h.objects
    obtain ⟨more',rfl⟩ := hgrown
    exact ⟨more ++ more',by rw [List.append_assoc,List.cons_append]⟩
  · rw [← h.stored.map_fst] at hnew
    rw [putEntry_of_notMem hnew,storedAll_iff]
    have hdone := h.stored.frame le_rfl fun _ _ _ ho => getElem?_of_grown hgrown ho
    exact List.rel_append (storedAll_iff.mp hdone) (.cons ⟨rfl,hchild.frame h.length_lt fun _ _ _ ho => ho⟩ .nil)

/-- The call writes to its own object only. -/
theorem modify (h : Making base object done heap refs) (f : ClockObject → ClockObject) :
    Making base (f object) done (heap.modify base.length f) refs := by
  refine ⟨?_,h.stored.frame le_rfl fun i hi o ho => ?_⟩
  · obtain ⟨more,rfl⟩ := h.objects
    exact ⟨more,List.modifyTailIdx_add (List.modifyHead f) 0 base (object :: more)⟩
  · have hne : base.length ≠ i := by omega
    rw [List.getElem?_modify_ne f heap hne,ho]

/-- The new object has the value that its children have been made for. -/
theorem result {id : String} {counter : ℤ} (h : Making base ⟨id,counter,refs⟩ children heap refs) :
    Stored heap base.length (IntervalTreeClock.mk id counter children) base.length := by
  refine ⟨le_rfl,refs,?_,h.stored.frame (Nat.le_succ _) fun _ _ _ ho => ho⟩
  obtain ⟨more,rfl⟩ := h.objects
  simp

end Making

/-- A method that is called on a reference returns a new tree with a value. -/
def Returns (r : Option (ClockHeap × ℕ)) (heap : ClockHeap) (t : IntervalTreeClock) : Prop :=
  ∃ heap' ref, r = some (heap',ref) ∧ heap <+: heap' ∧ Stored heap' heap.length t ref

section Copy
variable {base : ClockHeap} {object : ClockObject} {done : List (String × IntervalTreeClock)} {depth : ℕ}

/-- The comprehension of `copy`, if the calls for the children return. -/
theorem Making.copyChildren
    (hcopy : ∀ e ∈ children, ∀ heap ref, Stored heap 0 e.2 ref → Returns (heap.copy depth ref) heap e.2)
    {old : List (String × ℕ)} (hstored : StoredAll base 0 children old)
    (hnodup : ((done ++ children).map Prod.fst).Nodup) (h : Making base object done heap refs) :
    ∃ r, old.foldlM (fun (r : ClockHeap × List (String × ℕ)) e => do
        let child ← r.1.copy depth e.2
        pure (child.1,putEntry e.1 child.2 r.2)) (heap,refs) = some r ∧
      Making base object (done ++ children) r.1 r.2 := by
  induction children generalizing done heap refs old with
  | nil =>
    obtain rfl : old = [] := hstored
    exact ⟨(heap,refs),rfl,by rwa [List.append_nil]⟩
  | cons e rest ih =>
    obtain ⟨ref,old,rfl,hfirst,hrest⟩ := hstored
    obtain ⟨heap',ref',hcall,hgrown,hchild⟩ := hcopy e List.mem_cons_self heap ref (hfirst.of_grown h.prefix_base)
    have hnew : e.1 ∉ done.map Prod.fst := by
      rw [List.map_append,List.map_cons] at hnodup
      exact fun hmem => (List.nodup_append.mp hnodup).2.2 e.1 hmem e.1 List.mem_cons_self rfl
    rw [List.append_cons] at hnodup ⊢
    obtain ⟨r,hloop,hmaking⟩ := ih (fun e he => hcopy e (List.mem_cons_of_mem _ he)) hrest hnodup
      (h.add hgrown hchild hnew)
    refine ⟨r,?_,hmaking⟩
    rw [List.foldlM_cons]
    change (heap.copy depth ref >>= _) >>= _ = _
    rw [hcall]
    exact hloop

/-- A copy is a new tree with the same value. -/
theorem Stored.copy (ht : t.WellFormed) (h : Stored heap 0 t ref) (hdepth : t.depth ≤ depth) :
    Returns (heap.copy depth ref) heap t := by
  induction t generalizing heap ref depth with
  | mk id counter children ih =>
    obtain ⟨-,old,hobject,hchildren⟩ := h
    cases depth with
    | zero => exact absurd hdepth (Nat.not_succ_le_zero _)
    | succ depth =>
      have hcopy : ∀ e ∈ children, ∀ heap ref, Stored heap 0 e.2 ref → Returns (heap.copy depth ref) heap e.2 := by
        intro e he heap ref hchild
        have hlevel : e.2.depth ≤ depth := (depth_le_depthChildren he).trans (Nat.le_of_succ_le_succ hdepth)
        exact ih e he (ht.child (lookupEntry_of_mem ht.nodup he)).2 hchild hlevel
      have hkeys : (([] ++ children).map Prod.fst).Nodup := ht.nodup
      obtain ⟨r,hloop,hmaking⟩ := Making.copyChildren hcopy hchildren hkeys (.initial heap ⟨id,counter,[]⟩)
      have hresult := hmaking.modify fun o => { o with children := r.2 }
      refine ⟨_,heap.length,?_,hresult.prefix_base,hresult.result⟩
      rw [ClockHeap.copy,hobject,Option.bind_eq_bind,Option.bind_some]
      dsimp only
      rw [hloop]
      rfl

end Copy

section Join
variable {base : ClockHeap} {done : List (String × IntervalTreeClock)} {id : String} {counter : ℤ}
  {order : KeyUnionOrder} {depth self other : ℕ}

/-- The loop of `join`, if every turn makes the child of its key. -/
theorem Making.joinChildren {body : ClockHeap → String → Option ClockHeap} {child : String → Option IntervalTreeClock}
    {allKeys : List String}
    (hbody : ∀ key ∈ allKeys, ∀ heap, base <+: heap → ∃ (c : _) (heap' : ClockHeap) (ref : _), child key = some c ∧
      body heap key = some (heap'.setChild base.length key ref) ∧ heap <+: heap' ∧ Stored heap' heap.length c ref)
    (hnodup : (done.map Prod.fst ++ allKeys).Nodup) (h : Making base ⟨id,counter,refs⟩ done heap refs) :
    ∃ heap' refs', allKeys.foldlM body heap = some heap' ∧ Making base ⟨id,counter,refs'⟩
      (done ++ allKeys.filterMap fun key => (child key).map (Prod.mk key)) heap' refs' := by
  induction allKeys generalizing done heap refs with
  | nil => exact ⟨heap,refs,rfl,by rwa [List.filterMap_nil,List.append_nil]⟩
  | cons key rest ih =>
    obtain ⟨c,heap',ref,hkey,hcall,hgrown,hchild⟩ := hbody key List.mem_cons_self heap h.prefix_base
    have hnew : key ∉ done.map Prod.fst := fun hmem =>
      (List.nodup_append.mp hnodup).2.2 key hmem key List.mem_cons_self rfl
    have hnext := (h.add hgrown hchild hnew).modify fun o => { o with children := putEntry key ref o.children }
    have hnodup' : ((done ++ [(key,c)]).map Prod.fst ++ rest).Nodup := by
      rw [List.map_append,List.append_assoc]
      exact hnodup
    obtain ⟨final,refs',hloop,hmaking⟩ := ih (fun key hmem => hbody key (List.mem_cons_of_mem _ hmem)) hnodup' hnext
    refine ⟨final,refs',?_,?_⟩
    · rw [List.foldlM_cons,hcall]
      exact hloop
    · rw [List.filterMap_cons_some (by rw [hkey]; rfl),List.append_cons]
      exact hmaking

theorem returns_of_loop {body : ClockHeap → String → Option ClockHeap} {child : String → Option IntervalTreeClock}
    {allKeys : List String} (hnodup : allKeys.Nodup)
    (hbody : ∀ key ∈ allKeys, ∀ heap, base <+: heap → ∃ (c : _) (heap' : ClockHeap) (ref : _), child key = some c ∧
      body heap key = some (heap'.setChild base.length key ref) ∧ heap <+: heap' ∧ Stored heap' heap.length c ref) :
    Returns (allKeys.foldlM body (base ++ [⟨id,counter,[]⟩]) >>= fun heap => pure (heap,base.length)) base
      (mk id counter (allKeys.filterMap fun key => (child key).map (Prod.mk key))) := by
  have hkeys : (([] : List (String × IntervalTreeClock)).map Prod.fst ++ allKeys).Nodup := hnodup
  obtain ⟨heap',refs',hloop,hmaking⟩ := Making.joinChildren hbody hkeys (.initial base ⟨id,counter,[]⟩)
  refine ⟨heap',base.length,?_,hmaking.prefix_base,hmaking.result⟩
  rw [hloop]
  rfl

/-- A join is a new tree with the value of the join. -/
theorem Stored.join (order : KeyUnionOrder) (ht : t.WellFormed) (hu : u.WellFormed) (h : Stored heap 0 t self)
    (h' : Stored heap 0 u other) (hdepth : t.depth ≤ depth) (hdepth' : u.depth ≤ depth) :
    Returns (heap.join order depth self other) heap (join order t u) := by
  induction t generalizing u heap self other depth with
  | mk id counter children ih =>
    obtain ⟨id',counter',children'⟩ := u
    obtain ⟨-,refs,hobject,hchildren⟩ := h
    obtain ⟨-,refs',hobject',hchildren'⟩ := h'
    cases depth with
    | zero => exact absurd hdepth (Nat.not_succ_le_zero _)
    | succ depth =>
      rw [join_eq,ClockHeap.join,hobject,hobject',Option.bind_eq_bind,Option.bind_some,Option.bind_some]
      dsimp only
      rw [hchildren.map_fst,hchildren'.map_fst]
      refine returns_of_loop (Listing.nodup _) fun key hkey heap₁ hgrown => ?_
      rw [Listing.mem_items,Finset.mem_union,List.mem_toFinset,List.mem_toFinset] at hkey
      have hself := hchildren.lookupEntry key
      have hother := hchildren'.lookupEntry key
      rw [getElem?_of_grown hgrown hobject,getElem?_of_grown hgrown hobject',Option.bind_eq_bind,Option.bind_some,
        Option.bind_some]
      dsimp only [child,children_mk]
      -- the levels below the two children are enough for the nested call
      have hlevel : ∀ {c}, DistributedSystems.lookupEntry key children = some c → c.depth ≤ depth := fun hc =>
        (depth_le_depthChildren ((lookupEntry_eq_some ht.nodup).mp hc)).trans (Nat.le_of_succ_le_succ hdepth)
      have hlevel' : ∀ {c}, DistributedSystems.lookupEntry key children' = some c → c.depth ≤ depth := fun hc =>
        (depth_le_depthChildren ((lookupEntry_eq_some hu.nodup).mp hc)).trans (Nat.le_of_succ_le_succ hdepth')
      cases hc : DistributedSystems.lookupEntry key children with
      | none =>
        cases hc' : DistributedSystems.lookupEntry key children' with
        | none => exact absurd hkey (not_or.mpr ⟨lookupEntry_eq_none.mp hc,lookupEntry_eq_none.mp hc'⟩)
        | some c' =>
          obtain ⟨r',hr',hstored'⟩ := hother.1 c' hc'
          obtain ⟨heap₂,ref,hcall,hrest⟩ := (hstored'.of_grown hgrown).copy (hu.child hc').2 (hlevel' hc')
          refine ⟨c',heap₂,ref,rfl,?_,hrest⟩
          rw [hself.2 hc,hr']
          dsimp only
          rw [hcall]
          rfl
      | some c =>
        obtain ⟨r,hr,hstored⟩ := hself.1 c hc
        cases hc' : DistributedSystems.lookupEntry key children' with
        | none =>
          obtain ⟨heap₂,ref,hcall,hrest⟩ := (hstored.of_grown hgrown).copy (ht.child hc).2 (hlevel hc)
          refine ⟨c,heap₂,ref,rfl,?_,hrest⟩
          rw [hr,hother.2 hc']
          dsimp only
          rw [hcall]
          rfl
        | some c' =>
          obtain ⟨r',hr',hstored'⟩ := hother.1 c' hc'
          obtain ⟨heap₂,ref,hcall,hrest⟩ := ih _ ((lookupEntry_eq_some ht.nodup).mp hc) (ht.child hc).2 (hu.child hc').2
            (hstored.of_grown hgrown) (hstored'.of_grown hgrown) (hlevel hc) (hlevel' hc')
          refine ⟨_,heap₂,ref,rfl,?_,hrest⟩
          rw [hr,hr']
          dsimp only
          rw [hcall]
          rfl

end Join

/-- Joins are lossless and leave the objects that they read, and pruning keeps what every path is
worth. The keys of a join may be iterated in any order. -/
theorem join_prune_lossless (order order' : KeyUnionOrder) (ht : t.WellFormed) (hu : u.WellFormed) (hid : t.id = u.id) :
    ((join order t u).eq (join order' u t) = true ∧
      (∀ v : IntervalTreeClock, v.WellFormed →
        (join order (join order t u) v).eq (join order' t (join order' u v)) = true) ∧
      (join order t t).eq t = true) ∧
    (∀ (heap : ClockHeap) (self other depth : ℕ), Stored heap 0 t self → Stored heap 0 u other →
      t.depth ≤ depth → u.depth ≤ depth → ∃ heap' joined, heap.join order depth self other = some (heap',joined) ∧
        heap <+: heap' ∧ Stored heap' 0 t self ∧ Stored heap' 0 u other ∧
        Stored heap' heap.length (join order t u) joined) ∧
    (∀ path, (join order t u).effective path = max (t.effective path) (u.effective path) ∧
      t.prune.effective path = t.effective path ∧
      (join order t u).prune.effective path = (join order' t.prune u.prune).effective path) ∧
    t.prune.Pruned := by
  refine ⟨⟨eq_join_comm order order' ht hu hid,fun v hv => eq_join_assoc order order' ht hu hv,eq_join_self order ht⟩,
    fun heap self other depth hself hother hdepth hdepth' => ?_,
    fun path => ⟨effective_join order t u path,effective_prune ht path,?_⟩,ht.pruned⟩
  · obtain ⟨heap',joined,hcall,hgrown,hstored⟩ := hself.join order ht hu hother hdepth hdepth'
    exact ⟨heap',joined,hcall,hgrown,hself.of_grown hgrown,hother.of_grown hgrown,hstored⟩
  · rw [effective_prune (ht.join order hu),effective_join,effective_join,effective_prune ht,effective_prune hu]

/-- The keys of the one clock before those of the other that are new. -/
def mineFirst : KeyUnionOrder := fun mine theirs =>
  ⟨(mine ++ theirs).dedup,List.nodup_dedup _,fun key => by simp⟩

/-- Two forks of one root, one of them behind its parent. -/
theorem join_prune_lossless_two_forks :
    let t := mk "root" 2 [("c1",mk "c1" 3 [])]
    let u := mk "root" 5 [("c2",mk "c2" 4 [])]
    ((join mineFirst t u).eq (join mineFirst u t) = true ∧
      (∀ v : IntervalTreeClock, v.WellFormed →
        (join mineFirst (join mineFirst t u) v).eq (join mineFirst t (join mineFirst u v)) = true) ∧
      (join mineFirst t t).eq t = true) ∧
    (∀ (heap : ClockHeap) (self other depth : ℕ), Stored heap 0 t self → Stored heap 0 u other →
      t.depth ≤ depth → u.depth ≤ depth → ∃ heap' joined, heap.join mineFirst depth self other = some (heap',joined) ∧
        heap <+: heap' ∧ Stored heap' 0 t self ∧ Stored heap' 0 u other ∧
        Stored heap' heap.length (join mineFirst t u) joined) ∧
    (∀ path, (join mineFirst t u).effective path = max (t.effective path) (u.effective path) ∧
      t.prune.effective path = t.effective path ∧
      (join mineFirst t u).prune.effective path = (join mineFirst t.prune u.prune).effective path) ∧
    t.prune.Pruned := by
  have hchild : ∀ id counter, (mk id counter []).WellFormed := fun id counter =>
    .mk List.nodup_nil (fun _ he => absurd he List.not_mem_nil) fun _ he => absurd he List.not_mem_nil
  have hroot : ∀ id counter key n, (mk id counter [(key,mk key n [])]).WellFormed := by
    intro id counter key n
    refine .mk (List.nodup_singleton _) (fun e he => ?_) fun e he => ?_
    · rw [List.mem_singleton.mp he]
      rfl
    · rw [List.mem_singleton.mp he]
      exact hchild key n
  exact join_prune_lossless mineFirst mineFirst (hroot _ _ _ _) (hroot _ _ _ _) rfl

end IntervalTreeClock
end DistributedSystems.Clocks
