import Mathlib.Algebra.BigOperators.Group.Finset.Basic
import Mathlib.Data.Finset.Card
import Mathlib.Data.List.Nodup
import Mathlib.Data.List.Perm.Subperm

/-! # Insertion-ordered dictionaries

A dictionary keeps its entries in the order in which their keys were first written. Writing
an existing key replaces its value in place.
-/
namespace DistributedSystems

/-- Replaces the entry of a key or appends a new one. -/
def putEntry {K V : Type*} [DecidableEq K] (k : K) (v : V) : List (K × V) → List (K × V)
  | [] => [(k,v)]
  | e :: rest => if e.1 = k then (k,v) :: rest else e :: putEntry k v rest

section PutEntry
variable {K V : Type*} [DecidableEq K]

theorem keys_putEntry (k : K) (v : V) (entries : List (K × V)) :
    (putEntry k v entries).map Prod.fst =
      if k ∈ entries.map Prod.fst then entries.map Prod.fst else entries.map Prod.fst ++ [k] := by
  induction entries with
  | nil => rfl
  | cons e rest ih =>
    unfold putEntry
    by_cases he : e.1 = k
    · simp [he]
    · have hk : k ≠ e.1 := fun h => he h.symm
      rw [if_neg he,List.map_cons,ih,List.map_cons]
      by_cases hm : k ∈ rest.map Prod.fst
      · rw [if_pos hm,if_pos (List.mem_cons_of_mem _ hm)]
      · rw [if_neg hm,if_neg (by simpa [hk] using hm)]
        rfl

theorem nodup_putEntry {k : K} {v : V} {entries : List (K × V)} (h : (entries.map Prod.fst).Nodup) :
    ((putEntry k v entries).map Prod.fst).Nodup := by
  rw [keys_putEntry]
  split
  · exact h
  · rename_i hk
    exact h.append (List.nodup_singleton k) (List.disjoint_singleton.mpr hk)

theorem putEntry_of_notMem {k : K} {v : V} {entries : List (K × V)} (h : k ∉ entries.map Prod.fst) :
    putEntry k v entries = entries ++ [(k,v)] := by
  induction entries with
  | nil => rfl
  | cons e rest ih =>
    rw [List.map_cons,List.mem_cons,not_or] at h
    unfold putEntry
    rw [if_neg fun he => h.1 he.symm,ih h.2]
    rfl

theorem putEntry_of_mem {k : K} {v : V} {entries : List (K × V)} (hnodup : (entries.map Prod.fst).Nodup)
    (h : k ∈ entries.map Prod.fst) : putEntry k v entries = entries.map fun e => if e.1 = k then (k,v) else e := by
  induction entries with
  | nil => cases h
  | cons e rest ih =>
    rw [List.map_cons,List.nodup_cons] at hnodup
    unfold putEntry
    rw [List.map_cons]
    by_cases he : e.1 = k
    · have hrest : rest.map (fun e => if e.1 = k then (k,v) else e) = rest.map id :=
        List.map_congr_left fun e' he' => if_neg fun hk => hnodup.1 (by
          rw [he,← hk]
          exact List.mem_map_of_mem he')
      rw [if_pos he,if_pos he,hrest,List.map_id]
    · rw [if_neg he,if_neg he,ih hnodup.2 ((List.mem_cons.mp h).resolve_left fun hk => he hk.symm)]

theorem mem_putEntry {k : K} {v : V} {entries : List (K × V)} {e : K × V} (h : e ∈ putEntry k v entries) :
    e = (k,v) ∨ e ∈ entries := by
  induction entries with
  | nil => exact Or.inl (List.mem_singleton.mp h)
  | cons e' rest ih =>
    unfold putEntry at h
    split at h
    · rcases List.mem_cons.mp h with h | h
      · exact Or.inl h
      · exact Or.inr (List.mem_cons_of_mem _ h)
    · rcases List.mem_cons.mp h with h | h
      · exact Or.inr (h ▸ List.mem_cons_self)
      · exact (ih h).imp id (List.mem_cons_of_mem _)

/-- The value of the first entry of a key. -/
def lookupEntry (k : K) (entries : List (K × V)) : Option V := (entries.find? (·.1 = k)).map Prod.snd

theorem lookupEntry_cons (k : K) (e : K × V) (rest : List (K × V)) :
    lookupEntry k (e :: rest) = if e.1 = k then some e.2 else lookupEntry k rest := by
  unfold lookupEntry
  by_cases he : e.1 = k
  · rw [List.find?_cons_of_pos (by simpa using he),if_pos he]
    rfl
  · rw [List.find?_cons_of_neg (by simpa using he),if_neg he]

theorem lookupEntry_of_notMem {k : K} {entries : List (K × V)} (h : k ∉ entries.map Prod.fst) :
    lookupEntry k entries = none := by
  induction entries with
  | nil => rfl
  | cons e rest ih =>
    rw [List.map_cons,List.mem_cons,not_or] at h
    rw [lookupEntry_cons,if_neg fun he => h.1 he.symm,ih h.2]

theorem lookupEntry_putEntry (k k' : K) (v : V) (entries : List (K × V)) :
    lookupEntry k' (putEntry k v entries) = if k' = k then some v else lookupEntry k' entries := by
  induction entries with
  | nil =>
    rw [putEntry,lookupEntry_cons]
    by_cases h : k' = k
    · rw [if_pos h,if_pos h.symm]
    · rw [if_neg h,if_neg fun he => h he.symm]
  | cons e rest ih =>
    unfold putEntry
    by_cases he : e.1 = k
    · rw [if_pos he,lookupEntry_cons,lookupEntry_cons]
      by_cases h : k' = k
      · rw [if_pos h,if_pos h.symm]
      · have hne : ¬e.1 = k' := fun h' => h (h'.symm.trans he)
        rw [if_neg h,if_neg fun h' => h h'.symm,if_neg hne]
    · rw [if_neg he,lookupEntry_cons,lookupEntry_cons,ih]
      by_cases h : e.1 = k'
      · have hne : ¬k' = k := fun h' => he (h.trans h')
        rw [if_pos h,if_neg hne,if_pos h]
      · rw [if_neg h,if_neg h]

theorem lookupEntry_of_mem {entries : List (K × V)} (h : (entries.map Prod.fst).Nodup) {e : K × V}
    (he : e ∈ entries) : lookupEntry e.1 entries = some e.2 := by
  induction entries with
  | nil => cases he
  | cons e' rest ih =>
    obtain ⟨hnew,hrest⟩ := List.nodup_cons.mp h
    rw [lookupEntry_cons]
    rcases List.mem_cons.mp he with rfl | he
    · exact if_pos rfl
    · have hne : ¬e'.1 = e.1 := fun heq => hnew (heq ▸ List.mem_map_of_mem he)
      rw [if_neg hne,ih hrest he]

theorem lookupEntry_filter (p : K × V → Bool) (k : K) {entries : List (K × V)} (h : (entries.map Prod.fst).Nodup) :
    lookupEntry k (entries.filter p) = (lookupEntry k entries).filter fun v => p (k,v) := by
  induction entries with
  | nil => rfl
  | cons e rest ih =>
    obtain ⟨hnew,hrest⟩ := List.nodup_cons.mp h
    rw [lookupEntry_cons,List.filter_cons]
    by_cases hk : e.1 = k
    · subst k
      have hnone : lookupEntry e.1 (rest.filter p) = none := by
        rw [ih hrest,lookupEntry_of_notMem hnew]
        rfl
      by_cases hp : p e = true
      · simp [hp,lookupEntry_cons,Option.filter]
      · simp [hp,hnone,Option.filter]
    · by_cases hp : p e = true
      · simp [hp,hk,lookupEntry_cons,ih hrest]
      · simp [hp,hk,ih hrest]

theorem lookupEntry_eq_some {entries : List (K × V)} (h : (entries.map Prod.fst).Nodup) {k : K} {v : V} :
    lookupEntry k entries = some v ↔ (k,v) ∈ entries := by
  constructor
  · intro hlookup
    obtain ⟨e,he,rfl⟩ := Option.map_eq_some_iff.mp hlookup
    have hkey : e.1 = k := by simpa using List.find?_some he
    subst hkey
    exact List.mem_of_find?_eq_some he
  · exact fun hmem => lookupEntry_of_mem h hmem

theorem lookupEntry_eq_none {entries : List (K × V)} {k : K} :
    lookupEntry k entries = none ↔ k ∉ entries.map Prod.fst := by
  refine ⟨fun h hmem => ?_,lookupEntry_of_notMem⟩
  obtain ⟨e,he,rfl⟩ := List.mem_map.mp hmem
  have hnone := List.find?_eq_none.mp (Option.map_eq_none_iff.mp h) e he
  exact hnone (decide_eq_true rfl)

theorem lookupEntry_map (f : K → V → V) (k : K) (entries : List (K × V)) :
    lookupEntry k (entries.map fun e => (e.1,f e.1 e.2)) = (lookupEntry k entries).map (f k) := by
  induction entries with
  | nil => rfl
  | cons e rest ih =>
    rw [List.map_cons,lookupEntry_cons,lookupEntry_cons,ih]
    by_cases he : e.1 = k
    · rw [if_pos he,if_pos he,he]
      rfl
    · rw [if_neg he,if_neg he]

/-- Entries made for the keys of a list. -/
theorem lookupEntry_filterMap (f : K → Option V) (k : K) (ks : List K) :
    lookupEntry k (ks.filterMap fun key => (f key).map (Prod.mk key)) = if k ∈ ks then f k else none := by
  induction ks with
  | nil => rfl
  | cons key rest ih =>
    cases hf : f key with
    | none =>
      rw [List.filterMap_cons_none (by rw [hf]; rfl),ih]
      by_cases hk : k = key
      · rw [hk,hf]
        simp
      · simp [hk]
    | some v =>
      rw [List.filterMap_cons_some (by rw [hf]; rfl),lookupEntry_cons,ih]
      by_cases hk : key = k
      · subst k
        simp [hf]
      · simp [hk,Ne.symm hk]

omit [DecidableEq K] in
theorem keys_filterMap (f : K → Option V) (ks : List K) :
    (ks.filterMap fun key => (f key).map (Prod.mk key)).map Prod.fst = ks.filter fun key => (f key).isSome := by
  induction ks with
  | nil => rfl
  | cons key rest ih =>
    cases hf : f key with
    | none =>
      rw [List.filterMap_cons_none (by rw [hf]; rfl),ih,
        List.filter_cons_of_neg (by rw [hf]; exact Bool.false_ne_true)]
    | some v =>
      rw [List.filterMap_cons_some (by rw [hf]; rfl),List.map_cons,ih,List.filter_cons_of_pos (by rw [hf]; rfl)]

end PutEntry

/-- A dictionary: no key occurs twice. -/
structure Dict (K V : Type*) where
  entries : List (K × V)
  nodup : (entries.map Prod.fst).Nodup

namespace Dict
variable {K V : Type*} [DecidableEq K]

def empty : Dict K V := ⟨[],List.nodup_nil⟩

def keys (d : Dict K V) : List K := d.entries.map Prod.fst

def insert (d : Dict K V) (k : K) (v : V) : Dict K V := ⟨putEntry k v d.entries,nodup_putEntry d.nodup⟩

def size (d : Dict K V) : ℕ := d.entries.length

def get? (d : Dict K V) (k : K) : Option V := lookupEntry k d.entries

theorem get?_insert (d : Dict K V) (k k' : K) (v : V) :
    (d.insert k v).get? k' = if k' = k then some v else d.get? k' :=
  lookupEntry_putEntry k k' v d.entries

theorem get?_of_mem {d : Dict K V} {e : K × V} (he : e ∈ d.entries) : d.get? e.1 = some e.2 :=
  lookupEntry_of_mem d.nodup he

omit [DecidableEq K] in
@[simp] theorem keys_empty : (empty : Dict K V).keys = [] := rfl

theorem mem_keys_insert {d : Dict K V} {k k' : K} {v : V} : k' ∈ (d.insert k v).keys ↔ k' = k ∨ k' ∈ d.keys := by
  change k' ∈ (putEntry k v d.entries).map Prod.fst ↔ _
  rw [keys_putEntry]
  split
  · rename_i hk
    exact ⟨Or.inr,fun h => h.elim (fun he => he ▸ hk) id⟩
  · rw [List.mem_append,List.mem_singleton,or_comm]
    rfl

omit [DecidableEq K] in
theorem nodup_keys (d : Dict K V) : d.keys.Nodup := d.nodup

/-- As many entries as there are keys. -/
theorem size_eq_card_keys (d : Dict K V) : d.size = d.keys.toFinset.card := by
  rw [List.toFinset_card_of_nodup d.nodup_keys,keys,List.length_map,size]

/-- The dictionary with every value replaced, its keys and their order kept. -/
def mapValues {W : Type*} (d : Dict K V) (f : V → W) : Dict K W where
  entries := d.entries.map fun e => (e.1,f e.2)
  nodup := by
    rw [List.map_map]
    exact d.nodup

theorem get?_mapValues {W : Type*} (d : Dict K V) (f : V → W) (k : K) :
    (d.mapValues f).get? k = (d.get? k).map f := by
  simp only [get?,mapValues,lookupEntry,List.find?_map,Option.map_map]
  rfl

omit [DecidableEq K] in
@[simp] theorem keys_mapValues {W : Type*} (d : Dict K V) (f : V → W) : (d.mapValues f).keys = d.keys := by
  simp [keys,mapValues]

/-- The same with functions that see the key. -/
def mapEntries {W : Type*} (d : Dict K V) (f : K → V → W) : Dict K W where
  entries := d.entries.map fun e => (e.1,f e.1 e.2)
  nodup := by
    rw [List.map_map]
    exact d.nodup

omit [DecidableEq K] in
@[simp] theorem keys_mapEntries {W : Type*} (d : Dict K V) (f : K → V → W) : (d.mapEntries f).keys = d.keys := by
  simp [keys,mapEntries]

theorem get?_mapEntries {W : Type*} (d : Dict K V) (f : K → V → W) (k : K) :
    (d.mapEntries f).get? k = (d.get? k).map (f k) := by
  obtain ⟨entries,h⟩ := d
  simp only [get?,mapEntries]
  clear h
  induction entries with
  | nil => rfl
  | cons e rest ih =>
    rw [List.map_cons,lookupEntry_cons,lookupEntry_cons,ih]
    by_cases hk : e.1 = k
    · simp [hk]
    · simp [hk]

theorem mem_keys_iff {d : Dict K V} {k : K} : k ∈ d.keys ↔ ∃ v, d.get? k = some v := by
  constructor
  · intro h
    obtain ⟨e,he,rfl⟩ := List.mem_map.mp h
    exact ⟨e.2,get?_of_mem he⟩
  · rintro ⟨v,hv⟩
    by_contra h
    rw [get?,lookupEntry_of_notMem h] at hv
    cases hv

theorem get?_of_notMem {d : Dict K V} {k : K} (h : k ∉ d.keys) : d.get? k = none := lookupEntry_of_notMem h

theorem mem_entries_iff {d : Dict K V} {k : K} {v : V} : (k,v) ∈ d.entries ↔ d.get? k = some v := by
  constructor
  · exact get?_of_mem
  · intro h
    obtain ⟨e,he,rfl⟩ := List.mem_map.mp (mem_keys_iff.mpr ⟨v,h⟩)
    obtain rfl : e.2 = v := Option.some_injective _ ((get?_of_mem he).symm.trans h)
    exact he

def erase (d : Dict K V) (k : K) : Dict K V where
  entries := d.entries.filter fun e => !decide (e.1 = k)
  nodup := d.nodup.sublist (List.filter_sublist.map _)

theorem get?_erase (d : Dict K V) (k k' : K) : (d.erase k).get? k' = if k' = k then none else d.get? k' := by
  rw [get?,erase,lookupEntry_filter _ _ d.nodup]
  by_cases hk : k' = k
  · cases h : lookupEntry k' d.entries <;> simp [hk,Option.filter]
  · cases h : lookupEntry k' d.entries <;> simp [hk,h,get?,Option.filter]

/-- The entries that a test keeps. -/
def filter (d : Dict K V) (p : K × V → Bool) : Dict K V where
  entries := d.entries.filter p
  nodup := d.nodup.sublist (List.filter_sublist.map _)

omit [DecidableEq K] in
theorem size_filter_le (d : Dict K V) (p : K × V → Bool) : (d.filter p).size ≤ d.size := List.length_filter_le _ _

omit [DecidableEq K] in
/-- Distinct keys are no more than there are entries. -/
theorem length_le_size {d : Dict K V} {ks : List K} (hnodup : ks.Nodup) (h : ∀ k ∈ ks, k ∈ d.keys) :
    ks.length ≤ d.size := by
  have hle := (List.subperm_of_subset hnodup h).length_le
  rwa [keys,List.length_map] at hle

theorem size_insert_of_mem {d : Dict K V} {k : K} (h : k ∈ d.keys) (v : V) : (d.insert k v).size = d.size := by
  have hkeys : (d.insert k v).keys = d.keys := (keys_putEntry k v d.entries).trans (if_pos h)
  have hlength := congrArg List.length hkeys
  rwa [keys,keys,List.length_map,List.length_map] at hlength

/-- The values of several writes, one after the other. -/
def ofEntries (entries : List (K × V)) : Dict K V := entries.foldl (fun d e => d.insert e.1 e.2) empty

theorem mem_keys_foldl_combine (f : Option V → V → V) (entries : List (K × V)) (d : Dict K V) (k : K) :
    k ∈ (entries.foldl (fun d e => d.insert e.1 (f (d.get? e.1) e.2)) d).keys ↔
      k ∈ entries.map Prod.fst ∨ k ∈ d.keys := by
  induction entries generalizing d with
  | nil => simp
  | cons e rest ih =>
    rw [List.foldl_cons,ih,mem_keys_insert,List.map_cons,List.mem_cons]
    tauto

theorem mem_keys_ofEntries {entries : List (K × V)} {k : K} :
    k ∈ (ofEntries entries).keys ↔ k ∈ entries.map Prod.fst := by
  rw [ofEntries,mem_keys_foldl_combine fun _ v => v]
  simp

theorem mem_foldl_insert {entries : List (K × V)} {d : Dict K V} {e : K × V}
    (h : e ∈ (entries.foldl (fun d e => d.insert e.1 e.2) d).entries) : e ∈ entries ∨ e ∈ d.entries := by
  induction entries generalizing d with
  | nil => exact Or.inr h
  | cons e' rest ih =>
    rcases ih h with hr | hd
    · exact Or.inl (List.mem_cons_of_mem _ hr)
    · rcases mem_putEntry hd with rfl | hd
      · exact Or.inl List.mem_cons_self
      · exact Or.inr hd

/-- Only what was written is there. -/
theorem mem_ofEntries {entries : List (K × V)} {e : K × V} (h : e ∈ (ofEntries entries).entries) : e ∈ entries :=
  (mem_foldl_insert h).resolve_right List.not_mem_nil

/-- Writes to distinct keys are all kept, in order. -/
theorem foldl_insert_of_nodup {entries : List (K × V)} {d : Dict K V}
    (h : ((d.entries ++ entries).map Prod.fst).Nodup) :
    (entries.foldl (fun d e => d.insert e.1 e.2) d).entries = d.entries ++ entries := by
  induction entries generalizing d with
  | nil => exact (List.append_nil _).symm
  | cons e rest ih =>
    have hnew : e.1 ∉ d.entries.map Prod.fst := by
      rw [List.map_append,List.map_cons] at h
      intro hmem
      exact (List.disjoint_of_nodup_append h) hmem List.mem_cons_self
    have hins : (d.insert e.1 e.2).entries = d.entries ++ [e] := putEntry_of_notMem hnew
    rw [List.foldl_cons,ih]
    · rw [hins,List.append_assoc]
      rfl
    · rw [hins,List.append_assoc]
      exact h

theorem ofEntries_of_nodup {entries : List (K × V)} (h : (entries.map Prod.fst).Nodup) :
    (ofEntries entries).entries = entries :=
  foldl_insert_of_nodup h

theorem ofEntries_entries (d : Dict K V) : ofEntries d.entries = d := by
  obtain ⟨entries,h⟩ := d
  have he := ofEntries_of_nodup h
  cases hd : ofEntries entries
  simp_all

/-- Each entry of a list is combined with what the dictionary has for its key. -/
theorem get?_foldl_combine (f : Option V → V → V) {entries : List (K × V)} (h : (entries.map Prod.fst).Nodup)
    (d : Dict K V) (k : K) : (entries.foldl (fun d e => d.insert e.1 (f (d.get? e.1) e.2)) d).get? k =
      (lookupEntry k entries).elim (d.get? k) fun v => some (f (d.get? k) v) := by
  induction entries generalizing d with
  | nil => rfl
  | cons e rest ih =>
    obtain ⟨hnew,hrest⟩ := List.nodup_cons.mp h
    rw [List.foldl_cons,ih hrest,lookupEntry_cons,get?_insert]
    by_cases hk : e.1 = k
    · subst k
      simp [lookupEntry_of_notMem hnew]
    · simp [hk,Ne.symm hk]

/-- The entries of one dictionary combined into another. -/
theorem get?_combine (f : Option V → V → V) (d d' : Dict K V) (k : K) :
    (d'.entries.foldl (fun d e => d.insert e.1 (f (d.get? e.1) e.2)) d).get? k =
      (d'.get? k).elim (d.get? k) fun v => some (f (d.get? k) v) :=
  get?_foldl_combine f d'.nodup d k

/-- The sum of the values, key by key. -/
theorem sum_values {M : Type*} [AddCommMonoid M] (d : Dict K M) :
    (d.entries.map Prod.snd).sum = ∑ k ∈ d.keys.toFinset, (d.get? k).getD 0 := by
  rw [List.sum_toFinset _ d.nodup_keys,keys,List.map_map]
  congr 1
  refine List.map_congr_left fun e he => ?_
  simp [get?_of_mem he]

theorem size_ofEntries (entries : List (K × V)) :
    (ofEntries entries).size = (entries.map Prod.fst).toFinset.card := by
  rw [size_eq_card_keys]
  refine congrArg Finset.card (Finset.ext fun k => ?_)
  rw [List.mem_toFinset,mem_keys_ofEntries,List.mem_toFinset]

end Dict

end DistributedSystems
