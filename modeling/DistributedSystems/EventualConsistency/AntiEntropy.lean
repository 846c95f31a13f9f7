import DistributedSystems.EventualConsistency.ConflictResolution
import DistributedSystems.Protocol.HeapTree
import DistributedSystems.Protocol.SetsByKey
import Mathlib.Data.List.Sort
import Mathlib.Data.String.Basic

/-! # Anti-entropy with bucket trees

The keys of a store are spread over buckets, and the hashes of the buckets are the leaves of a
tree. A bucket is hashed as one text, in which nothing separates one entry from the next, so two
different buckets can read the same.
-/
namespace DistributedSystems.EventualConsistency

structure ValueError where
  message : String

/-- The tree of a store. An unbuilt tree has no hashes. -/
structure MerkleTree where
  numBuckets : ℕ
  buckets : ℕ → List (String × String)
  bucketHashes : ℕ → Option String
  tree : ℕ → Option String

/-- What the hasher of a bucket reads. -/
def bucketText : List (String × String) → String
  | [] => ""
  | e :: rest => e.1 ++ ":" ++ e.2 ++ bucketText rest

/-- `sort` with the keys compared as strings. -/
def sortByKey (bucket : List (String × String)) : List (String × String) :=
  bucket.insertionSort fun e e' => e.1 ≤ e'.1

/-- The two digests, of which `md5` is read as a number, and how timestamps and values are printed. -/
structure Printing (V T : Type) where
  sha256 : String → String
  md5 : String → ℕ
  strTime : T → String
  strValue : V → String

namespace MerkleTree
variable {V T C : Type} (q : Printing V T) (numBuckets : ℕ)

def hashKey (key : String) : ℕ := q.md5 key % numBuckets

def hashVal (val : VersionedValue V T C) : String :=
  q.sha256 (q.strTime val.timestamp ++ ":" ++ q.strValue val.value)

def unbuilt : MerkleTree := ⟨numBuckets,fun _ => [],fun _ => none,fun _ => none⟩

/-- One entry goes to its bucket. -/
def assign (buckets : ℕ → List (String × String)) (e : String × VersionedValue V T C) : ℕ → List (String × String) :=
  Function.update buckets (hashKey q numBuckets e.1) (buckets (hashKey q numBuckets e.1) ++ [(e.1,hashVal q e.2)])

/-- The hash of an inner node; a missing child counts as the empty string. -/
def combine (left right : Option String) : String := q.sha256 (left.getD "" ++ right.getD "")

def build (t : MerkleTree) (data : Dict String (VersionedValue V T C)) : MerkleTree :=
  let assigned := data.entries.foldl (assign q t.numBuckets) t.buckets
  let buckets i := if i < t.numBuckets then sortByKey (assigned i) else assigned i
  let bucketHashes i := if i < t.numBuckets then some (q.sha256 (bucketText (buckets i))) else t.bucketHashes i
  let leaves i := if t.numBuckets ≤ i ∧ i < 2 * t.numBuckets then bucketHashes (i - t.numBuckets) else t.tree i
  { t with buckets, bucketHashes, tree := HeapTree.buildUp (combine q) (t.numBuckets - 1) leaves }

/-- `__init__`, which builds no tree of an empty store. -/
def init (data : Dict String (VersionedValue V T C)) : MerkleTree :=
  if data.entries = [] then unbuilt numBuckets else (unbuilt numBuckets).build q data

def hashAt (t : MerkleTree) (nodeIdx : ℕ) : String := (t.tree nodeIdx).getD ""

def bucketKeys (t : MerkleTree) (bucketIdx : ℕ) : Finset String := ((t.buckets bucketIdx).map Prod.fst).toFinset

end MerkleTree

/-- The order in which the union of two sets of keys is listed. -/
abbrev KeyOrder := ∀ s : Finset String, Listing s

namespace MerkleSync
open MerkleTree

/-- `_compare_recursive`, with the keys that it adds. -/
def compareRecursive (order : KeyOrder) (localTree remoteTree : MerkleTree) (nodeIdx : ℕ) (hpos : 0 < nodeIdx) :
    List String :=
  if localTree.hashAt nodeIdx = remoteTree.hashAt nodeIdx then []
  else if localTree.numBuckets ≤ nodeIdx then
    let bucketIdx := nodeIdx - localTree.numBuckets
    (order (localTree.bucketKeys bucketIdx ∪ remoteTree.bucketKeys bucketIdx)).items
  else
    compareRecursive order localTree remoteTree (2 * nodeIdx) (HeapTree.left_pos hpos) ++
      compareRecursive order localTree remoteTree (2 * nodeIdx + 1) (HeapTree.right_pos nodeIdx)
termination_by localTree.numBuckets - nodeIdx

def compareTrees (order : KeyOrder) (localTree remoteTree : MerkleTree) : Except ValueError (List String) :=
  if localTree.numBuckets ≠ remoteTree.numBuckets then .error ⟨"Cannot compare trees with different bucket counts"⟩
  else .ok (compareRecursive order localTree remoteTree 1 Nat.one_pos)

/-- The comparison is a descent through the two trees. -/
theorem compareRecursive_eq_descend (order : KeyOrder) (localTree remoteTree : MerkleTree) (nodeIdx : ℕ)
    (hpos : 0 < nodeIdx) : compareRecursive order localTree remoteTree nodeIdx hpos =
      HeapTree.descend localTree.numBuckets (fun i => localTree.hashAt i = remoteTree.hashAt i)
        (fun b => (order (localTree.bucketKeys b ∪ remoteTree.bucketKeys b)).items) nodeIdx hpos := by
  fun_induction compareRecursive order localTree remoteTree nodeIdx hpos with
  | case1 nodeIdx hpos hsame => rw [HeapTree.descend,if_pos hsame]
  | case2 nodeIdx hpos hsame hleaf => rw [HeapTree.descend,if_neg hsame,if_pos hleaf]
  | case3 nodeIdx hpos hsame hinner ihl ihr => rw [HeapTree.descend,if_neg hsame,if_neg hinner,ihl,ihr]

end MerkleSync

namespace MerkleTree
variable {V T C : Type} (q : Printing V T) (numBuckets : ℕ)

/-- The sorted entries of a bucket. -/
def bucketEntries (data : Dict String (VersionedValue V T C)) (b : ℕ) : List (String × String) :=
  sortByKey ((data.entries.filter fun e => hashKey q numBuckets e.1 = b).map fun e => (e.1,hashVal q e.2))

/-- The timestamp and the value of a key as they are printed. -/
def printed (data : Dict String (VersionedValue V T C)) (key : String) : Option (String × String) :=
  (data.get? key).map fun val => (q.strTime val.timestamp,q.strValue val.value)

/-- The key is in one store only, or its printed timestamp or value differs. -/
def Differs (data data' : Dict String (VersionedValue V T C)) (key : String) : Prop :=
  printed q data key ≠ printed q data' key

instance (data data' : Dict String (VersionedValue V T C)) (key : String) : Decidable (Differs q data data' key) :=
  inferInstanceAs (Decidable (_ ≠ _))

variable {q} {numBuckets} {data data' : Dict String (VersionedValue V T C)} {b : ℕ}

theorem mem_sortByKey {bucket : List (String × String)} {e : String × String} : e ∈ sortByKey bucket ↔ e ∈ bucket :=
  (List.perm_insertionSort _ bucket).mem_iff

theorem mem_bucketEntries {key hash : String} : (key,hash) ∈ bucketEntries q numBuckets data b ↔
    hashKey q numBuckets key = b ∧ ∃ val, data.get? key = some val ∧ hash = hashVal q val := by
  rw [bucketEntries,mem_sortByKey,List.mem_map]
  constructor
  · rintro ⟨e,he,heq⟩
    obtain ⟨rfl,rfl⟩ := Prod.mk.inj heq
    obtain ⟨he,hb⟩ := List.mem_filter.mp he
    exact ⟨of_decide_eq_true hb,e.2,Dict.get?_of_mem he,rfl⟩
  · rintro ⟨hb,val,hval,rfl⟩
    exact ⟨(key,val),List.mem_filter.mpr ⟨Dict.mem_entries_iff.mpr hval,decide_eq_true hb⟩,rfl⟩

theorem nodup_bucketEntries : ((bucketEntries q numBuckets data b).map Prod.fst).Nodup := by
  have hperm := (List.perm_insertionSort (fun e e' : String × String => e.1 ≤ e'.1)
    ((data.entries.filter fun e => hashKey q numBuckets e.1 = b).map fun e => (e.1,hashVal q e.2))).map Prod.fst
  rw [bucketEntries,sortByKey,hperm.nodup_iff,List.map_map]
  exact data.nodup.sublist (List.filter_sublist.map _)

/-- Stores that print the same in a bucket have the same entries there, whatever their order was. -/
theorem bucketEntries_congr (h : ∀ key, hashKey q numBuckets key = b → printed q data key = printed q data' key) :
    bucketEntries q numBuckets data b = bucketEntries q numBuckets data' b := by
  have hsub : ∀ {d d' : Dict String (VersionedValue V T C)},
      (∀ key, hashKey q numBuckets key = b → printed q d key = printed q d' key) →
      ∀ e ∈ bucketEntries q numBuckets d b, e ∈ bucketEntries q numBuckets d' b := by
    rintro d d' hprinted ⟨key,hash⟩ he
    obtain ⟨hb,val,hval,rfl⟩ := mem_bucketEntries.mp he
    have heq := hprinted key hb
    rw [printed,hval,Option.map_some,eq_comm] at heq
    obtain ⟨val',hval',hprint⟩ := Option.map_eq_some_iff.mp heq
    obtain ⟨htime,hvalue⟩ := Prod.mk.inj hprint
    exact mem_bucketEntries.mpr ⟨hb,val',hval',by rw [hashVal,hashVal,htime,hvalue]⟩
  have hsub' := hsub fun key hb => (h key hb).symm
  have hperm : (bucketEntries q numBuckets data b).Perm (bucketEntries q numBuckets data' b) :=
    (List.perm_ext_iff_of_nodup nodup_bucketEntries.of_map nodup_bucketEntries.of_map).mpr fun e => ⟨hsub h e,hsub' e⟩
  have hsorted : ∀ d : Dict String (VersionedValue V T C),
      (bucketEntries q numBuckets d b).Pairwise fun e e' => e.1 ≤ e'.1 := fun d => List.pairwise_insertionSort _ _
  refine hperm.eq_of_pairwise ?_ (hsorted data) (hsorted data')
  intro e e' he he' hle hle'
  exact List.inj_on_of_nodup_map nodup_bucketEntries he (hsub' e' he') (le_antisymm hle hle')

theorem foldl_assign (entries : List (String × VersionedValue V T C)) (buckets : ℕ → List (String × String)) :
    entries.foldl (assign q numBuckets) buckets b = buckets b ++
      (entries.filter fun e => hashKey q numBuckets e.1 = b).map fun e => (e.1,hashVal q e.2) := by
  induction entries generalizing buckets with
  | nil => simp
  | cons e rest ih =>
    rw [List.foldl_cons,ih,assign]
    by_cases hb : hashKey q numBuckets e.1 = b
    · subst b
      simp
    · simp [hb,Ne.symm hb]

@[simp] theorem init_numBuckets : (init q numBuckets data).numBuckets = numBuckets := by
  unfold init
  split <;> rfl

theorem build_buckets (t : MerkleTree) (hnew : t.buckets = fun _ => []) : (t.build q data).buckets b =
    if b < t.numBuckets then bucketEntries q t.numBuckets data b
    else (data.entries.filter fun e => hashKey q t.numBuckets e.1 = b).map fun e => (e.1,hashVal q e.2) := by
  unfold build
  dsimp only
  rw [foldl_assign,hnew,List.nil_append]
  rfl

theorem init_buckets (hb : b < numBuckets) : (init q numBuckets data).buckets b = bucketEntries q numBuckets data b := by
  unfold init
  split
  · rename_i hempty
    simp [bucketEntries,hempty,sortByKey,unbuilt]
  · rw [build_buckets _ rfl]
    exact if_pos hb

theorem mem_init_buckets {e : String × String} :
    e ∈ (init q numBuckets data).buckets b ↔ e ∈ bucketEntries q numBuckets data b := by
  by_cases hb : b < numBuckets
  · rw [init_buckets hb]
  · unfold init
    split
    · rename_i hempty
      simp [bucketEntries,hempty,sortByKey,unbuilt]
    · rw [build_buckets _ rfl]
      exact (iff_of_eq (congrArg (e ∈ ·) (if_neg hb))).trans mem_sortByKey.symm

theorem init_unbuilt (hempty : data.entries = []) (i : ℕ) : (init q numBuckets data).tree i = none := by
  rw [init,if_pos hempty]
  rfl

theorem build_leaf (t : MerkleTree) (hb : b < t.numBuckets) :
    (t.build q data).tree (t.numBuckets + b) = some (q.sha256 (bucketText ((t.build q data).buckets b))) := by
  unfold build
  dsimp only
  rw [HeapTree.buildUp_of_lt _ _ (by omega),if_pos (by omega),Nat.add_sub_cancel_left,if_pos hb]

theorem init_leaf (hne : data.entries ≠ []) (hb : b < numBuckets) :
    (init q numBuckets data).tree (numBuckets + b) =
      some (q.sha256 (bucketText (bucketEntries q numBuckets data b))) := by
  rw [← init_buckets hb,init,if_neg hne]
  exact build_leaf (unbuilt numBuckets) hb

theorem init_inner (hne : data.entries ≠ []) {i : ℕ} (hpos : 0 < i) (hi : i < numBuckets) :
    (init q numBuckets data).tree i = some (q.sha256 ((init q numBuckets data).hashAt (2 * i) ++
      (init q numBuckets data).hashAt (2 * i + 1))) := by
  rw [init,if_neg hne]
  exact HeapTree.buildUp_of_le _ _ hpos (Nat.le_sub_one_of_lt hi)

/-- All nodes of a built tree have a hash. -/
theorem init_built (hne : data.entries ≠ []) {i : ℕ} (hpos : 0 < i) (hi : i < 2 * numBuckets) :
    ∃ hash, (init q numBuckets data).tree i = some hash := by
  rcases Nat.lt_or_ge i numBuckets with hinner | hleaf
  · exact ⟨_,init_inner hne hpos hinner⟩
  · obtain ⟨b,rfl⟩ := Nat.exists_eq_add_of_le hleaf
    exact ⟨_,init_leaf hne (by omega)⟩

theorem mem_bucketKeys {key : String} : key ∈ (init q numBuckets data).bucketKeys b ↔
    hashKey q numBuckets key = b ∧ key ∈ data.keys := by
  rw [bucketKeys,List.mem_toFinset,List.mem_map,Dict.mem_keys_iff]
  constructor
  · rintro ⟨⟨key',hash⟩,he,rfl⟩
    obtain ⟨hb,val,hval,-⟩ := mem_bucketEntries.mp (mem_init_buckets.mp he)
    exact ⟨hb,val,hval⟩
  · rintro ⟨hb,val,hval⟩
    exact ⟨(key,hashVal q val),mem_init_buckets.mpr (mem_bucketEntries.mpr ⟨hb,val,hval,rfl⟩),rfl⟩

end MerkleTree

end DistributedSystems.EventualConsistency
