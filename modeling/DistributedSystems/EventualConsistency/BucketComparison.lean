import DistributedSystems.EventualConsistency.AntiEntropy
import Mathlib.Data.Finset.Sort

/-! # What a comparison of two stores finds

A difference in the text of a bucket goes up to the root, so the descent finds it. Buckets that
differ and read the same are missed; it takes a key that holds the digest of another entry.
-/
namespace DistributedSystems.EventualConsistency

namespace MerkleTree
variable {V T C : Type} {q : Printing V T} {numBuckets : ℕ} {data data' : Dict String (VersionedValue V T C)} {b : ℕ}

/-- The digests in a tree are 64 characters long. -/
def Hex (t : MerkleTree) : Prop := ∀ i, ∀ hash ∈ t.tree i, hash.length = 64

theorem append_inj_of_length {s s' t t' : String} (h : s ++ t = s' ++ t') (hlen : s.length = s'.length) :
    s = s' ∧ t = t' := by
  rw [← String.toList_inj,String.toList_append,String.toList_append] at h
  obtain ⟨hs,ht⟩ := List.append_inj h (by rw [String.length_toList,String.length_toList,hlen])
  exact ⟨String.toList_inj.mp hs,String.toList_inj.mp ht⟩

theorem hashAt_unbuilt (hempty : data.entries = []) (i : ℕ) : (init q numBuckets data).hashAt i = "" := by
  rw [hashAt,init_unbuilt hempty]
  rfl

theorem hashAt_length (hhex : (init q numBuckets data).Hex) (hne : data.entries ≠ []) {i : ℕ} (hpos : 0 < i)
    (hi : i < 2 * numBuckets) : ((init q numBuckets data).hashAt i).length = 64 := by
  obtain ⟨hash,hhash⟩ := init_built (q := q) hne hpos hi
  rw [hashAt,hhash]
  exact hhex i hash hhash

/-- Built and unbuilt trees differ in all their nodes. -/
theorem hashAt_ne_unbuilt (hhex : (init q numBuckets data).Hex) (hne : data.entries ≠ []) {i : ℕ} (hpos : 0 < i)
    (hi : i < 2 * numBuckets) : (init q numBuckets data).hashAt i ≠ "" := by
  intro heq
  have hlen := hashAt_length hhex hne hpos hi
  rw [heq] at hlen
  cases hlen

/-- A difference between two trees goes up to their roots. -/
theorem hashAt_half_ne (hinj : Function.Injective q.sha256) (hhex : (init q numBuckets data).Hex)
    (hhex' : (init q numBuckets data').Hex) {i : ℕ} (hi : 1 < i) (hlt : i < 2 * numBuckets)
    (hne : (init q numBuckets data).hashAt i ≠ (init q numBuckets data').hashAt i) :
    (init q numBuckets data).hashAt (i / 2) ≠ (init q numBuckets data').hashAt (i / 2) := by
  have hpos : 0 < i / 2 := by omega
  have hinner : i / 2 < numBuckets := by omega
  have hhalf : i / 2 < 2 * numBuckets := by omega
  by_cases hempty : data.entries = []
  · rw [hashAt_unbuilt hempty] at hne ⊢
    by_cases hempty' : data'.entries = []
    · exact absurd (hashAt_unbuilt hempty' i).symm hne
    · exact (hashAt_ne_unbuilt hhex' hempty' hpos hhalf).symm
  by_cases hempty' : data'.entries = []
  · rw [hashAt_unbuilt hempty']
    exact hashAt_ne_unbuilt hhex hempty hpos hhalf
  intro heq
  rw [hashAt,hashAt,init_inner hempty hpos hinner,init_inner hempty' hpos hinner] at heq
  have hlen := hashAt_length hhex hempty (i := 2 * (i / 2)) (by omega) (by omega)
  have hlen' := hashAt_length hhex' hempty' (i := 2 * (i / 2)) (by omega) (by omega)
  obtain ⟨hleft,hright⟩ := append_inj_of_length (hinj heq) (hlen.trans hlen'.symm)
  rcases Nat.mod_two_eq_zero_or_one i with hmod | hmod
  · have h2 : 2 * (i / 2) = i := by omega
    exact hne (h2 ▸ hleft)
  · have h2 : 2 * (i / 2) + 1 = i := by omega
    exact hne (h2 ▸ hright)

/-- Two buckets whose contents differ read differently, too. -/
def Unambiguous (q : Printing V T) (numBuckets : ℕ) (data data' : Dict String (VersionedValue V T C)) : Prop :=
  ∀ b < numBuckets, (∃ key, hashKey q numBuckets key = b ∧ Differs q data data' key) →
    bucketText (bucketEntries q numBuckets data b) ≠ bucketText (bucketEntries q numBuckets data' b)

theorem bucketText_eq_empty {bucket : List (String × String)} : bucketText bucket = "" ↔ bucket = [] := by
  cases bucket with
  | nil => exact iff_of_true rfl rfl
  | cons e rest =>
    refine iff_of_false (fun h => ?_) (List.cons_ne_nil _ _)
    have hlen := congrArg String.length h
    simp only [bucketText,String.length_append] at hlen
    have hcolon : ":".length = 1 := rfl
    have hzero : "".length = 0 := rfl
    omega

theorem bucketText_ne_empty {key : String} (hb : hashKey q numBuckets key = b) (hkey : key ∈ data.keys) :
    bucketText (bucketEntries q numBuckets data b) ≠ "" := by
  obtain ⟨val,hval⟩ := Dict.mem_keys_iff.mp hkey
  rw [Ne,bucketText_eq_empty]
  exact List.ne_nil_of_mem (mem_bucketEntries.mpr ⟨hb,val,hval,rfl⟩)

theorem bucketText_of_empty (hempty : data.entries = []) : bucketText (bucketEntries q numBuckets data b) = "" := by
  simp [bucketEntries,hempty,sortByKey,bucketText]

theorem entries_ne_nil {key : String} (hkey : key ∈ data.keys) : data.entries ≠ [] :=
  List.ne_nil_of_mem (List.mem_map.mp hkey).choose_spec.1

/-- The leaf of a bucket that is in use shows whether the two texts of the bucket differ. -/
theorem leaf_ne_iff (hinj : Function.Injective q.sha256) (hhex : (init q numBuckets data).Hex)
    (hhex' : (init q numBuckets data').Hex) (hb : b < numBuckets) {key : String} (hkb : hashKey q numBuckets key = b)
    (hkey : key ∈ data.keys ∨ key ∈ data'.keys) :
    (init q numBuckets data).hashAt (numBuckets + b) ≠ (init q numBuckets data').hashAt (numBuckets + b) ↔
      bucketText (bucketEntries q numBuckets data b) ≠ bucketText (bucketEntries q numBuckets data' b) := by
  by_cases hempty : data.entries = []
  · have hkey' := hkey.resolve_left fun h => entries_ne_nil h hempty
    rw [hashAt_unbuilt hempty,bucketText_of_empty hempty]
    exact iff_of_true (hashAt_ne_unbuilt hhex' (entries_ne_nil hkey') (by omega) (by omega)).symm
      (bucketText_ne_empty hkb hkey').symm
  by_cases hempty' : data'.entries = []
  · have hkey' := hkey.resolve_right fun h => entries_ne_nil h hempty'
    rw [hashAt_unbuilt hempty',bucketText_of_empty hempty']
    exact iff_of_true (hashAt_ne_unbuilt hhex hempty (by omega) (by omega)) (bucketText_ne_empty hkb hkey')
  rw [hashAt,hashAt,init_leaf hempty hb,init_leaf hempty' hb]
  exact hinj.ne_iff

end MerkleTree

namespace MerkleSync
open MerkleTree
variable {V T C : Type} {q : Printing V T} {numBuckets : ℕ} {data data' : Dict String (VersionedValue V T C)}

/-- The keys of the buckets whose leaves differ are returned. -/
theorem mem_compareRecursive (hn : 0 < numBuckets) (hinj : Function.Injective q.sha256)
    (hhex : (init q numBuckets data).Hex) (hhex' : (init q numBuckets data').Hex) (order : KeyOrder) (key : String) :
    key ∈ compareRecursive order (init q numBuckets data) (init q numBuckets data') 1 Nat.one_pos ↔
      (key ∈ data.keys ∨ key ∈ data'.keys) ∧
      (init q numBuckets data).hashAt (numBuckets + hashKey q numBuckets key) ≠
        (init q numBuckets data').hashAt (numBuckets + hashKey q numBuckets key) := by
  rw [compareRecursive_eq_descend,init_numBuckets]
  constructor
  · intro h
    obtain ⟨j,-,hle,hdiffers,hmem⟩ := HeapTree.mem_descend h
    rw [Listing.mem_items,Finset.mem_union,mem_bucketKeys,mem_bucketKeys,← and_or_left] at hmem
    obtain ⟨hb,hkey⟩ := hmem
    rw [hb,Nat.add_sub_cancel' hle]
    exact ⟨hkey,hdiffers⟩
  · rintro ⟨hkey,hdiffers⟩
    refine HeapTree.mem_descend_of_differs (fun j => hashAt_half_ne hinj hhex hhex') (Nat.mod_lt _ hn) hdiffers ?_
    rw [Listing.mem_items,Finset.mem_union,mem_bucketKeys,mem_bucketKeys,← and_or_left]
    exact ⟨rfl,hkey⟩

/-- No key is returned twice. -/
theorem nodup_compareRecursive (order : KeyOrder) :
    (compareRecursive order (init q numBuckets data) (init q numBuckets data') 1 Nat.one_pos).Nodup := by
  rw [compareRecursive_eq_descend]
  refine HeapTree.nodup_descend (fun b => Listing.nodup _) fun b b' key hb hb' => ?_
  rw [Listing.mem_items,Finset.mem_union,mem_bucketKeys,mem_bucketKeys,← and_or_left] at hb hb'
  exact hb.1.symm.trans hb'.1

/-- What is expected of the keys that a comparison returns. -/
structure MissesNothing (q : Printing V T) (numBuckets : ℕ) (data data' : Dict String (VersionedValue V T C))
    (keys : List String) : Prop where
  complete : ∀ key, Differs q data data' key → key ∈ keys
  relevant : ∀ key ∈ keys, ∃ key', hashKey q numBuckets key' = hashKey q numBuckets key ∧ Differs q data data' key'
  nodup : keys.Nodup

theorem compareTrees_init (order : KeyOrder) : compareTrees order (init q numBuckets data) (init q numBuckets data') =
    .ok (compareRecursive order (init q numBuckets data) (init q numBuckets data') 1 Nat.one_pos) := by
  rw [compareTrees,init_numBuckets,init_numBuckets,if_neg (not_not_intro rfl)]

/-- A comparison misses nothing exactly when the buckets that differ read differently. -/
theorem missesNothing_iff (hn : 0 < numBuckets) (hinj : Function.Injective q.sha256)
    (hhex : (init q numBuckets data).Hex) (hhex' : (init q numBuckets data').Hex) (order : KeyOrder) :
    ∃ keys, compareTrees order (init q numBuckets data) (init q numBuckets data') = .ok keys ∧
      (MissesNothing q numBuckets data data' keys ↔ Unambiguous q numBuckets data data') := by
  refine ⟨_,compareTrees_init order,?_⟩
  have hmem := mem_compareRecursive hn hinj hhex hhex' order
  constructor
  · rintro ⟨hcomplete,-,-⟩ b hb ⟨key,hkb,hdiffers⟩
    obtain ⟨hkey,hleaf⟩ := (hmem key).mp (hcomplete key hdiffers)
    rw [hkb] at hleaf
    exact (leaf_ne_iff hinj hhex hhex' hb hkb hkey).mp hleaf
  · intro hunambiguous
    refine ⟨fun key hdiffers => ?_,fun key hkey => ?_,nodup_compareRecursive order⟩
    · have hb : hashKey q numBuckets key < numBuckets := Nat.mod_lt _ hn
      have hkey : key ∈ data.keys ∨ key ∈ data'.keys := by
        by_contra hnot
        rw [not_or] at hnot
        exact hdiffers (by rw [printed,printed,Dict.get?_of_notMem hnot.1,Dict.get?_of_notMem hnot.2])
      exact (hmem key).mpr ⟨hkey,(leaf_ne_iff hinj hhex hhex' hb rfl hkey).mpr (hunambiguous _ hb ⟨key,rfl,hdiffers⟩)⟩
    · obtain ⟨hkeys,hleaf⟩ := (hmem key).mp hkey
      have htext := (leaf_ne_iff hinj hhex hhex' (Nat.mod_lt _ hn) rfl hkeys).mp hleaf
      by_contra hnone
      refine htext (congrArg bucketText (bucketEntries_congr fun key' hb => ?_))
      by_contra hdiffers
      exact hnone ⟨key',hb,hdiffers⟩

end MerkleSync

namespace MerkleTree
variable {V T C : Type} {q : Printing V T} {numBuckets : ℕ} {data data' : Dict String (VersionedValue V T C)} {b : ℕ}

theorem toList_bucketText_cons (e : String × String) (rest : List (String × String)) :
    (bucketText (e :: rest)).toList = e.1.toList ++ ':' :: (e.2.toList ++ (bucketText rest).toList) := by
  simp [bucketText,String.toList_append]

/-- An entry whose key is not long enough to hold another entry's digest. -/
def ShortEntry (e : String × String) : Prop := e.1.length < 65 ∧ e.2.length = 64 ∧ ':' ∉ e.2.toList

/-- The colon of a second key would be in the digest after the first one. -/
theorem length_key_le {e e' : String × String} {m m' : List Char} (he : ShortEntry e) (he' : ShortEntry e')
    (h : e.1.toList ++ ':' :: (e.2.toList ++ m) = e'.1.toList ++ ':' :: (e'.2.toList ++ m')) :
    e'.1.length ≤ e.1.length := by
  by_contra hlt
  have hdigest : e.2.toList.length = 64 := String.length_toList.trans he.2.1
  have hchar := congrArg (fun l => l[e'.1.toList.length]?) h
  simp only [List.getElem?_append,String.length_toList] at hchar
  rw [if_neg (by omega),if_neg (by omega),Nat.sub_self,List.getElem?_cons_zero] at hchar
  obtain ⟨i,hi⟩ : ∃ i, e'.1.length - e.1.length = i + 1 := ⟨e'.1.length - e.1.length - 1,by omega⟩
  have hshort := he'.1
  rw [hi,List.getElem?_cons_succ,List.getElem?_append_left (by omega)] at hchar
  exact he.2.2 (List.mem_of_getElem? hchar)

/-- Short entries can be told apart in the text of a bucket. -/
theorem bucketText_injective {bucket bucket' : List (String × String)} (h : ∀ e ∈ bucket, ShortEntry e)
    (h' : ∀ e ∈ bucket', ShortEntry e) (heq : bucketText bucket = bucketText bucket') : bucket = bucket' := by
  induction bucket generalizing bucket' with
  | nil => exact (bucketText_eq_empty.mp heq.symm).symm
  | cons e rest ih =>
    cases bucket' with
    | nil => exact bucketText_eq_empty.mp heq
    | cons e' rest' =>
      rw [List.forall_mem_cons] at h h'
      have hchars := congrArg String.toList heq
      rw [toList_bucketText_cons,toList_bucketText_cons] at hchars
      have hlen := le_antisymm (length_key_le h'.1 h.1 hchars.symm) (length_key_le h.1 h'.1 hchars)
      obtain ⟨hkey,hrest⟩ := List.append_inj hchars (by rw [String.length_toList,String.length_toList,hlen])
      obtain ⟨hdigest,hrest⟩ := List.append_inj (List.cons.inj hrest).2
        (by rw [String.length_toList,String.length_toList,h.1.2.1,h'.1.2.1])
      rw [ih h.2 h'.2 (String.toList_inj.mp hrest)]
      exact congrArg (· :: rest') (Prod.ext (String.toList_inj.mp hkey) (String.toList_inj.mp hdigest))

/-- What is printed before and after the first colon. -/
theorem append_colon_inj {s s' t t' : String} (hs : ':' ∉ s.toList) (hs' : ':' ∉ s'.toList)
    (h : s ++ ":" ++ t = s' ++ ":" ++ t') : s = s' ∧ t = t' := by
  have htake : ∀ l m : List Char, ':' ∉ l → (l ++ ':' :: m).takeWhile (· ≠ ':') = l := by
    intro l m hl
    have hpos : ∀ c ∈ l, decide (c ≠ ':') = true := fun c hc => decide_eq_true fun heq => hl (heq ▸ hc)
    rw [List.takeWhile_append_of_pos hpos]
    simp
  have hchars := congrArg String.toList h
  simp only [String.toList_append,List.append_assoc] at hchars
  have hlist := congrArg (List.takeWhile (· ≠ ':')) hchars
  rw [show ":".toList = [':'] from rfl,List.singleton_append,List.singleton_append,htake _ _ hs,htake _ _ hs'] at hlist
  rw [hlist] at hchars
  exact ⟨String.toList_inj.mp hlist,String.toList_inj.mp (List.append_cancel_left (List.append_cancel_left hchars))⟩

/-- Digests of different printed values differ, as timestamps are printed without a colon. -/
theorem hashVal_inj (hinj : Function.Injective q.sha256) (htime : ∀ t, ':' ∉ (q.strTime t).toList)
    {val val' : VersionedValue V T C} (h : hashVal q val = hashVal q val') :
    (q.strTime val.timestamp,q.strValue val.value) = (q.strTime val'.timestamp,q.strValue val'.value) := by
  obtain ⟨htimes,hvalues⟩ := append_colon_inj (htime _) (htime _) (hinj h)
  rw [htimes,hvalues]

theorem printed_eq_of_bucketEntries (hinj : Function.Injective q.sha256) (htime : ∀ t, ':' ∉ (q.strTime t).toList)
    (h : bucketEntries q numBuckets data b = bucketEntries q numBuckets data' b) {key : String}
    (hb : hashKey q numBuckets key = b) : printed q data key = printed q data' key := by
  unfold printed
  cases hval : data.get? key with
  | some val =>
    have hmem := mem_bucketEntries.mpr ⟨hb,val,hval,rfl⟩
    rw [h] at hmem
    obtain ⟨-,val',hval',hhash⟩ := mem_bucketEntries.mp hmem
    rw [hval',Option.map_some,Option.map_some,hashVal_inj hinj htime hhash]
  | none =>
    cases hval' : data'.get? key with
    | none => rfl
    | some val' =>
      have hmem := mem_bucketEntries.mpr ⟨hb,val',hval',rfl⟩
      rw [← h] at hmem
      obtain ⟨-,val,hsome,-⟩ := mem_bucketEntries.mp hmem
      rw [hval] at hsome
      cases hsome

/-- Keys of less than 65 characters are never mistaken: a key that hides an entry holds its digest. -/
theorem unambiguous_of_short_keys (hinj : Function.Injective q.sha256) (htime : ∀ t, ':' ∉ (q.strTime t).toList)
    (hshort : ∀ key val, data.get? key = some val ∨ data'.get? key = some val → ShortEntry (key,hashVal q val)) :
    Unambiguous q numBuckets data data' := by
  rintro b - ⟨key,hb,hdiffers⟩ htext
  have hentries : bucketEntries q numBuckets data b = bucketEntries q numBuckets data' b := by
    refine bucketText_injective ?_ ?_ htext
    · rintro ⟨key,hash⟩ he
      obtain ⟨-,val,hval,rfl⟩ := mem_bucketEntries.mp he
      exact hshort key val (Or.inl hval)
    · rintro ⟨key,hash⟩ he
      obtain ⟨-,val,hval,rfl⟩ := mem_bucketEntries.mp he
      exact hshort key val (Or.inr hval)
  exact hdiffers (printed_eq_of_bucketEntries hinj htime hentries hb)

end MerkleTree

namespace MerkleSync
open MerkleTree
variable {V T C : Type} {q : Printing V T}

/-- The SHA-256 digests of two printed values, and of a bucket with both. -/
def digestX : String := "553f121d1ecef2a1742c9c2c999380c992afeeaee2832713730af937ae382aa0"
def digestY : String := "bb532e7da30830f95a6bf5cf7a42df0a0cbb37298815d4bd83c38f8ff2447002"
def digestXY : String := "9711629645ef96a582a6c5cffcda7510adf3e50620c67e7ff6805b1a429c86b0"

/-- SHA-256 on these three strings, and on every other string one that is no digest. -/
def sampleSha256 (s : String) : String :=
  if s = "1:x" then digestX
  else if s = "1:y" then digestY
  else if s = "a:" ++ digestX ++ "b:" ++ digestY then digestXY
  else "~" ++ s

theorem sampleSha256_injective : Function.Injective sampleSha256 := by
  have hne : ∀ d : String, d.toList.head? ≠ some '~' → ∀ s, d ≠ "~" ++ s := by
    rintro d hd s rfl
    exact hd (by simp)
  have hX := hne digestX (by decide)
  have hY := hne digestY (by decide)
  have hXY := hne digestXY (by decide)
  have hdistinct : digestX ≠ digestY ∧ digestX ≠ digestXY ∧ digestY ≠ digestXY := by decide
  have htilde : ∀ s t : String, "~" ++ s = "~" ++ t → s = t := by simp
  intro s t h
  unfold sampleSha256 at h
  -- either both strings are the same special one, or the digests differ
  split_ifs at h
  all_goals grind

def samplePrinting : Printing String ℕ := ⟨sampleSha256,String.length,Nat.repr,id⟩

/-- Keys in increasing order. -/
def sortedOrder : KeyOrder := fun s => ⟨s.sort (· ≤ ·),s.sort_nodup _,fun _ => s.mem_sort _⟩

/-- A store whose values were all written at time 1. -/
def storeOf (entries : List (String × String)) : Dict String (VersionedValue String ℕ Unit) :=
  Dict.ofEntries (entries.map fun e => (e.1,⟨e.2,1,()⟩))

/-- One key that reads like two. -/
def twoKeys : Dict String (VersionedValue String ℕ Unit) := storeOf [("a","x"),("b","y")]
def oneKey : Dict String (VersionedValue String ℕ Unit) := storeOf [("a:" ++ digestX ++ "b","y")]

theorem hex_of_one_bucket {data : Dict String (VersionedValue V T C)}
    (hlen : (q.sha256 (bucketText (bucketEntries q 1 data 0))).length = 64) : (init q 1 data).Hex := by
  intro i hash hhash
  by_cases hempty : data.entries = []
  · rw [init_unbuilt hempty] at hhash
    cases hhash
  · by_cases hi : i = 1
    · subst i
      rw [show 1 = 1 + 0 from rfl,init_leaf hempty Nat.one_pos] at hhash
      obtain rfl := Option.some.inj hhash
      exact hlen
    · rw [init,if_neg hempty] at hhash
      have hrange : ¬(1 ≤ i ∧ i < 2 * 1) := by omega
      have hnone : ((unbuilt 1).build q data).tree i = none := if_neg hrange
      rw [hnone] at hhash
      cases hhash

theorem bucketText_twoKeys :
    bucketText (bucketEntries samplePrinting 1 twoKeys 0) = "a:" ++ digestX ++ "b:" ++ digestY := by decide

theorem bucketText_oneKey :
    bucketText (bucketEntries samplePrinting 1 oneKey 0) = "a:" ++ digestX ++ "b:" ++ digestY := by decide

set_option maxRecDepth 1000 in
theorem length_digestXY : (sampleSha256 ("a:" ++ digestX ++ "b:" ++ digestY)).length = 64 := by
  have hdigest : sampleSha256 ("a:" ++ digestX ++ "b:" ++ digestY) = digestXY := by decide
  rw [hdigest]
  decide

theorem hex_twoKeys : (init samplePrinting 1 twoKeys).Hex := by
  refine hex_of_one_bucket ?_
  rw [bucketText_twoKeys]
  exact length_digestXY

theorem hex_oneKey : (init samplePrinting 1 oneKey).Hex := by
  refine hex_of_one_bucket ?_
  rw [bucketText_oneKey]
  exact length_digestXY

/-- The two stores read the same, so a comparison finds none of their three keys. -/
theorem same_text_missed : ¬∀ (q : Printing String ℕ) (numBuckets : ℕ)
    (data data' : Dict String (VersionedValue String ℕ Unit)) (order : KeyOrder), 0 < numBuckets →
    Function.Injective q.sha256 → (init q numBuckets data).Hex → (init q numBuckets data').Hex →
    ∃ keys, compareTrees order (init q numBuckets data) (init q numBuckets data') = .ok keys ∧
      MissesNothing q numBuckets data data' keys := by
  intro h
  obtain ⟨keys,hkeys,hmisses⟩ :=
    h samplePrinting 1 twoKeys oneKey sortedOrder Nat.one_pos sampleSha256_injective hex_twoKeys hex_oneKey
  rw [compareTrees_init] at hkeys
  obtain rfl := Except.ok.inj hkeys
  obtain ⟨hkey,hleaf⟩ := (mem_compareRecursive Nat.one_pos sampleSha256_injective hex_twoKeys hex_oneKey sortedOrder
    "a").mp (hmisses.complete "a" (by decide))
  have htext := (leaf_ne_iff sampleSha256_injective hex_twoKeys hex_oneKey (Nat.mod_lt _ Nat.one_pos) rfl hkey).mp hleaf
  exact htext (bucketText_twoKeys.trans bucketText_oneKey.symm)

/-- The digests of two buckets with one entry, and of the roots above them. -/
def digestA : String := "e00487047ce90b92a470ba5a4b47d8fa162c74bac1dfc37e32e71d06b3c1a2fa"
def digestE : String := "e61a428164e425da0fa522215f37c45656e53bf65bc16ff1e1d4e8652a170a8f"

/-- SHA-256 on what the trees of two stores with two buckets hash. -/
def digests : List (String × String) :=
  [("1:x",digestX),("1:y",digestY),("a:" ++ digestX,digestA),("e:" ++ digestX,digestE),
    ("a:" ++ digestX ++ "b:" ++ digestY,digestXY),
    (digestE ++ digestXY,"8bc54940763c3318f57c0dd1fd817d1954b6126246f43b990245890240ecb35c"),
    (digestE ++ digestA,"3e5aa4ab051fd8f1e2cac664caf7b60ed6cc67b06bcdf4034c70ebd30c409820")]

/-- SHA-256 on these strings, and on every other string one that is no digest. -/
def tableSha256 (s : String) : String := (digests.lookup s).getD ("~" ++ s)

theorem tableSha256_cases (s : String) : (s,tableSha256 s) ∈ digests ∨ tableSha256 s = "~" ++ s := by
  unfold tableSha256
  cases hs : digests.lookup s with
  | none => exact Or.inr rfl
  | some d =>
    obtain ⟨before,after,heq,-⟩ := List.lookup_eq_some_iff.mp hs
    rw [heq]
    exact Or.inl (List.mem_append_right _ List.mem_cons_self)

theorem tableSha256_injective : Function.Injective tableSha256 := by
  have hdifferent : (digests.map Prod.snd).Nodup := by decide
  have htilde : ∀ p ∈ digests, p.2.toList.head? ≠ some '~' := by decide
  have hne : ∀ {s t : String}, (s,tableSha256 s) ∈ digests → tableSha256 t = "~" ++ t → tableSha256 s ≠ tableSha256 t := by
    intro s t hs ht heq
    exact htilde _ hs (by simp [heq,ht])
  intro s t h
  rcases tableSha256_cases s with hs | hs
  · rcases tableSha256_cases t with ht | ht
    · exact congrArg Prod.fst (List.inj_on_of_nodup_map hdifferent hs ht h)
    · exact absurd h (hne hs ht)
  · rcases tableSha256_cases t with ht | ht
    · exact absurd h.symm (hne ht hs)
    · rw [hs,ht] at h
      simpa using h

/-- MD5 on the three keys. -/
def sampleMd5 (key : String) : ℕ :=
  if key = "a" then 0x0cc175b9c0f1b6a831c399e269772661
  else if key = "b" then 0x92eb5ffee6ae2fec3ad71c777531578f
  else if key = "e" then 0xe1671797c52e15f763380b45e841ec32
  else 0

def tablePrinting : Printing String ℕ := ⟨tableSha256,sampleMd5,Nat.repr,id⟩

/-- Three keys in two buckets, and the store without one of them. -/
def threeKeys : Dict String (VersionedValue String ℕ Unit) := storeOf [("a","x"),("b","y"),("e","x")]
def withoutB : Dict String (VersionedValue String ℕ Unit) := storeOf [("a","x"),("e","x")]

theorem hex_of_two_buckets {data : Dict String (VersionedValue String ℕ Unit)} (root left right : String)
    (hne : data.entries ≠ []) (hroot : (init tablePrinting 2 data).tree 1 = some root)
    (hleft : (init tablePrinting 2 data).tree 2 = some left) (hright : (init tablePrinting 2 data).tree 3 = some right)
    (hlen : root.length = 64 ∧ left.length = 64 ∧ right.length = 64) : (init tablePrinting 2 data).Hex := by
  intro i hash hhash
  by_cases hrange : 1 ≤ i ∧ i < 4
  · obtain ⟨hpos,hlt⟩ := hrange
    obtain rfl | rfl | rfl : i = 1 ∨ i = 2 ∨ i = 3 := by omega
    · exact Option.some.inj (hroot.symm.trans hhash) ▸ hlen.1
    · exact Option.some.inj (hleft.symm.trans hhash) ▸ hlen.2.1
    · exact Option.some.inj (hright.symm.trans hhash) ▸ hlen.2.2
  · have hone : i ≠ 1 := by omega
    have hleaf : ¬(2 ≤ i ∧ i < 2 * 2) := by omega
    have hnone : ((unbuilt 2).build tablePrinting data).tree i = none := by
      simp [build,unbuilt,HeapTree.buildUp,Function.update_of_ne hone,hleaf]
    rw [init,if_neg hne,hnone] at hhash
    cases hhash

theorem hex_threeKeys : (init tablePrinting 2 threeKeys).Hex :=
  hex_of_two_buckets "8bc54940763c3318f57c0dd1fd817d1954b6126246f43b990245890240ecb35c" digestE digestXY
    (by decide) (by decide +kernel) (by decide +kernel) (by decide +kernel) (by decide +kernel)

theorem hex_withoutB : (init tablePrinting 2 withoutB).Hex :=
  hex_of_two_buckets "3e5aa4ab051fd8f1e2cac664caf7b60ed6cc67b06bcdf4034c70ebd30c409820" digestE digestA
    (by decide) (by decide +kernel) (by decide +kernel) (by decide +kernel) (by decide +kernel)

theorem printed_withoutB {key : String} (hne : key ≠ "b") :
    printed tablePrinting withoutB key = printed tablePrinting threeKeys key := by
  by_cases ha : key = "a"
  · subst ha
    decide +kernel
  by_cases he : key = "e"
  · subst he
    decide +kernel
  have hthree : threeKeys.keys = ["a","b","e"] := by decide +kernel
  have htwo : withoutB.keys = ["a","e"] := by decide +kernel
  rw [printed,printed,Dict.get?_of_notMem (by simp [htwo,ha,he]),Dict.get?_of_notMem (by simp [hthree,hne,ha,he])]

/-- The key that one store lacks is found, in the bucket that differs. -/
theorem missesNothing_withoutB :
    ∃ keys, compareTrees sortedOrder (init tablePrinting 2 threeKeys) (init tablePrinting 2 withoutB) = .ok keys ∧
      MissesNothing tablePrinting 2 threeKeys withoutB keys ∧ "b" ∈ keys := by
  obtain ⟨keys,hkeys,hiff⟩ :=
    missesNothing_iff Nat.two_pos tableSha256_injective hex_threeKeys hex_withoutB sortedOrder
  have hmisses : MissesNothing tablePrinting 2 threeKeys withoutB keys := by
    refine hiff.mpr ?_
    rintro b - ⟨key,rfl,hdiffers⟩
    have hkey : key = "b" := Classical.byContradiction fun hne => hdiffers (printed_withoutB hne).symm
    subst hkey
    decide +kernel
  exact ⟨keys,hkeys,hmisses,hmisses.complete "b" (by decide +kernel)⟩

end MerkleSync

end DistributedSystems.EventualConsistency
