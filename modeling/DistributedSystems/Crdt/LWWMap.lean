import DistributedSystems.Crdt.LWWRegister
import DistributedSystems.Protocol.Dict

/-! # Last-write-wins maps

A map is a dictionary of registers. A merge goes through the registers of the other map in
order and stops where one cannot be copied.
-/
namespace DistributedSystems.Crdt

structure LWWMap (ι K V T : Type) where
  nodeId : ι
  registers : Dict K (LWWRegister ι V T)

/-- `json.dumps` has no encoding of a value. -/
structure TypeError where

namespace LWWMap
variable {ι K V T : Type} [LinearOrder ι] [DecidableEq K] [LinearOrder T]

def init (nodeId : ι) : LWWMap ι K V T := ⟨nodeId,.empty⟩

def put (m : LWWMap ι K V T) (key : K) (value : Option V) (timestamp : T) : LWWMap ι K V T :=
  match m.registers.get? key with
  | none => { m with registers := m.registers.insert key (.init m.nodeId value timestamp) }
  | some r => { m with registers := m.registers.insert key (r.write value timestamp) }

/-- A removal writes `None`. -/
def remove (m : LWWMap ι K V T) (key : K) (timestamp : T) : LWWMap ι K V T := m.put key none timestamp

/-- The dictionary of the values that are not `None`; its order does not matter when
dictionaries are compared. -/
def value (m : LWWMap ι K V T) (key : K) : Option V := (m.registers.get? key).bind LWWRegister.value

/-- The loop of `merge`. -/
def mergeEntries (json : V → Option V) (m : LWWMap ι K V T) :
    List (K × LWWRegister ι V T) → LWWMap ι K V T × Except TypeError Unit
  | [] => (m,.ok ())
  | (key,otherReg) :: rest =>
    match m.registers.get? key with
    | none =>
      match otherReg.copy json with
      | none => (m,.error ⟨⟩)
      | some newReg => mergeEntries json { m with registers := m.registers.insert key newReg } rest
    | some r => mergeEntries json { m with registers := m.registers.insert key (r.merge otherReg) } rest

def merge (json : V → Option V) (m other : LWWMap ι K V T) : LWWMap ι K V T × Except TypeError Unit :=
  m.mergeEntries json other.registers.entries

/-- What the register of a key says. -/
def content (m : LWWMap ι K V T) (key : K) : Option ((T ×ₗ ι) × Option V) :=
  (m.registers.get? key).map LWWRegister.content

omit [LinearOrder ι] [LinearOrder T] in
theorem value_eq (m : LWWMap ι K V T) (key : K) : m.value key = (m.content key).bind Prod.snd := by
  unfold value content
  cases m.registers.get? key <;> rfl

omit [LinearOrder ι] [LinearOrder T] in
theorem value_congr {m m' : LWWMap ι K V T} (h : m.content = m'.content) : m.value = m'.value :=
  funext fun key => by rw [value_eq,value_eq,h]

/-- All values of the map go through JSON unchanged. -/
def Stable (json : V → Option V) (m : LWWMap ι K V T) : Prop :=
  ∀ key, ∀ x ∈ m.content key, LWWRegister.Stable json x.2

/-- One round of the loop over registers that can be copied. -/
theorem mergeEntries_cons {json : V → Option V} (m : LWWMap ι K V T) {key : K} {otherReg : LWWRegister ι V T}
    (h : LWWRegister.Stable json otherReg.value) (rest : List (K × LWWRegister ι V T)) :
    ∃ newReg : LWWRegister ι V T,
      some newReg.content = Option.merge (newest Prod.fst) (m.content key) (some otherReg.content) ∧
      m.mergeEntries json ((key,otherReg) :: rest) =
        mergeEntries json { m with registers := m.registers.insert key newReg } rest := by
  unfold content
  rw [mergeEntries]
  cases m.registers.get? key with
  | none =>
    dsimp only
    rw [LWWRegister.copy_of_stable h]
    exact ⟨otherReg,rfl,rfl⟩
  | some r => exact ⟨r.merge otherReg,congrArg some (r.content_merge otherReg),rfl⟩

omit [LinearOrder ι] [LinearOrder T] in
theorem content_insert (m : LWWMap ι K V T) (key key' : K) (r : LWWRegister ι V T) :
    ({ m with registers := m.registers.insert key r } : LWWMap ι K V T).content key' =
      if key' = key then some r.content else m.content key' := by
  unfold content
  rw [Dict.get?_insert]
  split <;> rfl

theorem mergeEntries_content {json : V → Option V} {entries : List (K × LWWRegister ι V T)}
    (hnodup : (entries.map Prod.fst).Nodup) (h : ∀ e ∈ entries, LWWRegister.Stable json e.2.value)
    (m : LWWMap ι K V T) : (m.mergeEntries json entries).2 = .ok () ∧
      ∀ key, (m.mergeEntries json entries).1.content key =
        Option.merge (newest Prod.fst) (m.content key) ((lookupEntry key entries).map LWWRegister.content) := by
  induction entries generalizing m with
  | nil => exact ⟨rfl,fun key => Option.merge_none_right.symm⟩
  | cons e rest ih =>
    obtain ⟨key,otherReg⟩ := e
    obtain ⟨hnew,hrest⟩ := List.nodup_cons.mp hnodup
    obtain ⟨newReg,hcontent,heq⟩ := m.mergeEntries_cons (h _ List.mem_cons_self) rest
    obtain ⟨hok,hall⟩ := ih hrest (fun e he => h e (List.mem_cons_of_mem _ he))
      { m with registers := m.registers.insert key newReg }
    rw [heq]
    refine ⟨hok,fun key' => ?_⟩
    rw [hall,content_insert,lookupEntry_cons]
    by_cases hk : key' = key
    · subst key'
      rw [if_pos rfl,if_pos rfl,lookupEntry_of_notMem hnew,hcontent]
      exact Option.merge_none_right
    · rw [if_neg hk,if_neg fun h => hk h.symm]

omit [LinearOrder ι] [LinearOrder T] in
theorem mem_entries_stable {json : V → Option V} {m : LWWMap ι K V T} (h : m.Stable json)
    {e : K × LWWRegister ι V T} (he : e ∈ m.registers.entries) : LWWRegister.Stable json e.2.value := by
  refine h e.1 e.2.content ?_
  unfold content
  rw [Dict.get?_of_mem he]
  exact rfl

/-- Merging maps of stable values takes the newer content of every key. -/
theorem merge_content {json : V → Option V} {other : LWWMap ι K V T} (h : other.Stable json) (m : LWWMap ι K V T) :
    (m.merge json other).2 = .ok () ∧ ∀ key, (m.merge json other).1.content key =
      Option.merge (newest Prod.fst) (m.content key) (other.content key) :=
  mergeEntries_content other.registers.nodup (fun _ he => mem_entries_stable h he) m

theorem Stable.merge {json : V → Option V} {m other : LWWMap ι K V T} (hm : m.Stable json) (h : other.Stable json) :
    (m.merge json other).1.Stable json := by
  intro key x hx
  rw [(merge_content h m).2] at hx
  rcases Option.merge_eq_or_eq (newest_eq_or Prod.fst) (m.content key) (other.content key) with hl | hr
  · exact hm key x (hl ▸ hx)
  · exact h key x (hr ▸ hx)

/-- A put changes nothing, or writes a newer content for its key: that of a new register of
the map's own node, or of a register that accepts the write in the name of its node. -/
theorem put_cases (m : LWWMap ι K V T) (key : K) (value : Option V) (timestamp : T) :
    (m.put key value timestamp).content = m.content ∨
    ∃ node, (node = m.nodeId ∨ ∃ r ∈ m.registers.get? key, r.shouldUpdate timestamp r.nodeId ∧ node = r.nodeId) ∧
      (∀ x ∈ m.content key, x.1 < toLex (timestamp,node)) ∧
      (m.put key value timestamp).content = Function.update m.content key (some (toLex (timestamp,node),value)) := by
  unfold put
  cases hr : m.registers.get? key with
  | none =>
    refine Or.inr ⟨m.nodeId,Or.inl rfl,?_,funext fun key' => ?_⟩
    · unfold content
      rw [hr]
      exact nofun
    · dsimp only
      rw [content_insert,Function.update_apply]
      rfl
  | some r =>
    have hcontent : m.content key = some r.content := by
      unfold content
      rw [hr]
      rfl
    dsimp only
    unfold LWWRegister.write
    split
    · rename_i hu
      refine Or.inr ⟨r.nodeId,Or.inr ⟨r,rfl,hu,rfl⟩,?_,funext fun key' => ?_⟩
      · intro x hx
        rw [hcontent] at hx
        cases hx
        exact (r.shouldUpdate_iff _ _).mp hu
      · rw [content_insert,Function.update_apply]
        rfl
    · refine Or.inl (funext fun key' => ?_)
      rw [content_insert]
      split
      · rename_i hk
        rw [hk,hcontent]
      · rfl

theorem put_nodeId (m : LWWMap ι K V T) (key : K) (value : Option V) (timestamp : T) :
    (m.put key value timestamp).nodeId = m.nodeId := by
  unfold put
  split <;> rfl

theorem mergeEntries_nodeId (json : V → Option V) (entries : List (K × LWWRegister ι V T)) (m : LWWMap ι K V T) :
    (m.mergeEntries json entries).1.nodeId = m.nodeId := by
  induction entries generalizing m with
  | nil => rfl
  | cons e rest ih =>
    obtain ⟨key,otherReg⟩ := e
    rw [mergeEntries]
    split
    · split
      · rfl
      · exact ih _
    · exact ih _

end LWWMap

end DistributedSystems.Crdt
