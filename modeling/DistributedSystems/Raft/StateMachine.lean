import Mathlib.Data.Int.Notation
import Mathlib.Logic.Function.Basic

/-! # State machines

The interface a replicated log drives and the two machines shipped with it. A
command that makes `apply` raise `KeyError` returns no result and leaves the
store as it was. Snapshots carry the value that the serialised bytes encode.
-/
namespace DistributedSystems.Raft

/-- The application a log drives. `apply` returns no result when it raises. -/
structure StateMachine (Cmd : Type) where
  State : Type
  Result : Type
  Snapshot : Type
  init : State
  apply : State → Cmd → State × Option Result
  snapshot : State → Snapshot
  restore : Snapshot → State

inductive KeyValueOp
  | set
  | get
  | delete
  | unknown
  deriving DecidableEq

/-- A command dictionary; the keys `"key"` and `"value"` may be absent. -/
structure KeyValueCommand (K V : Type) where
  op : KeyValueOp
  key : Option K
  value : Option V
  deriving DecidableEq

inductive KeyValueResult (K V : Type)
  | stored (key : K)
  | found (value : Option V)
  | deleted (present : Bool)
  | unknownOperation

def KeyValueStateMachine (K V : Type) [DecidableEq K] : StateMachine (KeyValueCommand K V) where
  State := K → Option V
  Result := KeyValueResult K V
  Snapshot := K → Option V
  init := fun _ => none
  apply store command :=
    match command.op,command.key,command.value with
    | .set,some key,some value => (Function.update store key (some value),some (.stored key))
    | .set,_,_ => (store,none)
    | .get,some key,_ => (store,some (.found (store key)))
    | .get,none,_ => (store,none)
    | .delete,some key,_ =>
      if (store key).isSome then (Function.update store key none,some (.deleted true))
      else (store,some (.deleted false))
    | .delete,none,_ => (store,none)
    | .unknown,_,_ => (store,some .unknownOperation)
  snapshot store := store
  restore store := store

inductive CounterCommand
  | increment (delta : ℤ)
  | get
  | unknown
  deriving DecidableEq

inductive CounterResult
  | value (value : ℤ)
  | unknownOperation

def CounterStateMachine : StateMachine CounterCommand where
  State := ℤ
  Result := CounterResult
  Snapshot := ℤ
  init := 0
  apply value command :=
    match command with
    | .increment delta => (value + delta,some (.value (value + delta)))
    | .get => (value,some (.value value))
    | .unknown => (value,some .unknownOperation)
  snapshot value := value
  restore value := value

end DistributedSystems.Raft
