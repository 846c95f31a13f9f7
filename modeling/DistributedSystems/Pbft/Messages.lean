import Mathlib.Data.Int.Notation
import Mathlib.Data.Nat.Notation

/-! # PBFT messages

Views, sequence numbers and request ids are integers of any sign: a faulty sender
may put anything into them. Time stamps and fields no handler reads are left out.
-/
namespace DistributedSystems.Pbft

/-- A `(view, sequence_number)` pair. -/
abbrev Key : Type := ℤ × ℤ

structure RequestMessage (Op : Type) where
  sender : ℕ
  view : ℤ
  clientId : ℕ
  operation : Op
  requestId : ℤ
  deriving DecidableEq

/-- The dictionary embedded in a PRE-PREPARE. Any of the keys may be absent. -/
structure RequestDict (Op : Type) where
  sender : Option ℕ
  view : Option ℤ
  clientId : Option ℕ
  operation : Option Op
  requestId : Option ℤ
  deriving DecidableEq

/-- `asdict` of a request message. -/
def RequestMessage.asdict {Op : Type} (msg : RequestMessage Op) : RequestDict Op where
  sender := some msg.sender
  view := some msg.view
  clientId := some msg.clientId
  operation := some msg.operation
  requestId := some msg.requestId

/-- A dictionary without entries is false in a condition. -/
def RequestDict.empty {Op : Type} : RequestDict Op := ⟨none,none,none,none,none⟩

structure PrePrepareMessage (Op Dig : Type) where
  sender : ℕ
  view : ℤ
  sequenceNumber : ℤ
  digest : Dig
  request : Option (RequestDict Op)
  deriving DecidableEq

/-- The common fields of PREPARE and COMMIT messages. -/
structure VoteMessage (Dig : Type) where
  sender : ℕ
  view : ℤ
  sequenceNumber : ℤ
  digest : Dig
  deriving DecidableEq

structure ViewChangeMessage where
  sender : ℕ
  view : ℤ
  deriving DecidableEq

structure NewViewMessage where
  sender : ℕ
  view : ℤ
  viewChangeMessages : List ViewChangeMessage
  deriving DecidableEq

inductive Message (Op Dig : Type)
  | request (msg : RequestMessage Op)
  | prePrepare (msg : PrePrepareMessage Op Dig)
  | prepare (msg : VoteMessage Dig)
  | commit (msg : VoteMessage Dig)
  | viewChange (msg : ViewChangeMessage)
  | newView (msg : NewViewMessage)
  deriving DecidableEq

def PrePrepareMessage.key {Op Dig : Type} (msg : PrePrepareMessage Op Dig) : Key := (msg.view,msg.sequenceNumber)
def VoteMessage.key {Dig : Type} (msg : VoteMessage Dig) : Key := (msg.view,msg.sequenceNumber)

def Message.sender {Op Dig : Type} : Message Op Dig → ℕ
  | .request msg => msg.sender
  | .prePrepare msg => msg.sender
  | .prepare msg => msg.sender
  | .commit msg => msg.sender
  | .viewChange msg => msg.sender
  | .newView msg => msg.sender

def Message.prePrepare? {Op Dig : Type} : Message Op Dig → Option (PrePrepareMessage Op Dig)
  | .prePrepare msg => some msg
  | _ => none

end DistributedSystems.Pbft
