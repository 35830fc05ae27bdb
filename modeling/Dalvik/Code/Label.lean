import Dalvik.Code.Payload

/-!
# Labels

Why an address is labelled. The reason picks the first part of the label's name; the address is
the second part.
-/

namespace Dalvik

inductive LabelKind where
  | goto
  | condition
  | packedData
  | sparseData
  | array
  | packedCase
  | sparseCase
  | tryStart
  | tryEnd
  | catchOne
  | catchAll
  deriving DecidableEq, Repr, Inhabited

namespace LabelKind

def stem : LabelKind → Bytes
  | .goto => ascii "goto"
  | .condition => ascii "cond"
  | .packedData => ascii "pswitch_data"
  | .sparseData => ascii "sswitch_data"
  | .array => ascii "array"
  | .packedCase => ascii "pswitch"
  | .sparseCase => ascii "sswitch"
  | .tryStart => ascii "try_start"
  | .tryEnd => ascii "try_end"
  | .catchOne => ascii "catch"
  | .catchAll => ascii "catchall"

/-- The label of an address, without its colon. -/
def name (k : LabelKind) (address : Int) : Bytes := k.stem ++ ascii "_" ++ hex address

def isCase : LabelKind → Bool
  | .packedCase | .sparseCase => true
  | _ => false

/-- The label an instruction's target gets. -/
def ofBranch (op : Opcode) : LabelKind :=
  if op.name = ascii "packed-switch" then .packedData
  else if op.name = ascii "sparse-switch" then .sparseData
  else if op.name = ascii "fill-array-data" then .array
  else if op.is .jump then .goto
  else .condition

end LabelKind

/-- One reason an instruction is labelled: who refers to it, and the value of a switch case. -/
structure Reference where
  kind : LabelKind
  key : Int := 0
  source : Handle
  deriving DecidableEq, Repr, Inhabited

end Dalvik
