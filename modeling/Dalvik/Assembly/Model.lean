import Dalvik.Assembly.Access
import Dalvik.Constant.Basic
import Dalvik.Opcode.Table

/-!
# Assembly model

What assembly text says: classes, their members, and method bodies as lists of labels,
instructions, tables and exception ranges.
-/

namespace Dalvik.Assembly

/-- A register operand: counted from the start, or from the first parameter. -/
structure Register where
  number : Int
  isParam : Bool := false
  deriving DecidableEq, Repr, Inhabited

def Register.text (r : Register) : Bytes := ascii (if r.isParam then "p" else "v") ++ decimal r.number

structure Label where
  origin : Origin := {}
  name : Bytes
  comment : Bytes := []
  deriving DecidableEq, Repr, Inhabited

/-- One instruction line. Which operands it has depends on the format of the opcode. -/
structure Instruction where
  origin : Origin := {}
  opcode : Opcode
  registers : List Register := []
  /-- The name of the target, without its colon. -/
  label : Bytes := []
  literal : Literal := .int 0
  ref : Option Constant := none
  ref2 : Option Constant := none
  comment : Bytes := []
  deriving DecidableEq, Repr, Inhabited

structure PackedSwitch where
  origin : Origin := {}
  firstKey : Int
  targets : List Bytes
  deriving DecidableEq, Repr, Inhabited

structure SparseSwitch where
  origin : Origin := {}
  cases : List (Int × Bytes)
  deriving DecidableEq, Repr, Inhabited

/-- Array contents, each value sign-extended. -/
structure ArrayData where
  origin : Origin := {}
  width : Int
  values : List Int
  deriving DecidableEq, Repr, Inhabited

/-- An exception range; the empty type catches everything. -/
structure CatchRange where
  origin : Origin := {}
  type : Descriptor
  start : Bytes
  stop : Bytes
  handler : Bytes
  deriving DecidableEq, Repr, Inhabited

def CatchRange.isCatchAll (c : CatchRange) : Bool := c.type.isZero

/-- One item of a method body. -/
inductive Element where
  | label (value : Label)
  | instruction (value : Instruction)
  | packedSwitch (value : PackedSwitch)
  | sparseSwitch (value : SparseSwitch)
  | arrayData (value : ArrayData)
  | catchRange (value : CatchRange)
  deriving DecidableEq, Repr, Inhabited

def Element.origin : Element → Origin
  | .label l => l.origin
  | .instruction i => i.origin
  | .packedSwitch p => p.origin
  | .sparseSwitch s => s.origin
  | .arrayData a => a.origin
  | .catchRange c => c.origin

/-- A method body. `registers` is the total count; `useLocals` says whether it is written without
the parameter registers. -/
structure Body where
  registers : Int := 0
  paramRegisters : Int := 0
  useLocals : Bool := false
  elements : List Element := []
  deriving DecidableEq, Repr, Inhabited

namespace Body

/-- The registers that no parameter takes. -/
def locals (b : Body) : Int := b.registers - b.paramRegisters

/-- The absolute number of a register operand. -/
def resolve (b : Body) (r : Register) : Int := if r.isParam then b.locals + r.number else r.number

/-- The operand for an absolute number, by its parameter name if it has one. -/
def registerFor (b : Body) (v : Int) : Register :=
  if 0 < b.paramRegisters ∧ b.locals ≤ v then ⟨v - b.locals, true⟩ else ⟨v, false⟩

end Body

structure Field where
  origin : Origin := {}
  access : Access := {}
  ref : FieldRef
  /-- The value a static field starts with. -/
  initial : Option Constant := none
  deriving DecidableEq, Repr, Inhabited

structure Method where
  origin : Origin := {}
  access : Access := {}
  ref : MethodRef
  /-- Abstract and native methods have no body. -/
  body : Option Body := none
  deriving DecidableEq, Repr, Inhabited

/-- The registers that hold arguments, the receiver of an instance method included. -/
def paramRegistersOf (access : Access) (proto : Prototype) : Except Stop Nat := do
  let n ← proto.parameterRegisters
  return if access.isStatic then n else n + 1

structure Class where
  origin : Origin := {}
  access : Access := {}
  type : Descriptor := ⟨[]⟩
  super : Descriptor := ⟨[]⟩
  source : Bytes := []
  interfaces : List Descriptor := []
  fields : List Field := []
  methods : List Method := []
  deriving DecidableEq, Repr, Inhabited

end Dalvik.Assembly
