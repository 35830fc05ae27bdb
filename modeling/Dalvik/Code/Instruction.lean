import Dalvik.Cell
import Dalvik.Code.Operand
import Dalvik.Constant.Pool

/-!
# Instructions

An instruction keeps the code units it was read as; operands are read from and written into them
in place, as the format of the opcode lays them out. The target of a branch is a handle of the
sequence the instruction stands in; it becomes an offset only when the sequence is encoded.
-/

namespace Dalvik

/-- Names an instruction of a sequence, for as long as it stays there. -/
abbrev Handle := Int

/-- The handle of nothing. -/
def Handle.none : Handle := -1

/-- The handle of the address just past the last instruction. -/
def Handle.finish : Handle := -2

structure Instruction where
  opcode : Opcode
  units : Units
  target : Handle := .none
  /-- A no-operation that only aligns the payload after it. -/
  isPadding : Bool := false
  deriving DecidableEq, Repr

namespace Instruction

/-- An opcode with all operands zero. -/
def blank (op : Opcode) : Instruction :=
  { opcode := op
    units := UInt16.ofNat op.value :: List.replicate (op.format.units - 1) 0 }

/-- A new instruction; payloads are not made this way. -/
def new (op : Opcode) : Except Stop Instruction :=
  if op.isPayload then fault (some (ascii "ins: New with payload opcode " ++ op.name))
  else .ok (blank op)

instance : Inhabited Instruction := ⟨blank Opcode.nop⟩

def padding : Instruction := { blank Opcode.nop with isPadding := true }

/-- How an instruction at an address is called in messages. -/
def text (address : Int) (op : Opcode) : Bytes :=
  padLeft 4 (byte '0') (hex address) ++ ascii ": " ++ op.name

variable (x : Instruction)

def bytes : Bytes := x.units.flatMap bytesU16

/-- Whether it refers to another instruction or a payload. -/
def hasTarget : Bool := x.opcode.is .branch || x.opcode.is .payloadRef

/-! ## Registers -/

/-- The number of registers in use. -/
def registersCount : Except Stop Nat :=
  match x.opcode.format.countField? with
  | some f => f.read x.units
  | none => .ok x.opcode.format.maxRegisters

/-- Sets the number of registers; formats without an explicit count accept only their own. -/
def setRegistersCount (n : Int) : Except Stop Instruction := do
  let refused := fail (.registerCount x.opcode.name n)
  let format := x.opcode.format
  match format.countField? with
  | some f =>
    if 0 ≤ n ∧ n ≤ (if format.isRange then 0xff else 5) then
      return { x with units := ← f.write n.toNat x.units }
    else refused
  | none => if n = format.maxRegisters then .ok x else refused

/-- The field read for operand `i`. Past the last operand it is the last one again, except that
the four-bit lists give zero there and the two-unit form reads whatever unit stands at that place. -/
def looseField (format : Format) (i : Int) : Option BitField :=
  match format with
  | .f32x => if i < -1 then none else some (Format.wholeUnit (1 + i).toNat)
  | .f35c | .f45cc =>
    let shift := (4 * i % twoPow 64).toNat
    some (if i = 4 then ⟨0, 8, 4⟩ else if shift < 16 then ⟨2, shift, 4⟩ else ⟨2, 0, 0⟩)
  | f =>
    if 0 ≤ i ∧ i < f.registerFields.length then f.registerFields[i.toNat]?
    else f.registerFields.getLast?

/-- Register operand `i` in the order of the text. In a range it is the first one plus `i`. -/
def register (i : Int) : Except Stop Int :=
  let format := x.opcode.format
  if format.isRange then return wrap64 ((← (Format.wholeUnit 2).read x.units) + i)
  else if format.registerFields.isEmpty then
    fault (some (ascii "ins: " ++ x.opcode.name ++ ascii " has no register " ++ decimal i))
  else
    match looseField format i with
    | some f => return ← f.read x.units
    | none => fault none

/-- All registers in use. -/
def registers : Except Stop (List Int) := do
  (List.range (← x.registersCount)).mapM fun (i : Nat) => x.register i

/-- The largest value that register slot `i` can hold. -/
def registerLimit (i : Int) : Except Stop Nat :=
  if x.opcode.format.isRange then .ok 0xffff
  else
    match if i < 0 then none else x.opcode.format.registerBits[i.toNat]? with
    | some bits => .ok (twoPow bits - 1)
    | none => fault none

/-- Sets register operand `i`. In a range it sets the first register to `v - i`. -/
def setRegister (i v : Int) : Except Stop Instruction := do
  let format := x.opcode.format
  if format.isRange then
    let first := wrap64 (v - i)
    if 0 ≤ first ∧ first ≤ 0xffff then
      return { x with units := ← (Format.wholeUnit 2).write first.toNat x.units }
    else fail (.registerRange x.opcode.name v i 0xffff)
  else
    match if i < 0 then none else format.registerFields[i.toNat]? with
    | none => fail (.registerSlot x.opcode.name i)
    | some f =>
      if 0 ≤ v ∧ v < twoPow f.width then return { x with units := ← f.write v.toNat x.units }
      else fail (.registerRange x.opcode.name v i (twoPow f.width - 1))

/-! ## Literals and offsets -/

/-- Whether the format carries a literal or a branch offset. -/
def hasData : Bool := !x.opcode.format.literalFields.isEmpty

/-- How many zero bits stand below the stored ones: the high16 forms keep only the top 16. -/
def dataShift : Nat :=
  if x.opcode.format = .f21h then (if x.opcode.isWideRegister 0 then 48 else 16) else 0

def dataWidth : Nat := BitField.totalWidth x.opcode.format.literalFields + x.dataShift

/-- The literal, sign-extended, or the branch offset in code units; 0 if there is neither. -/
def data : Except Stop Int :=
  if x.hasData then do
    let stored ← BitField.readAll x.opcode.format.literalFields x.units
    return Literal.signExtend x.dataWidth (stored * twoPow x.dataShift)
  else .ok 0

/-- Stores a literal or branch offset. -/
def setData (v : Int) : Except Stop Instruction :=
  if x.hasData then
    let limit : Int := twoPow (x.dataWidth - 1)
    if -limit ≤ v ∧ v < limit ∧ v % twoPow x.dataShift = 0 then do
      let stored := (v / twoPow x.dataShift % twoPow x.dataWidth).toNat
      return { x with units := ← BitField.writeAll x.opcode.format.literalFields stored x.units }
    else fail (.literalRange x.opcode.name v)
  else fail (.lacksOperand x.opcode.name (ascii "literal"))

/-! ## Indices -/

def hasIndex : Bool := x.opcode.ref.isSome

/-- The index of the constant; -1 if there is none. -/
def index : Except Stop Int :=
  match x.opcode.format.indexFields with
  | [] => .ok (-1)
  | fs => return ← BitField.readAll fs x.units

def setIndex (i : Int) : Except Stop Instruction :=
  match x.opcode.format.indexFields with
  | [] => fail (.lacksOperand x.opcode.name (ascii "index"))
  | fs =>
    if 0 ≤ i ∧ i < twoPow (BitField.totalWidth fs) then
      return { x with units := ← BitField.writeAll fs i.toNat x.units }
    else fail (.literalRange x.opcode.name i)

/-- The index of the second constant; -1 if there is none. -/
def index2 : Except Stop Int :=
  if x.opcode.ref2.isSome then return ← Format.secondIndex.read x.units else .ok (-1)

def setIndex2 (i : Int) : Except Stop Instruction :=
  if x.opcode.ref2.isNone then fail (.lacksOperand x.opcode.name (ascii "second index"))
  else if 0 ≤ i ∧ i < twoPow 16 then
    return { x with units := ← Format.secondIndex.write i.toNat x.units }
  else fail (.literalRange x.opcode.name i)

/-! ## Constants -/

/-- The constant at an index; raw where the pool has none. -/
def resolve (pool : Option Pool) (kind : Kind) (i : Int) : Constant :=
  match pool with
  | none => .raw kind i
  | some p => (p.lookup kind i).toOption.getD (.raw kind i)

/-- The constant operand. -/
def constant (pool : Option Pool) : Except Stop (Option Constant) :=
  match x.opcode.ref with
  | some kind => return some (resolve pool kind (← x.index))
  | none => .ok none

def constant2 (pool : Option Pool) : Except Stop (Option Constant) :=
  match x.opcode.ref2 with
  | some kind => return some (resolve pool kind (← x.index2))
  | none => .ok none

/-- The index of a constant of the wanted kind, which the pool takes in if it is missing. -/
def indexFor (want : Kind) (k : Option Constant) : Action (Option Pool) Int := do
  match k with
  | none => Action.refuse (.wrongReference want.name (ascii "<nil>"))
  | some k =>
    if k.kind ≠ want then Action.refuse (.wrongReference want.name k.text)
    else
      match k, ← get with
      | .raw _ i, _ => return i
      | _, none => Action.refuse (.unresolved want.name k.text)
      | _, some pool =>
        let (i, pool) ← pool.intern k
        set (some pool)
        return i

/-- Stores the index of a constant, which the pool takes in even if the index then does not fit. -/
def setConstant (k : Option Constant) : Action (Option Pool) Instruction := do
  match x.opcode.ref with
  | none => Action.refuse (.lacksOperand x.opcode.name (ascii "index"))
  | some kind => x.setIndex (← indexFor kind k)

def setConstant2 (k : Option Constant) : Action (Option Pool) Instruction := do
  match x.opcode.ref2 with
  | none => Action.refuse (.lacksOperand x.opcode.name (ascii "second index"))
  | some kind => x.setIndex2 (← indexFor kind k)

/-! ## Changing the opcode -/

/-- Makes a change in place; one that is refused leaves the instruction as it was. -/
def edit (change : Instruction → Except Stop Instruction) : Action Instruction PUnit := do
  set (← change (← get))

/-- Takes over the first `n` registers of `x`, one after the other. -/
def takeFirst (n : Nat) : Action Instruction PUnit := do
  for i in List.range n do edit fun y => do y.setRegister (i : Nat) (← x.register (i : Nat))

/-- Takes over as many registers of `x` as there is room for; an explicit count is set first. -/
def takeRegisters : Action Instruction PUnit := do
  let n ← x.registersCount
  let format := (← get).opcode.format
  if format.isVariadic then do
    edit (·.setRegistersCount n)
    x.takeFirst n
  else x.takeFirst (min n format.maxRegisters)

def takeLiteral : Action Instruction PUnit := do
  if (← get).hasData && x.hasData then edit fun y => do y.setData (← x.data) else pure ⟨⟩

def takeIndex : Action Instruction PUnit := do
  if (← get).hasIndex && x.hasIndex then edit fun y => do y.setIndex (← x.index) else pure ⟨⟩

/-- Takes over the operands of `x` that the instruction at hand has too. -/
def takeOperands : Action Instruction PUnit := do
  x.takeRegisters
  x.takeLiteral
  x.takeIndex

/-- Changes the opcode in place. Operands carry over where the new format can hold them; when one
is refused, the opcode and the units are put back. -/
def changeOpcode (op : Opcode) : Action Instruction PUnit := do
  let x ← get
  if op.isPayload then Action.refuse (.intoPayload x.opcode.name)
  else if op.format = x.opcode.format then
    match x.units with
    | u :: rest =>
      set { x with opcode := op, units := (u &&& 0xff00 ||| UInt16.ofNat op.value) :: rest }
    | [] => throw (.fault none)
  else
    set { x with opcode := op, units := (blank op).units }
    match ← x.takeOperands.attempt with
    | .ok _ => pure ⟨⟩
    | .error (.failure cause) =>
      modify fun y => { y with opcode := x.opcode, units := x.units }
      throw (.failure cause)
    | .error (.fault m) => throw (.fault m)

/-- The instruction with another opcode. -/
def setOpcode (op : Opcode) : Except Stop Instruction :=
  let (r, y) := (changeOpcode op).apply x
  r.map fun _ => y

/-- A new instruction with the given operands; a variadic one takes its count from the registers. -/
def ofOperands (op : Opcode) (registers : List Int) (data index : Option Int) :
    Except Stop Instruction := do
  let x ← new op
  let x ← if op.format.isVariadic then x.setRegistersCount registers.length else pure x
  let x ← registers.zipIdx.foldlM (fun (x : Instruction) (v, i) => x.setRegister i v) x
  let x ← data.elim (pure x) x.setData
  index.elim (pure x) x.setIndex

/-! ## Reading -/

/-- Reads `n` more units and keeps those that were there. -/
def decodeUnits : Nat → Cursor → Action Instruction Cursor
  | 0, c => pure c
  | n + 1, c => do
    let (u, c) ← c.u16
    modify fun x => { x with units := x.units ++ [u] }
    decodeUnits n c

/-- Reads an instruction that is no payload. -/
def decode (c : Cursor) : Action Instruction Cursor := do
  let start := c.pos
  let (u, c) ← c.u16
  match Opcode.ofUnit? u.toNat with
  | some op =>
    if op.isPayload then
      Action.refuse (.malformed (ascii "instruction") start (.unknownOpcode u.toNat))
    else
      modify fun x => { x with opcode := op, units := [u] }
      decodeUnits (op.format.units - 1) c
  | none => Action.refuse (.malformed (ascii "instruction") start (.unknownOpcode u.toNat))

end Instruction

end Dalvik
