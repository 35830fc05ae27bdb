import Dalvik.Assembly.Model
import Dalvik.Code.Sequence

/-!
# Assembler

The elements of a method body as items of a sequence. Labels may be used before they are declared:
items are added first, and references are resolved when all labels are known.
-/

namespace Dalvik.Sequence

open Assembly (Element Body)

/-- The bits that an instruction stores for a literal: floating-point numbers are converted to the
operand's width, everything else is widened. -/
def literalValue (p : Literal) (wide : Bool) : Int :=
  match p.kind with
  | .float =>
    if wide then (Literal.double (Floating.single.convert Floating.double p.stored)).toLong
    else wrap32 p.stored
  | .double =>
    if wide then p.toLong else wrap32 (Floating.double.convert Floating.single p.stored)
  | _ => p.toLong

/-- Registers in text order. A range must be contiguous. -/
def placeRegisters (e : Assembly.Instruction) (body : Body) (x : Instruction) :
    Nat → List Assembly.Register → Except Stop Instruction
  | _, [] => .ok x
  | i, r :: rest => do
    let v := body.resolve r
    if x.opcode.format.isRange && 0 < i then
      if v = (← x.register 0) + i then placeRegisters e body x (i + 1) rest
      else fail (.parse e.origin (.breaksRange r.text))
    else
      let x ← labelled e.origin.text (x.setRegister i v)
      placeRegisters e body x (i + 1) rest

/-- Constants are taken into the pool even when a later operand is refused. -/
def assembleInstruction (e : Assembly.Instruction) (body : Body) :
    Action (Option Pool) Instruction := do
  let located {α : Type} (work : Except Stop α) := labelled e.origin.text work
  let x ← Instruction.new e.opcode
  let x ← if x.opcode.format.isVariadic then located (x.setRegistersCount e.registers.length)
    else pure x
  let x ← placeRegisters e body x 0 e.registers
  let x ← if x.hasData && !x.hasTarget then
      located (x.setData (literalValue e.literal (x.opcode.isWideRegister 0)))
    else pure x
  let x ← if x.hasIndex then Action.within e.origin.text (x.setConstant e.ref) else pure x
  if x.opcode.ref2.isSome then Action.within e.origin.text (x.setConstant2 e.ref2) else pure x

/-- The item of an element, references still open; labels and exception ranges have none. -/
def assembleElement (body : Body) : Element → Action Sequence (Option Item)
  | .instruction e => do
    let x ← Action.on (·.pool) (fun pool s => { s with pool }) (assembleInstruction e body)
    return some (.plain x)
  | .packedSwitch e =>
    return some (.packed (({ first := UInt32.ofInt e.firstKey } : PackedTable).resize e.targets.length))
  | .sparseSwitch e =>
    return some (.sparse (e.cases.foldl (fun t (k, _) => t.push k {}) {}))
  | .arrayData e =>
    return some (.array (← labelled e.origin.text (({} : ArrayPayload).setValues e.width e.values)))
  | _ => return none

/-- What is known while elements are added. -/
structure Progress where
  declared : List Bytes := []
  /-- Labels that wait for the next item. -/
  pending : List Bytes := []
  labels : List (Bytes × Handle) := []
  /-- The nodes made so far with the elements they were made from, the last one first. -/
  made : List (Nat × Element) := []

def addElement (body : Body) (p : Progress) (e : Element) : Action Sequence Progress := do
  match e with
  | .label l =>
    if p.declared.contains l.name then Action.refuse (.parse l.origin (.duplicateLabel l.name))
    else return { p with declared := l.name :: p.declared, pending := p.pending ++ [l.name] }
  | _ =>
    match ← assembleElement body e with
    | none => return p
    | some item =>
      let n := (← get).nodes.size
      let h ← push item
      return { p with
        pending := []
        labels := p.pending.map (·, h) ++ p.labels
        made := (n, e) :: p.made }

def findLabel (labels : List (Bytes × Handle)) (o : Origin) (name : Bytes) :
    Except Stop Handle :=
  match labels.find? (·.1 == name) with
  | some (_, h) => .ok h
  | none => fail (.parse o (.unknownLabel name))

/-- The cases with the handles of their labels; those before a failure are kept. -/
def resolveCases (find : Bytes → Except Stop Handle) :
    List Bytes → List Case → Except Stop PUnit × List Case
  | name :: names, c :: cases =>
    match find name with
    | .ok h =>
      let (r, cases) := resolveCases find names cases
      (r, { c with handle := h } :: cases)
    | .error e => (.error e, c :: cases)
  | _, cases => (.ok ⟨⟩, cases)

/-- Resolves the references of an element. -/
def resolveElement (labels : List (Bytes × Handle)) (n : Nat) (e : Element) :
    Action Sequence PUnit := do
  let find := findLabel labels e.origin
  let resolveTable (names : List Bytes) : Action Sequence PUnit := do
    let s ← get
    let (r, cases) := resolveCases find names (((s.node? n).map fun x => x.item.cases).getD [])
    set (s.modifyItem n (Item.setCases cases))
    r
  match e with
  | .instruction e =>
    if e.label.isEmpty then pure ⟨⟩
    else
      let h ← find e.label
      modify (·.modifyItem n fun
        | .plain x => .plain { x with target := h }
        | x => x)
  | .packedSwitch e => resolveTable e.targets
  | .sparseSwitch e => resolveTable (e.cases.map Prod.snd)
  | _ => pure ⟨⟩

/-- Adds the items of a body in one bracket and gives the handles of its labels; a label at the end
stands for the end of the sequence. What was added before a failure stays. -/
def addElements (body : Body) : Action Sequence (List (Bytes × Handle)) :=
  bracketed do
    let p ← body.elements.foldlM (addElement body) ({} : Progress)
    let labels := p.pending.map (·, Handle.finish) ++ p.labels
    for (n, e) in p.made.reverse do resolveElement labels n e
    return labels

end Dalvik.Sequence
