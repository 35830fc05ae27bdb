import Dalvik.Assembly.Printer
import Dalvik.Code.Sequence

/-!
# Disassembly

A sequence as the elements of a method body. Every address that something refers to gets labels
named for the reason and the address; padding is left out, since it follows from the layout.
-/

namespace Dalvik.Sequence

open Assembly (Element Body)

variable (s : Sequence)

/-- Adds a label unless it is there, and the value of a switch case to its comment. -/
def addLabel (labels : List Assembly.Label) (name : Bytes) (case : Option Int) :
    List Assembly.Label :=
  let labels := if labels.any (·.name = name) then labels else labels ++ [{ name }]
  match case with
  | none => labels
  | some key =>
    let value := (Literal.int key).text
    labels.map fun l =>
      if l.name ≠ name then l
      else { l with
        comment := if l.comment.isEmpty then ascii "case " ++ value else l.comment ++ ascii ", " ++ value }

/-- The labels of an address: the given names first, then one for each kind of reference to the
item there. -/
def labelsAt (address : Int) (refs : List Reference) (extra : List (Int × Bytes)) :
    List Assembly.Label :=
  let labels := extra.foldl
    (fun ls (a, name) => if a = address then addLabel ls name none else ls) []
  refs.foldl
    (fun ls r => addLabel ls (r.kind.name address) (if r.kind.isCase then some r.key else none)) labels

/-- The label that names a target. -/
def targetLabel (kind : LabelKind) (h : Handle) : Except Stop Bytes :=
  match if h = .finish then none else s.addressOf? h with
  | some a => .ok (kind.name a)
  | none => fail .missingTarget

def caseLabels (x : Item) (noun : String) : Except Stop (List Bytes) :=
  x.cases.zipIdx.mapM fun (c, i) =>
    labelled (ascii noun ++ ascii " case " ++ decimal i) (s.targetLabel x.caseLabel c.handle)

def instructionElement (x : Node) (i : Instruction) (body : Body) :
    Except Stop Assembly.Instruction := do
  let registers := (← i.registers).map body.registerFor
  let label ← if i.hasTarget then labelled x.text (s.targetLabel (.ofBranch i.opcode) i.target)
    else pure []
  let literal ← if !i.hasTarget && i.hasData then
      i.data.map (Literal.ofOperand · (i.opcode.isWideRegister 0))
    else pure (.int 0)
  return {
    opcode := i.opcode, registers, label, literal
    ref := ← i.constant s.pool
    ref2 := ← i.constant2 s.pool }

def element (x : Node) (body : Body) : Except Stop Element := do
  if x.item.owner?.any (· < 0) then
    labelled (x.item.opcode.name ++ ascii " at 0x" ++ hex x.address ++ ascii ": no switch refers to it")
      (fail .missingTarget)
  match x.item with
  | .plain i => return .instruction (← s.instructionElement x i body)
  | .packed p =>
    return .packedSwitch { firstKey := signed32 p.first, targets := ← s.caseLabels x.item "packed-switch" }
  | .sparse t => return .sparseSwitch { cases := t.values.zip (← s.caseLabels x.item "sparse-switch") }
  | .array a => return .arrayData { width := a.width.toNat, values := a.values }

/-- The elements for a body, whose register counts decide how registers are named. `extra` gives
more labels by address. -/
def toElements (body : Body) (extra : List (Int × Bytes)) : Except Stop (List Element) := do
  let parts ← s.contents.mapM fun x => do
    let refs := s.referencesTo (x.handle.elim 0 Int.ofNat)
    let labels := (labelsAt x.address refs extra).map Element.label
    if x.item.isPadding then return labels
    else return labels ++ [← s.element x body]
  return parts.flatten ++ (labelsAt s.units [] extra).map Element.label

/-- The text of the sequence for messages, registers by number; a failure is shown in its place. -/
def text : Except Stop Bytes :=
  match s.toElements {} [] with
  | .ok es => .ok (Assembly.render (fun w => es.foldl (fun w e => e.write w) w) { step := 0 })
  | .error (.failure e) => .ok (ascii "<" ++ e.message ++ ascii ">")
  | .error e => .error e

end Dalvik.Sequence
