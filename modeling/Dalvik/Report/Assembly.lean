import Dalvik.Assembly.Model
import Dalvik.Report.Constant

/-!
# Reports on assembly text
-/

namespace Dalvik.Assembly

instance : ToReport Origin := ⟨fun o => .text o.text⟩

private def node (kind : String) (o : Origin) (fields : List (String × Report)) : Report :=
  .record ([("t", report kind), ("at", report o)] ++ fields)

def Element.describe : Element → Except Stop Report
  | .label l => return node "label" l.origin [("name", l.name), ("comment", l.comment)]
  | .instruction i =>
    return node "ins" i.origin [("name", i.opcode.name), ("regs", i.registers.map Register.text),
      ("label", i.label), ("literal", i.literal.kind.name ++ ascii " " ++ i.literal.text),
      ("ref", ← Constant.describe? i.ref), ("ref2", ← Constant.describe? i.ref2)]
  | .packedSwitch p =>
    return node "packed" p.origin [("first", p.firstKey), ("targets", p.targets)]
  | .sparseSwitch s =>
    return node "sparse" s.origin
      [("keys", s.cases.map Prod.fst), ("targets", s.cases.map Prod.snd)]
  | .arrayData a =>
    return node "array" a.origin [("width", a.width), ("values", a.values.map Report.long)]
  | .catchRange c =>
    return node "catch" c.origin [("type", c.type), ("all", c.isCatchAll), ("start", c.start),
      ("end", c.stop), ("handler", c.handler)]

def Body.describe (b : Body) : Except Stop Report :=
  return .record [("registers", b.registers), ("params", b.paramRegisters), ("locals", b.locals),
    ("use_locals", b.useLocals), ("elements", ← b.elements.mapM Element.describe)]

def Field.describe (f : Field) : Except Stop Report :=
  return .record [("at", f.origin), ("access", f.access.bits), ("key", f.ref.text),
    ("static", f.access.isStatic), ("initial", ← Constant.describe? f.initial)]

def Method.describe (m : Method) : Except Stop Report := do
  let code ← match m.body with
    | some b => b.describe
    | none => pure .null
  return .record [("at", m.origin), ("access", m.access.bits), ("key", m.ref.text),
    ("static", m.access.isStatic), ("direct", m.access.isDirect),
    ("param_registers", ← paramRegistersOf m.access m.ref.proto), ("code", code)]

def Class.describe (c : Class) : Except Stop Report :=
  return .record [("at", c.origin), ("access", c.access.bits), ("type", c.type), ("super", c.super),
    ("source", c.source), ("interfaces", c.interfaces), ("fields", ← c.fields.mapM Field.describe),
    ("methods", ← c.methods.mapM Method.describe)]

end Dalvik.Assembly
