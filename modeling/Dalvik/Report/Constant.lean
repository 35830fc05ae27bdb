import Dalvik.Constant.Pool
import Dalvik.Opcode.Table
import Dalvik.Report.Basic

/-!
# Reports on constants and opcodes
-/

namespace Dalvik

instance : ToReport Descriptor := ⟨fun k => .text k.name⟩
instance : ToReport Kind := ⟨fun k => .text k.name⟩

/-- Everything a type descriptor says. -/
def Descriptor.describe (k : Descriptor) : Report :=
  .record [("name", k), ("valid", isValid k.name), ("zero", k.isZero), ("shorty", k.shorty),
    ("dims", k.dimensions), ("declaring", k.elementType), ("array", k.isArray),
    ("definition", k.isDefinition), ("reference", k.isReference), ("primitive", k.isPrimitive),
    ("void", k.isVoid), ("wide", k.isWide), ("registers", k.registers), ("source", k.sourceName),
    ("simple", k.simpleName), ("inner", (k.innerName?.getD [], k.innerName?.isSome)),
    ("is_inner", k.isInner), ("package", k.package), ("package_source", k.packageSource),
    ("packages", k.packages), ("enclosing", k.enclosing)]

namespace Constant

/-- What there is to say of a constant of its kind. -/
private def particulars : Constant → Except Stop (List (String × Report))
  | .string s => return [("value", s)]
  | .proto p => do
    let ts ← p.parameters
    return [("return", p.result), ("params", ts), ("count", ts.length),
      ("registers", ← p.parameterRegisters), ("shorty", ← p.shorty), ("types", ← p.types)]
  | .field f => return [("declaring", f.owner), ("name", f.name), ("type", f.type)]
  | .method m =>
    return [("declaring", m.owner), ("name", m.name), ("proto", m.proto.text),
      ("constructor", m.isConstructor)]
  | .literal p =>
    return [("prim", p.kind.name), ("type", p.kind.type), ("bits", hex p.stored),
      ("long", .long p.toLong), ("int", p.toInt), ("bool", p.toBool)]
  | .raw _ i => return [("raw", true), ("index", i)]
  | _ => return []

def describe (k : Constant) : Except Stop Report :=
  return .record ([("kind", report k.kind), ("text", report k.text)] ++ (← k.particulars))

/-- Describes a constant that may be missing. -/
def describe? (k : Option Constant) : Except Stop Report :=
  match k with
  | some k => k.describe
  | none => .ok .null

end Constant

/-- The constants of the five sections in order. -/
instance : ToReport Pool := ⟨fun p =>
  .record [("string", (p.entries .string).map Constant.text),
    ("type", (p.entries .type).map Constant.text), ("proto", (p.entries .proto).map Constant.text),
    ("field", (p.entries .field).map Constant.text), ("method", (p.entries .method).map Constant.text)]⟩

instance : ToReport Opcode := ⟨fun o =>
  .record [("value", o.value), ("name", o.name), ("format", o.format.name),
    ("units", o.format.units), ("register_bits", o.format.registerBits),
    ("range", o.format.isRange), ("variadic", o.format.isVariadic), ("payload", o.isPayload),
    ("flags", (Flag.all.filter o.is).map Flag.name), ("wide", o.wide),
    ("can_continue", o.canContinue), ("section", o.ref), ("section2", o.ref2)]⟩

end Dalvik
