import Dalvik.Assembly.Parser
import Dalvik.Proofs.Constant.Reference
import Dalvik.Proofs.Constant.TypeName

/-!
# Refusing a text

The readers of types, literals, members and constants never fault: they give a value or refuse the
text. The parameters of a prototype that was parsed can be counted.
-/

namespace Dalvik

variable {text name : Bytes}

theorem Descriptor.faultless_parseSource : Faultless (Descriptor.parseSource name) := by
  rw [Descriptor.parseSource]
  dsimp only
  split
  · exact .fail _
  · rw [Descriptor.withDimensions_natCast]
    exact .ok _

theorem Descriptor.faultless_parse : Faultless (Descriptor.parse name) := by
  rw [Descriptor.parse.eq_def]
  dsimp only
  split
  · exact .fail _
  split
  · exact .fail _
  split
  · exact .ok _
  split
  · split
    · exact .ok _
    · exact .fail _
  · exact Descriptor.faultless_parseSource

namespace Literal

theorem faultless_parseFloat {body : Bytes} {negative single : Bool} : Faultless (parseFloat text body negative single) := by
  rw [parseFloat]
  dsimp only
  generalize (if body = ascii "Infinity" then some _ else if body = ascii "NaN" then some _ else _ : Option Nat) = bits
  cases bits with
  | none => exact .fail _
  | some b => exact .ok _

theorem faultless_parseNumber : Faultless (parseNumber text) := by
  rw [parseNumber]
  split
  next negative body _ =>
  extract_lets isHex suffix body
  split
  · exact .fail _
  split
  · exact faultless_parseFloat
  split
  · exact .fail _
  split
  · exact .ok _
  · exact .fail _

theorem faultless_parse : Faultless (parse text) := by
  rw [parse]
  split
  · exact .ok _
  split
  · exact .ok _
  split
  · split
    · exact .ok _
    · exact .fail _
  · exact faultless_parseNumber

end Literal

theorem Prototype.faultless_parse : Faultless (Prototype.parse text) := by
  rw [Prototype.parse]
  repeat' split
  all_goals first | exact .ok _ | exact .fail _

theorem FieldRef.faultless_parse : Faultless (FieldRef.parse text) := by
  rw [FieldRef.parse]
  repeat' split
  all_goals first | exact .ok _ | exact .fail _

theorem MethodRef.faultless_parse : Faultless (MethodRef.parse text) := by
  rw [MethodRef.parse]
  repeat' split
  all_goals first | exact .ok _ | exact .fail _

namespace Constant

theorem faultless_parseRaw : Faultless (parseRaw text) := by
  rw [parseRaw]
  repeat' split
  all_goals first | exact .ok _ | exact .fail _

theorem faultless_parse (kind : Kind) : Faultless (parse kind text) := by
  cases kind with
  | string =>
    rw [parse]
    split
    · exact .ok _
    · exact .fail _
  | type => exact Descriptor.faultless_parse.bind fun _ _ => .ok _
  | proto => exact Prototype.faultless_parse.bind fun _ _ => .ok _
  | field => exact FieldRef.faultless_parse.bind fun _ _ => .ok _
  | method => exact MethodRef.faultless_parse.bind fun _ _ => .ok _
  | primitive => exact Literal.faultless_parse.bind fun _ _ => .ok _
  | null =>
    rw [parse]
    split
    · exact .ok _
    · exact .fail _
  | _ => exact .fail _

theorem faultless_parseRef (kind : Kind) : Faultless (parseRef kind text) := by
  rw [parseRef]
  split
  · split
    · exact faultless_parse kind
    · refine faultless_parseRaw.bind fun p _ => ?_
      split
      next k i =>
      split
      · exact .ok _
      · exact .fail _
  · exact faultless_parse kind

end Constant

namespace Assembly

theorem faultless_coerce (p : Literal) (t : Descriptor) : Faultless (coerce p t) := by
  rw [coerce]
  repeat' split
  all_goals first | exact .ok _ | exact .fail _

theorem exists_paramRegistersOf {proto : Prototype} (read : Prototype.parse text = .ok proto) (access : Access) :
    ∃ n, paramRegistersOf access proto = .ok n := by
  obtain ⟨ts, parameters⟩ := (Prototype.parse_eq_ok.1 read).1.parameters
  refine ⟨if access.isStatic then total (ts.map Descriptor.registers) else total (ts.map Descriptor.registers) + 1, ?_⟩
  rw [paramRegistersOf, Prototype.parameterRegisters, parameters]
  rfl

end Assembly

end Dalvik
