import Dalvik.Action
import Dalvik.Opcode.Table

/-!
# Operand layout

Where the operands of each format lie in its code units. An operand is a run of bits in one unit,
or several such runs, the lowest bits first.
-/

namespace Dalvik

/-- The code units of one instruction. -/
abbrev Units := List UInt16

/-- A run of bits in one code unit. -/
structure BitField where
  unit : Nat
  shift : Nat
  width : Nat
  deriving DecidableEq, Repr, Inhabited

namespace BitField

/-- The field's value in a unit. -/
def extract (f : BitField) (u : UInt16) : Nat := u.toNat / twoPow f.shift % twoPow f.width

/-- The unit with the field replaced by the low bits of `v`. -/
def insert (f : BitField) (v : Nat) (u : UInt16) : UInt16 :=
  UInt16.ofNat (u.toNat - f.extract u * twoPow f.shift + v % twoPow f.width * twoPow f.shift)

/-- Reads the field; the unit must be there. -/
def read (f : BitField) (units : Units) : Except Stop Nat :=
  match units[f.unit]? with
  | some u => .ok (f.extract u)
  | none => fault none

/-- Writes the field; the unit must be there. -/
def write (f : BitField) (v : Nat) (units : Units) : Except Stop Units :=
  match units[f.unit]? with
  | some u => .ok (units.set f.unit (f.insert v u))
  | none => fault none

/-- The width of several fields together. -/
def totalWidth (fs : List BitField) : Nat := total (fs.map width)

/-- Reads a number spread over several fields, the lowest bits first. -/
def readAll : List BitField → Units → Except Stop Nat
  | [], _ => .ok 0
  | f :: fs, units => do
    let low ← f.read units
    let high ← readAll fs units
    return low + twoPow f.width * high

/-- Writes a number over several fields, the lowest bits first. -/
def writeAll : List BitField → Nat → Units → Except Stop Units
  | [], _, units => .ok units
  | f :: fs, v, units => do
    let units ← f.write v units
    writeAll fs (v / twoPow f.width) units

end BitField

namespace Format

/-- The bits above the opcode in the first unit. -/
def highByte : BitField := ⟨0, 8, 8⟩

/-- A whole unit. -/
def wholeUnit (unit : Nat) : BitField := ⟨unit, 0, 16⟩

/-- The register operands in the order of the text; a range has its first register only. -/
def registerFields : Format → List BitField
  | .f12x | .f22t | .f22s | .f22c => [⟨0, 8, 4⟩, ⟨0, 12, 4⟩]
  | .f11n => [⟨0, 8, 4⟩]
  | .f11x | .f21t | .f21s | .f21h | .f21c | .f31i | .f31t | .f31c | .f51l => [highByte]
  | .f22x => [highByte, wholeUnit 1]
  | .f23x => [highByte, ⟨1, 0, 8⟩, ⟨1, 8, 8⟩]
  | .f22b => [highByte, ⟨1, 0, 8⟩]
  | .f32x => [wholeUnit 1, wholeUnit 2]
  | .f35c | .f45cc => [⟨2, 0, 4⟩, ⟨2, 4, 4⟩, ⟨2, 8, 4⟩, ⟨2, 12, 4⟩, ⟨0, 8, 4⟩]
  | .f3rc | .f4rcc => [wholeUnit 2]
  | _ => []

/-- The explicit register count. -/
def countField? : Format → Option BitField
  | .f35c | .f45cc => some ⟨0, 12, 4⟩
  | .f3rc | .f4rcc => some highByte
  | _ => none

/-- The literal or branch offset. -/
def literalFields : Format → List BitField
  | .f11n => [⟨0, 12, 4⟩]
  | .f10t => [highByte]
  | .f20t | .f21t | .f21s | .f22t | .f22s | .f21h => [wholeUnit 1]
  | .f22b => [⟨1, 8, 8⟩]
  | .f30t | .f31i | .f31t => [wholeUnit 1, wholeUnit 2]
  | .f51l => [wholeUnit 1, wholeUnit 2, wholeUnit 3, wholeUnit 4]
  | _ => []

/-- The index of a constant. -/
def indexFields : Format → List BitField
  | .f21c | .f22c | .f35c | .f3rc | .f45cc | .f4rcc => [wholeUnit 1]
  | .f31c => [wholeUnit 1, wholeUnit 2]
  | _ => []

/-- The index of a second constant, in the opcodes that have one. -/
def secondIndex : BitField := wholeUnit 3

def maxRegisters (f : Format) : Nat := f.registerBits.length

end Format

end Dalvik
