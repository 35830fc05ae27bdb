import Dalvik.Constant.Kind

/-!
# Instruction formats

A format says how many code units an instruction has and how wide its register operands are. Its
name encodes the layout: code units, registers, and the kind of extra data.
-/

namespace Dalvik

inductive Format where
  | f10x
  | f12x
  | f11n
  | f11x
  | f10t
  | f20t
  | f22x
  | f21t
  | f21s
  | f21h
  | f21c
  | f23x
  | f22b
  | f22t
  | f22s
  | f22c
  | f30t
  | f32x
  | f31i
  | f31t
  | f31c
  | f35c
  | f3rc
  | f45cc
  | f4rcc
  | f51l
  | packedSwitchPayload
  | sparseSwitchPayload
  | arrayPayload
  deriving DecidableEq, Repr, Inhabited

namespace Format

def all : List Format :=
  [.f10x, .f12x, .f11n, .f11x, .f10t, .f20t, .f22x, .f21t, .f21s, .f21h, .f21c, .f23x, .f22b,
    .f22t, .f22s, .f22c, .f30t, .f32x, .f31i, .f31t, .f31c, .f35c, .f3rc, .f45cc, .f4rcc,
    .f51l, .packedSwitchPayload, .sparseSwitchPayload, .arrayPayload]

def name : Format → Bytes
  | .f10x => ascii "10x"
  | .f12x => ascii "12x"
  | .f11n => ascii "11n"
  | .f11x => ascii "11x"
  | .f10t => ascii "10t"
  | .f20t => ascii "20t"
  | .f22x => ascii "22x"
  | .f21t => ascii "21t"
  | .f21s => ascii "21s"
  | .f21h => ascii "21h"
  | .f21c => ascii "21c"
  | .f23x => ascii "23x"
  | .f22b => ascii "22b"
  | .f22t => ascii "22t"
  | .f22s => ascii "22s"
  | .f22c => ascii "22c"
  | .f30t => ascii "30t"
  | .f32x => ascii "32x"
  | .f31i => ascii "31i"
  | .f31t => ascii "31t"
  | .f31c => ascii "31c"
  | .f35c => ascii "35c"
  | .f3rc => ascii "3rc"
  | .f45cc => ascii "45cc"
  | .f4rcc => ascii "4rcc"
  | .f51l => ascii "51l"
  | .packedSwitchPayload => ascii "packed-switch-payload"
  | .sparseSwitchPayload => ascii "sparse-switch-payload"
  | .arrayPayload => ascii "array-payload"

/-- The name of a format number; a number that no format has is shown as it is. -/
def nameOf (n : Nat) : Bytes :=
  match all[n]? with
  | some f => f.name
  | none => ascii "format(" ++ decimal n ++ ascii ")"

/-- The size in code units; payloads vary in size and have none of their own. -/
def units : Format → Nat
  | .f10x | .f12x | .f11n | .f11x | .f10t => 1
  | .f20t | .f22x | .f21t | .f21s | .f21h | .f21c | .f23x | .f22b | .f22t | .f22s | .f22c => 2
  | .f30t | .f32x | .f31i | .f31t | .f31c | .f35c | .f3rc => 3
  | .f45cc | .f4rcc => 4
  | .f51l => 5
  | .packedSwitchPayload | .sparseSwitchPayload | .arrayPayload => 0

/-- The width in bits of each register operand, in the order of the text. For the range formats it
is the first register; the count is separate. -/
def registerBits : Format → List Nat
  | .f12x | .f22t | .f22s | .f22c => [4, 4]
  | .f11n => [4]
  | .f11x | .f21t | .f21s | .f21h | .f21c | .f31i | .f31t | .f31c | .f51l => [8]
  | .f22x => [8, 16]
  | .f23x => [8, 8, 8]
  | .f22b => [8, 8]
  | .f32x => [16, 16]
  | .f35c | .f45cc => [4, 4, 4, 4, 4]
  | .f3rc | .f4rcc => [16]
  | _ => []

def isPayload : Format → Bool
  | .packedSwitchPayload | .sparseSwitchPayload | .arrayPayload => true
  | _ => false

/-- The formats whose registers are a contiguous run. -/
def isRange : Format → Bool
  | .f3rc | .f4rcc => true
  | _ => false

/-- The formats with an explicit register count. -/
def isVariadic : Format → Bool
  | .f35c | .f3rc | .f45cc | .f4rcc => true
  | _ => false

end Format

end Dalvik
