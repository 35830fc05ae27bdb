import Dalvik.Opcode.Format

/-!
# Opcodes

The table of instructions. A code unit equal to one of the three payload values starts a payload;
any other unit carries the opcode in its low byte.
-/

namespace Dalvik

/-- What an instruction does to the flow of control and the result register. -/
inductive Flag where
  /-- The operand is a relative target. -/
  | branch
  /-- The target is a payload. -/
  | payloadRef
  | switch
  | invoke
  | returns
  | throws
  /-- A result may be moved right after it. -/
  | setsResult
  | const
  /-- Control never falls through. -/
  | jump
  deriving DecidableEq, Repr, Inhabited

namespace Flag

def all : List Flag :=
  [.branch, .payloadRef, .switch, .invoke, .returns, .throws, .setsResult, .const, .jump]

def name : Flag → Bytes
  | .branch => ascii "branch"
  | .payloadRef => ascii "payload_ref"
  | .switch => ascii "switch"
  | .invoke => ascii "invoke"
  | .returns => ascii "return"
  | .throws => ascii "throw"
  | .setsResult => ascii "sets_result"
  | .const => ascii "const"
  | .jump => ascii "jump"

end Flag

structure Opcode where
  value : Nat
  name : Bytes
  format : Format
  flags : List Flag
  /-- The register slots that hold a long or double. -/
  wide : List Nat
  /-- The section of the index operand. -/
  ref : Option Kind
  /-- The section of the second index operand. -/
  ref2 : Option Kind
  deriving DecidableEq, Repr, Inhabited

namespace Opcode

private def op (value : Nat) (name : String) (format : Format) (flags : List Flag := [])
    (wide : List Nat := []) (ref : Option Kind := none) (ref2 : Option Kind := none) : Opcode :=
  ⟨value, ascii name, format, flags, wide, ref, ref2⟩

/-- The instructions in the order of their values. -/
def instructions : List Opcode := [
  op 0x00 "nop" .f10x,
  op 0x01 "move" .f12x,
  op 0x02 "move/from16" .f22x,
  op 0x03 "move/16" .f32x,
  op 0x04 "move-wide" .f12x [] [0, 1],
  op 0x05 "move-wide/from16" .f22x [] [0, 1],
  op 0x06 "move-wide/16" .f32x [] [0, 1],
  op 0x07 "move-object" .f12x,
  op 0x08 "move-object/from16" .f22x,
  op 0x09 "move-object/16" .f32x,
  op 0x0a "move-result" .f11x,
  op 0x0b "move-result-wide" .f11x [] [0],
  op 0x0c "move-result-object" .f11x,
  op 0x0d "move-exception" .f11x,
  op 0x0e "return-void" .f10x [.returns],
  op 0x0f "return" .f11x [.returns],
  op 0x10 "return-wide" .f11x [.returns] [0],
  op 0x11 "return-object" .f11x [.returns],
  op 0x12 "const/4" .f11n [.const],
  op 0x13 "const/16" .f21s [.const],
  op 0x14 "const" .f31i [.const],
  op 0x15 "const/high16" .f21h [.const],
  op 0x16 "const-wide/16" .f21s [.const] [0],
  op 0x17 "const-wide/32" .f31i [.const] [0],
  op 0x18 "const-wide" .f51l [.const] [0],
  op 0x19 "const-wide/high16" .f21h [.const] [0],
  op 0x1a "const-string" .f21c [.const] [] (some .string),
  op 0x1b "const-string/jumbo" .f31c [.const] [] (some .string),
  op 0x1c "const-class" .f21c [.const] [] (some .type),
  op 0x1d "monitor-enter" .f11x,
  op 0x1e "monitor-exit" .f11x,
  op 0x1f "check-cast" .f21c [] [] (some .type),
  op 0x20 "instance-of" .f22c [] [] (some .type),
  op 0x21 "array-length" .f12x,
  op 0x22 "new-instance" .f21c [] [] (some .type),
  op 0x23 "new-array" .f22c [] [] (some .type),
  op 0x24 "filled-new-array" .f35c [.setsResult] [] (some .type),
  op 0x25 "filled-new-array/range" .f3rc [.setsResult] [] (some .type),
  op 0x26 "fill-array-data" .f31t [.payloadRef],
  op 0x27 "throw" .f11x [.throws],
  op 0x28 "goto" .f10t [.branch, .jump],
  op 0x29 "goto/16" .f20t [.branch, .jump],
  op 0x2a "goto/32" .f30t [.branch, .jump],
  op 0x2b "packed-switch" .f31t [.payloadRef, .switch],
  op 0x2c "sparse-switch" .f31t [.payloadRef, .switch],
  op 0x2d "cmpl-float" .f23x,
  op 0x2e "cmpg-float" .f23x,
  op 0x2f "cmpl-double" .f23x [] [1, 2],
  op 0x30 "cmpg-double" .f23x [] [1, 2],
  op 0x31 "cmp-long" .f23x [] [1, 2],
  op 0x32 "if-eq" .f22t [.branch],
  op 0x33 "if-ne" .f22t [.branch],
  op 0x34 "if-lt" .f22t [.branch],
  op 0x35 "if-ge" .f22t [.branch],
  op 0x36 "if-gt" .f22t [.branch],
  op 0x37 "if-le" .f22t [.branch],
  op 0x38 "if-eqz" .f21t [.branch],
  op 0x39 "if-nez" .f21t [.branch],
  op 0x3a "if-ltz" .f21t [.branch],
  op 0x3b "if-gez" .f21t [.branch],
  op 0x3c "if-gtz" .f21t [.branch],
  op 0x3d "if-lez" .f21t [.branch],
  op 0x44 "aget" .f23x,
  op 0x45 "aget-wide" .f23x [] [0],
  op 0x46 "aget-object" .f23x,
  op 0x47 "aget-boolean" .f23x,
  op 0x48 "aget-byte" .f23x,
  op 0x49 "aget-char" .f23x,
  op 0x4a "aget-short" .f23x,
  op 0x4b "aput" .f23x,
  op 0x4c "aput-wide" .f23x [] [0],
  op 0x4d "aput-object" .f23x,
  op 0x4e "aput-boolean" .f23x,
  op 0x4f "aput-byte" .f23x,
  op 0x50 "aput-char" .f23x,
  op 0x51 "aput-short" .f23x,
  op 0x52 "iget" .f22c [] [] (some .field),
  op 0x53 "iget-wide" .f22c [] [0] (some .field),
  op 0x54 "iget-object" .f22c [] [] (some .field),
  op 0x55 "iget-boolean" .f22c [] [] (some .field),
  op 0x56 "iget-byte" .f22c [] [] (some .field),
  op 0x57 "iget-char" .f22c [] [] (some .field),
  op 0x58 "iget-short" .f22c [] [] (some .field),
  op 0x59 "iput" .f22c [] [] (some .field),
  op 0x5a "iput-wide" .f22c [] [0] (some .field),
  op 0x5b "iput-object" .f22c [] [] (some .field),
  op 0x5c "iput-boolean" .f22c [] [] (some .field),
  op 0x5d "iput-byte" .f22c [] [] (some .field),
  op 0x5e "iput-char" .f22c [] [] (some .field),
  op 0x5f "iput-short" .f22c [] [] (some .field),
  op 0x60 "sget" .f21c [] [] (some .field),
  op 0x61 "sget-wide" .f21c [] [0] (some .field),
  op 0x62 "sget-object" .f21c [] [] (some .field),
  op 0x63 "sget-boolean" .f21c [] [] (some .field),
  op 0x64 "sget-byte" .f21c [] [] (some .field),
  op 0x65 "sget-char" .f21c [] [] (some .field),
  op 0x66 "sget-short" .f21c [] [] (some .field),
  op 0x67 "sput" .f21c [] [] (some .field),
  op 0x68 "sput-wide" .f21c [] [0] (some .field),
  op 0x69 "sput-object" .f21c [] [] (some .field),
  op 0x6a "sput-boolean" .f21c [] [] (some .field),
  op 0x6b "sput-byte" .f21c [] [] (some .field),
  op 0x6c "sput-char" .f21c [] [] (some .field),
  op 0x6d "sput-short" .f21c [] [] (some .field),
  op 0x6e "invoke-virtual" .f35c [.invoke, .setsResult] [] (some .method),
  op 0x6f "invoke-super" .f35c [.invoke, .setsResult] [] (some .method),
  op 0x70 "invoke-direct" .f35c [.invoke, .setsResult] [] (some .method),
  op 0x71 "invoke-static" .f35c [.invoke, .setsResult] [] (some .method),
  op 0x72 "invoke-interface" .f35c [.invoke, .setsResult] [] (some .method),
  op 0x74 "invoke-virtual/range" .f3rc [.invoke, .setsResult] [] (some .method),
  op 0x75 "invoke-super/range" .f3rc [.invoke, .setsResult] [] (some .method),
  op 0x76 "invoke-direct/range" .f3rc [.invoke, .setsResult] [] (some .method),
  op 0x77 "invoke-static/range" .f3rc [.invoke, .setsResult] [] (some .method),
  op 0x78 "invoke-interface/range" .f3rc [.invoke, .setsResult] [] (some .method),
  op 0x7b "neg-int" .f12x,
  op 0x7c "not-int" .f12x,
  op 0x7d "neg-long" .f12x [] [0, 1],
  op 0x7e "not-long" .f12x [] [0, 1],
  op 0x7f "neg-float" .f12x,
  op 0x80 "neg-double" .f12x [] [0, 1],
  op 0x81 "int-to-long" .f12x [] [0],
  op 0x82 "int-to-float" .f12x,
  op 0x83 "int-to-double" .f12x [] [0],
  op 0x84 "long-to-int" .f12x [] [1],
  op 0x85 "long-to-float" .f12x [] [1],
  op 0x86 "long-to-double" .f12x [] [0, 1],
  op 0x87 "float-to-int" .f12x,
  op 0x88 "float-to-long" .f12x [] [0],
  op 0x89 "float-to-double" .f12x [] [0],
  op 0x8a "double-to-int" .f12x [] [1],
  op 0x8b "double-to-long" .f12x [] [0, 1],
  op 0x8c "double-to-float" .f12x [] [1],
  op 0x8d "int-to-byte" .f12x,
  op 0x8e "int-to-char" .f12x,
  op 0x8f "int-to-short" .f12x,
  op 0x90 "add-int" .f23x,
  op 0x91 "sub-int" .f23x,
  op 0x92 "mul-int" .f23x,
  op 0x93 "div-int" .f23x,
  op 0x94 "rem-int" .f23x,
  op 0x95 "and-int" .f23x,
  op 0x96 "or-int" .f23x,
  op 0x97 "xor-int" .f23x,
  op 0x98 "shl-int" .f23x,
  op 0x99 "shr-int" .f23x,
  op 0x9a "ushr-int" .f23x,
  op 0x9b "add-long" .f23x [] [0, 1, 2],
  op 0x9c "sub-long" .f23x [] [0, 1, 2],
  op 0x9d "mul-long" .f23x [] [0, 1, 2],
  op 0x9e "div-long" .f23x [] [0, 1, 2],
  op 0x9f "rem-long" .f23x [] [0, 1, 2],
  op 0xa0 "and-long" .f23x [] [0, 1, 2],
  op 0xa1 "or-long" .f23x [] [0, 1, 2],
  op 0xa2 "xor-long" .f23x [] [0, 1, 2],
  op 0xa3 "shl-long" .f23x [] [0, 1],
  op 0xa4 "shr-long" .f23x [] [0, 1],
  op 0xa5 "ushr-long" .f23x [] [0, 1],
  op 0xa6 "add-float" .f23x,
  op 0xa7 "sub-float" .f23x,
  op 0xa8 "mul-float" .f23x,
  op 0xa9 "div-float" .f23x,
  op 0xaa "rem-float" .f23x,
  op 0xab "add-double" .f23x [] [0, 1, 2],
  op 0xac "sub-double" .f23x [] [0, 1, 2],
  op 0xad "mul-double" .f23x [] [0, 1, 2],
  op 0xae "div-double" .f23x [] [0, 1, 2],
  op 0xaf "rem-double" .f23x [] [0, 1, 2],
  op 0xb0 "add-int/2addr" .f12x,
  op 0xb1 "sub-int/2addr" .f12x,
  op 0xb2 "mul-int/2addr" .f12x,
  op 0xb3 "div-int/2addr" .f12x,
  op 0xb4 "rem-int/2addr" .f12x,
  op 0xb5 "and-int/2addr" .f12x,
  op 0xb6 "or-int/2addr" .f12x,
  op 0xb7 "xor-int/2addr" .f12x,
  op 0xb8 "shl-int/2addr" .f12x,
  op 0xb9 "shr-int/2addr" .f12x,
  op 0xba "ushr-int/2addr" .f12x,
  op 0xbb "add-long/2addr" .f12x [] [0, 1],
  op 0xbc "sub-long/2addr" .f12x [] [0, 1],
  op 0xbd "mul-long/2addr" .f12x [] [0, 1],
  op 0xbe "div-long/2addr" .f12x [] [0, 1],
  op 0xbf "rem-long/2addr" .f12x [] [0, 1],
  op 0xc0 "and-long/2addr" .f12x [] [0, 1],
  op 0xc1 "or-long/2addr" .f12x [] [0, 1],
  op 0xc2 "xor-long/2addr" .f12x [] [0, 1],
  op 0xc3 "shl-long/2addr" .f12x [] [0],
  op 0xc4 "shr-long/2addr" .f12x [] [0],
  op 0xc5 "ushr-long/2addr" .f12x [] [0],
  op 0xc6 "add-float/2addr" .f12x,
  op 0xc7 "sub-float/2addr" .f12x,
  op 0xc8 "mul-float/2addr" .f12x,
  op 0xc9 "div-float/2addr" .f12x,
  op 0xca "rem-float/2addr" .f12x,
  op 0xcb "add-double/2addr" .f12x [] [0, 1],
  op 0xcc "sub-double/2addr" .f12x [] [0, 1],
  op 0xcd "mul-double/2addr" .f12x [] [0, 1],
  op 0xce "div-double/2addr" .f12x [] [0, 1],
  op 0xcf "rem-double/2addr" .f12x [] [0, 1],
  op 0xd0 "add-int/lit16" .f22s,
  op 0xd1 "rsub-int" .f22s,
  op 0xd2 "mul-int/lit16" .f22s,
  op 0xd3 "div-int/lit16" .f22s,
  op 0xd4 "rem-int/lit16" .f22s,
  op 0xd5 "and-int/lit16" .f22s,
  op 0xd6 "or-int/lit16" .f22s,
  op 0xd7 "xor-int/lit16" .f22s,
  op 0xd8 "add-int/lit8" .f22b,
  op 0xd9 "rsub-int/lit8" .f22b,
  op 0xda "mul-int/lit8" .f22b,
  op 0xdb "div-int/lit8" .f22b,
  op 0xdc "rem-int/lit8" .f22b,
  op 0xdd "and-int/lit8" .f22b,
  op 0xde "or-int/lit8" .f22b,
  op 0xdf "xor-int/lit8" .f22b,
  op 0xe0 "shl-int/lit8" .f22b,
  op 0xe1 "shr-int/lit8" .f22b,
  op 0xe2 "ushr-int/lit8" .f22b,
  op 0xfa "invoke-polymorphic" .f45cc [.invoke, .setsResult] [] (some .method) (some .proto),
  op 0xfb "invoke-polymorphic/range" .f4rcc [.invoke, .setsResult] [] (some .method) (some .proto),
  op 0xfc "invoke-custom" .f35c [.invoke, .setsResult] [] (some .callSite),
  op 0xfd "invoke-custom/range" .f3rc [.invoke, .setsResult] [] (some .callSite),
  op 0xfe "const-method-handle" .f21c [.const] [] (some .methodHandle),
  op 0xff "const-method-type" .f21c [.const] [] (some .proto)]

def packedSwitchPayload : Opcode := op 0x100 "packed-switch-payload" .packedSwitchPayload
def sparseSwitchPayload : Opcode := op 0x200 "sparse-switch-payload" .sparseSwitchPayload
def arrayPayload : Opcode := op 0x300 "array-payload" .arrayPayload

def payloads : List Opcode := [packedSwitchPayload, sparseSwitchPayload, arrayPayload]

/-- Every opcode, payloads last. -/
def all : List Opcode := instructions ++ payloads

def ofValue? (v : Nat) : Option Opcode := all.find? fun o => o.value == v

/-- The opcode at the start of an instruction. -/
def ofUnit? (unit : Nat) : Option Opcode :=
  (payloads.find? fun o => o.value == unit).or (ofValue? (unit % 256))

def ofName? (name : Bytes) : Option Opcode := all.find? fun o => o.name == name

/-- The opcode that does nothing. -/
def nop : Opcode := op 0x00 "nop" .f10x

variable (o : Opcode)

def is (f : Flag) : Bool := o.flags.contains f

def isWideRegister (slot : Int) : Bool := o.wide.any fun w => (w : Int) == slot

def isPayload : Bool := o.format.isPayload

/-- Whether control may fall through to the next instruction. -/
def canContinue : Bool := !(o.is .jump || o.is .returns || o.is .throws) && !o.isPayload

end Opcode

end Dalvik
