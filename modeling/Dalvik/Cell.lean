import Dalvik.Action
import Dalvik.Cursor

/-!
# Cells

The fields an item is made of. Each has a value, an encoding and a way to read itself from a
cursor. A LEB128 field keeps the bytes it was read from as long as its value stays the same, so
overlong encodings survive.
-/

namespace Dalvik

/-! ## Fixed-width fields -/

/-- Reads a field with `read`; a failed read leaves `zero`. -/
def decodeFixed {α : Type} (zero : α) (read : Cursor → Except Stop (α × Cursor)) (c : Cursor) :
    Action α Cursor :=
  Action.of fun _ =>
    match read c with
    | .ok (v, c) => (.ok c, v)
    | .error e => (.error e, zero)

def decodeU8 : Cursor → Action UInt8 Cursor := decodeFixed 0 Cursor.u8
def decodeU16 : Cursor → Action UInt16 Cursor := decodeFixed 0 Cursor.u16
def decodeU32 : Cursor → Action UInt32 Cursor := decodeFixed 0 Cursor.u32

def bytesU16 (v : UInt16) : Bytes := toLittleEndian 2 v.toNat
def bytesU32 (v : UInt32) : Bytes := toLittleEndian 4 v.toNat

/-- A 32-bit field as a signed number. -/
def signed32 (v : UInt32) : Int := v.toInt32.toInt

/-! ## LEB128 fields -/

structure Uleb where
  value : UInt32 := 0
  raw : Option Bytes := none
  deriving DecidableEq, Repr, Inhabited

namespace Uleb

def get (u : Uleb) : Int := u.value.toNat
def setValue (u : Uleb) (v : UInt32) : Uleb := if v = u.value then u else ⟨v, none⟩
def set (u : Uleb) (v : Int) : Uleb := u.setValue (UInt32.ofInt v)

def size (u : Uleb) : Nat :=
  match u.raw with
  | some raw => raw.length
  | none => Leb128.sizeU u.value

def bytes (u : Uleb) : Bytes := u.raw.getD (Leb128.encodeU u.value)

def decode (c : Cursor) : Action Uleb Cursor :=
  Action.of fun u =>
    match c.uleb with
    | .ok (v, n, rest) => (.ok rest, ⟨v, some (c.slice c.pos n)⟩)
    | .error e => (.error e, u)

end Uleb

structure Sleb where
  value : Int32 := 0
  raw : Option Bytes := none
  deriving DecidableEq, Repr, Inhabited

namespace Sleb

def get (s : Sleb) : Int := s.value.toInt

def set (s : Sleb) (v : Int) : Sleb := if Int32.ofInt v = s.value then s else ⟨Int32.ofInt v, none⟩

def size (s : Sleb) : Nat :=
  match s.raw with
  | some raw => raw.length
  | none => Leb128.sizeS s.value

def bytes (s : Sleb) : Bytes := s.raw.getD (Leb128.encodeS s.value)

def decode (c : Cursor) : Action Sleb Cursor :=
  Action.of fun s =>
    match c.sleb with
    | .ok (v, n, rest) => (.ok rest, ⟨v, some (c.slice c.pos n)⟩)
    | .error e => (.error e, s)

end Sleb

/-! ## Cells of any width -/

/-- A settable number, such as the count of a table. -/
inductive Cell where
  | byte (v : UInt8)
  | short (v : UInt16)
  | int (v : UInt32)
  | uleb (v : Uleb)
  | sleb (v : Sleb)
  deriving DecidableEq, Repr, Inhabited

namespace Cell

def get : Cell → Int
  | .byte v => v.toNat
  | .short v => v.toNat
  | .int v => signed32 v
  | .uleb v => v.get
  | .sleb v => v.get

/-- Stores a number reduced to the width of the cell. -/
def set (n : Int) : Cell → Cell
  | .byte _ => .byte (UInt8.ofInt n)
  | .short _ => .short (UInt16.ofInt n)
  | .int _ => .int (UInt32.ofInt n)
  | .uleb v => .uleb (v.set n)
  | .sleb v => .sleb (v.set n)

def size : Cell → Nat
  | .byte _ => 1
  | .short _ => 2
  | .int _ => 4
  | .uleb v => v.size
  | .sleb v => v.size

def bytes : Cell → Bytes
  | .byte v => [v]
  | .short v => bytesU16 v
  | .int v => bytesU32 v
  | .uleb v => v.bytes
  | .sleb v => v.bytes

/-- Maps the value an action leaves into a cell. -/
def wrapping {α : Type} (make : α → Cell) (v : α) (act : Action α Cursor) :
    Except Stop Cursor × Cell :=
  let (r, v) := act.apply v
  (r, make v)

def decode (c : Cursor) : Action Cell Cursor :=
  Action.of fun
    | .byte v => wrapping .byte v (decodeU8 c)
    | .short v => wrapping .short v (decodeU16 c)
    | .int v => wrapping .int v (decodeU32 c)
    | .uleb v => wrapping .uleb v (Uleb.decode c)
    | .sleb v => wrapping .sleb v (Sleb.decode c)

/-- The unsigned value of a 32-bit or unsigned LEB128 cell. -/
def unsigned? : Cell → Option Nat
  | .int v => some v.toNat
  | .uleb v => some v.value.toNat
  | _ => none

def setUnsigned (n : UInt32) : Cell → Cell
  | .int _ => .int n
  | .uleb v => .uleb (v.setValue n)
  | cell => cell

end Cell

/-! ## Runs of bytes -/

/-- The most bytes a run can be asked to hold. -/
def maxRun : Int := twoPow 48

/-- Cuts a run or extends it with zeros; a size that no run can have is a fault. -/
def resizeRun (n : Int) (s : Bytes) : Except Stop Bytes :=
  if n < 0 ∨ maxRun < n then fault none
  else .ok (s.take n.toNat ++ List.replicate (n.toNat - s.length) 0)

/-- Reads as many bytes as the run has. -/
def decodeRun (c : Cursor) : Action Bytes Cursor :=
  Action.of fun s =>
    match c.bytes s.length with
    | .ok (b, c) => (.ok c, b)
    | .error e => (.error e, s)

/-- A fixed byte string that is checked when read, unless the check is off. -/
structure Signature where
  what : Bytes
  expected : Bytes
  bytes : Bytes
  unchecked : Bool := false
  deriving DecidableEq, Repr, Inhabited

namespace Signature

def new (what expected : Bytes) : Signature := { what, expected, bytes := expected }

def isValid (s : Signature) : Bool := s.bytes = s.expected

def decode (c : Cursor) : Action Signature Cursor :=
  Action.of fun s =>
    match c.bytes s.expected.length with
    | .error e => (.error e, s)
    | .ok (b, rest) =>
      let s := { s with bytes := b }
      (if s.unchecked || s.isValid then .ok rest else fail (.mismatch s.what b s.expected), s)

end Signature

end Dalvik
