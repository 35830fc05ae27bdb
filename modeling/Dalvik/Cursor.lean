import Dalvik.Failure
import Dalvik.Leb128

/-!
# Cursor

A bounds-checked position in a block of bytes, with a stack of marks to come back to. Positions and
counts are signed 64-bit numbers: the bounds test itself is done in wrapping arithmetic.
-/

namespace Dalvik

structure Cursor where
  data : Array UInt8
  pos : Nat := 0
  marks : List Nat := []
  deriving Inhabited

namespace Cursor

def ofBytes (data : Bytes) : Cursor := { data := data.toArray }

def available (c : Cursor) : Nat := c.data.size - c.pos
def finished (c : Cursor) : Bool := c.data.size ≤ c.pos

/-- The `n` bytes from position `start` on. -/
def slice (c : Cursor) (start n : Nat) : Bytes := (c.data.extract start (start + n)).toList

/-- The byte at an offset from the position. -/
def byteAt? (c : Cursor) (i : Nat) : Option UInt8 := c.data[c.pos + i]?

def setPosition (c : Cursor) (target : Int) : Except Stop Cursor :=
  if target < 0 ∨ (c.data.size : Int) < target then fail (.badPosition target c.data.size)
  else .ok { c with pos := target.toNat }

def offset (c : Cursor) (delta : Int) : Except Stop Cursor := c.setPosition (wrap64 (c.pos + delta))

/-- Moves relative to the start (0), the position (1) or the end (2). -/
def seek (c : Cursor) (distance : Int) (whence : Int) : Except Stop Cursor :=
  if whence = 0 then c.setPosition distance
  else if whence = 1 then c.setPosition (wrap64 (c.pos + distance))
  else if whence = 2 then c.setPosition (wrap64 (c.data.size + distance))
  else fail (.badWhence whence)

def mark (c : Cursor) : Cursor := { c with marks := c.pos :: c.marks }

/-- Goes back to the most recent mark and forgets it. -/
def reset (c : Cursor) : Except Stop Cursor :=
  match c.marks with
  | [] => fail .noMark
  | p :: marks => .ok { c with pos := p, marks }

/-- Whether `n` more bytes are there. -/
def need (c : Cursor) (n : Int) : Except Stop PUnit :=
  if n < 0 ∨ (c.data.size : Int) < wrap64 (c.pos + n) then fail (.shortRead n c.pos c.available)
  else .ok ⟨⟩

/-- The next `n` bytes, without moving. A count so large that the end position wraps round passes
the bounds test and is a fault. -/
def peek (c : Cursor) (n : Int) : Except Stop Bytes := do
  c.need n
  if (c.data.size : Int) < c.pos + n then fault none
  return c.slice c.pos n.toNat

def bytes (c : Cursor) (n : Int) : Except Stop (Bytes × Cursor) := do
  let s ← c.peek n
  return (s, { c with pos := c.pos + n.toNat })

/-- Up to `n` bytes; the end of the data is a failure even when none are asked for. -/
def read (c : Cursor) (n : Nat) : Except Stop (Bytes × Cursor) :=
  if c.finished then fail .eof
  else
    let s := c.slice c.pos (min n c.available)
    .ok (s, { c with pos := c.pos + s.length })

/-- An unsigned little-endian number of `width` bytes. -/
def number (c : Cursor) (width : Nat) : Except Stop (Nat × Cursor) := do
  c.need width
  return (littleEndian (c.slice c.pos width), { c with pos := c.pos + width })

def u8 (c : Cursor) : Except Stop (UInt8 × Cursor) := do
  let (v, c) ← c.number 1
  return (UInt8.ofNat v, c)

def u16 (c : Cursor) : Except Stop (UInt16 × Cursor) := do
  let (v, c) ← c.number 2
  return (UInt16.ofNat v, c)

def u32 (c : Cursor) : Except Stop (UInt32 × Cursor) := do
  let (v, c) ← c.number 4
  return (UInt32.ofNat v, c)

def u64 (c : Cursor) : Except Stop (UInt64 × Cursor) := do
  let (v, c) ← c.number 8
  return (UInt64.ofNat v, c)

/-- Compares what was read with what is wanted; the bytes are consumed either way. -/
def compareRead (c : Cursor) (what want : Bytes) :
    Except Stop (Bytes × Cursor) → Except Stop PUnit × Cursor
  | .error e => (.error e, c)
  | .ok (got, c) => (if got = want then .ok ⟨⟩ else fail (.mismatch what got want), c)

/-- Reads as many bytes as `want` has and compares them with it. -/
def expect (c : Cursor) (what want : Bytes) : Except Stop PUnit × Cursor :=
  c.compareRead what want (c.bytes want.length)

/-- An unsigned LEB128 value and its length. -/
def uleb (c : Cursor) : Except Stop (UInt32 × Nat × Cursor) :=
  match Leb128.decodeU (c.slice c.pos Leb128.maxBytes) with
  | some (v, n) => .ok (v, n, { c with pos := c.pos + n })
  | none => fail (.leb128 c.pos)

/-- A signed LEB128 value and its length. -/
def sleb (c : Cursor) : Except Stop (Int32 × Nat × Cursor) :=
  match Leb128.decodeS (c.slice c.pos Leb128.maxBytes) with
  | some (v, n) => .ok (v, n, { c with pos := c.pos + n })
  | none => fail (.leb128 c.pos)

end Cursor

end Dalvik
