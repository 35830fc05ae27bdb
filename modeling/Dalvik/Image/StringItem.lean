import Dalvik.Cell
import Dalvik.Text.Mutf8

/-!
# Strings of an image

A string is stored as its length in UTF-16 units, its bytes and a NUL. The bytes are kept as they
were read, so that a malformed string survives.
-/

namespace Dalvik

structure StringItem where
  length : Uleb := {}
  data : Bytes := []
  deriving DecidableEq, Repr, Inhabited

namespace StringItem

variable (s : StringItem)

def byteCount : Nat := s.length.size + s.data.length + 1

def pieces : List Bytes := [s.length.bytes, s.data, [0]]

def decode (c : Cursor) : Action StringItem Cursor := do
  let c ← Action.on (·.length) (fun length s => { s with length }) (Uleb.decode c)
  let rest := (c.data.extract c.pos c.data.size).toList
  match Bytes.indexOf? 0 rest with
  | none => Action.refuse (.malformed (ascii "string data") c.pos .unterminatedString)
  | some n =>
    let (data, c) ← c.bytes n
    modify fun s => { s with data }
    return (← c.u8).2

/-- The string, and what is wrong with it: a string of the wrong length is still given. -/
def value : Bytes × Option Failure :=
  match Mutf8.decode s.data with
  | .error (.failure e) => ([], some e)
  | .error (.fault _) => ([], none)
  | .ok v =>
    let n : Int := Mutf8.unitCount v
    (v, if n = s.length.get then none else some (.mutf8 (.length s.length.get n)))

def setValue (v : Bytes) : StringItem :=
  { length := s.length.set (Mutf8.unitCount v), data := Mutf8.encode v }

end StringItem

end Dalvik
