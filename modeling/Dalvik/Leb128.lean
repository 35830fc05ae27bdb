import Dalvik.Bytes

/-!
# LEB128

Numbers in groups of seven bits, least significant first, with the top bit set on every byte but
the last. Values have 32 bits, so at most five bytes are read.
-/

namespace Dalvik.Leb128

def maxBytes : Nat := 5

/-- The payload bits up to the first byte with a clear top bit, within `limit` bytes: their value,
the number of bytes and the last byte. -/
def groups : Nat → Bytes → Option (Nat × Nat × UInt8)
  | 0, _ => none
  | _, [] => none
  | limit + 1, b :: r =>
    if b < 0x80 then some (b.toNat, 1, b)
    else (groups limit r).map fun (v, n, last) => (b.toNat % 128 + 128 * v, n + 1, last)

/-- An unsigned value and the number of bytes it took. -/
def decodeU (data : Bytes) : Option (UInt32 × Nat) :=
  match groups maxBytes data with
  | some (v, n, _) => if v < twoPow 32 then some (UInt32.ofNat v, n) else none
  | none => none

/-- A signed value, extended from bit 6 of its last byte, and the number of bytes it took. -/
def decodeS (data : Bytes) : Option (Int32 × Nat) :=
  match groups maxBytes data with
  | some (v, n, last) =>
    let wide : Int := if last.toNat / 64 % 2 = 1 then v - twoPow (7 * n) else v
    some (Int32.ofInt wide, n)
  | none => none

/-- The groups of a natural number, at most `limit` of them. -/
def natGroups : Nat → Nat → Bytes
  | 0, _ => []
  | limit + 1, v =>
    if v < 128 then [UInt8.ofNat v] else UInt8.ofNat (v % 128 + 128) :: natGroups limit (v / 128)

def encodeU (v : UInt32) : Bytes := natGroups maxBytes v.toNat

/-- The groups of an integer, ending where the rest is the sign of the last group. -/
def intGroups : Nat → Int → Bytes
  | 0, _ => []
  | limit + 1, v =>
    let low := (v % 128).toNat
    let rest := v / 128
    if (rest = 0 ∧ low < 64) ∨ (rest = -1 ∧ 64 ≤ low) then [UInt8.ofNat low]
    else UInt8.ofNat (low + 128) :: intGroups limit rest

def encodeS (v : Int32) : Bytes := intGroups maxBytes v.toInt

/-- The number of groups of seven bits of `v`, at least one. -/
def groupCount : Nat → Nat → Nat
  | 0, _ => 1
  | limit + 1, v => if v < 128 then 1 else groupCount limit (v / 128) + 1

def sizeU (v : UInt32) : Nat := groupCount maxBytes v.toNat

def sizeS (v : Int32) : Nat := (encodeS v).length

end Dalvik.Leb128
