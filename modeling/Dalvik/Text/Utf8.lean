import Dalvik.Bytes

/-!
# UTF-8

Code points are natural numbers. A byte that starts no well-formed sequence reads as the
replacement character on its own, so every byte string reads as a list of code points.
-/

namespace Dalvik.Utf8

/-- Stands for whatever cannot be represented. -/
def replacement : Nat := 0xfffd

def isContinuation (b : UInt8) : Bool := b.toNat / 64 = 2

/-- A two-, three- or four-byte sequence read from its payload bits, when it is the shortest form
of a code point that is not a surrogate. -/
def accept (value least : Nat) (size : Nat) : Option (Nat × Nat) :=
  if least ≤ value ∧ value ≤ 0x10ffff ∧ ¬ (0xd800 ≤ value ∧ value ≤ 0xdfff) then some (value, size)
  else none

/-- The code point at the front and its length, or nothing when the front is malformed. -/
def first? : Bytes → Option (Nat × Nat)
  | [] => none
  | a :: r =>
    if a < 0x80 then some (a.toNat, 1)
    else if a < 0xc2 then none
    else if a < 0xe0 then
      match r with
      | b :: _ => if isContinuation b then accept (a.toNat % 32 * 64 + b.toNat % 64) 0x80 2 else none
      | [] => none
    else if a < 0xf0 then
      match r with
      | b :: c :: _ =>
        if isContinuation b && isContinuation c then
          accept ((a.toNat % 16 * 64 + b.toNat % 64) * 64 + c.toNat % 64) 0x800 3
        else none
      | _ => none
    else if a < 0xf5 then
      match r with
      | b :: c :: d :: _ =>
        if isContinuation b && isContinuation c && isContinuation d then
          accept (((a.toNat % 8 * 64 + b.toNat % 64) * 64 + c.toNat % 64) * 64 + d.toNat % 64) 0x10000 4
        else none
      | _ => none
    else none

/-- A code point, or the byte that is part of none. -/
inductive Piece where
  | point (value : Nat)
  | stray (b : UInt8)
  deriving DecidableEq, Repr

def piecesFuel : Nat → Bytes → List Piece
  | 0, _ => []
  | _, [] => []
  | n + 1, b :: r =>
    match first? (b :: r) with
    | some (v, size) => .point v :: piecesFuel n (r.drop (size - 1))
    | none => .stray b :: piecesFuel n r

/-- The string cut into code points and stray bytes. -/
def pieces (s : Bytes) : List Piece := piecesFuel s.length s

/-- The code points of a string, with the replacement character for each stray byte. -/
def points (s : Bytes) : List Nat :=
  (pieces s).map fun
    | .point v => v
    | .stray _ => replacement

def isValid (s : Bytes) : Bool :=
  (pieces s).all fun
    | .point _ => true
    | .stray _ => false

/-- One code point; surrogates and numbers beyond Unicode become the replacement character. -/
def encodePoint (v : Nat) : Bytes :=
  let v := if 0x10ffff < v ∨ (0xd800 ≤ v ∧ v ≤ 0xdfff) then replacement else v
  if v < 0x80 then [UInt8.ofNat v]
  else if v < 0x800 then [UInt8.ofNat (0xc0 + v / 64), UInt8.ofNat (0x80 + v % 64)]
  else if v < 0x10000 then
    [UInt8.ofNat (0xe0 + v / 4096), UInt8.ofNat (0x80 + v / 64 % 64), UInt8.ofNat (0x80 + v % 64)]
  else
    [UInt8.ofNat (0xf0 + v / 262144), UInt8.ofNat (0x80 + v / 4096 % 64),
      UInt8.ofNat (0x80 + v / 64 % 64), UInt8.ofNat (0x80 + v % 64)]

def encode (vs : List Nat) : Bytes := vs.flatMap encodePoint

end Dalvik.Utf8
