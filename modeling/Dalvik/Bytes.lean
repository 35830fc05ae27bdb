/-!
# Byte strings

All text and every encoding is a list of bytes, so positions and lengths count bytes. This module
has the searching and number-writing operations the other modules share.
-/

namespace Dalvik

abbrev Bytes := List UInt8

/-- The bytes of an ASCII literal. -/
def ascii (s : String) : Bytes := s.toList.map fun c => UInt8.ofNat c.toNat

/-- The byte of an ASCII character. -/
def byte (c : Char) : UInt8 := UInt8.ofNat c.toNat

namespace Bytes

/-- Everything before the first `c`, and everything after it. -/
def cut (c : UInt8) : Bytes → Option (Bytes × Bytes)
  | [] => none
  | b :: r => if b = c then some ([], r) else (cut c r).map fun (before, after) => (b :: before, after)

/-- Everything before the first occurrence of `sep`, and everything after it. -/
def cutAt (sep : Bytes) : Bytes → Option (Bytes × Bytes)
  | [] => if sep.isEmpty then some ([], []) else none
  | b :: r =>
    if sep.isPrefixOf (b :: r) then some ([], (b :: r).drop sep.length)
    else (cutAt sep r).map fun (before, after) => (b :: before, after)

def indexOf? (c : UInt8) (s : Bytes) : Option Nat := s.findIdx? (· == c)

/-- The position of the last `c`. -/
def lastIndexOf? (c : UInt8) (s : Bytes) : Option Nat :=
  (s.reverse.findIdx? (· == c)).map fun i => s.length - 1 - i

def containsAny (cs s : Bytes) : Bool := s.any cs.contains

def replace (old new : UInt8) (s : Bytes) : Bytes := s.map fun b => if b = old then new else b

/-- Drops `tail` from the end when it is there. -/
def dropSuffix (tail s : Bytes) : Bytes :=
  if tail.isSuffixOf s then s.take (s.length - tail.length) else s

/-- The first position at which two strings differ; the shorter length when one continues the
other; nothing when they are equal. -/
def diffStart : Bytes → Bytes → Option Nat
  | [], [] => none
  | [], _ :: _ => some 0
  | _ :: _, [] => some 0
  | a :: r, b :: s => if a = b then (diffStart r s).map (· + 1) else some 0

/-- Lexicographic order by byte. -/
def order : Bytes → Bytes → Ordering
  | [], [] => .eq
  | [], _ :: _ => .lt
  | _ :: _, [] => .gt
  | a :: r, b :: s => if a < b then .lt else if b < a then .gt else order r s

def join (sep : Bytes) (parts : List Bytes) : Bytes := sep.intercalate parts

def ofString (s : String) : Bytes := s.toUTF8.data.toList

end Bytes

/-! ## Numbers as text -/

def digits (base n : Nat) : Bytes := (Nat.toDigits base n).map fun c => UInt8.ofNat c.toNat

def padLeft (width : Nat) (fill : UInt8) (s : Bytes) : Bytes :=
  List.replicate (width - s.length) fill ++ s

/-- Sign and magnitude. -/
def signed (base : Nat) (n : Int) : Bytes :=
  if n < 0 then byte '-' :: digits base n.natAbs else digits base n.natAbs

def decimal (n : Int) : Bytes := signed 10 n

/-- Lower-case hexadecimal with a leading `-` for negative numbers. -/
def hex (n : Int) : Bytes := signed 16 n

/-- Hexadecimal of at least `width` characters, the sign counted. -/
def hexWide (width : Nat) (n : Int) : Bytes :=
  if n < 0 then byte '-' :: padLeft (width - 1) (byte '0') (digits 16 n.natAbs)
  else padLeft width (byte '0') (digits 16 n.natAbs)

/-- Two hexadecimal digits for each byte. -/
def hexBytes (s : Bytes) : Bytes := s.flatMap fun b => hexWide 2 b.toNat

/-! ## Fixed-width numbers -/

/-- The number of values that `n` bits have. -/
def twoPow (n : Nat) : Nat := Nat.pow 2 n

def total : List Nat → Nat
  | [] => 0
  | n :: rest => n + total rest

/-- Reduces to the signed 64-bit range. -/
def wrap64 (n : Int) : Int := n.bmod (twoPow 64)

/-- Reduces to the signed 32-bit range. -/
def wrap32 (n : Int) : Int := n.bmod (twoPow 32)

/-- The value of `width` bytes in little-endian order. -/
def littleEndian : Bytes → Nat
  | [] => 0
  | b :: r => b.toNat + 256 * littleEndian r

/-- The low `width` bytes of `n`, least significant first. -/
def toLittleEndian : Nat → Nat → Bytes
  | 0, _ => []
  | width + 1, n => UInt8.ofNat (n % 256) :: toLittleEndian width (n / 256)

end Dalvik
