import Dalvik.Text.Utf8

/-!
# UTF-16

Code points as 16-bit units and back. Units are what the string section is ordered by.
-/

namespace Dalvik.Utf16

def isSurrogate (u : Nat) : Bool := 0xd800 ≤ u && u ≤ 0xdfff
def isHigh (u : Nat) : Bool := 0xd800 ≤ u && u ≤ 0xdbff
def isLow (u : Nat) : Bool := 0xdc00 ≤ u && u ≤ 0xdfff

/-- One unit, or a surrogate pair beyond the basic plane. -/
def encodePoint (v : Nat) : List UInt16 :=
  if 0x10000 ≤ v ∧ v ≤ 0x10ffff then
    [UInt16.ofNat (0xd800 + (v - 0x10000) / 1024), UInt16.ofNat (0xdc00 + (v - 0x10000) % 1024)]
  else if v ≤ 0xffff ∧ ¬ isSurrogate v then [UInt16.ofNat v]
  else [UInt16.ofNat Utf8.replacement]

def encode (vs : List Nat) : List UInt16 := vs.flatMap encodePoint

/-- The units of a UTF-8 string. -/
def ofBytes (s : Bytes) : List UInt16 := encode (Utf8.points s)

/-- The code point a surrogate pair stands for. -/
def combine (high low : Nat) : Nat := 0x10000 + (high - 0xd800) * 1024 + (low - 0xdc00)

/-- Pairs become one code point and unpaired surrogates the replacement character. -/
def decode : List UInt16 → List Nat
  | [] => []
  | [a] => [if isSurrogate a.toNat then Utf8.replacement else a.toNat]
  | a :: b :: r =>
    if isHigh a.toNat && isLow b.toNat then combine a.toNat b.toNat :: decode r
    else (if isSurrogate a.toNat then Utf8.replacement else a.toNat) :: decode (b :: r)

/-- Lexicographic order by unit. -/
def order : List UInt16 → List UInt16 → Ordering
  | [], [] => .eq
  | [], _ :: _ => .lt
  | _ :: _, [] => .gt
  | a :: r, b :: s => if a < b then .lt else if b < a then .gt else order r s

end Dalvik.Utf16
