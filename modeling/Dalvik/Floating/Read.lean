import Dalvik.Floating.Format

/-!
# Reading floating-point text

Decimal text with an optional exponent, hexadecimal text with a binary exponent, and the words for
infinity and NaN. Underscores may stand between digits. The value is rounded once, exactly.
-/

namespace Dalvik.Floating.Read

def lower (b : UInt8) : UInt8 := if byte 'A' ≤ b ∧ b ≤ byte 'Z' then b + 32 else b

def isDigit (b : UInt8) : Bool := byte '0' ≤ b && b ≤ byte '9'

def isHexLetter (b : UInt8) : Bool := byte 'a' ≤ lower b && lower b ≤ byte 'f'

def digitValue (b : UInt8) : Nat :=
  if isDigit b then b.toNat - 48 else (lower b).toNat - 87

def isSign (b : UInt8) : Bool := b = byte '+' || b = byte '-'

/-- The leading sign, if there is one, and the rest. -/
def takeSign : Bytes → Bool × Bytes
  | b :: r => if b = byte '-' then (true, r) else if b = byte '+' then (false, r) else (false, b :: r)
  | [] => (false, [])

def hasHexMark (s : Bytes) : Bool :=
  match s with
  | a :: b :: _ => a = byte '0' && lower b = byte 'x'
  | _ => false

/-- The digits of a mantissa so far: their value, whether there were any, and how many followed a
point, if there was a point. -/
structure Mantissa where
  value : Nat := 0
  seen : Bool := false
  places : Option Nat := none

/-- Reads digits, underscores and at most one point. -/
def mantissa (base : Nat) (m : Mantissa) : Bytes → Mantissa × Bytes
  | [] => (m, [])
  | b :: r =>
    if b = byte '_' then mantissa base m r
    else if b = byte '.' then
      if m.places.isSome then (m, b :: r) else mantissa base { m with places := some 0 } r
    else if isDigit b || (base == 16 && isHexLetter b) then
      mantissa base { value := m.value * base + digitValue b, seen := true, places := m.places.map (· + 1) } r
    else (m, b :: r)

/-- Exponent digits; beyond ten thousand further digits change nothing. -/
def exponentDigits (e : Nat) : Bytes → Nat × Bytes
  | [] => (e, [])
  | b :: r =>
    if b = byte '_' then exponentDigits e r
    else if isDigit b then exponentDigits (if e < 10000 then e * 10 + digitValue b else e) r
    else (e, b :: r)

/-- An exponent after its letter. -/
def exponent (s : Bytes) : Option (Int × Bytes) :=
  let (negative, s) := takeSign s
  match s with
  | b :: _ =>
    if isDigit b then
      let (e, rest) := exponentDigits 0 s
      some (if negative then -(e : Int) else e, rest)
    else none
  | [] => none

/-- What the last character before an underscore or the end was. -/
inductive Last where
  | start
  | digit
  | underscore
  | other
  deriving DecidableEq

def underscoresFrom (hex : Bool) : Last → Bytes → Bool
  | last, [] => last != .underscore
  | last, b :: r =>
    if isDigit b || (hex && isHexLetter b) then underscoresFrom hex .digit r
    else if b = byte '_' then last == .digit && underscoresFrom hex .underscore r
    else last != .underscore && underscoresFrom hex .other r

/-- Whether each underscore stands between digits, a base mark counting as one. -/
def underscoresOk (s : Bytes) : Bool :=
  let (_, s) := takeSign s
  match s with
  | a :: b :: r =>
    if a = byte '0' ∧ [byte 'b', byte 'o', byte 'x'].contains (lower b) then
      underscoresFrom (lower b == byte 'x') .digit r
    else underscoresFrom false .start s
  | _ => underscoresFrom false .start s

/-- The infinity and NaN words, whatever their case; only infinity may have a sign. -/
def word (f : Format) (s : Bytes) : Option Nat :=
  let (negative, rest) := takeSign s
  let rest := rest.map lower
  if rest = ascii "inf" ∨ rest = ascii "infinity" then
    some (if negative then f.negate f.infinity else f.infinity)
  else if s.map lower = ascii "nan" then some f.nan
  else none

/-- The value of `m * base ^ e` rounded; magnitudes far outside the format are settled without
computing the power. -/
def scaled (f : Format) (base : Nat) (m : Nat) (e : Int) : Option Nat :=
  if m = 0 then some 0
  else
    let size : Int := (Nat.log2 m : Int) + (if base = 2 then e else e * 3)
    if base = 10 ∧ 400 < e + (Nat.log2 m : Int) / 4 then none
    else if base = 10 ∧ (Nat.log2 m : Int) / 3 + 1 + e < -400 then some 0
    else if base = 2 ∧ 2000 < size then none
    else if base = 2 ∧ size < -2000 then some 0
    else f.round (m * Nat.pow base e.toNat) (Nat.pow base (-e).toNat)

/-- The bits of a number in the given format, or nothing when the text is malformed or the number
too large. -/
def bits (f : Format) (s : Bytes) : Option Nat :=
  match word f s with
  | some b => some b
  | none =>
    let (negative, body) := takeSign s
    let isHex := hasHexMark body && 2 < body.length
    let base := if isHex then 16 else 10
    let (m, rest) := mantissa base {} (if isHex then body.drop 2 else body)
    if !m.seen then none
    else
      let mark := if isHex then byte 'p' else byte 'e'
      let ending : Option (Int × Bytes) :=
        match rest with
        | b :: r => if lower b = mark then exponent r else if isHex then none else some (0, rest)
        | [] => if isHex then none else some (0, [])
      match ending with
      | some (e, []) =>
        if s.contains (byte '_') && !underscoresOk s then none
        else
          let places : Int := (m.places.getD 0 : Nat)
          let value := if isHex then scaled f 2 m.value (e - 4 * places) else scaled f 10 m.value (e - places)
          value.map fun v => if negative then f.negate v else v
      | _ => none

end Dalvik.Floating.Read
