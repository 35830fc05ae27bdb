import Dalvik.Bytes

/-!
# Binary floating point

A finite number is a significand times a power of two. Bits are natural numbers, and rounding is
done exactly on fractions of naturals.
-/

namespace Dalvik.Floating

/-- A binary interchange format: `precision` bits of significand, the first of them implicit, and
`exponentBits` bits of exponent. -/
structure Format where
  precision : Nat
  exponentBits : Nat
  deriving DecidableEq, Repr

def single : Format := ⟨24, 8⟩
def double : Format := ⟨53, 11⟩

namespace Format

variable (f : Format)

/-- The first significand with the implicit bit. -/
def hidden : Nat := twoPow (f.precision - 1)

/-- The largest biased exponent, kept for infinities and NaN. -/
def top : Nat := twoPow f.exponentBits - 1

/-- The exponent of the last place of the smallest numbers. -/
def least : Int := 3 - twoPow (f.exponentBits - 1) - f.precision

def signBit : Nat := f.hidden * twoPow f.exponentBits
def infinity : Nat := f.top * f.hidden
def isNegative (bits : Nat) : Bool := f.signBit ≤ bits
def magnitude (bits : Nat) : Nat := bits % f.signBit
def isNaN (bits : Nat) : Bool := f.infinity < f.magnitude bits
def isInfinite (bits : Nat) : Bool := f.magnitude bits = f.infinity

/-- The NaN that the word stands for; in the wider format its last bit is set. -/
def nan : Nat := f.infinity + f.hidden / 2 + if f = double then 1 else 0

/-- The other sign. -/
def negate (bits : Nat) : Nat := if f.isNegative bits then bits - f.signBit else bits + f.signBit

/-- The significand and the exponent of its last place. -/
def parts (bits : Nat) : Nat × Int :=
  let biased := f.magnitude bits / f.hidden
  let fraction := f.magnitude bits % f.hidden
  if biased = 0 then (fraction, f.least) else (fraction + f.hidden, biased - 1 + f.least)

/-- Position among the numbers of the format: NaN below everything, and the two zeros together. -/
def rank (bits : Nat) : Int :=
  if f.isNaN bits then -(f.signBit : Int)
  else if f.isNegative bits then -(f.magnitude bits : Int) else f.magnitude bits

/-- The bits of `m * 2 ^ e`, where `e` is the exponent of the last place of a significand that is
within the precision. -/
def assemble (m : Nat) (e : Int) : Nat :=
  if m < f.hidden then m else (e - f.least + 1).toNat * f.hidden + (m - f.hidden)

/-- The nearest number to the positive fraction `num / den`, a half going to the even significand;
nothing when it is too large. -/
def round (num den : Nat) : Option Nat :=
  if num = 0 then some 0
  else
    let start : Int := (Nat.log2 num : Int) - Nat.log2 den - f.precision
    let quotient (e : Int) : Nat × Nat × Nat :=
      let n := num * twoPow (-e).toNat
      let d := den * twoPow e.toNat
      (n / d, n % d, d)
    let e := max f.least (if (quotient start).1 < twoPow f.precision then start else start + 1)
    let (q, r, d) := quotient e
    let m := if d < 2 * r ∨ (2 * r = d ∧ q % 2 = 1) then q + 1 else q
    let (m, e) := if m = twoPow f.precision then (f.hidden, e + 1) else (m, e)
    let bits := f.assemble m e
    if bits < f.infinity then some bits else none

/-- The number in another format: rounded when it is narrower, and a NaN keeps its sign and the
leading bits of its payload. -/
def convert (g : Format) (bits : Nat) : Nat :=
  let sign := if f.isNegative bits then g.signBit else 0
  sign +
    if f.isNaN bits then
      let payload := f.magnitude bits % f.hidden
      let payload := if f.precision ≤ g.precision then payload * twoPow (g.precision - f.precision)
        else payload / twoPow (f.precision - g.precision)
      g.infinity + (if payload < g.hidden / 2 then payload + g.hidden / 2 else payload)
    else if f.isInfinite bits then g.infinity
    else
      let (m, e) := f.parts bits
      (g.round (m * twoPow e.toNat) (twoPow (-e).toNat)).getD g.infinity

end Format

end Dalvik.Floating
