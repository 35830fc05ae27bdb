import Dalvik.Floating.Format

/-!
# Shortest decimals

The fewest digits that read back as the same number, and of those the nearest to it. A number is
written positionally when its exponent lies between -4 and 5, and with an exponent of at least two
digits otherwise.
-/

namespace Dalvik.Floating.Shortest

/-- `a * 2 ^ e` as a fraction. -/
def fraction (a : Nat) (e : Int) : Nat × Nat := (a * twoPow e.toNat, twoPow (-e).toNat)

/-- Whether `d * 10 ^ k` is at most `a / b`. -/
def atMost (d : Nat) (k : Int) (a b : Nat) : Bool := d * Nat.pow 10 k.toNat * b ≤ a * Nat.pow 10 (-k).toNat

/-- The first exponent from `k` on whose successor's power of ten exceeds `a / b`. -/
def climb : Nat → Int → Nat → Nat → Int
  | 0, k, _, _ => k
  | fuel + 1, k, a, b => if atMost 1 (k + 1) a b then climb fuel (k + 1) a b else k

/-- The exponent of the leading decimal digit of `a / b`. -/
def leading (a b : Nat) : Int :=
  climb 4 (((Nat.log2 a : Int) - Nat.log2 b - 1) * 30103 / 100000 - 1) a b

/-- The reals that round to a number: four times its value and the ends of the interval, over a
common power of two, and whether the ends belong to it. -/
structure Interval where
  value : Nat
  low : Nat
  high : Nat
  exponent : Int
  closed : Bool

def interval (f : Format) (bits : Nat) : Interval :=
  let (m, e) := f.parts bits
  { value := 4 * m
    low := if m = f.hidden ∧ f.least < e then 4 * m - 1 else 4 * m - 2
    high := 4 * m + 2
    exponent := e - 2
    closed := m % 2 = 0 }

/-- Whether `d * 10 ^ k` reads back as the number. -/
def Interval.contains (i : Interval) (d : Nat) (k : Int) : Bool :=
  let (low, den) := fraction i.low i.exponent
  let (high, _) := fraction i.high i.exponent
  let n := d * Nat.pow 10 k.toNat * den
  let scale := Nat.pow 10 (-k).toNat
  if i.closed then low * scale ≤ n && n ≤ high * scale else low * scale < n && n < high * scale

/-- The better of the two neighbours of the value on the grid of multiples of `10 ^ k`, if one of
them reads back: the nearer, and of two equally near ones the even. -/
def Interval.onGrid (i : Interval) (k : Int) : Option Nat :=
  let (num, den) := fraction i.value i.exponent
  let n := num * Nat.pow 10 (-k).toNat
  let d := den * Nat.pow 10 k.toNat
  let down := n / d
  let above := 2 * (n % d)
  match i.contains down k, i.contains (down + 1) k with
  | true, true => some (if above < d ∨ (above = d ∧ down % 2 = 0) then down else down + 1)
  | true, false => some down
  | false, true => some (down + 1)
  | false, false => none

/-- The first of the grids with `n`, `n + 1`, … digits on which a neighbour reads back. -/
def Interval.search (i : Interval) (lead : Int) : Nat → Nat → Nat × Int
  | 0, _ => (0, 0)
  | fuel + 1, n =>
    let k := lead - n + 1
    match i.onGrid k with
    | some d => (d, k)
    | none => i.search lead fuel (n + 1)

def trimZeros : Nat → Nat → Int → Nat × Int
  | 0, d, k => (d, k)
  | fuel + 1, d, k => if d % 10 = 0 then trimZeros fuel (d / 10) (k + 1) else (d, k)

/-- The digits of a positive finite number and the exponent of the first of them. -/
def decimal (f : Format) (bits : Nat) : Bytes × Int :=
  let i := interval f bits
  let (num, den) := fraction i.value i.exponent
  let (d, k) := i.search (leading num den) 20 1
  let (d, k) := trimZeros 20 d k
  let ds := digits 10 d
  (ds, k + ds.length - 1)

private def zeros (n : Nat) : Bytes := List.replicate n (byte '0')

/-- Digits with a point in their place; whole numbers have none. -/
def positional (ds : Bytes) (e : Int) : Bytes :=
  if e < 0 then ascii "0." ++ zeros (-e - 1).toNat ++ ds
  else
    let whole := ds.take (e.toNat + 1)
    let rest := ds.drop (e.toNat + 1)
    whole ++ zeros (e.toNat + 1 - whole.length) ++ if rest.isEmpty then [] else byte '.' :: rest

def scientific (ds : Bytes) (e : Int) : Bytes :=
  ds.take 1 ++ (if ds.length ≤ 1 then [] else byte '.' :: ds.drop 1) ++
    ascii (if e < 0 then "e-" else "e+") ++ padLeft 2 (byte '0') (digits 10 e.natAbs)

/-- The text of a number; a whole one written positionally ends in `.0`. -/
def text (f : Format) (bits : Nat) : Bytes :=
  if f.isNaN bits then ascii "NaN"
  else
    let sign := if f.isNegative bits then ascii "-" else []
    if f.isInfinite bits then sign ++ ascii "Infinity"
    else if f.magnitude bits = 0 then sign ++ ascii "0.0"
    else
      let (ds, e) := decimal f (f.magnitude bits)
      if e < -4 ∨ 6 ≤ e then sign ++ scientific ds e
      else
        let s := positional ds e
        sign ++ if s.contains (byte '.') then s else s ++ ascii ".0"

end Dalvik.Floating.Shortest
