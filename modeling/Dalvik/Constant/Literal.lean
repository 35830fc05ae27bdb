import Dalvik.Constant.Descriptor
import Dalvik.Floating.Shortest
import Dalvik.Text.Escaped

/-!
# Primitive literals

Numbers, characters and truth values. The value is kept as 64 bits: sign-extended for integers, the
interchange bits for floating-point numbers.
-/

namespace Dalvik

inductive LiteralKind where
  | int
  | long
  | byte
  | short
  | char
  | float
  | double
  | boolean
  deriving DecidableEq, Repr, Inhabited

namespace LiteralKind

def all : List LiteralKind := [.int, .long, .byte, .short, .char, .float, .double, .boolean]

def number : LiteralKind → Nat
  | .int => 0
  | .long => 1
  | .byte => 2
  | .short => 3
  | .char => 4
  | .float => 5
  | .double => 6
  | .boolean => 7

def type : LiteralKind → Descriptor
  | .int => ⟨ascii "I"⟩
  | .long => ⟨ascii "J"⟩
  | .byte => ⟨ascii "B"⟩
  | .short => ⟨ascii "S"⟩
  | .char => ⟨ascii "C"⟩
  | .float => ⟨ascii "F"⟩
  | .double => ⟨ascii "D"⟩
  | .boolean => ⟨ascii "Z"⟩

def name (k : LiteralKind) : Bytes := k.type.sourceName

/-- The name of a kind number; a number that no kind has is shown as it is. -/
def nameOf (n : Nat) : Bytes :=
  match all[n]? with
  | some k => k.name
  | none => ascii "primitive(" ++ decimal n ++ ascii ")"

/-- The number of value bits that are stored. -/
def width : LiteralKind → Nat
  | .byte => 8
  | .short | .char => 16
  | .int | .float => 32
  | .long | .double => 64
  | .boolean => 1

end LiteralKind

structure Literal where
  kind : LiteralKind
  bits : UInt64
  deriving DecidableEq, Repr, Inhabited

namespace Literal

/-- The low `width` bits of a number, read as a signed one. -/
def signExtend (width : Nat) (n : Int) : Int := n.bmod (twoPow width)

def ofSigned (kind : LiteralKind) (n : Int) : Literal :=
  ⟨kind, UInt64.ofInt (signExtend kind.width n)⟩

def int (n : Int) : Literal := ofSigned .int n
def long (n : Int) : Literal := ofSigned .long n
def byte (n : Int) : Literal := ofSigned .byte n
def short (n : Int) : Literal := ofSigned .short n
def char (u : UInt16) : Literal := ⟨.char, u.toUInt64⟩
def float (bits : Nat) : Literal := ⟨.float, UInt64.ofNat (bits % twoPow 32)⟩
def double (bits : Nat) : Literal := ⟨.double, UInt64.ofNat bits⟩
def boolean (b : Bool) : Literal := ⟨.boolean, if b then 1 else 0⟩

/-- An integer literal as constant-loading instructions have it. -/
def ofOperand (n : Int) (wide : Bool) : Literal := if wide then long n else int n

variable (p : Literal)

/-- The value widened to 64 bits; raw bits for floating-point kinds. -/
def toLong : Int := p.bits.toInt64.toInt
def toInt : Int := wrap32 p.toLong
def toBool : Bool := p.bits != 0

/-- The stored bits of the kind's width. -/
def stored : Nat := p.bits.toNat % twoPow p.kind.width

def hexText (n : Int) : Bytes :=
  if n < 0 then ascii "-0x" ++ digits 16 n.natAbs else ascii "0x" ++ digits 16 n.natAbs

def text : Bytes :=
  match p.kind with
  | .int => hexText p.toLong
  | .long => hexText p.toLong ++ ascii "L"
  | .byte => hexText p.toLong ++ ascii "t"
  | .short => hexText p.toLong ++ ascii "s"
  | .char => Escaped.quoteChar p.bits.toUInt16
  | .float => Floating.Shortest.text Floating.single (p.bits.toNat % twoPow 32) ++ ascii "f"
  | .double => Floating.Shortest.text Floating.double p.bits.toNat
  | .boolean => if p.toBool then ascii "true" else ascii "false"

/-- By kind, then by value; a NaN is below every number and equal to itself. -/
def order (a b : Literal) : Ordering :=
  (compare a.kind.number b.kind.number).then <|
    match a.kind with
    | .float => compare (Floating.single.rank (a.bits.toNat % twoPow 32)) (Floating.single.rank (b.bits.toNat % twoPow 32))
    | .double => compare (Floating.double.rank a.bits.toNat) (Floating.double.rank b.bits.toNat)
    | _ => compare a.toLong b.toLong

/-! ## Reading -/

def digitsValue (base : Nat) : Nat → Bytes → Option Nat
  | acc, [] => some acc
  | acc, b :: r =>
    match Escaped.hexDigit? b with
    | some d => if d < base then digitsValue base (acc * base + d) r else none
    | none => none

/-- An unsigned number below `2 ^ width` made of at least one digit. -/
def unsigned? (base width : Nat) (s : Bytes) : Option Nat :=
  if s.isEmpty then none
  else
    match digitsValue base 0 s with
    | some n => if n < twoPow width then some n else none
    | none => none

def badNumber {α : Type} (text : Bytes) : Except Stop α := fail (.badSyntax (ascii "number") text)

def parseFloat (text body : Bytes) (negative single : Bool) : Except Stop Literal :=
  let f := if single then Floating.single else Floating.double
  let bits :=
    if body = ascii "Infinity" then some f.infinity
    else if body = ascii "NaN" then some f.nan
    else Floating.Read.bits f body
  match bits with
  | none => badNumber text
  | some b =>
    let b := if negative then f.negate b else b
    .ok (if single then float b else double b)

/-- Whether an unsuffixed number is a floating-point one. -/
def isFloatBody (body : Bytes) : Bool :=
  Bytes.containsAny (ascii ".eE") body || body == ascii "Infinity" || body == ascii "NaN"

/-- The value of a sign and magnitude in `width` bits. Unsigned hexadecimal may spell the full
range of the width. -/
def fit? (width : Nat) (isHex negative : Bool) (magnitude : Nat) : Option Int :=
  if isHex ∧ ¬ negative ∧ magnitude < twoPow width then some (signExtend width magnitude)
  else if negative ∧ magnitude ≤ twoPow (width - 1) then some (-(magnitude : Int))
  else if ¬ negative ∧ magnitude < twoPow (width - 1) then some magnitude
  else none

/-- The last letter of a number's body that says its kind, if it has one. -/
def suffixOf (isHex : Bool) (body : Bytes) : Option UInt8 :=
  match body.getLast? with
  | none => none
  | some b =>
    let c := Floating.Read.lower b
    if (ascii "tsl").contains c || (!isHex && (ascii "fd").contains c) then some c else none

/-- Reads a decimal or hexadecimal number with an optional sign and suffix. -/
def parseNumber (text : Bytes) : Except Stop Literal :=
  let (negative, body) := Floating.Read.takeSign text
  let isHex := 2 < body.length && Floating.Read.hasHexMark body
  let suffix := suffixOf isHex body
  let body := if suffix.isSome then body.dropLast else body
  if body.isEmpty then badNumber text
  else if suffix = some (Dalvik.byte 'f') ∨ suffix = some (Dalvik.byte 'd') ∨
      (¬ isHex ∧ suffix = none ∧ isFloatBody body) then
    parseFloat text body negative (suffix == some (Dalvik.byte 'f'))
  else
    match if isHex then unsigned? 16 64 (body.drop 2) else unsigned? 10 64 body with
    | none => badNumber text
    | some magnitude =>
      let kind : LiteralKind :=
        if suffix = some (Dalvik.byte 't') then .byte
        else if suffix = some (Dalvik.byte 's') then .short
        else if suffix = some (Dalvik.byte 'l') then .long
        else .int
      match fit? kind.width isHex negative magnitude with
      | some n => .ok (ofSigned kind n)
      | none => badNumber text

/-- Reads any literal. -/
def parse (text : Bytes) : Except Stop Literal :=
  if text = ascii "true" then .ok (boolean true)
  else if text = ascii "false" then .ok (boolean false)
  else if text.head? = some Escaped.singleQuote then
    match Escaped.unquoteChar text with
    | some u => .ok (char u)
    | none => fail (.badSyntax (ascii "char") text)
  else parseNumber text

end Literal

end Dalvik
