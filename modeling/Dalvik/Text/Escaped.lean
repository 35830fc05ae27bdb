import Dalvik.Floating.Read
import Dalvik.Text.Utf16

/-!
# Escaped literals

String and character literals of source text. Everything outside printable ASCII is written as
UTF-16 units in `\u` escapes, so a literal is printable ASCII whatever the string holds.
-/

namespace Dalvik.Escaped

def unitEscape (u : UInt16) : Bytes := ascii "\\u" ++ hexWide 4 u.toNat

/-- One code point inside a literal that ends with `quote`. -/
def escapePoint (quote : UInt8) (v : Nat) : Bytes :=
  if v = 0x0a then ascii "\\n"
  else if v = 0x09 then ascii "\\t"
  else if v = 0x0d then ascii "\\r"
  else if v = 0x08 then ascii "\\b"
  else if v = 0x0c then ascii "\\f"
  else if v = 0x5c then ascii "\\\\"
  else if v = quote.toNat then [byte '\\', quote]
  else if 0x20 ≤ v ∧ v < 0x7f then [UInt8.ofNat v]
  else (Utf16.encodePoint v).flatMap unitEscape

def doubleQuote : UInt8 := 0x22
def singleQuote : UInt8 := 0x27

/-- A string literal. -/
def quote (s : Bytes) : Bytes :=
  doubleQuote :: (Utf8.points s).flatMap (escapePoint doubleQuote) ++ [doubleQuote]

/-- A character literal. -/
def quoteChar (u : UInt16) : Bytes :=
  singleQuote ::
    (if Utf16.isSurrogate u.toNat then unitEscape u else escapePoint singleQuote u.toNat) ++ [singleQuote]

def hexDigit? (b : UInt8) : Option Nat :=
  if Floating.Read.isDigit b || Floating.Read.isHexLetter b then some (Floating.Read.digitValue b) else none

/-- The unit that a one-letter escape stands for. -/
def shortEscape? (b : UInt8) : Option UInt16 :=
  if b = byte 'n' then some 0x0a
  else if b = byte 't' then some 0x09
  else if b = byte 'r' then some 0x0d
  else if b = byte 'b' then some 0x08
  else if b = byte 'f' then some 0x0c
  else if b = byte '\\' ∨ b = doubleQuote ∨ b = singleQuote then some b.toUInt16
  else none

/-- The unit at the front of the inside of a literal, escaped or not, and what follows. -/
def nextUnits : Bytes → Option (List UInt16 × Bytes)
  | [] => none
  | b :: r =>
    if b = byte '\\' then
      match r with
      | [] => none
      | e :: r =>
        if e = byte 'u' then
          match r with
          | a :: b :: c :: d :: r => do
            let u := ((← hexDigit? a) * 16 + (← hexDigit? b)) * 16
            let u := (u + (← hexDigit? c)) * 16 + (← hexDigit? d)
            return ([UInt16.ofNat u], r)
          | _ => none
        else (shortEscape? e).map fun u => ([u], r)
    else
      (Utf8.first? (b :: r)).map fun (v, size) => (Utf16.encodePoint v, r.drop (size - 1))

def unescapeFuel : Nat → Bytes → Option (List UInt16)
  | _, [] => some []
  | 0, _ => none
  | fuel + 1, s => do
    let (us, rest) ← nextUnits s
    return us ++ (← unescapeFuel fuel rest)

/-- The units of the inside of a literal. -/
def unescape (s : Bytes) : Option (List UInt16) := unescapeFuel s.length s

/-- The text between matching first and last bytes that `p` accepts. -/
def inside (p : UInt8 → Bool) (s : Bytes) : Option Bytes :=
  match s with
  | a :: r => if 2 ≤ s.length ∧ p a ∧ r.getLast? = some a then some r.dropLast else none
  | [] => none

/-- Reads a literal in single or double quotes. -/
def unquote (s : Bytes) : Option Bytes := do
  let body ← inside (fun q => q = doubleQuote || q = singleQuote) s
  return Utf8.encode (Utf16.decode (← unescape body))

/-- Reads a character literal: exactly one unit in single quotes. -/
def unquoteChar (s : Bytes) : Option UInt16 := do
  let body ← inside (· = singleQuote) s
  match ← unescape body with
  | [u] => return u
  | _ => none

end Dalvik.Escaped
