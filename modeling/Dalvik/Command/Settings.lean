import Dalvik.Constant.Literal
import Dalvik.Failure

/-!
# Settings

What can be set in a file of `key = value` lines. Keys are found whatever their case; a key that is
none of the settings is refused, so that a misspelled one is noticed.
-/

namespace Dalvik

structure Settings where
  verbose : Int := 0
  skipMagicCheck : Bool := false
  indent : Int := 4
  comments : Bool := true
  outDirectory : Bytes := ascii "."
  deriving DecidableEq, Repr, Inhabited

inductive SettingValue where
  | integer (n : Int)
  | boolean (b : Bool)
  | text (s : Bytes)
  deriving DecidableEq, Repr, Inhabited

namespace SettingValue

def typeName : SettingValue → Bytes
  | .integer _ => ascii "int64"
  | .boolean _ => ascii "bool"
  | .text _ => ascii "string"

private def isBlank (b : UInt8) : Bool := b = byte ' ' || b = byte '\t' || b = byte '\r'

/-- Whether nothing but a comment is left of a line. -/
private def atEnd (s : Bytes) : Bool :=
  match s.dropWhile isBlank with
  | [] => true
  | b :: _ => b = byte '#'

/-- The code point that some hexadecimal digits spell. -/
private def point? (s : Bytes) : Option Bytes := (Literal.unsigned? 16 32 s).map Utf8.encodePoint

/-- Reads up to the closing double quote, and gives what follows it. -/
private def quoted : Bytes → Option (Bytes × Bytes)
  | [] => none
  | [b] => if b = byte '"' then some ([], []) else none
  | a :: b :: rest =>
    let more (s : Bytes) (r : Option (Bytes × Bytes)) := r.map fun (t, rest) => (s ++ t, rest)
    if a = byte '"' then some ([], b :: rest)
    else if a ≠ byte '\\' then more [a] (quoted (b :: rest))
    else if b = byte 'n' then more [0x0a] (quoted rest)
    else if b = byte 't' then more [0x09] (quoted rest)
    else if b = byte 'r' then more [0x0d] (quoted rest)
    else if b = byte 'b' then more [0x08] (quoted rest)
    else if b = byte 'f' then more [0x0c] (quoted rest)
    else if b = byte '"' || b = byte '\\' then more [b] (quoted rest)
    else if b = byte 'u' then (point? (rest.take 4)).bind fun p => more p (quoted (rest.drop 4))
    else if b = byte 'U' then (point? (rest.take 8)).bind fun p => more p (quoted (rest.drop 8))
    else none
termination_by s => s.length
decreasing_by all_goals (simp only [List.length_cons, List.length_drop]; omega)

/-- A decimal number, or one with a base mark, with underscores between the digits. -/
private def integer? (s : Bytes) : Option Int :=
  let (negative, s) := Floating.Read.takeSign (s.filter (· ≠ byte '_'))
  let magnitude :=
    if (ascii "0x").isPrefixOf s then Literal.unsigned? 16 64 (s.drop 2)
    else if (ascii "0o").isPrefixOf s then Literal.unsigned? 8 64 (s.drop 2)
    else if (ascii "0b").isPrefixOf s then Literal.unsigned? 2 64 (s.drop 2)
    else Literal.unsigned? 10 64 s
  magnitude.map fun n => if negative then -(n : Int) else n

/-- Reads a value, which nothing but a comment may follow. -/
def parse? (s : Bytes) : Option SettingValue :=
  match s with
  | [] => none
  | c :: rest =>
    if c = byte '"' then
      (quoted rest).bind fun (t, rest) => if atEnd rest then some (.text t) else none
    else if c = byte '\'' then
      (Bytes.cut (byte '\'') rest).bind fun (t, rest) => if atEnd rest then some (.text t) else none
    else
      let word := s.takeWhile fun b => !isBlank b && b ≠ byte '#'
      if !atEnd (s.drop word.length) then none
      else if word = ascii "true" then some (.boolean true)
      else if word = ascii "false" then some (.boolean false)
      else (integer? word).map .integer

end SettingValue

namespace Settings

private def isKeyByte (b : UInt8) : Bool :=
  Floating.Read.isDigit b || (byte 'a' ≤ Floating.Read.lower b && Floating.Read.lower b ≤ byte 'z') ||
    b = byte '_' || b = byte '-'

/-- Reads a line: nothing if it is empty, else a key and a value. -/
private def parseLine (number : Nat) (line : Bytes) : Except Stop (Option (Bytes × SettingValue)) :=
  let blank (b : UInt8) : Bool := b = byte ' ' || b = byte '\t' || b = byte '\r'
  let s := line.dropWhile blank
  if s.isEmpty || s.head? = some (byte '#') then .ok none
  else
    let key := s.takeWhile isKeyByte
    match (s.drop key.length).dropWhile blank with
    | [] => fail (.badSetting number)
    | c :: rest =>
      match if c = byte '=' && !key.isEmpty then SettingValue.parse? (rest.dropWhile blank) else none with
      | some v => .ok (some (key, v))
      | none => fail (.badSetting number)

/-- Stores a value; nothing when there is no such setting. -/
private def store? (s : Settings) (number : Nat) (key : Bytes) (v : SettingValue) :
    Except Stop (Option Settings) :=
  let wrong (want : String) : Except Stop (Option Settings) :=
    fail (.settingType number key v.typeName (ascii want))
  let name := key.map Floating.Read.lower
  if name = ascii "verbose" then
    match v with
    | .integer n => .ok (some { s with verbose := n })
    | _ => wrong "integer"
  else if name = ascii "skip_magic_check" then
    match v with
    | .boolean b => .ok (some { s with skipMagicCheck := b })
    | _ => wrong "boolean"
  else if name = ascii "indent" then
    match v with
    | .integer n => .ok (some { s with indent := n })
    | _ => wrong "integer"
  else if name = ascii "comments" then
    match v with
    | .boolean b => .ok (some { s with comments := b })
    | _ => wrong "boolean"
  else if name = ascii "out_dir" then
    match v with
    | .text t => .ok (some { s with outDirectory := t })
    | _ => wrong "string"
  else .ok none

/-- Applies the lines of a file, and gives the keys that are no settings. -/
private def applyLines (s : Settings) : Nat → List Bytes → Except Stop (Settings × List Bytes)
  | _, [] => .ok (s, [])
  | number, line :: rest => do
    match ← parseLine number line with
    | none => applyLines s (number + 1) rest
    | some (key, v) =>
      match ← s.store? number key v with
      | some s => applyLines s (number + 1) rest
      | none =>
        let (s, unknown) ← applyLines s (number + 1) rest
        return (s, key :: unknown)

/-- The lines of a text. -/
private def lines : Bytes → List Bytes
  | [] => [[]]
  | c :: rest =>
    if c = byte '\n' then [] :: lines rest
    else
      match lines rest with
      | [] => [[c]]
      | l :: ls => (c :: l) :: ls

/-- Applies the text of a settings file. -/
def apply (s : Settings) (text : Bytes) : Except Stop Settings := do
  let (s, unknown) ← s.applyLines 1 (lines text)
  if unknown.isEmpty then return s else fail (.unknownSettings unknown)

end Settings

end Dalvik
