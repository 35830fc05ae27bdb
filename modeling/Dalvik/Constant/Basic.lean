import Dalvik.Constant.Kind
import Dalvik.Constant.Literal
import Dalvik.Constant.Prototype

/-!
# Constants

The values that name things in an image. Two constants are the same thing exactly when they are
equal. A raw constant stands for an index that is not, or cannot be, resolved.
-/

namespace Dalvik

inductive Constant where
  | string (value : Bytes)
  | type (value : Descriptor)
  | proto (value : Prototype)
  | field (value : FieldRef)
  | method (value : MethodRef)
  | literal (value : Literal)
  | null
  | raw (kind : Kind) (index : Int)
  deriving DecidableEq, Repr, Inhabited

namespace Constant

def kind : Constant → Kind
  | .string _ => .string
  | .type _ => .type
  | .proto _ => .proto
  | .field _ => .field
  | .method _ => .method
  | .literal _ => .primitive
  | .null => .null
  | .raw k _ => k

/-- The text of an unresolved reference, such as `type@0x1f`. -/
def rawText (kind : Kind) (index : Int) : Bytes := kind.name ++ ascii "@0x" ++ hex index

/-- The source text form. -/
def text : Constant → Bytes
  | .string s => Escaped.quote s
  | .type k => k.name
  | .proto p => p.text
  | .field f => f.text
  | .method m => m.text
  | .literal p => p.text
  | .null => ascii "null"
  | .raw k i => rawText k i

/-- Order of constants of different shapes: by kind, then by text. -/
def foreignOrder (a b : Constant) : Ordering :=
  (compare a.kind.number b.kind.number).then (Bytes.order a.text b.text)

/-- The order of a constant against another: its own order among constants of its shape. -/
def orderAgainst (a b : Constant) : Ordering :=
  match a, b with
  | .string s, .string t => Utf16.order (Utf16.ofBytes s) (Utf16.ofBytes t)
  | .type k, .type l => k.order l
  | .proto p, .proto q => p.order q
  | .field f, .field g => f.order g
  | .method m, .method n => m.order n
  | .literal p, .literal q => p.order q
  | .null, .null => .eq
  | .raw k i, .raw l j => if k = l then compare i j else foreignOrder a b
  | _, _ => foreignOrder a b

/-- By kind, then by the order of the kind. -/
def order (a b : Constant) : Ordering :=
  if a.kind = b.kind then a.orderAgainst b else compare a.kind.number b.kind.number

/-! ## Reading -/

/-- Reads an unresolved reference back. -/
def parseRaw (text : Bytes) : Except Stop (Kind × Int) :=
  let refused := fail (.badSyntax (ascii "reference") text)
  match Bytes.cut (byte '@') text with
  | none => refused
  | some (name, number) =>
    if !(ascii "0x").isPrefixOf number then refused
    else
      match Literal.unsigned? 16 32 (number.drop 2), Kind.ofName? name with
      | some i, some k => .ok (k, i)
      | _, _ => refused

def parse (kind : Kind) (text : Bytes) : Except Stop Constant :=
  match kind with
  | .string =>
    match Escaped.unquote text with
    | some s => .ok (.string s)
    | none => fail (.badSyntax (ascii "string") text)
  | .type => return .type (← Descriptor.parse text)
  | .proto => return .proto (← Prototype.parse text)
  | .field => return .field (← FieldRef.parse text)
  | .method => return .method (← MethodRef.parse text)
  | .primitive => return .literal (← Literal.parse text)
  | .null => if text = ascii "null" then .ok .null else fail (.badSyntax (ascii "null") text)
  | k => fail (.badSyntax k.name text)

/-- Reads a reference operand: the kind's own form, or a raw reference of that kind. -/
def parseRef (kind : Kind) (text : Bytes) : Except Stop Constant :=
  match Bytes.cut (byte '@') text with
  | some (before, _) =>
    if before.isEmpty || Bytes.containsAny (ascii "\";") before then parse kind text
    else do
      let (k, i) ← parseRaw text
      if k = kind then return .raw k i else fail (.badSyntax kind.name text)
  | none => parse kind text

end Constant

end Dalvik
