import Dalvik.Bytes

/-!
# Kinds of constants

The first five kinds have a section of their own in an image.
-/

namespace Dalvik

inductive Kind where
  | string
  | type
  | proto
  | field
  | method
  | primitive
  | null
  | callSite
  | methodHandle
  /-- A number that no kind has. -/
  | unknown (number : Int)
  deriving DecidableEq, Repr, Inhabited

namespace Kind

def all : List Kind :=
  [.string, .type, .proto, .field, .method, .primitive, .null, .callSite, .methodHandle]

def number : Kind → Int
  | .string => 0
  | .type => 1
  | .proto => 2
  | .field => 3
  | .method => 4
  | .primitive => 5
  | .null => 6
  | .callSite => 7
  | .methodHandle => 8
  | .unknown n => n

def ofNumber (n : Int) : Kind := (all.find? fun k => k.number == n).getD (.unknown n)

def name : Kind → Bytes
  | .string => ascii "string"
  | .type => ascii "type"
  | .proto => ascii "proto"
  | .field => ascii "field"
  | .method => ascii "method"
  | .primitive => ascii "primitive"
  | .null => ascii "null"
  | .callSite => ascii "call_site"
  | .methodHandle => ascii "method_handle"
  | .unknown n => ascii "kind(" ++ decimal n ++ ascii ")"

def ofName? (name : Bytes) : Option Kind := all.find? fun k => k.name == name

end Kind

end Dalvik
