import Dalvik.Bytes

/-!
# Access flags

The words for access bits. Some bits mean different things on classes, fields and methods.
-/

namespace Dalvik.Assembly

inductive Target where
  | classHead
  | field
  | method
  deriving DecidableEq, Repr, Inhabited

structure AccessWord where
  bit : UInt32
  word : Bytes
  targets : List Target

namespace AccessWord

private def everywhere : List Target := [.classHead, .field, .method]

/-- The words in the order they are written. -/
def all : List AccessWord :=
  [⟨0x1, ascii "public", everywhere⟩,
    ⟨0x2, ascii "private", everywhere⟩,
    ⟨0x4, ascii "protected", everywhere⟩,
    ⟨0x8, ascii "static", everywhere⟩,
    ⟨0x10, ascii "final", everywhere⟩,
    ⟨0x20, ascii "synchronized", [.method]⟩,
    ⟨0x40, ascii "volatile", [.field]⟩,
    ⟨0x40, ascii "bridge", [.method]⟩,
    ⟨0x80, ascii "transient", [.field]⟩,
    ⟨0x80, ascii "varargs", [.method]⟩,
    ⟨0x100, ascii "native", [.method]⟩,
    ⟨0x200, ascii "interface", [.classHead]⟩,
    ⟨0x400, ascii "abstract", [.classHead, .method]⟩,
    ⟨0x800, ascii "strict", [.method]⟩,
    ⟨0x1000, ascii "synthetic", everywhere⟩,
    ⟨0x2000, ascii "annotation", [.classHead]⟩,
    ⟨0x4000, ascii "enum", [.classHead, .field]⟩,
    ⟨0x10000, ascii "constructor", [.method]⟩,
    ⟨0x20000, ascii "declared-synchronized", [.method]⟩]

end AccessWord

/-- A set of access bits as an image stores it. -/
structure Access where
  bits : UInt32 := 0
  deriving DecidableEq, Repr, Inhabited

namespace Access

def has (a : Access) (bits : UInt32) : Bool := a.bits &&& bits == bits

/-- Whether any of the bits is set. -/
def meets (a : Access) (bits : UInt32) : Bool := a.bits &&& bits != 0

/-- The words of the bits that have one, separated by blanks. -/
def text (a : Access) (t : Target) : Bytes :=
  Bytes.join (ascii " ")
    ((AccessWord.all.filter fun w => a.meets w.bit && w.targets.contains t).map (·.word))

def ofWord? (word : Bytes) (t : Target) : Option UInt32 :=
  (AccessWord.all.find? fun w => w.word == word && w.targets.contains t).map (·.bit)

def isStatic (a : Access) : Bool := a.has 0x8

/-- Static, private and constructor methods are kept apart from virtual ones. -/
def isDirect (a : Access) : Bool := a.meets (0x8 ||| 0x2 ||| 0x10000)

end Access

end Dalvik.Assembly
