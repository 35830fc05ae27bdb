import Dalvik.Constant.Basic

/-!
# Pool

Constants of the five section kinds, each once and numbered in the order they came. Adding a
compound constant adds first what it is built from, so the pool is closed under references.
-/

namespace Dalvik

structure Pool where
  strings : Array Bytes := #[]
  types : Array Descriptor := #[]
  protos : Array Prototype := #[]
  fields : Array FieldRef := #[]
  methods : Array MethodRef := #[]
  deriving DecidableEq, Repr, Inhabited

namespace Pool

/-- The index of an element, added at the end if it is missing. -/
def addTo {α : Type} [DecidableEq α] (xs : Array α) (x : α) : Nat × Array α :=
  match xs.idxOf? x with
  | some i => (i, xs)
  | none => (xs.size, xs.push x)

def internString (p : Pool) (s : Bytes) : Nat × Pool :=
  let (i, strings) := addTo p.strings s
  (i, { p with strings })

def internType (p : Pool) (k : Descriptor) : Nat × Pool :=
  let (_, p) := p.internString k.name
  let (i, types) := addTo p.types k
  (i, { p with types })

def internProto (p : Pool) (k : Prototype) : Except Stop (Nat × Pool) := do
  let (_, p) := p.internString (← k.shorty)
  let p := (← k.types).foldl (fun p t => (p.internType t).2) p
  let (i, protos) := addTo p.protos k
  return (i, { p with protos })

def internField (p : Pool) (f : FieldRef) : Nat × Pool :=
  let (_, p) := p.internType f.owner
  let (_, p) := p.internString f.name
  let (_, p) := p.internType f.type
  let (i, fields) := addTo p.fields f
  (i, { p with fields })

def internMethod (p : Pool) (m : MethodRef) : Except Stop (Nat × Pool) := do
  let (_, p) := p.internType m.owner
  let (_, p) := p.internString m.name
  let (_, p) ← p.internProto m.proto
  let (i, methods) := addTo p.methods m
  return (i, { p with methods })

/-- Adds a constant with all it depends on, and gives its index; -1 for kinds without a section. -/
def intern (p : Pool) : Constant → Except Stop (Int × Pool)
  | .string s => let (i, p) := p.internString s; .ok (i, p)
  | .type k => let (i, p) := p.internType k; .ok (i, p)
  | .proto k => do let (i, p) ← p.internProto k; return (i, p)
  | .field f => let (i, p) := p.internField f; .ok (i, p)
  | .method m => do let (i, p) ← p.internMethod m; return (i, p)
  | _ => .ok (-1, p)

/-- The index of a constant that is already there; a raw constant has its own. -/
def indexOf? (p : Pool) : Constant → Option Int
  | .string s => (p.strings.idxOf? s).map Int.ofNat
  | .type k => (p.types.idxOf? k).map Int.ofNat
  | .proto k => (p.protos.idxOf? k).map Int.ofNat
  | .field f => (p.fields.idxOf? f).map Int.ofNat
  | .method m => (p.methods.idxOf? m).map Int.ofNat
  | .raw _ i => some i
  | _ => none

def size (p : Pool) : Kind → Nat
  | .string => p.strings.size
  | .type => p.types.size
  | .proto => p.protos.size
  | .field => p.fields.size
  | .method => p.methods.size
  | _ => 0

def nth? {α : Type} (xs : Array α) (i : Int) : Option α := if i < 0 then none else xs[i.toNat]?

def resolve {α : Type} (kind : Kind) (i : Int) (found : Option α) : Except Stop α :=
  match found with
  | some x => .ok x
  | none => fail (.unresolved kind.name (Constant.rawText kind i))

def string (p : Pool) (i : Int) : Except Stop Bytes := resolve .string i (nth? p.strings i)
def type (p : Pool) (i : Int) : Except Stop Descriptor := resolve .type i (nth? p.types i)
def proto (p : Pool) (i : Int) : Except Stop Prototype := resolve .proto i (nth? p.protos i)
def field (p : Pool) (i : Int) : Except Stop FieldRef := resolve .field i (nth? p.fields i)
def method (p : Pool) (i : Int) : Except Stop MethodRef := resolve .method i (nth? p.methods i)

/-- The constant at an index of a kind's section. -/
def lookup (p : Pool) (kind : Kind) (i : Int) : Except Stop Constant :=
  match kind with
  | .string => return .string (← p.string i)
  | .type => return .type (← p.type i)
  | .proto => return .proto (← p.proto i)
  | .field => return .field (← p.field i)
  | .method => return .method (← p.method i)
  | k => resolve k i none

/-- The constants of a section in index order. -/
def entries (p : Pool) : Kind → List Constant
  | .string => p.strings.toList.map .string
  | .type => p.types.toList.map .type
  | .proto => p.protos.toList.map .proto
  | .field => p.fields.toList.map .field
  | .method => p.methods.toList.map .method
  | _ => []

/-- A pool with the given constants interned in order. -/
def ofConstants (ks : List Constant) : Except Stop Pool :=
  ks.foldlM (fun p k => return (← p.intern k).2) {}

end Pool

end Dalvik
