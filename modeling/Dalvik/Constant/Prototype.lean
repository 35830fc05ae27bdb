import Dalvik.Constant.Descriptor

/-!
# Prototypes and members

A prototype keeps its parameters as one run of concatenated descriptors. Taking the run apart is a
fault when it is not one.
-/

namespace Dalvik

structure Prototype where
  result : Descriptor
  params : Bytes
  deriving DecidableEq, Repr, Inhabited

namespace Prototype

def badType (s : Bytes) : Except Stop (List Descriptor) := fail (.badSyntax (ascii "type") s)

def splitFuel : Nat → Bytes → Except Stop (List Descriptor)
  | _, [] => .ok []
  | 0, _ => .ok []
  | fuel + 1, s =>
    let dims := (s.takeWhile (· == Descriptor.bracket)).length
    match s.drop dims with
    | [] => badType s
    | a :: r =>
      let size? :=
        if a = Descriptor.letterL then (Bytes.indexOf? Descriptor.semicolon (a :: r)).map (dims + 1 + ·)
        else some (dims + 1)
      match size? with
      | none => badType s
      | some n =>
        if Descriptor.isValid (s.take n) then do
          return ⟨s.take n⟩ :: (← splitFuel fuel (s.drop n))
        else badType (s.take n)

/-- The descriptors of a run. -/
def split (s : Bytes) : Except Stop (List Descriptor) := splitFuel s.length s

def of (result : Descriptor) (params : List Descriptor) : Prototype :=
  ⟨result, params.flatMap Descriptor.name⟩

/-- Reads `(…)R`. -/
def parse (text : Bytes) : Except Stop Prototype :=
  let refused := fail (.badSyntax (ascii "proto") text)
  if text.length < 3 ∨ text.head? ≠ some (byte '(') then refused
  else
    match Bytes.cut (byte ')') (text.drop 1) with
    | none => refused
    | some (params, result) =>
      match split params with
      | .error _ => refused
      | .ok ts => if Descriptor.isValid result then .ok (of ⟨result⟩ ts) else refused

variable (p : Prototype)

def text : Bytes := byte '(' :: p.params ++ byte ')' :: p.result.name

def parameters : Except Stop (List Descriptor) :=
  match split p.params with
  | .error (.failure e) => fault (some e.message)
  | r => r

/-- The registers the parameters take. -/
def parameterRegisters : Except Stop Nat := do
  return total ((← p.parameters).map Descriptor.registers)

/-- The letters of the result and the parameters, every reference being `L`. -/
def shorty : Except Stop Bytes := do
  return p.result.shorty :: (← p.parameters).map Descriptor.shorty

/-- Every type the prototype names, the result first. -/
def types : Except Stop (List Descriptor) := do return p.result :: (← p.parameters)

def order (a b : Prototype) : Ordering := (a.result.order b.result).then (Bytes.order a.params b.params)

end Prototype

/-- A field of a class: `Lowner;->name:Type`. -/
structure FieldRef where
  owner : Descriptor
  name : Bytes
  type : Descriptor
  deriving DecidableEq, Repr, Inhabited

namespace FieldRef

def parse (text : Bytes) : Except Stop FieldRef :=
  let refused := fail (.badSyntax (ascii "field") text)
  match Bytes.cutAt (ascii "->") text with
  | none => refused
  | some (owner, rest) =>
    match Bytes.cut (byte ':') rest with
    | none => refused
    | some (name, type) =>
      if name.isEmpty || !Descriptor.isValid owner || !Descriptor.isValid type then refused
      else .ok ⟨⟨owner⟩, name, ⟨type⟩⟩

def text (f : FieldRef) : Bytes := f.owner.name ++ ascii "->" ++ f.name ++ byte ':' :: f.type.name

def order (a b : FieldRef) : Ordering :=
  ((a.owner.order b.owner).then (Bytes.order a.name b.name)).then (a.type.order b.type)

def renamePackage (f : FieldRef) (source target : Bytes) : FieldRef :=
  { f with owner := f.owner.renamePackage source target, type := f.type.renamePackage source target }

end FieldRef

/-- A method of a class: `Lowner;->name(…)R`. -/
structure MethodRef where
  owner : Descriptor
  name : Bytes
  proto : Prototype
  deriving DecidableEq, Repr, Inhabited

namespace MethodRef

def parse (text : Bytes) : Except Stop MethodRef :=
  let refused := fail (.badSyntax (ascii "method") text)
  match Bytes.cutAt (ascii "->") text with
  | none => refused
  | some (owner, rest) =>
    match Bytes.indexOf? (byte '(') rest with
    | none => refused
    | some paren =>
      if !Descriptor.isValid owner || paren == 0 then refused
      else
        match Prototype.parse (rest.drop paren) with
        | .error _ => refused
        | .ok proto => .ok ⟨⟨owner⟩, rest.take paren, proto⟩

def text (m : MethodRef) : Bytes := m.owner.name ++ ascii "->" ++ m.name ++ m.proto.text

def order (a b : MethodRef) : Ordering :=
  ((a.owner.order b.owner).then (Bytes.order a.name b.name)).then (a.proto.order b.proto)

def isConstructor (m : MethodRef) : Bool := m.name == ascii "<init>" || m.name == ascii "<clinit>"

/-- Renames in the owner and in every type of the prototype. -/
def renamePackage (m : MethodRef) (source target : Bytes) : Except Stop MethodRef := do
  let params ← m.proto.parameters
  return { m with
    owner := m.owner.renamePackage source target
    proto := Prototype.of (m.proto.result.renamePackage source target)
      (params.map fun t => t.renamePackage source target) }

end MethodRef

end Dalvik
