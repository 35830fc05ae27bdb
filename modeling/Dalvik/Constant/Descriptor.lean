import Dalvik.Failure

/-!
# Type descriptors

A type is named by its binary descriptor: `I`, `[J`, `Ljava/lang/String;`. Nothing checks a
descriptor when it is made from bytes, so every operation says what it does to any text.
-/

namespace Dalvik

structure Descriptor where
  name : Bytes
  deriving DecidableEq, Repr, Inhabited

namespace Descriptor

def bracket : UInt8 := byte '['
def slash : UInt8 := byte '/'
def semicolon : UInt8 := byte ';'
def dollar : UInt8 := byte '$'
def letterL : UInt8 := byte 'L'

/-- The letters of the primitive types and the words source text has for them. -/
def primitives : List (UInt8 × Bytes) :=
  [(byte 'B', ascii "byte"), (byte 'C', ascii "char"), (byte 'D', ascii "double"),
    (byte 'F', ascii "float"), (byte 'I', ascii "int"), (byte 'J', ascii "long"),
    (byte 'S', ascii "short"), (byte 'V', ascii "void"), (byte 'Z', ascii "boolean")]

def sourceWord? (letter : UInt8) : Option Bytes := primitives.lookup letter

/-- The type of a primitive letter. -/
def primitive? (letter : UInt8) : Option Descriptor :=
  (sourceWord? letter).map fun _ => ⟨[letter]⟩

def ofSourceWord? (word : Bytes) : Option Descriptor :=
  (primitives.find? fun p => p.2 == word).map fun p => ⟨[p.1]⟩

/-- The shape of a binary descriptor: a primitive letter or `L…;` after any number of brackets. -/
def isValid (d : Bytes) : Bool :=
  let rest := d.dropWhile (· == bracket)
  match rest with
  | [c] => (sourceWord? c).isSome && (rest.length == d.length || c != byte 'V')
  | a :: _ :: _ :: _ =>
    a == letterL && rest.getLast? == some semicolon && !((rest.drop 1).dropLast.contains semicolon)
  | _ => false

variable (k : Descriptor)

def isZero : Bool := k.name.isEmpty

/-- The type's letter in a short-form prototype. -/
def shorty : UInt8 :=
  match k.name with
  | [c] => c
  | _ => letterL

def dimensions : Nat := (k.name.takeWhile (· == bracket)).length

/-- The name without its brackets. -/
def element : Bytes := k.name.dropWhile (· == bracket)

/-- The element type with every dimension removed. -/
def elementType : Descriptor := ⟨k.element⟩

def brackets (n : Nat) : Bytes := List.replicate n bracket

/-- An array of the given number of dimensions over the element type; a negative number other than
the type's own is a fault. -/
def withDimensions (n : Int) : Except Stop Descriptor :=
  if n = k.dimensions then .ok k
  else if n < 0 then fault none
  else .ok ⟨brackets n.toNat ++ k.element⟩

def isArray : Bool := 1 < k.name.length && k.name.head? == some bracket

/-- A plain class, not an array. -/
def isDefinition : Bool :=
  2 < k.name.length && k.name.head? == some letterL && k.name.getLast? == some semicolon

def isReference : Bool := k.isArray || k.isDefinition

def isPrimitive : Bool :=
  match k.name with
  | [c] => (sourceWord? c).isSome
  | _ => false

def isVoid : Bool := k.name == ascii "V"

/-- Long and double, which take two registers. -/
def isWide : Bool := k.name == ascii "J" || k.name == ascii "D"

def registers : Nat := if k.isVoid then 0 else if k.isWide then 2 else 1

/-! ## Source names -/

/-- The type as source text spells it; a name of no known shape stays as it is. -/
def sourceName : Bytes :=
  let suffix := (List.replicate k.dimensions (ascii "[]")).flatten
  match k.element with
  | [c] =>
    match sourceWord? c with
    | some word => word ++ suffix
    | none => k.name
  | a :: r =>
    if a = letterL then Bytes.replace slash (byte '.') (Bytes.dropSuffix [semicolon] r) ++ suffix
    else k.name
  | [] => k.name

/-- Removes `[]` pairs from the end and counts them. -/
def stripDimensions : Nat → Bytes → Nat × Bytes
  | 0, s => (0, s)
  | fuel + 1, s =>
    if (ascii "[]").isSuffixOf s then
      let (n, base) := stripDimensions fuel (s.take (s.length - 2))
      (n + 1, base)
    else (0, s)

/-- Reads a source name such as `java.lang.String[]`. -/
def parseSource (name : Bytes) : Except Stop Descriptor :=
  let (dims, base) := stripDimensions name.length name
  if base.isEmpty || Bytes.containsAny (ascii "[]") base then fail (.badSyntax (ascii "type") name)
  else
    let k := (ofSourceWord? base).getD ⟨letterL :: Bytes.replace (byte '.') slash base ++ [semicolon]⟩
    k.withDimensions dims

/-- Reads a binary descriptor or a source name. -/
def parse (name : Bytes) : Except Stop Descriptor :=
  let refused := fail (.badSyntax (ascii "type") name)
  match name with
  | [] => refused
  | a :: r =>
    if Bytes.containsAny (ascii ">(@") r then refused
    else
      match if r.isEmpty then primitive? a else none with
      | some k => .ok k
      | none =>
        if r.contains slash && a != slash || r.contains semicolon && a != semicolon || a == bracket then
          let d := Bytes.replace (byte '.') slash name
          if isValid d then .ok ⟨d⟩ else refused
        else parseSource name

/-! ## Classes and packages -/

/-- The element name of a class type, without the leading letter. -/
def classBody? : Option Bytes :=
  match k.element with
  | a :: b :: r => if a = letterL then some (b :: r) else none
  | _ => none

/-- The class name without package and marks. -/
def simpleName : Bytes :=
  match k.classBody? with
  | none => k.element
  | some body =>
    let base := Bytes.dropSuffix [semicolon] body
    match Bytes.lastIndexOf? slash base with
    | some i => base.drop (i + 1)
    | none => base

/-- What follows the last dollar sign of the simple name, when something does and the sign is not
the first character. -/
def innerName? : Option Bytes :=
  match Bytes.lastIndexOf? dollar k.simpleName with
  | some i => if 0 < i ∧ i < k.simpleName.length - 1 then some (k.simpleName.drop (i + 1)) else none
  | none => none

def isInner : Bool := !k.isPrimitive && k.innerName?.isSome

/-- The binary package, such as `Ljava/lang/`; `L` for the root package and nothing for types that
are not classes. -/
def package : Bytes :=
  match k.classBody? with
  | none => []
  | some _ =>
    match Bytes.lastIndexOf? slash k.element with
    | some i => if 0 < i then k.element.take (i + 1) else [letterL]
    | none => [letterL]

def packageSource : Bytes :=
  if k.package.length < 3 then []
  else Bytes.replace slash (byte '.') (k.package.drop 1).dropLast

private def parentPackages : Nat → Bytes → List Bytes
  | 0, _ => []
  | fuel + 1, pkg =>
    if 1 < pkg.length ∧ pkg.getLast? = some slash then
      match Bytes.lastIndexOf? slash pkg.dropLast with
      | some i => pkg :: parentPackages fuel (pkg.take (i + 1))
      | none => [pkg]
    else []

/-- The package and its parents, innermost first. -/
def packages : List Bytes := parentPackages k.package.length k.package

/-- A package given in binary or dotted form, in binary form. -/
def normalizePackage (pkg : Bytes) : Bytes :=
  match pkg with
  | [] => [letterL]
  | a :: _ =>
    if pkg = [letterL] then [letterL]
    else
      let pkg := if a = letterL then pkg else letterL :: Bytes.replace (byte '.') slash pkg
      if pkg.getLast? = some slash then pkg else pkg ++ [slash]

/-- Moves a class, or an array of it, into another package. -/
def withPackage (pkg : Bytes) : Descriptor :=
  let pkg := normalizePackage pkg
  if !k.elementType.isDefinition || pkg == k.package then k
  else ⟨brackets k.dimensions ++ pkg ++ k.simpleName ++ [semicolon]⟩

/-- Replaces the package, or a parent of it made of whole segments. -/
def renamePackage (source target : Bytes) : Descriptor :=
  let pkg := k.package
  let source := normalizePackage source
  let target := normalizePackage target
  if pkg.isEmpty then k
  else if pkg = source then k.withPackage target
  else if source = [letterL] ∨ ¬ source.isPrefixOf pkg then k
  else k.withPackage (target ++ pkg.drop source.length)

/-- Whether the type lives in a package, or below it with `sub`. -/
def isInPackage (pkg : Bytes) (sub : Bool) : Bool :=
  !k.isPrimitive &&
    if sub then (normalizePackage pkg).isPrefixOf k.package else k.package == normalizePackage pkg

/-- Whether `inner` is nested in the class, directly so with `immediate`. -/
def isOuterOf (inner : Descriptor) (immediate : Bool) : Bool :=
  if k.isPrimitive || inner.isZero || inner.name.length ≤ k.name.length then false
  else
    match Bytes.diffStart k.name inner.name with
    | none => false
    | some d =>
      if k.name[d]? != some semicolon || inner.name[d]? != some dollar then false
      else
        let rest := inner.name.drop (d + 1)
        if rest.contains slash then false
        else if immediate then
          let rest := rest.dropWhile (· == dollar)
          !rest.isEmpty && !rest.contains dollar
        else true

/-- The class without its last inner segment. -/
def enclosing : Descriptor :=
  if !k.isDefinition then k
  else
    match Bytes.lastIndexOf? dollar k.simpleName with
    | some i => if 0 < i then ⟨k.package ++ k.simpleName.take i ++ [semicolon]⟩ else k
    | none => k

/-- A class nested in this one. -/
def inner (simple : Bytes) : Descriptor :=
  if !k.isDefinition || simple.isEmpty then k
  else ⟨k.name.dropLast ++ dollar :: simple ++ [semicolon]⟩

/-- Order by name. -/
def order (a b : Descriptor) : Ordering := Bytes.order a.name b.name

/-- Order by name, except that an inner class comes before the outer class it extends. -/
def orderInnerFirst (a b : Descriptor) : Ordering :=
  if a = b then .eq
  else
    match Bytes.diffStart a.simpleName b.simpleName with
    | some d =>
      if 0 < d ∧ a.simpleName[d]? = some dollar then Bytes.order b.simpleName a.simpleName
      else order a b
    | none => order a b

/-- Whether two class types, or arrays of them, share their package, judged by what follows the
first difference of their names. -/
def equalsPackage (other : Descriptor) : Bool :=
  if k = other then true
  else
    let a := k.element
    let b := other.element
    if a.head? != some letterL || b.head? != some letterL then false
    else
      match Bytes.diffStart a b with
      | none => true
      | some d => !(a.drop d).contains slash && !(b.drop d).contains slash

end Descriptor

end Dalvik
