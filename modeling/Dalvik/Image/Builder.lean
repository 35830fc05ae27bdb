import Dalvik.Assembly.Parser
import Dalvik.Image.File
import Dalvik.Image.StringItem

/-!
# Building images

Assembles an image from classes given as assembly. Constants are written in the order they were
first met. After the header come the tables of constants and classes, then everything they point to.
-/

namespace Dalvik

/-- A class whose constants are in the pool. The code of a method is found by the group and index of
the method. -/
structure BuiltClass where
  source : Assembly.Class
  contents : ClassContents := {}
  codes : List ((MemberGroup × Int) × CodeItem) := []
  values : Option ValueArray := none

structure Builder where
  pool : Pool := {}
  classes : List BuiltClass := []

namespace Builder

private def onPool {α : Type} (act : Action (Option Pool) α) : Action Builder α :=
  Action.on (fun b => some b.pool) (fun p b => { b with pool := p.getD b.pool }) act

def intern (k : Constant) : Action Builder Int := do
  let (i, pool) ← (← get).pool.intern k
  modify fun b => { b with pool }
  return i

/-- Makes sure that there is a member and sets its access flags. -/
private def define (g : MemberGroup) (index : Int) (access : Assembly.Access) :
    Action ClassContents PUnit := do
  ClassContents.ensure g index
  match ← ClassContents.find? g index with
  | some i => ClassContents.setAccess g i access.bits.toNat
  | none => pure ⟨⟩

private def onContents (b : BuiltClass) (act : Action ClassContents PUnit) : Except Stop BuiltClass :=
  let (r, contents) := act.apply b.contents
  r.map fun _ => { b with contents }

private def addField (b : BuiltClass) (f : Assembly.Field) : Action Builder BuiltClass := do
  let index ← intern (.field f.ref)
  onContents b (define (if f.access.isStatic then .staticField else .instanceField) index f.access)

private def addMethod (b : BuiltClass) (m : Assembly.Method) : Action Builder BuiltClass := do
  let index ← intern (.method m.ref)
  let group := if m.access.isDirect then MemberGroup.directMethod else .virtualMethod
  let b ← onContents b (define group index m.access)
  match m.body with
  | none => return b
  | some body =>
    let (r, code) := (CodeItem.ofBody body).apply (CodeItem.new (some (← get).pool))
    modify fun b => { b with pool := code.code.pool.getD b.pool }
    Action.within (ascii "method " ++ m.ref.text) r
    return { b with codes := ((group, index), code) :: b.codes }

/-- The value that a field of a type has unless it is given one. -/
def zeroValue (t : Descriptor) : Constant :=
  match t.name with
  | [c] =>
    if c = byte 'Z' then .literal (.boolean false)
    else if c = byte 'B' then .literal (.byte 0)
    else if c = byte 'S' then .literal (.short 0)
    else if c = byte 'C' then .literal (.char 0)
    else if c = byte 'I' then .literal (.int 0)
    else if c = byte 'J' then .literal (.long 0)
    else if c = byte 'F' then .literal (.float 0)
    else if c = byte 'D' then .literal (.double 0)
    else .null
  | _ => .null

/-- The values of the static fields in the order of their indices, as far as the last one that was
given. -/
private def initialValues (pool : Pool) (b : BuiltClass) : List (Option Constant) :=
  let given := b.source.fields.reverse.filterMap fun f =>
    match f.initial with
    | some k => if f.access.isStatic then (pool.indexOf? (.field f.ref)).map fun i => (i, k) else none
    | none => none
  let values := b.contents.members.staticFields.members.map fun m =>
    match given.find? (·.1 == m.index) with
    | some (_, k) => (true, some k)
    | none => (false, (pool.field m.index).toOption.map fun f => zeroValue f.type)
  ((values.reverse.dropWhile fun v => !v.1).reverse).map Prod.snd

private def addValues (b : BuiltClass) : Action Builder BuiltClass := do
  let ks := initialValues (← get).pool b
  if b.source.fields.any fun f => f.access.isStatic && f.initial.isSome then
    let values ← onPool (Action.of fun pool =>
      let (r, values, pool) := (ValueArray.setConstants ks).apply ({}, pool)
      (r.map fun _ => values, pool))
    return { b with values := some values }
  else return b

/-- Adds a class and all constants it refers to. -/
def addClass (c : Assembly.Class) : Action Builder PUnit := do
  let _ ← intern (.type c.type)
  if !c.super.isZero then
    let _ ← intern (.type c.super)
  for t in c.interfaces do
    let _ ← intern (.type t)
  if !c.source.isEmpty then
    let _ ← intern (.string c.source)
  let b ← c.fields.foldlM addField { source := c }
  let b ← c.methods.foldlM addMethod b
  let b ← onContents b ClassContents.refresh
  let b ← addValues b
  modify fun x => { x with classes := x.classes ++ [b] }

/-- Adds a class from its text. -/
def addText (name text : Bytes) : Action Builder PUnit := do
  addClass (← Assembly.parseClass name text)

/-! ## Layout -/

/-- What follows the tables, as far as it is laid out, and the lists of types in it. -/
private structure Area where
  base : Nat
  bytes : Array UInt8 := #[]
  lists : List (Bytes × Nat) := []

private def put (b : Bytes) : Action Area Nat := do
  let a ← get
  set { a with bytes := a.bytes ++ b.toArray }
  return a.base + a.bytes.size

private def align (n : Nat) : Action Area PUnit := do
  let a ← get
  let _ ← put (List.replicate ((n - (a.base + a.bytes.size) % n) % n) 0)

private def u16 (n : Int) : Bytes := bytesU16 (UInt16.ofInt n)
private def u32 (n : Int) : Bytes := bytesU32 (UInt32.ofInt n)

variable (b : Builder)

/-- The index of a constant, which must be in the pool. -/
private def index (k : Constant) : Except Stop Int :=
  match b.pool.indexOf? k with
  | some i => .ok i
  | none => fault (some (k.text ++ ascii " not interned"))

/-- Where a list of types lies; lists that spell the same are laid out once, and an empty one
nowhere. -/
private def typeList (types : List Descriptor) : Action Area Nat := do
  if types.isEmpty then return 0
  let spelling := types.flatMap Descriptor.name
  match (← get).lists.find? (·.1 == spelling) with
  | some (_, offset) => return offset
  | none =>
    align 4
    let indices ← (types.mapM fun t => b.index (.type t) : Except Stop (List Int))
    let offset ← put (u32 types.length ++ indices.flatMap u16)
    modify fun a => { a with lists := (spelling, offset) :: a.lists }
    return offset

private def stringId (s : Bytes) : Action Area Bytes := do
  return u32 (← put (StringItem.setValue {} s).pieces.flatten)

private def protoId (p : Prototype) : Action Area Bytes := do
  let shorty ← b.index (.string (← p.shorty))
  let result ← b.index (.type p.result)
  return u32 shorty ++ u32 result ++ u32 (← b.typeList (← p.parameters))

private def fieldId (f : FieldRef) : Except Stop Bytes := do
  return u16 (← b.index (.type f.owner)) ++ u16 (← b.index (.type f.type)) ++
    u32 (← b.index (.string f.name))

private def methodId (m : MethodRef) : Except Stop Bytes := do
  return u16 (← b.index (.type m.owner)) ++ u16 (← b.index (.proto m.proto)) ++
    u32 (← b.index (.string m.name))

/-- Lays out the code of the methods of a group and stores where it lies. -/
private def putCodes (c : BuiltClass) (g : MemberGroup) (indices : List Int)
    (contents : ClassContents) : Action Area ClassContents :=
  indices.zipIdx.foldlM (fun contents (index, i) => do
    match c.codes.find? (·.1 == (g, index)) with
    | none => return contents
    | some (_, code) =>
      align 4
      let offset ← put code.bytes
      let (r, contents) := (ClassContents.setCodeOffset g i offset).apply contents
      r
      return contents) contents

/-- Lays out what belongs to a class and gives its record. -/
private def classRecord (c : BuiltClass) : Action Area Bytes := do
  let interfaces ← b.typeList c.source.interfaces
  let m := c.contents.members
  let contents ← putCodes c .directMethod (m.directMethods.members.map (·.index)) c.contents
  let contents ← putCodes c .virtualMethod (m.virtualMethods.members.map (·.index)) contents
  let members ← if c.source.fields.isEmpty && c.source.methods.isEmpty then pure 0
    else put contents.members.bytes
  let values ← match c.values with
    | some v => put v.bytes
    | none => pure 0
  let type ← b.index (.type c.source.type)
  let super ← if c.source.super.isZero then pure (-1) else b.index (.type c.source.super)
  let source ← if c.source.source.isEmpty then pure (-1) else b.index (.string c.source.source)
  return u32 type ++ bytesU32 c.source.access.bits ++ u32 super ++ u32 interfaces ++ u32 source ++
    u32 0 ++ u32 members ++ u32 values

/-- The number and record size of each table. -/
private def tables : List (Nat × Nat) :=
  [(b.pool.strings.size, 4), (b.pool.types.size, 4), (b.pool.protos.size, 12),
    (b.pool.fields.size, 8), (b.pool.methods.size, 8), (b.classes.length, 32)]

/-- Stores where the tables lie, from an offset on; an empty table has no place. -/
private def placeTables (h : Header) (i offset : Nat) : List (Nat × Nat) → Header × Nat
  | [] => (h, offset)
  | (count, size) :: rest =>
    let h := if count = 0 then h else h.setSection i ⟨UInt32.ofNat count, UInt32.ofNat offset⟩
    placeTables h (i + 1) (offset + count * size) rest

/-- The contents of all tables; what they point to is laid out on the way. -/
private def records : Action Area Bytes := do
  let strings ← b.pool.strings.toList.mapM stringId
  let types ← (b.pool.types.toList.mapM fun t => b.index (.string t.name) : Except Stop (List Int))
  let protos ← b.pool.protos.toList.mapM b.protoId
  let fields ← (b.pool.fields.toList.mapM b.fieldId : Except Stop (List Bytes))
  let methods ← (b.pool.methods.toList.mapM b.methodId : Except Stop (List Bytes))
  let classes ← b.classes.mapM b.classRecord
  align 4
  return (strings ++ types.map u32 ++ protos ++ fields ++ methods ++ classes).flatten

/-- Lays out and seals the image. -/
def build : Except Stop Bytes := do
  let (h, base) := placeTables {} 0 Header.length b.tables
  let (r, area) := b.records.apply { base }
  let records ← r
  let h := { h with
    fileSize := UInt32.ofNat (base + area.bytes.size)
    data := if area.bytes.isEmpty then {} else ⟨UInt32.ofNat area.bytes.size, UInt32.ofNat base⟩ }
  return (← h.sealFile (h.bytes ++ records ++ area.bytes.toList)).1

end Builder

end Dalvik
