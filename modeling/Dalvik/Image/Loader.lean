import Dalvik.Image.Event
import Dalvik.Image.StringItem
import Dalvik.Sink

/-!
# Loading

Reads an image section by section: strings, types, prototypes, fields, methods, classes. Every
constant must get the index it has in the file, so the indices of the file are those of the pool.
-/

namespace Dalvik

/-- An image as far as it is loaded. -/
structure Loading where
  cursor : Cursor
  header : Header := {}
  pool : Pool := {}
  classes : Array ClassDef := #[]
  events : Array Event := #[]
  deriving Inhabited

/-- The records of fixed size that sections are made of. -/
inductive FixedRecord where
  | word
  | proto
  | field
  | method
  | classDef
  deriving DecidableEq, Repr, Inhabited

namespace FixedRecord

def size : FixedRecord → Nat
  | .word => 4
  | .proto => 12
  | .field => 8
  | .method => 8
  | .classDef => 32

/-- How failures name the record. -/
def name : FixedRecord → Bytes
  | .word => ascii "*uint32"
  | .proto => ascii "*dexread.dexProtoIdItem"
  | .field => ascii "*dexread.dexFieldIdItem"
  | .method => ascii "*dexread.dexMethodIdItem"
  | .classDef => ascii "*dexread.dexClassHeader"

end FixedRecord

namespace Loading

def tell (e : Event) : Action Loading PUnit := modify fun s => { s with events := s.events.push e }

def remark (level : Nat) (text : Bytes) : Action Loading PUnit := tell (.remark level text)

/-- "text n more" as a remark. -/
def counted (level : Nat) (before : String) (n : Nat) (after : String) : Action Loading PUnit :=
  remark level (ascii before ++ decimal n ++ ascii after)

def seek (offset : Nat) : Action Loading PUnit := do
  let c ← Action.within (ascii "unable to seek to offset " ++ decimal offset)
    ((← get).cursor.setPosition offset)
  modify fun s => { s with cursor := c }

/-- Reads a record at an offset. -/
def record (kind : FixedRecord) (offset : Nat) : Action Loading Bytes := do
  seek offset
  let c := (← get).cursor
  let got := c.slice c.pos kind.size
  modify fun s => { s with cursor := { c with pos := c.pos + got.length } }
  if got.length = kind.size then return got
  else
    Action.refuse (.within
      (ascii "unable to read " ++ kind.name ++ ascii " at offset " ++ decimal offset)
      (if got.isEmpty then .eof else .unexpectedEof))

/-- The 32-bit number at a position of a record. -/
def wordAt (r : Bytes) (i : Nat) : Nat := littleEndian ((r.drop i).take 4)

/-- The 16-bit number at a position of a record. -/
def halfAt (r : Bytes) (i : Nat) : Nat := littleEndian ((r.drop i).take 2)

def word (offset : Nat) : Action Loading Nat := return wordAt (← record .word offset) 0

/-- Reads a part in place at an offset. -/
def part {σ : Type} (decode : Cursor → Action σ Cursor) (fresh : σ) (offset : Nat) :
    Action Loading σ := do
  seek offset
  let (r, x) := (decode (← get).cursor).apply fresh
  let c ← r
  modify fun s => { s with cursor := c }
  return x

/-- Adds a constant, which must get the index it has in the file. -/
def place (k : Constant) (want : Nat) : Action Loading PUnit := do
  let (found, pool) ← (← get).pool.intern k
  modify fun s => { s with pool }
  if found ≠ want then Action.refuse (.misplaced k.kind.name want k.text found)

/-- Looks something up in the pool. -/
def ask {α : Type} (look : Pool → Except Stop α) : Action Loading α := do look (← get).pool

/-- Does something for every element of a section, given its number and offset. -/
def eachOf (s : Section) (kind : FixedRecord) (act : Nat → Nat → Action Loading PUnit) :
    Action Loading PUnit := do
  for i in [0:s.size.toNat] do act i (s.offset.toNat + kind.size * i)

/-! ## Sections -/

def readHeader (lenient : Bool) : Action Loading PUnit := do
  let data := (← get).cursor.data
  let magic := (Header.magic {}).expected
  if !lenient && (data.size < Header.length || (data.extract 0 magic.length).toList != magic) then
    Action.refuse .notImage
  let h ← part Header.decode (Header.disableVerification {} lenient) 0
  modify fun s => { s with header := h }
  if h.fileSize.toNat ≠ data.size then Action.refuse (.headerSize h.fileSize.toNat data.size)
  remark 1 (ascii "DEX file header version " ++ decimal (h.versionNumber?.getD 0) ++ ascii ", " ++
    decimal h.fileSize.toNat ++ ascii " bytes")

def readStrings : Action Loading PUnit := do
  let s := (← get).header.strings
  eachOf s .word fun i offset => do
    let item ← part StringItem.decode {} (← word offset)
    match item.value with
    | (_, some e) => Action.refuse (.within (ascii "string " ++ decimal i) e)
    | (v, none) => place (.string v) i
  counted 2 "read " s.size.toNat " strings"

def readTypes : Action Loading PUnit := do
  let s := (← get).header.types
  eachOf s .word fun i offset => do
    let index ← word offset
    let name ← Action.within (ascii "type " ++ decimal i) (ask (·.string index))
    place (.type ⟨name⟩) i
  counted 2 "read " s.size.toNat " types"

/-- A list of types; the offset 0 stands for none. -/
def typeList (offset : Nat) : Action Loading (List Descriptor) := do
  if offset = 0 then return []
  let n ← word offset
  let label := ascii "type list at offset " ++ decimal offset
  let c := (← get).cursor
  if c.available < n * 2 then Action.refuse (.within label (.entriesOverrun n))
  let data := c.slice c.pos (n * 2)
  modify fun s => { s with cursor := { c with pos := c.pos + n * 2 } }
  Action.within label
    ((List.range n).mapM fun i => (ask (·.type (halfAt data (2 * i))) : Action Loading Descriptor))

def readProtos : Action Loading PUnit := do
  eachOf (← get).header.protos .proto fun i offset => do
    let r ← record .proto offset
    let label := ascii "proto " ++ decimal i
    let result ← Action.within label (ask (·.type (wordAt r 4)))
    let p := Prototype.of result (← typeList (wordAt r 8))
    match (← get).pool.string (wordAt r 0) with
    | .error _ => Action.refuse (.within label (.shorty p.text))
    | .ok s => if s ≠ (← p.shorty) then Action.refuse (.within label (.shorty p.text))
    place (.proto p) i

def readFields : Action Loading PUnit := do
  eachOf (← get).header.fields .field fun i offset => do
    let r ← record .field offset
    let f ← Action.within (ascii "field " ++ decimal i) do
      let owner ← ask (·.type (halfAt r 0))
      let type ← ask (·.type (halfAt r 2))
      return { owner, name := ← ask (·.string (wordAt r 4)), type : FieldRef }
    place (.field f) i

def readMethods : Action Loading PUnit := do
  let s := (← get).header.methods
  eachOf s .method fun i offset => do
    let r ← record .method offset
    let m ← Action.within (ascii "method " ++ decimal i) do
      let owner ← ask (·.type (halfAt r 0))
      let proto ← ask (·.proto (halfAt r 2))
      return { owner, name := ← ask (·.string (wordAt r 4)), proto : MethodRef }
    place (.method m) i
  counted 2 "read " s.size.toNat " methods"

/-! ## Classes -/

/-- The index that stands for nothing. -/
def noIndex : Nat := 0xffffffff

/-- The code of a method, which must have a name in the pool. -/
def codeOf (label : Bytes) (m : MethodMember) : Action Loading (Option CodeItem) := do
  let _ ← Action.within label (ask (·.method m.index))
  let offset := m.tail.codeOffset.value.toNat
  if offset = 0 then return none
  return some (← part CodeItem.decode (CodeItem.new (some (← get).pool)) offset)

/-- Reads the members of a class and their code. -/
def withMembers (c : ClassDef) : Action Loading ClassDef := do
  let m ← part Members.decode {} c.membersOffset
  counted 2 "num static fields is " m.staticFields.size ""
  counted 2 "num instance fields is " m.instanceFields.size ""
  counted 2 "num direct methods is " m.directMethods.size ""
  counted 2 "num virtual methods is " m.virtualMethods.size ""
  let label := ascii "class " ++ c.type.name
  for f in m.fields do
    let _ ← Action.within label (ask (·.field f.index))
  let codes ← m.methods.mapM (codeOf label)
  return { c with members := some m, codes }

/-- Something that is there unless its offset is 0. -/
def optional {α : Type} (offset : Nat) (read : Action Loading α) : Action Loading (Option α) := do
  if offset = 0 then return none else return some (← read)

def classDef (i : Nat) (offset : Nat) : Action Loading ClassDef := do
  let r ← record .classDef offset
  remark 1 (ascii "class " ++ decimal i ++ ascii " type idx is " ++ decimal (wordAt r 0))
  let type ← Action.within (ascii "class " ++ decimal i) (ask (·.type (wordAt r 0)))
  let label := ascii "class " ++ type.name
  let super ← if wordAt r 8 = noIndex then pure ⟨[]⟩
    else Action.within label (ask (·.type (wordAt r 8)))
  let source ← if wordAt r 16 = noIndex then pure []
    else Action.within label (ask (·.string (wordAt r 16)))
  let interfaces ← typeList (wordAt r 12)
  let notes ← optional (wordAt r 20) (part NoteDirectory.decode {} (wordAt r 20))
  let values ← optional (wordAt r 28) (part ValueArray.decode {} (wordAt r 28))
  let c : ClassDef :=
    { type, access := UInt32.ofNat (wordAt r 4), super, interfaces, source, notes, values,
      membersOffset := wordAt r 24, notesOffset := wordAt r 20, valuesOffset := wordAt r 28 }
  if c.membersOffset = 0 then
    remark 1 (ascii "skipping class " ++ type.name ++ ascii ", no class data")
    return c
  else withMembers c

/-- Reports a loaded class and its methods. -/
def reportClass (c : ClassDef) : Action Loading PUnit := do
  let pool := (← get).pool
  tell (.classSeen c.type c.methods.length)
  for m in c.methods do
    let name := ((pool.method m.index).map MethodRef.name).toOption.getD []
    tell (.methodSeen name m.index m.tail.codeOffset.get)
  tell (.defined c pool)

def readClasses : Action Loading PUnit := do
  let s := (← get).header.classes
  counted 1 "there are " s.size.toNat " classes"
  eachOf s .classDef fun i offset => do
    let c ← classDef i offset
    modify fun s => { s with classes := s.classes.push c }
    reportClass c

/-- Reads all sections of an image. -/
def all (name : Bytes) (lenient : Bool) : Action Loading PUnit := do
  readHeader lenient
  readStrings
  readTypes
  readProtos
  readFields
  readMethods
  tell (.image name (← get).header.signature)
  readClasses

end Loading

/-- How an image is to be read: under which name, out of which archive if any, and whether a foreign
magic or version is let through. -/
structure LoadOptions where
  name : Bytes
  archive : Option Bytes := none
  lenient : Bool := false
  deriving Repr

/-- What failures while reading an image start with. -/
def LoadOptions.label (o : LoadOptions) : Bytes :=
  ascii "reading " ++ (o.archive.map fun a => ascii "apk " ++ a ++ ascii " ").getD [] ++
    ascii "dex " ++ o.name

/-- Loads an image of an expected size; what was come across is reported even when it fails. -/
def load (o : LoadOptions) (source : Source) (expected : Nat) : Except Stop ImageFile × List Event :=
  match labelled (ascii "read failed") source.readAll with
  | .error e => (.error (e.within o.label), [])
  | .ok data =>
    if data.length ≠ expected then
      (fail (.within o.label (.expectedSize expected data.length)), [])
    else
      let (r, s) := (Action.within o.label (Loading.all o.name o.lenient)).apply
        { cursor := .ofBytes data }
      (r.map fun _ =>
        { name := o.name, data, header := s.header, pool := s.pool, classes := s.classes.toList },
        s.events.toList)

end Dalvik
