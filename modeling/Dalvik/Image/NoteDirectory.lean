import Dalvik.Table

/-!
# Note directories

Which members of a class carry notes, and where these lie. The notes themselves are not read; each
entry keeps the offset it has.
-/

namespace Dalvik

/-- A member index and the offset of its notes. -/
structure NoteEntry where
  index : UInt32 := 0
  offset : UInt32 := 0
  deriving DecidableEq, Repr, Inhabited

namespace NoteEntry

def decode (c : Cursor) : Action NoteEntry Cursor := do
  let c ← Action.on (·.index) (fun index e => { e with index }) (decodeU32 c)
  Action.on (·.offset) (fun offset e => { e with offset }) (decodeU32 c)

def bytes (e : NoteEntry) : Bytes := bytesU32 e.index ++ bytesU32 e.offset

def byteCount (_ : NoteEntry) : Nat := 4 + 4

def order (x y : NoteEntry) : Ordering := compare x.index.toNat y.index.toNat

end NoteEntry

abbrev NoteTable := Table NoteEntry

namespace NoteTable

def fresh : NoteTable := { count := some (.int 0) }

/-- Adds an entry; nothing keeps the order until the table is sorted. -/
def add (t : NoteTable) (index offset : Int) : NoteTable :=
  Table.push t ⟨UInt32.ofInt index, UInt32.ofInt offset⟩

def find? (t : NoteTable) (index : Int) : Option NoteEntry :=
  (Table.values t).find? fun e => signed32 e.index = index

/-- Drops all entries of a member and says how many there were. -/
def detach (t : NoteTable) (index : Int) : Nat × NoteTable :=
  Table.removeIf t fun e => signed32 e.index = index

def countBytes (t : NoteTable) : Bytes := (t.count.map Cell.bytes).getD []

def countSize (t : NoteTable) : Nat := (t.count.map Cell.size).getD 0

def byteCount (t : NoteTable) : Nat := total ((Table.values t).map NoteEntry.byteCount)

end NoteTable

/-- What a table of notes is about. -/
inductive NoteGroup where
  | field
  | method
  | parameter
  deriving DecidableEq, Repr, Inhabited

structure NoteDirectory where
  classNotes : UInt32 := 0
  fields : NoteTable := .fresh
  methods : NoteTable := .fresh
  parameters : NoteTable := .fresh
  deriving Inhabited

namespace NoteDirectory

variable (d : NoteDirectory)

def table : NoteGroup → NoteTable
  | .field => d.fields
  | .method => d.methods
  | .parameter => d.parameters

/-- Records that a member has its notes at an offset. -/
def add (g : NoteGroup) (index offset : Int) : NoteDirectory :=
  let t := (d.table g).add index offset
  match g with
  | .field => { d with fields := t }
  | .method => { d with methods := t }
  | .parameter => { d with parameters := t }

def detachField (index : Int) : Nat × NoteDirectory :=
  let (n, fields) := d.fields.detach index
  (n, { d with fields })

/-- Drops the notes of a method and of its parameters. -/
def detachMethod (index : Int) : Nat × NoteDirectory :=
  let (n, methods) := d.methods.detach index
  let (m, parameters) := d.parameters.detach index
  (n + m, { d with methods, parameters })

/-- Puts each table in the order of member indices, and says whether anything moved. -/
def sort : Except Stop (Bool × NoteDirectory) := do
  let (a, fields) ← Table.sort d.fields NoteEntry.order
  let (b, methods) ← Table.sort d.methods NoteEntry.order
  let (c, parameters) ← Table.sort d.parameters NoteEntry.order
  return (a || b || c, { d with fields, methods, parameters })

def isEmpty : Bool :=
  d.classNotes = 0 && d.fields.size = 0 && d.methods.size = 0 && d.parameters.size = 0

/-- Sorts and brings the counts up to date. -/
def refresh : Except Stop NoteDirectory := do
  let (_, d) ← d.sort
  return { d with
    fields := Table.updateCount d.fields
    methods := Table.updateCount d.methods
    parameters := Table.updateCount d.parameters }

def pieces : List Bytes :=
  [bytesU32 d.classNotes, d.fields.countBytes, d.methods.countBytes, d.parameters.countBytes] ++
    (d.fields.values ++ d.methods.values ++ d.parameters.values).map NoteEntry.bytes

def bytes : Bytes := d.pieces.flatten

def byteCount : Nat :=
  4 + d.fields.countSize + d.methods.countSize + d.parameters.countSize + d.fields.byteCount +
    d.methods.byteCount + d.parameters.byteCount

def decode (c : Cursor) : Action NoteDirectory Cursor := do
  let onFields {α : Type} := @Action.on NoteDirectory NoteTable α (·.fields) (fun t d => { d with fields := t })
  let onMethods {α : Type} := @Action.on NoteDirectory NoteTable α (·.methods) (fun t d => { d with methods := t })
  let onParameters {α : Type} :=
    @Action.on NoteDirectory NoteTable α (·.parameters) (fun t d => { d with parameters := t })
  let c ← Action.on (·.classNotes) (fun v d => { d with classNotes := v }) (decodeU32 c)
  let c ← onFields (Table.decodeCount c)
  let c ← onMethods (Table.decodeCount c)
  let c ← onParameters (Table.decodeCount c)
  let c ← onFields (Table.decode {} NoteEntry.decode c)
  let c ← onMethods (Table.decode {} NoteEntry.decode c)
  onParameters (Table.decode {} NoteEntry.decode c)

end NoteDirectory

end Dalvik
