import Dalvik.Code.CodeItem
import Dalvik.Code.Sequence
import Dalvik.Image.Header
import Dalvik.Image.Members
import Dalvik.Image.StringItem
import Dalvik.Image.Value
import Dalvik.Report.Constant

/-!
# Reports on code and on the parts of an image
-/

namespace Dalvik

def Instruction.describe (x : Instruction) : Except Stop Report := do
  let n ← x.registersCount
  let registers ← x.registers
  return .record ([("name", report x.opcode.name), ("bytes", .raw x.bytes),
    ("units", report x.units.length), ("count", report n), ("has_data", report x.hasData),
    ("data", .long (← x.data)), ("has_index", report x.hasIndex), ("index", report (← x.index)),
    ("index2", report (← x.index2))] ++ if n = 0 then [] else [("registers", report registers)])

/-- The fields of an item at its address. -/
def Node.fields (x : Node) : List (String × Report) :=
  [("a", report x.address), ("op", report x.item.opcode.name), ("units", report x.item.codeUnits)] ++
    match x.item with
    | .plain i => [("t", i.target)]
    | .array a => [("width", a.width), ("len", a.count), ("values", a.values.map Report.long)]
    | t =>
      [("cases", (t.caseKeys.zip t.cases).map fun (k, c) => (k, signed32 c.offset, c.handle))]

/-- The further fields of a payload on its own: what it becomes as a table of the other form, and
for a sparse one also what refreshing makes of it. -/
def Item.conversions (x : Item) : List (String × Report) :=
  let written (x : Item) : Report := Report.contents x.pieces.flatten
  match x with
  | .packed p => [("sparse", written (.sparse p.toSparse)), ("first", signed32 p.first)]
  | .sparse t =>
    let (r, u) := SparseTable.refresh.apply t
    let (p, _) := SparseTable.toPacked.apply u
    [("keys", t.values), ("refresh", Report.outcome r), ("refreshed", written (.sparse u)),
      ("packed", p.map fun p => written (.packed p))]
  | _ => []

private def Sequence.describeItems (s : Sequence) (items : List Node) (contents : String × Report) :
    Report :=
  .record ([("items", report (items.map fun x => Report.record (("h", report (x.handle.getD 0)) :: x.fields))),
    ("units", report s.units), ("len", report s.items.size), contents] ++
    s.size.toList.map (("size", report ·.get)) ++
    if s.moves.isEmpty then [] else [("moves", report s.moves.toList)])

def Sequence.describe (s : Sequence) : Report :=
  s.describeItems s.contents ("bytes", Report.contents s.bytes)

/-- Only the first items, and the contents by their checksum. -/
def Sequence.describeBriefly (s : Sequence) : Report :=
  s.describeItems (s.contents.take 4) ("crc", Crc32.checksum s.bytes)

/-! ## Parts of an image -/

def Header.describe (h : Header) : Report :=
  let place (s : Section) : Report := report (s.size, s.offset)
  .record [("valid", h.isValid), ("version", h.versionNumber?.getD 0), ("checksum", h.checksum),
    ("signature", .raw h.signature), ("file_size", h.fileSize),
    ("endian", ascii "0x" ++ hexWide 8 h.endianTag.toNat),
    ("sections", .list ((h.link :: h.sections).map place)), ("bytes", Report.contents h.bytes),
    ("count_bytes", h.byteCount)]

def StringItem.describe (s : StringItem) : Report :=
  .record [("value", s.value.1), ("err", s.value.2), ("count_bytes", s.byteCount),
    ("bytes", Report.contents s.pieces.flatten)]

namespace Value

/-- Fields that a value of any kind has. -/
private def commonFields (pool : Option Pool) (v : Value) : List (String × Report) :=
  [("kind", report v.kindName), ("count_bytes", report v.byteCount), ("children", report v.childCount),
    match v.constant pool with
    | .ok k => ("key", report k.describe)
    | .error e => ("err", report e)]

mutual

def describe (pool : Option Pool) : Value → Report
  | .plain tag arg data => .record (commonFields pool (.plain tag arg data))
  | .array arg size items =>
    .record (commonFields pool (.array arg size items) ++ [("array", .list (describeItems pool items))])
  | .note arg type size elements =>
    .record (commonFields pool (.note arg type size elements) ++
      [("type", report type.get), ("elements", .list (describeElements pool elements))])

def describeItems (pool : Option Pool) : List Value → List Report
  | [] => []
  | v :: rest => v.describe pool :: describeItems pool rest

def describeElements (pool : Option Pool) : List (Uleb × Value) → List Report
  | [] => []
  | (name, v) :: rest => .list [report name.get, v.describe pool] :: describeElements pool rest

end

end Value

def ValueArray.describe (a : ValueArray) (pool : Option Pool) : Report :=
  .record [("len", a.items.length), ("bytes", Report.contents a.bytes), ("count_bytes", a.byteCount),
    ("values", a.items.map Value.kindName),
    ("keys", (a.constants pool).map fun ks => ks.map Constant.text)]

def NoteDirectory.describe (d : NoteDirectory) : Report :=
  let entries (t : NoteTable) : Report := report (t.values.map fun e => (e.index, e.offset))
  .record [("class", d.classNotes), ("fields", entries d.fields), ("methods", entries d.methods),
    ("params", entries d.parameters), ("empty", d.isEmpty), ("bytes", Report.contents d.bytes)]

def ClassContents.describe (c : ClassContents) : Report :=
  let m := c.members
  let fields (t : MemberTable FieldTail) : Report :=
    report (t.members.map fun x => (x.index, x.access.value))
  let methods (t : MemberTable MethodTail) : Report :=
    report (t.members.map fun x => (x.index, x.access.value, x.tail.codeOffset.value))
  .record [("static", fields m.staticFields), ("instance", fields m.instanceFields),
    ("direct", methods m.directMethods), ("virtual", methods m.virtualMethods),
    ("fields", m.fields.length), ("methods", m.methods.length),
    ("bytes", Report.contents m.bytes), ("ann", c.notes.describe)]

namespace CodeItem

private def describeTry (c : CodeItem) (t : TryItem) : Report :=
  .record [("start", t.first), ("end", t.past), ("addr", t.start), ("count", t.count),
    ("handler", ((t.handler.bind c.handlers.indexOf?).map Int.ofNat).getD (-1))]

private def describeHandler (h : CatchHandler) : Report :=
  .record [("pairs", h.pairs.map fun p => (p.type.get, p.handler)),
    ("all", if h.catchesAll then report h.all else .null)]

def describe (c : CodeItem) : Report :=
  .record [("registers", c.registers), ("ins", c.ins), ("outs", c.outs), ("debug", c.debugInfo),
    ("list", c.code.describeBriefly), ("tries", c.tries.map c.describeTry),
    ("handlers", c.handlers.values.map describeHandler), ("bytes", Report.contents c.bytes),
    ("count_bytes", c.byteCount)]

end CodeItem

end Dalvik
