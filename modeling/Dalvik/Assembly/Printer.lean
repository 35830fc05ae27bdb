import Dalvik.Assembly.Model
import Dalvik.Assembly.Writer

/-!
# Printing assembly

Each node writes itself to a writer; `render` collects the text.
-/

namespace Dalvik.Assembly

/-- What an instruction has besides its registers. -/
inductive Extra where
  | none
  | label
  | literal
  | ref
  deriving DecidableEq, Repr

/-- The last operand of the formats with a fixed number of registers. -/
def extraOf : Format → Extra
  | .f10t | .f20t | .f30t | .f21t | .f22t | .f31t => .label
  | .f11n | .f21s | .f21h | .f31i | .f51l | .f22b | .f22s => .literal
  | .f21c | .f22c | .f31c => .ref
  | _ => .none

def refText (k : Option Constant) : Bytes := (k.map Constant.text).getD (ascii "null")

def braces (s : Bytes) : Bytes := 0x7b :: s ++ [0x7d]

namespace Instruction

variable (i : Instruction)

/-- The registers of a variadic instruction: a list, or the ends of a range. -/
def registerList : Bytes :=
  match i.registers.head?, i.registers.getLast? with
  | some first, some last =>
    if i.opcode.format.isRange then braces (first.text ++ ascii " .. " ++ last.text)
    else braces (Bytes.join (ascii ", ") (i.registers.map Register.text))
  | _, _ => braces []

def operands : List Bytes :=
  if i.opcode.format.isVariadic then
    [i.registerList, refText i.ref] ++
      if i.opcode.format = .f45cc ∨ i.opcode.format = .f4rcc then [refText i.ref2] else []
  else
    i.registers.map Register.text ++
      match extraOf i.opcode.format with
      | .none => []
      | .label => [byte ':' :: i.label]
      | .literal => [i.literal.text]
      | .ref => [refText i.ref]

def write (w : Writer) : Writer :=
  let w := w.append i.opcode.name
  let w := if i.operands.isEmpty then w else w.spaced (Bytes.join (ascii ", ") i.operands)
  (w.comment i.comment).newline

end Instruction

def Label.write (l : Label) (w : Writer) : Writer :=
  ((w.append (byte ':' :: l.name)).comment l.comment).newline

/-- Lines one level deeper, then the closing keyword. -/
def block (d : Directive) (lines : List Bytes) (w : Writer) : Writer :=
  ((lines.foldl Writer.line w.newline.indent).outdent).close d

def PackedSwitch.write (p : PackedSwitch) (w : Writer) : Writer :=
  block .packedSwitch (p.targets.map (byte ':' :: ·))
    (w.directive .packedSwitch [(Literal.int p.firstKey).text])

def SparseSwitch.write (s : SparseSwitch) (w : Writer) : Writer :=
  block .sparseSwitch (s.cases.map fun (k, t) => (Literal.int k).text ++ ascii " -> :" ++ t)
    (w.append Directive.sparseSwitch.word)

/-- An array element as a literal of its width. -/
def ArrayData.element (a : ArrayData) (v : Int) : Literal :=
  if a.width = 1 then .byte v
  else if a.width = 2 then .short v
  else if a.width = 8 then .long v
  else .int v

def ArrayData.write (a : ArrayData) (w : Writer) : Writer :=
  block .arrayData (a.values.map fun v => (a.element v).text)
    (w.directive .arrayData [decimal a.width])

def CatchRange.write (c : CatchRange) (w : Writer) : Writer :=
  let range := braces (byte ':' :: c.start ++ ascii " .. :" ++ c.stop)
  let handler := byte ':' :: c.handler
  (if c.isCatchAll then w.directive .catchAll [range, handler]
    else w.directive .catchOne [c.type.name, range, handler]).newline

namespace Element

def write : Element → Writer → Writer
  | .label l, w => l.write w
  | .instruction i, w => i.write w
  | .packedSwitch p, w => p.write w
  | .sparseSwitch s, w => s.write w
  | .arrayData a, w => a.write w
  | .catchRange c, w => c.write w

def isLabel : Element → Bool
  | .label _ => true
  | _ => false

end Element

/-- An empty line goes before every label. -/
def Body.write (b : Body) (w : Writer) : Writer :=
  let w := if b.useLocals then w.directive .locals [decimal b.locals]
    else w.directive .registers [decimal b.registers]
  b.elements.foldl (fun w e => e.write (if e.isLabel then w.newline else w)) w.newline

def Field.write (f : Field) (w : Writer) : Writer :=
  let w := w.directive .field [f.access.text .field, f.ref.name ++ byte ':' :: f.ref.type.name]
  let w := match f.initial with
    | some v => w.append (ascii " = " ++ v.text)
    | none => w
  w.newline

def Method.write (m : Method) (w : Writer) : Writer :=
  let w := (w.directive .method [m.access.text .method, m.ref.name ++ m.ref.proto.text]).newline
  let w := match m.body with
    | some b => (b.write w.indent).outdent
    | none => w
  w.close .method

/-- A titled group of members, each followed by an empty line. -/
private def group {α : Type} (title : String) (write : α → Writer → Writer) (members : List α)
    (w : Writer) : Writer :=
  if members.isEmpty then w
  else members.foldl (fun w m => (write m w).newline) ((w.newline.comment (ascii title)).newline)

def Class.write (c : Class) (w : Writer) : Writer :=
  let w := (w.directive .classHead [c.access.text .classHead, c.type.name]).newline
  let w := if c.super.isZero then w else (w.directive .super [c.super.name]).newline
  let w := if c.source.isEmpty then w else (w.directive .source [Escaped.quote c.source]).newline
  let w := if c.interfaces.isEmpty then w
    else c.interfaces.foldl (fun w t => (w.directive .implements [t.name]).newline)
      ((w.newline.comment (ascii "interfaces")).newline)
  let w := group "static fields" Field.write (c.fields.filter (·.access.isStatic)) w
  let w := group "instance fields" Field.write (c.fields.filter (!·.access.isStatic)) w
  let w := group "direct methods" Method.write (c.methods.filter (·.access.isDirect)) w
  group "virtual methods" Method.write (c.methods.filter (!·.access.isDirect)) w

/-- The text that `write` produces. -/
def render (write : Writer → Writer) (w : Writer := {}) : Bytes := (write w).flush.text

end Dalvik.Assembly
