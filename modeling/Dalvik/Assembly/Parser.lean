import Dalvik.Assembly.Printer

/-!
# Reading assembly

One reader for each node. A failure names the place of the offending token. Loops are bounded by
the length of the text, since every round consumes some of it; a loop that outlived its bound would
come to a fault.
-/

namespace Dalvik.Assembly

open Reading

/-- A bound on the rounds of a loop that consumes text. -/
def rounds : Reading Nat := return (← get).data.size + 1

/-- The end of a loop that has used up its rounds. -/
def runaway {α : Type} : Reading α := throw (.fault none)

/-- A token after blanks, and where it starts. -/
def tokenAt : Reading (Nat × Bytes) := do
  skipSpaces
  let pos ← position
  return (pos, ← token)

/-- The value of `parsed`, or the complaint at `pos`; a fault stays one. -/
def orComplain {α : Type} (pos : Nat) (what : Complaint) (parsed : Except Stop α) : Reading α :=
  match parsed with
  | .ok a => pure a
  | .error (.failure _) => complainAt pos what
  | .error stop => throw stop

def readType : Reading Descriptor := do
  let (pos, t) ← tokenAt
  orComplain pos (.invalid (ascii "type") t) (Descriptor.parse t)

def readInt : Reading Int := do
  let (pos, t) ← tokenAt
  let n ← orComplain pos (.invalid (ascii "integer") t) (Literal.parseNumber t)
  if n.kind = .int then return n.toInt else complainAt pos (.invalid (ascii "integer") t)

def readLabel : Reading Bytes := do
  let (pos, t) ← tokenAt
  if t.length < 2 ∨ t.head? ≠ some (byte ':') then complainAt pos (.invalid (ascii "label") t)
  return t.drop 1

def expectComma : Reading PUnit := do
  skipSpaces
  if !(← accept (ascii ",")) then expecting (ascii ",")
  skipSpaces

def accessWords (t : Target) : Nat → Access → Reading Access
  | 0, _ => runaway
  | fuel + 1, a => do
    let (pos, word) ← tokenAt
    match Access.ofWord? word t with
    | some bit => accessWords t fuel ⟨a.bits ||| bit⟩
    | none =>
      move (·.setPosition pos)
      return a

/-- Flag words up to the first token that is not one. -/
def readAccess (t : Target) : Reading Access := do accessWords t (← rounds) {}

def skipNotesFuel (start : Origin) : Nat → Reading PUnit
  | 0 => runaway
  | fuel + 1 => do
    if (← get).finished then Action.refuse (.parse start (.missing Directive.notes.endWord))
    move Scanner.skipLine
    skipBlank
    if ← Directive.notes.isEnd then move (·.skip Directive.notes.endWord.length)
    else skipNotesFuel start fuel

/-- Skips a block of annotations up to its end. -/
def skipNotes : Reading PUnit := do skipNotesFuel (← origin) (← rounds)

/-! ## Instructions -/

def registerOf (pos : Nat) (t : Bytes) : Reading Register :=
  let refused := complainAt pos (.invalid (ascii "register") t)
  match t with
  | a :: r =>
    if a ≠ byte 'v' ∧ a ≠ byte 'p' then refused
    else
      match Literal.unsigned? 10 16 r with
      | some n => pure ⟨n, a == byte 'p'⟩
      | none => refused
  | [] => refused

def readRegister : Reading Register := do
  let (pos, t) ← tokenAt
  registerOf pos t

def openBrace : Bytes := [0x7b]
def closeBrace : Bytes := [0x7d]

/-- The rest of a range after its opening brace. -/
def registerRange : Reading (List Register) := do
  let pos ← position
  let t ← token
  let (firstToken, lastToken) ← match Bytes.cutAt (ascii "..") t with
    | some ends => pure ends
    | none => do
      skipSpaces
      expect (ascii "..")
      skipSpaces
      pure (t, ← token)
  let first ← registerOf pos firstToken
  let last ← registerOf pos lastToken
  if first.isParam ≠ last.isParam ∨ last.number < first.number then complainAt pos .registerRange
  skipSpaces
  if !(← accept closeBrace) then expecting closeBrace
  let n := (last.number - first.number + 1).toNat
  return (List.range n).map fun (i : Nat) => ⟨first.number + i, first.isParam⟩

def registersFuel : Nat → List Register → Reading (List Register)
  | 0, _ => runaway
  | fuel + 1, regs => do
    let regs := (← readRegister) :: regs
    skipSpaces
    if ← accept closeBrace then return regs.reverse
    if !(← accept (ascii ",")) then
      complain (.expecting (ascii "',' or '\x7d'") (← get).peekToken)
    skipSpaces
    registersFuel fuel regs

/-- Registers between braces: a list, or for ranges the two ends. -/
def readRegisters (isRange : Bool) : Reading (List Register) := do
  if !(← accept openBrace) then expecting openBrace
  skipSpaces
  if ← accept closeBrace then return []
  if isRange then registerRange else registersFuel (← rounds) []

def readRef (kind : Kind) : Reading Constant := do
  skipSpaces
  let pos ← position
  let text ← if kind = .string ∧ (← get).peek = 0x22 then quoted else token
  orComplain pos (.invalid kind.name text) (Constant.parseRef kind text)

def readLiteral : Reading Literal := do
  skipSpaces
  let pos ← position
  let text ← literal
  orComplain pos (.invalid (ascii "literal") text) (Literal.parse text)

def fixedRegisters : Nat → List Register → Reading (List Register)
  | 0, regs => pure regs.reverse
  | n + 1, regs => do
    if !regs.isEmpty then expectComma
    fixedRegisters n ((← readRegister) :: regs)

/-- Registers between braces and the constants behind them. -/
def variadicOperands (i : Instruction) : Reading Instruction := do
  let registers ← readRegisters i.opcode.format.isRange
  expectComma
  let ref ← readRef (i.opcode.ref.getD .string)
  match i.opcode.ref2 with
  | some kind =>
    expectComma
    return { i with registers, ref := some ref, ref2 := some (← readRef kind) }
  | none => return { i with registers, ref := some ref }

/-- The registers of the format and the operand behind them. -/
def fixedOperands (i : Instruction) : Reading Instruction := do
  let registers ← fixedRegisters i.opcode.format.registerBits.length []
  let i := { i with registers }
  match extraOf i.opcode.format with
  | .none => return i
  | .label =>
    if !registers.isEmpty then expectComma
    return { i with label := ← readLabel }
  | .literal =>
    expectComma
    return { i with literal := ← readLiteral }
  | .ref =>
    expectComma
    return { i with ref := some (← readRef (i.opcode.ref.getD .string)) }

def readInstruction : Reading Instruction := do
  let origin ← origin
  let pos ← position
  let name ← token
  let opcode ← match Opcode.ofName? name with
    | some o => if o.isPayload then complainAt pos (.unknownInstruction name) else pure o
    | none => complainAt pos (.unknownInstruction name)
  skipSpaces
  if opcode.format.isVariadic then variadicOperands { origin, opcode } else fixedOperands { origin, opcode }

def readLabelLine : Reading Label := do
  let origin ← origin
  return { origin, name := ← readLabel }

/-! ## Tables -/

def packedTargets : Nat → List Bytes → Reading (List Bytes)
  | 0, _ => runaway
  | fuel + 1, ts => do
    skipBlank
    if (← Directive.packedSwitch.isEnd) || (← get).peek != byte ':' then return ts.reverse
    packedTargets fuel ((← readLabel) :: ts)

def readPackedSwitch : Reading PackedSwitch := do
  let origin ← origin
  Directive.packedSwitch.expect
  let first ← readLiteral
  let targets ← packedTargets (← rounds) []
  Directive.packedSwitch.expectEnd
  return { origin, firstKey := first.toInt, targets }

def sparseCases : Nat → List (Int × Bytes) → Reading (List (Int × Bytes))
  | 0, _ => runaway
  | fuel + 1, cs => do
    skipBlank
    if (← Directive.sparseSwitch.isEnd) || (← get).finished then return cs.reverse
    let key ← readLiteral
    skipSpaces
    expect (ascii "->")
    sparseCases fuel ((key.toInt, ← readLabel) :: cs)

def readSparseSwitch : Reading SparseSwitch := do
  let origin ← origin
  Directive.sparseSwitch.expect
  let cases ← sparseCases (← rounds) []
  Directive.sparseSwitch.expectEnd
  return { origin, cases }

def arrayValues : Nat → List Int → Reading (List Int)
  | 0, _ => runaway
  | fuel + 1, vs => do
    skipBlank
    if (← Directive.arrayData.isEnd) || (← get).finished then return vs.reverse
    arrayValues fuel ((← readLiteral).toLong :: vs)

def readArrayData : Reading ArrayData := do
  let origin ← origin
  Directive.arrayData.expect
  skipSpaces
  let pos ← position
  let width ← readInt
  if width ≠ 1 ∧ width ≠ 2 ∧ width ≠ 4 ∧ width ≠ 8 then complainAt pos (.elementWidth width)
  let values ← arrayValues (← rounds) []
  Directive.arrayData.expectEnd
  return { origin, width, values }

/-- The keyword of an exception range, and its type unless everything is caught. -/
def readCatchType : Reading Descriptor := do
  if ← Directive.catchAll.isNext then
    move (·.skip Directive.catchAll.word.length)
    return ⟨[]⟩
  else
    Directive.catchOne.expect
    readType

def readCatchRange : Reading CatchRange := do
  let origin ← origin
  let type ← readCatchType
  skipSpaces
  if !(← accept openBrace) then expecting openBrace
  let start ← readLabel
  skipSpaces
  expect (ascii "..")
  let stop ← readLabel
  skipSpaces
  if !(← accept closeBrace) then expecting closeBrace
  return { origin, type, start, stop, handler := ← readLabel }

/-! ## Bodies -/

/-- What comes next in a body. -/
inductive Next where
  | finish
  | skipped
  | registers (count : Int)
  | locals (count : Int)
  | element (value : Element)
  | nothing

def nextInBody : Reading Next := do
  let s ← get
  if s.isAt Directive.method.endWord then return .finish
  else if s.isAt Directive.registers.word then
    move (·.skip Directive.registers.word.length)
    return .registers (← readInt)
  else if s.isAt Directive.locals.word then
    move (·.skip Directive.locals.word.length)
    return .locals (← readInt)
  else if s.isAt Directive.catchOne.word || s.isAt Directive.catchAll.word then
    return .element (.catchRange (← readCatchRange))
  else if s.isAt Directive.packedSwitch.word then return .element (.packedSwitch (← readPackedSwitch))
  else if s.isAt Directive.sparseSwitch.word then return .element (.sparseSwitch (← readSparseSwitch))
  else if s.isAt Directive.arrayData.word then return .element (.arrayData (← readArrayData))
  else if s.isAt Directive.notes.word then
    skipNotes
    return .nothing
  else if Directive.ignored.any s.isAt then
    move Scanner.skipLine
    return .skipped
  else if s.peek = byte ':' then return .element (.label (← readLabelLine))
  else if s.peek = byte '.' then complain (.unknownDirective s.peekToken)
  else return .element (.instruction (← readInstruction))

/-- Reads items in front of the ones already there, which are in reverse. -/
def bodyFuel : Nat → Bool → Body → Reading (Bool × Body)
  | 0, _, _ => runaway
  | fuel + 1, seen, b => do
    skipBlank
    if (← get).finished then complain (.missing Directive.method.endWord)
    match ← nextInBody with
    | .finish => return (seen, b)
    | .skipped => bodyFuel fuel seen b
    | .registers n =>
      expectLineEnd
      bodyFuel fuel true { b with registers := n, useLocals := false }
    | .locals n =>
      expectLineEnd
      bodyFuel fuel true { b with registers := n + b.paramRegisters, useLocals := true }
    | .element e =>
      expectLineEnd
      bodyFuel fuel true { b with elements := e :: b.elements }
    | .nothing =>
      expectLineEnd
      bodyFuel fuel true b

/-- Reads a body up to the end of its method, which is left in place, and says whether there was
any code. -/
def readBody (paramRegisters : Int) : Reading (Bool × Body) := do
  let (seen, b) ← bodyFuel (← rounds) false { paramRegisters }
  return (seen, { b with elements := b.elements.reverse })

/-! ## Members and classes -/

/-- Converts a literal to a primitive type. -/
def coerce (p : Literal) (t : Descriptor) : Except Stop Literal :=
  let refused := fail .notOfType
  match p.kind with
  | .boolean => if t = LiteralKind.boolean.type then .ok p else refused
  | .float =>
    if t = LiteralKind.float.type then .ok p
    else if t = LiteralKind.double.type then
      .ok (.double (Floating.single.convert Floating.double p.bits.toNat))
    else refused
  | .double =>
    if t = LiteralKind.double.type then .ok p
    else if t = LiteralKind.float.type then
      .ok (.float (Floating.double.convert Floating.single p.bits.toNat))
    else refused
  | _ =>
    if t = LiteralKind.int.type then .ok (.int p.toLong)
    else if t = LiteralKind.long.type then .ok (.long p.toLong)
    else if t = LiteralKind.byte.type then .ok (.byte p.toLong)
    else if t = LiteralKind.short.type then .ok (.short p.toLong)
    else if t = LiteralKind.char.type then .ok (.char p.bits.toUInt16)
    else refused

private def startsNumber (b : UInt8) : Bool :=
  b == byte '-' || b == byte '+' || Floating.Read.isDigit b || b == byte 'I' || b == byte 'N'

private def hasText (part s : Bytes) : Bool := (Bytes.cutAt part s).isSome

/-- The initial value of a field of type `t`. -/
def readValue (t : Descriptor) : Reading Constant := do
  let pos ← position
  if ← accept (ascii ".enum") then
    skipSpaces
    let text ← token
    let f ← orComplain pos (.invalid (ascii "enum value") text) (FieldRef.parse text)
    return .field f
  let text ← literal
  let first ← match text with
    | first :: _ => pure first
    | [] => throw (.fault none)
  let parsed {α : Type} (make : α → Constant) (r : Except Stop α) : Reading Constant :=
    orComplain pos (.invalidFor text t.sourceName) (r.map make)
  if text = ascii "null" then
    if t.isPrimitive then complainAt pos (.nullFor t.sourceName)
    return .null
  else if first = 0x22 then parsed id (Constant.parse .string text)
  else if hasText (ascii "->") text && text.contains (byte '(') then parsed .method (MethodRef.parse text)
  else if hasText (ascii "->") text then parsed .field (FieldRef.parse text)
  else if t.isPrimitive then parsed .literal (do coerce (← Literal.parse text) t)
  else if first = Descriptor.letterL ∨ first = Descriptor.bracket then parsed .type (Descriptor.parse text)
  else if t.isReference && text != ascii "true" && text != ascii "false" && !startsNumber first &&
      first != 0x27 then
    complainAt pos (.invalid (ascii "value") text)
  else parsed .literal (Literal.parse text)

/-- Skips blocks of annotations and says whether there was one. -/
def noteBlocks : Nat → Bool → Reading Bool
  | 0, _ => runaway
  | fuel + 1, any => do
    if ← Directive.notes.isNext then
      skipNotes
      skipBlank
      noteBlocks fuel true
    else return any

def readField (owner : Descriptor) : Reading Field := do
  skipBlank
  let origin ← origin
  Directive.field.expect
  let access ← readAccess .field
  let (pos, t) ← tokenAt
  let (name, typeText) ← match Bytes.cut (byte ':') t with
    | some (name, rest) => if name.isEmpty then complainAt pos (.invalid (ascii "field") t) else pure (name, rest)
    | none => complainAt pos (.invalid (ascii "field") t)
  let type ← orComplain pos (.invalid (ascii "field type") typeText) (Descriptor.parse typeText)
  skipSpaces
  let initial ← if ← accept (ascii "=") then do
      skipSpaces
      pure (some (← readValue type))
    else pure none
  expectLineEnd
  let f : Field := { origin, access, ref := ⟨owner, name, type⟩, initial }
  let pos ← position
  skipBlank
  let noted ← noteBlocks (← rounds) false
  if ← Directive.field.isEnd then
    move (·.skip Directive.field.endWord.length)
    return f
  if noted then expecting Directive.field.endWord
  move (·.setPosition pos)
  return f

def readMethod (owner : Descriptor) : Reading Method := do
  skipBlank
  let origin ← origin
  Directive.method.expect
  let access ← readAccess .method
  let (pos, t) ← tokenAt
  let paren ← match Bytes.indexOf? (byte '(') t with
    | some (n + 1) => pure (n + 1)
    | _ => complainAt pos (.invalid (ascii "method") t)
  let proto ← orComplain pos (.invalid (ascii "method prototype") (t.drop paren)) (Prototype.parse (t.drop paren))
  expectLineEnd
  let (seen, body) ← readBody (← paramRegistersOf access proto)
  Directive.method.expectEnd
  return { origin, access, ref := ⟨owner, t.take paren, proto⟩, body := if seen then some body else none }

/-- Reads the parts of a class in front of the members already there, which are in reverse. -/
def classFuel : Nat → Class → Reading Class
  | 0, _ => runaway
  | fuel + 1, c => do
    skipBlank
    let s ← get
    if s.finished then return c
    let c ←
      if s.isAt Directive.super.word then do
        move (·.skip Directive.super.word.length)
        pure { c with super := ← readType }
      else if s.isAt Directive.source.word then do
        move (·.skip Directive.source.word.length)
        skipSpaces
        let pos ← position
        let q ← quoted
        match Escaped.unquote q with
        | some source => pure { c with source }
        | none => complainAt pos (.sourceName q)
      else if s.isAt Directive.implements.word then do
        move (·.skip Directive.implements.word.length)
        pure { c with interfaces := (← readType) :: c.interfaces }
      else if s.isAt Directive.field.word then
        pure { c with fields := (← readField c.type) :: c.fields }
      else if s.isAt Directive.method.word then
        pure { c with methods := (← readMethod c.type) :: c.methods }
      else if s.isAt Directive.notes.word then do
        skipNotes
        pure c
      else complain (.unexpected s.peekToken)
    expectLineEnd
    classFuel fuel c

def readClass : Reading Class := do
  skipBlank
  let origin ← origin
  Directive.classHead.expect
  let access ← readAccess .classHead
  let type ← readType
  let c ← classFuel (← rounds) { origin, access, type }
  return { c with
    interfaces := c.interfaces.reverse
    fields := c.fields.reverse
    methods := c.methods.reverse }

/-- Reads one class from a named text. -/
def parseClass (name text : Bytes) : Except Stop Class := (readClass.apply (.ofBytes text name)).1

end Dalvik.Assembly
