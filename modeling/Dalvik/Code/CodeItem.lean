import Dalvik.Code.Assembler
import Dalvik.Code.Disassembly
import Dalvik.Code.Handler

/-!
# Code items

The code of one method: register counts, instructions, and which ranges of them are guarded by
which exception handlers. Ranges and handlers refer to instructions by handle and follow them when
the code is edited; addresses and offsets are computed when the item is refreshed.
-/

namespace Dalvik

structure CodeItem where
  registers : UInt16 := 0
  ins : UInt16 := 0
  outs : UInt16 := 0
  /-- The stored number of ranges. -/
  triesSize : UInt16 := 0
  debugInfo : UInt32 := 0
  code : Sequence := { size := some (.int 0) }
  /-- What stands between an odd number of code units and the ranges. -/
  padding : UInt16 := 0
  tries : List TryItem := []
  handlers : Table CatchHandler := { count := some (.uleb {}) }
  deriving Inhabited

namespace CodeItem

/-- An empty item over a pool. -/
def new (pool : Option Pool) : CodeItem := { code := { size := some (.int 0), pool } }

variable (c : CodeItem)

def updateTries : CodeItem := { c with triesSize := UInt16.ofNat c.tries.length }

def setTries (tries : List TryItem) : CodeItem := updateTries { c with tries }

/-! ## Encoding -/

def handlerPieces : List Bytes :=
  (c.handlers.count.map Cell.bytes).toList ++ c.handlers.values.flatMap CatchHandler.pieces

def pieces : List Bytes :=
  [bytesU16 c.registers, bytesU16 c.ins, bytesU16 c.outs, bytesU16 c.triesSize,
    bytesU32 c.debugInfo, ((c.code.size.map Cell.bytes).getD [])] ++ c.code.pieces ++
    if c.tries.isEmpty then []
    else (if c.code.units % 2 = 1 then [bytesU16 c.padding] else []) ++
      c.tries.flatMap TryItem.pieces ++ c.handlerPieces

def bytes : Bytes := c.pieces.flatten

def handlersByteCount : Nat :=
  (c.handlers.count.map Cell.size).getD 0 + total (c.handlers.values.map CatchHandler.byteCount)

/-- Ranges, and with them the handlers and what stands before them, are only counted if there are any. -/
def byteCount : Nat :=
  2 + 2 + 2 + 2 + 4 + (c.code.size.map Cell.size).getD 0 + c.code.byteCount +
    if c.tries.isEmpty then 0
    else (if c.code.units % 2 = 1 then 2 else 0) + total (c.tries.map TryItem.byteCount) + c.handlersByteCount

/-! ## Editing -/

/-- Moves the ranges and handlers along with an instruction. -/
def retarget (source dest : Handle) : CodeItem :=
  { c with
    tries := c.tries.map (TryItem.retarget source dest)
    handlers := c.handlers.order.foldl
      (fun t s => t.modifySlot s fun h => h.retarget source dest) c.handlers }

/-- Works on the instructions; ranges and handlers follow. -/
def onCode {α : Type} (act : Action Sequence α) : Action CodeItem α :=
  Action.of fun c =>
    let (r, code) := act.apply c.code
    let moves := code.moves
    let c := { c with code := { code with moves := #[] } }
    (r, moves.foldl (fun c (source, dest) => c.retarget source dest) c)

/-- Makes a handler that guards nothing yet. -/
def newHandler (h : CatchHandler) : Nat × CodeItem :=
  let (slot, handlers) := c.handlers.create h
  (slot, { c with handlers })

/-- Guards a range with a handler, which joins the list if it is new there. -/
def addTry (first past : Handle) (handler : Nat) : CodeItem :=
  let c := { c with handlers := c.handlers.attach handler }
  c.setTries (c.tries ++ [{ first, past, handler := some handler }])

/-- Changes the bounds of the range at a position that must exist. -/
def setRange (i : Int) (first past : Handle) : Except Stop CodeItem :=
  if 0 ≤ i ∧ i < c.tries.length then
    .ok { c with tries := c.tries.modify i.toNat fun t => { t with first, past } }
  else fault none

/-- Changes the handler at a position that must exist. -/
def modifyHandler (i : Int) (f : CatchHandler → CatchHandler) : Except Stop CodeItem := do
  return { c with handlers := c.handlers.modifySlot (← c.handlers.slotOf i) f }

/-! ## Reading -/

/-- Records where each handler stands, from byte `offset` of the list on. -/
def placeHandlers (offset : Nat) : List Nat → Table CatchHandler → Table CatchHandler
  | [], t => t
  | s :: rest, t =>
    let n := ((t.value? s).map CatchHandler.byteCount).getD 0
    placeHandlers (offset + n) rest (t.modifySlot s fun h => { h with offset })

def layoutHandlers : CodeItem :=
  let start := (c.handlers.count.map Cell.size).getD 0
  { c with handlers := placeHandlers start c.handlers.order c.handlers }

def handleAt (start : Nat) (address : Int) (what : String) : Except Stop Handle :=
  match c.code.handleAt? address with
  | some h => .ok h
  | none => fail (.malformed (ascii "code item") start (.notAnInstruction (ascii what) address))

/-- The pairs with the handles of their addresses; a failure leaves no handle in its pair. -/
def linkPairs (start : Nat) : List CatchPair → Except Stop PUnit × List CatchPair
  | [] => (.ok ⟨⟩, [])
  | p :: rest =>
    match c.handleAt start p.address.get "catch" with
    | .error e => (.error e, { p with handler := .none } :: rest)
    | .ok handler =>
      let (r, rest) := linkPairs start rest
      (r, { p with handler } :: rest)

def linkHandler (start : Nat) (slot : Nat) : Action CodeItem PUnit := do
  let c ← get
  let update (f : CatchHandler → CatchHandler) : Action CodeItem PUnit :=
    modify fun c => { c with handlers := c.handlers.modifySlot slot f }
  match c.handlers.value? slot with
  | none => pure ⟨⟩
  | some h =>
    let (r, pairs) := c.linkPairs start h.pairs
    update fun h => { h with pairs }
    r
    if h.catchesAll then
      let r := c.handleAt start h.allAddress.get "catch-all"
      update fun h => { h with all := r.toOption.getD .none }
      let _ ← r

/-- Resolves the range and handler of try `i`; what was resolved before a failure is kept. -/
def linkTry (start : Nat) (i : Nat) : Action CodeItem PUnit := do
  let c ← get
  let update (f : TryItem → TryItem) : Action CodeItem PUnit :=
    modify fun c => { c with tries := c.tries.modify i f }
  match c.tries[i]? with
  | none => pure ⟨⟩
  | some t =>
    let r := c.handleAt start t.start.toNat "try start"
    update fun t => { t with first := r.toOption.getD .none }
    let _ ← r
    let r := c.handleAt start (t.start.toNat + t.count.toNat) "try end"
    update fun t => { t with past := r.toOption.getD .none }
    let _ ← r
    let found := c.handlers.order.find? fun s =>
      (c.handlers.value? s).any fun h => h.offset = t.handlerOffset.toNat
    update fun t => { t with handler := found }
    if found.isNone then
      Action.refuse (.malformed (ascii "code item") start (.noHandler i t.handlerOffset.toNat))

def decode (cur : Cursor) : Action CodeItem Cursor := do
  let start := cur.pos
  let cur ← Action.on (·.registers) (fun v c => { c with registers := v }) (decodeU16 cur)
  let cur ← Action.on (·.ins) (fun v c => { c with ins := v }) (decodeU16 cur)
  let cur ← Action.on (·.outs) (fun v c => { c with outs := v }) (decodeU16 cur)
  let cur ← Action.on (·.triesSize) (fun v c => { c with triesSize := v }) (decodeU16 cur)
  let cur ← Action.on (·.debugInfo) (fun v c => { c with debugInfo := v }) (decodeU32 cur)
  let cur ← Action.on (fun c => c.code.size.getD default)
    (fun v c => { c with code := { c.code with size := some v } }) (Cell.decode cur)
  let cur ← onCode (Sequence.decode cur)
  if (← get).triesSize = 0 then
    modify fun c => { c.setTries [] with handlers := c.handlers.clear }
    return cur
  else
    let cur ← if (← get).code.units % 2 = 1 then
        Action.on (·.padding) (fun v c => { c with padding := v }) (decodeU16 cur)
      else pure cur
    modify fun c => { c with tries := resizeList c.triesSize.toNat {} c.tries }
    let cur ← Action.on (·.tries) (fun v c => { c with tries := v })
      (Action.of fun tries => decodeEach TryItem.decode 0 tries cur)
    let cur ← Action.on (·.handlers) (fun v c => { c with handlers := v }) do
      let cur ← Table.decodeCount cur
      Table.decode {} CatchHandler.decode cur
    modify layoutHandlers
    for s in (← get).handlers.order do linkHandler start s
    for i in List.range (← get).tries.length do linkTry start i
    return cur

/-! ## Refreshing -/

def address (h : Handle) (what : String) : Except Stop Int :=
  match c.code.addressOf? h with
  | some a => .ok a
  | none => fail (.within (ascii what) .missingTarget)

/-- The first and past-the-end address of a range. -/
def span (t : TryItem) : Except Stop (Int × Int) := do
  return (← c.address t.first "try start", ← c.address t.past "try end")

/-- The position of the item a handle names; nothing comes before everything. -/
def position (h : Handle) : Int := ((c.code.named? h).bind c.code.indexOf?).elim (-1) Int.ofNat

/-- Stores a range that is not too long. -/
def setSpan (t : TryItem) (s : Int × Int) : TryItem :=
  { t with start := UInt32.ofInt s.1, count := UInt16.ofInt (s.2 - s.1) }

/-- Drops the empty ranges, sorts the others by where they start and stores their addresses. Those
after one that is too long keep the addresses they had. -/
def refreshTries : Action CodeItem PUnit := do
  let c ← get
  let spans ← (c.tries.mapM c.span : Except Stop (List (Int × Int)))
  let ranges := c.tries.zip spans
  let isLong (s : Int × Int) : Bool := 0xffff < s.2 - s.1
  let fits := ranges.takeWhile fun x => !isLong x.2
  let stored := fits.map (fun x => (setSpan x.1 x.2, x.2)) ++ ranges.drop fits.length
  let kept := (stored.filter fun x => x.2.1 < x.2.2).map Prod.fst
  set (c.setTries (kept.mergeSort fun x y => c.position x.first ≤ c.position y.first))
  match (ranges.drop fits.length).head? with
  | some (_, first, past) => Action.refuse (.longTry first (past - first))
  | none => pure ⟨⟩

/-- The pairs with their addresses stored; those before a failure are kept. -/
def storePairs : List CatchPair → Except Stop PUnit × List CatchPair
  | [] => (.ok ⟨⟩, [])
  | p :: rest =>
    match c.address p.handler "catch" with
    | .error e => (.error e, p :: rest)
    | .ok a =>
      let (r, rest) := storePairs rest
      (r, { p with address := p.address.set a } :: rest)

def refreshHandler (slot : Nat) : Action CodeItem PUnit := do
  let c ← get
  let update (f : CatchHandler → CatchHandler) : Action CodeItem PUnit :=
    modify fun c => { c with handlers := c.handlers.modifySlot slot f }
  match c.handlers.value? slot with
  | none => pure ⟨⟩
  | some h =>
    let (r, pairs) := c.storePairs h.pairs
    update fun h => { h with pairs }
    r
    if h.catchesAll then
      let a ← c.address h.all "catch-all"
      update fun h => { h with allAddress := h.allAddress.set a }
    update CatchHandler.updateSize

/-- The place of a try's handler, which it must have. -/
def placeTry (t : TryItem) : Except Stop TryItem :=
  match t.handler.bind c.handlers.value? with
  | some h => .ok { t with handlerOffset := UInt16.ofNat h.offset }
  | none => fault none

/-- Brings the instructions up to date, and then the ranges and handlers. -/
def refresh : Action CodeItem PUnit := do
  let guarded := !(← get).tries.isEmpty
  onCode Sequence.refresh
  if guarded then
    modify fun c => { updateTries c with
      handlers := (c.handlers.order.foldl (fun t s => t.modifySlot s CatchHandler.updateSize) c.handlers).updateCount }
  refreshTries
  for s in (← get).handlers.order do refreshHandler s
  modify layoutHandlers
  let c ← get
  let tries ← (c.tries.mapM c.placeTry : Except Stop (List TryItem))
  set { c.setTries tries with
    padding := 0
    handlers := if tries.isEmpty then c.handlers.clear else c.handlers }

/-! ## Assembly -/

open Assembly (Element Body)

/-- Labels by address and the lines of exception ranges, as they are collected. -/
structure Notes where
  labels : List (Int × Bytes) := []
  catches : List Element := []

def addLabel (kind : LabelKind) (h : Handle) : Action Notes Bytes := do
  match c.code.addressOf? h with
  | none => Action.refuse (.within kind.stem .missingTarget)
  | some a =>
    let name := kind.name a
    modify fun n => if n.labels.contains (a, name) then n else { n with labels := n.labels ++ [(a, name)] }
    return name

def catchType (i : Int) : Except Stop Descriptor :=
  match c.code.pool with
  | some p => p.type i
  | none => fail (.unresolved Kind.type.name (Constant.rawText .type i))

def noteTry (t : TryItem) : Action Notes PUnit := do
  let start ← c.addLabel .tryStart t.first
  let stop ← c.addLabel .tryEnd t.past
  let add (type : Descriptor) (handler : Bytes) : Action Notes PUnit :=
    modify fun n => { n with catches := n.catches ++ [.catchRange { type, start, stop, handler }] }
  match t.handler.bind c.handlers.value? with
  | none => throw (.fault none)
  | some h =>
    for p in h.pairs do
      let handler ← c.addLabel .catchOne p.handler
      add (← c.catchType p.type.get) handler
    if h.catchesAll then add ⟨[]⟩ (← c.addLabel .catchAll h.all)

/-- The body of the method, given the registers its parameters take. Exception ranges follow the
instructions. -/
def toBody (paramRegisters : Int) (useLocals : Bool) : Except Stop Body := do
  let (r, notes) := (c.tries.forM c.noteTry).apply {}
  r
  let body : Body := { registers := c.registers.toNat, paramRegisters, useLocals }
  return { body with elements := (← c.code.toElements body notes.labels) ++ notes.catches }

/-- The widest argument list that a call passes. -/
def outsFor (s : Sequence) : Except Stop Nat :=
  s.contents.foldlM (fun n x =>
    match x.item with
    | .plain i => if i.opcode.is .invoke then return max n (← i.registersCount) else .ok n
    | _ => .ok n) 0

/-- Adds an exception range; lines with the same range share a handler. -/
def addCatch (labels : List (Bytes × Handle)) (known : List ((Handle × Handle) × Nat))
    (e : Assembly.CatchRange) : Action CodeItem (List ((Handle × Handle) × Nat)) := do
  let find (name : Bytes) : Except Stop Handle :=
    match labels.find? (·.1 == name) with
    | some (_, h) => .ok h
    | none => fail (.parse e.origin (.unknownLabel name))
  let first ← find e.start
  let past ← find e.stop
  let handler ← find e.handler
  let (slot, known) ← match known.find? (·.1 == (first, past)) with
    | some (_, slot) => pure (slot, known)
    | none =>
      let (slot, c) := (← get).newHandler {}
      set (c.addTry first past slot)
      pure (slot, ((first, past), slot) :: known)
  let update (f : CatchHandler → CatchHandler) : Action CodeItem PUnit :=
    modify fun c => { c with handlers := c.handlers.modifySlot slot f }
  if e.isCatchAll then update (·.setAll handler)
  else
    match (← get).code.pool with
    | none => Action.refuse (.unresolved Kind.type.name e.type.name)
    | some pool =>
      let (i, pool) := pool.internType e.type
      modify fun c => { c with code := { c.code with pool := some pool } }
      update (·.addPair i handler)
  return known

/-- Replaces the contents by a body. -/
def ofBody (body : Body) : Action CodeItem PUnit := do
  modify fun c => { c.setTries [] with
    handlers := c.handlers.clear
    code := { size := c.code.size, pool := c.code.pool } }
  let labels ← onCode (Sequence.addElements body)
  let outs ← outsFor (← get).code
  modify fun c => { c with
    registers := UInt16.ofInt body.registers
    ins := UInt16.ofInt body.paramRegisters
    outs := UInt16.ofNat outs }
  let _ ← body.elements.foldlM
    (fun known e =>
      match e with
      | .catchRange e => addCatch labels known e
      | _ => pure known) []
  refresh

end CodeItem

end Dalvik
