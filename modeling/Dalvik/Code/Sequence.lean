import Dalvik.Code.Label

/-!
# Instruction sequences

The instructions of one method. Everything that was ever put in has an identity, its number in
`nodes`; while it is in the sequence it also has a handle, through which branches and switch cases
refer to it. Handles are never given out twice, so an edit leaves no reference to the wrong
instruction behind.

Every change lays the sequence out again: unclaimed tables go, addresses are assigned, payloads are
aligned and references are collected. Inside a bracket this is put off until the outermost bracket
closes.
-/

namespace Dalvik

/-- An element of a sequence. -/
inductive Item where
  | plain (value : Instruction)
  | packed (value : PackedTable)
  | sparse (value : SparseTable)
  | array (value : ArrayPayload)
  deriving DecidableEq, Repr

namespace Item

instance : Inhabited Item := ⟨.plain default⟩

def opcode : Item → Opcode
  | .plain x => x.opcode
  | .packed _ => Opcode.packedSwitchPayload
  | .sparse _ => Opcode.sparseSwitchPayload
  | .array _ => Opcode.arrayPayload

def isPayload : Item → Bool
  | .plain _ => false
  | _ => true

def byteCount : Item → Nat
  | .plain x => 2 * x.units.length
  | .packed p => p.byteCount
  | .sparse s => s.byteCount
  | .array a => a.byteCount

def codeUnits : Item → Nat
  | .plain x => x.units.length
  | x => x.byteCount / 2

/-- The pieces it is written in. -/
def pieces : Item → List Bytes
  | .plain x => [x.bytes]
  | .packed p => p.pieces
  | .sparse s => s.pieces
  | .array a => a.pieces

def isPadding : Item → Bool
  | .plain x => x.isPadding
  | _ => false

/-- The owner of a switch table. -/
def owner? : Item → Option Handle
  | .packed p => some p.owner
  | .sparse s => some s.owner
  | _ => none

def setOwner (h : Handle) : Item → Item
  | .packed p => .packed { p with owner := h }
  | .sparse s => .sparse { s with owner := h }
  | x => x

/-- The cases of a switch table. -/
def cases : Item → List Case
  | .packed p => p.cases
  | .sparse s => s.cases
  | _ => []

def setCases (cs : List Case) : Item → Item
  | .packed p => .packed { p with cases := cs }
  | .sparse s => .sparse { s with cases := cs }
  | x => x

/-- The values of the cases of a switch table. -/
def caseKeys : Item → List Int
  | .packed p => p.keys
  | .sparse s => s.values
  | _ => []

def caseLabel : Item → LabelKind
  | .sparse _ => .sparseCase
  | _ => .packedCase

/-- Makes every reference to one handle a reference to another. -/
def retarget (source dest : Handle) : Item → Item
  | .plain x => .plain (if x.target = source then { x with target := dest } else x)
  | x => x.setCases (x.cases.map (Case.retarget source dest))

/-- Restores what derives from the contents of a payload. -/
def refresh : Action Item PUnit :=
  Action.of fun
    | .packed p => (.ok ⟨⟩, .packed p.updateSize)
    | .sparse s => let (r, s) := SparseTable.refresh.apply s; (r, .sparse s)
    | x => (.ok ⟨⟩, x)

/-- Reads an item into a fresh value. -/
def readInto {α : Type} (make : α → Item) (act : Action α Cursor) (fresh : α) : Except Stop (Item × Cursor) :=
  let (r, x) := act.apply fresh
  r.map fun c => (make x, c)

/-- Reads the item that starts with the given unit. -/
def decode (unit : Nat) (c : Cursor) : Except Stop (Item × Cursor) :=
  if unit = Opcode.packedSwitchPayload.value then readInto .packed (PackedTable.decode c) {}
  else if unit = Opcode.sparseSwitchPayload.value then readInto .sparse (SparseTable.decode c) {}
  else if unit = Opcode.arrayPayload.value then readInto .array (ArrayPayload.decode c) {}
  else readInto .plain (Instruction.decode c) default

end Item

structure Node where
  item : Item
  /-- The offset in code units as of the last layout. -/
  address : Int := 0
  /-- The handle, while it is in the sequence. -/
  handle : Option Nat := none
  deriving Inhabited

/-- How the node is called in messages. -/
def Node.text (n : Node) : Bytes := Instruction.text n.address n.item.opcode

structure Sequence where
  nodes : Array Node := #[]
  /-- The nodes in order. -/
  items : Array Nat := #[]
  /-- The node of each handle that was given out. -/
  arena : Array (Option Nat) := #[]
  /-- Who refers to which handle, in the order of the referring items. -/
  references : List (Handle × Reference) := []
  /-- The cell that holds the size in code units. -/
  size : Option Cell := none
  /-- The constants that index operands refer to. -/
  pool : Option Pool := none
  /-- The number of open brackets. -/
  depth : Nat := 0
  /-- The size in code units as of the last layout. -/
  units : Nat := 0
  /-- Handles that stopped naming an instruction, and what took their place. -/
  moves : Array (Handle × Handle) := #[]
  deriving Inhabited

namespace Sequence

variable (s : Sequence)

def node? (n : Nat) : Option Node := s.nodes[n]?

/-- The node at a position. -/
def nodeAt? (i : Int) : Option Nat := if i < 0 then none else s.items[i.toNat]?

/-- The node at a position that must exist. -/
def nodeAt (i : Int) : Except Stop Nat :=
  match s.nodeAt? i with
  | some n => .ok n
  | none => fault none

/-- The items in order. -/
def contents : List Node := s.items.toList.filterMap s.node?

/-- The handle recorded for a node; the first handle stands in for a missing one. -/
def handleOf (n : Nat) : Handle := ((s.node? n).bind Node.handle).getD 0

/-- The node that a handle names. -/
def named? (h : Handle) : Option Nat := if h < 0 then none else (s.arena[h.toNat]?).join

def namedNode? (h : Handle) : Option Node := (s.named? h).bind s.node?

/-- The address of a handle. -/
def addressOf? (h : Handle) : Option Int :=
  if h = .finish then some s.units else (s.namedNode? h).map Node.address

def addressAt (i : Nat) : Int := ((s.items[i]?).bind s.node?).elim 0 Node.address

/-- The first position between `low` and `high` whose address is not below `address`, provided
that addresses increase. -/
def searchAddress (address : Int) (low high : Nat) : Nat :=
  if low < high then
    let mid := (low + high) / 2
    if s.addressAt mid < address then searchAddress address (mid + 1) high
    else searchAddress address low mid
  else low
termination_by high - low

/-- The position of the item at an address. -/
def positionAt? (address : Int) : Option Nat :=
  let i := s.searchAddress address 0 s.items.size
  if i < s.items.size ∧ s.addressAt i = address then some i else none

/-- The handle of the item at an address; the size of the sequence has one too. -/
def handleAt? (address : Int) : Option Handle :=
  if address = s.units then some .finish
  else (s.positionAt? address).bind fun i => (s.items[i]?).map s.handleOf

/-- The position of a node. -/
def indexOf? (n : Nat) : Option Nat := s.items.findIdx? (· == n)

/-- Why a handle is labelled. -/
def referencesTo (h : Handle) : List Reference :=
  s.references.filterMap fun (k, r) => if k = h then some r else none

def modifyNode (n : Nat) (f : Node → Node) : Sequence := { s with nodes := s.nodes.modify n f }

def modifyItem (n : Nat) (f : Item → Item) : Sequence :=
  s.modifyNode n fun x => { x with item := f x.item }

def setAddress (n : Nat) (a : Int) : Sequence := s.modifyNode n fun x => { x with address := a }

/-- Makes a node that is not in the sequence. -/
def create (item : Item) : Nat × Sequence :=
  (s.nodes.size, { s with nodes := s.nodes.push { item } })

/-- Gives a node a handle, if it has none. -/
def register (n : Nat) : Sequence :=
  if ((s.node? n).bind Node.handle).isSome then s
  else
    let h := s.arena.size
    { s.modifyNode n (fun x => { x with handle := some h }) with arena := s.arena.push (some n) }

/-! ## Layout -/

/-- Makes every reference to `source` a reference to `dest`. -/
def retarget (source dest : Handle) : Sequence :=
  { s with
    moves := s.moves.push (source, dest)
    nodes := s.arena.foldl
      (fun nodes named =>
        match named with
        | some n => nodes.modify n fun x => { x with item := x.item.retarget source dest }
        | none => nodes) s.nodes }

/-- Takes the handle away from a node that is no longer among the items. -/
def forget (n : Nat) (next : Handle) : Sequence :=
  let h := s.handleOf n
  let s := s.modifyNode n fun x => { x with handle := none }
  retarget { s with arena := s.arena.setIfInBounds h.toNat none } h next

/-- Drops the tables that `had` lists and no switch claims, in order. -/
def dropUnclaimed (had : List Nat) (kept : Array Nat) :
    List Nat → Sequence → Array Nat × Sequence
  | [], s => (kept, s)
  | n :: rest, s =>
    let owner := ((s.node? n).bind fun x => x.item.owner?).getD 0
    if owner < 0 && had.contains n then
      let next := (rest.head?.map s.handleOf).getD .finish
      dropUnclaimed had kept rest (s.forget n next)
    else dropUnclaimed had (kept.push n) rest s

/-- Gives every switch table the switch that refers to it. A table whose switch went away goes
too; one that never had a switch stays. -/
def claimTables : Sequence :=
  let had := s.items.toList.filter fun n =>
    ((s.node? n).bind fun x => x.item.owner?).any fun h => decide (0 ≤ h)
  let s := s.items.foldl (fun s n => s.modifyItem n (Item.setOwner .none)) s
  let s := s.items.foldl
    (fun s n =>
      match (s.node? n).map Node.item with
      | some (.plain x) =>
        if x.opcode.is .switch then
          match s.named? x.target with
          | some t => s.modifyItem t (Item.setOwner (s.handleOf n))
          | none => s
        else s
      | _ => s) s
  let (items, s) := dropUnclaimed had #[] s.items.toList s
  { s with items }

/-- A layout in progress: the items placed so far, and padding that was met but not placed. -/
structure Layout where
  sequence : Sequence
  placed : Array Nat := #[]
  pad : Option Nat := none
  address : Nat := 0

namespace Layout

/-- Drops padding that turned out not to be needed. -/
def dropPad (l : Layout) (next : Handle) : Layout :=
  match l.pad with
  | some p => { l with sequence := l.sequence.forget p next, pad := none }
  | none => l

/-- Places padding: what was met, or a new one. -/
def placePad (l : Layout) : Layout :=
  let (p, s) := match l.pad with
    | some p => (p, l.sequence)
    | none =>
      let (p, s) := l.sequence.create (.plain .padding)
      (p, s.register p)
  { sequence := s.setAddress p l.address, placed := l.placed.push p, address := l.address + 1 }

def step (l : Layout) (n : Nat) : Layout :=
  match l.sequence.node? n with
  | none => l
  | some x =>
    if x.item.isPadding then { l.dropPad (l.sequence.handleOf n) with pad := some n }
    else
      let l := if x.item.isPayload && l.address % 2 == 1 then l.placePad else l
      let l := l.dropPad (l.sequence.handleOf n)
      { l with
        sequence := l.sequence.setAddress n l.address
        placed := l.placed.push n
        address := l.address + x.item.codeUnits }

end Layout

/-- Assigns addresses and keeps payloads on even ones, adding and dropping padding. -/
def layout : Sequence :=
  let l := (s.items.foldl Layout.step { sequence := s }).dropPad .finish
  { l.sequence with items := l.placed, units := l.address }

/-- Collects who refers to whom: first all branches, then all cases of tables that are in use. -/
def collectReferences : Sequence :=
  let branches := s.items.toList.filterMap fun n =>
    match (s.node? n).map Node.item with
    | some (.plain x) =>
      if x.target < 0 then none else some (x.target, ⟨.ofBranch x.opcode, 0, s.handleOf n⟩)
    | _ => none
  let cases := s.contents.flatMap fun x =>
    match x.item.owner? with
    | some owner =>
      if owner < 0 then []
      else (x.item.caseKeys.zip x.item.cases).filterMap fun (key, c) =>
        if c.handle < 0 then none else some (c.handle, ⟨x.item.caseLabel, key, owner⟩)
    | none => []
  { s with references := branches ++ cases }

def relink : Sequence := s.claimTables.layout.collectReferences

def changed : Sequence := if s.depth = 0 then s.relink else s

/-! ## Editing -/

/-- Opens a bracket of changes. -/
def openBracket : Sequence := { s with depth := s.depth + 1 }

/-- Closes a bracket; the outermost one lays the sequence out again. -/
def closeBracket : Except Stop Sequence :=
  if s.depth = 0 then fault (some (ascii "ins: Unlink without Link"))
  else .ok (changed { s with depth := s.depth - 1 })

/-- Puts a node at a position within the sequence. -/
def place (i n : Nat) : Sequence :=
  let s := s.register n
  changed { s with items := s.items.insertIdxIfInBounds i n }

/-- Puts a node that is not in the sequence at position `i` and gives its handle. -/
def insert (i : Int) (n : Nat) : Except Stop (Handle × Sequence) :=
  if ((s.node? n).bind Node.handle).isSome then fault (some (ascii "ins: instruction inserted twice"))
  else if i < 0 ∨ (s.items.size : Int) < i then fault none
  else .ok (s.arena.size, s.place i.toNat n)

/-- Puts a new item at the end and gives its handle. -/
def append (item : Item) : Handle × Sequence :=
  let h := s.arena.size
  let (n, s) := s.create item
  (h, s.place s.items.size n)

/-- Puts a new item at position `i` and gives its handle. -/
def insertItem (i : Int) (item : Item) : Action Sequence Handle :=
  Action.of fun s =>
    if i < 0 ∨ (s.items.size : Int) < i then (fault none, s)
    else
      let h := s.arena.size
      let (n, s) := s.create item
      (.ok h, s.place i.toNat n)

/-- Puts a new item at the end. -/
def push (item : Item) : Action Sequence Handle := modifyGet (append · item)

/-- Takes out the item at a position that must exist. What referred to it now refers to the item
after it. -/
def removeAt (i : Int) : Except Stop (Nat × Sequence) := do
  let n ← s.nodeAt i
  let s := { s with items := s.items.eraseIdxIfInBounds i.toNat }
  let next := ((s.nodeAt? i).map s.handleOf).getD .finish
  return (n, (s.forget n next).changed)

/-- Takes out a node, if it is among the items. -/
def remove (n : Nat) : Except Stop (Bool × Sequence) :=
  match s.indexOf? n with
  | some i => return (true, (← s.removeAt i).2)
  | none => .ok (false, s)

/-- Puts one node in the place of another, whose handle it takes over. -/
def replace (old new : Nat) : Except Stop Sequence :=
  match s.node? old with
  | none => fault none
  | some x =>
    match x.handle with
    | none => fail (.notInList x.text)
    | some h =>
      match s.indexOf? old with
      | none => fault none
      | some i =>
        let s := { s with items := s.items.setIfInBounds i new, arena := s.arena.setIfInBounds h (some new) }
        let s := s.modifyNode old fun x => { x with handle := none }
        .ok (s.modifyNode new fun x => { x with handle := some h }).changed

/-- Points the branch or payload reference of a node at a handle. -/
def setTarget (n : Nat) (h : Handle) : Except Stop Sequence :=
  match (s.node? n).map Node.item with
  | some (.plain x) =>
    if !x.hasTarget then fail (.lacksOperand x.opcode.name (ascii "target"))
    else if h ≠ .finish ∧ (s.named? h).isNone then
      fail (.within (ascii "ins: handle " ++ decimal h) .missingTarget)
    else .ok (s.modifyItem n fun _ => .plain { x with target := h }).changed
  | _ => fault none

/-- Makes several changes in one bracket, which is closed also when they fail. -/
def bracketed {α : Type} (act : Action Sequence α) : Action Sequence α := do
  modify openBracket
  let outcome ← act.attempt
  set (← (← get).closeBracket)
  outcome

/-- Gives the switch with a handle another opcode; a handle of anything else is left alone. -/
def setSwitch (h : Handle) (op : Opcode) : Action Sequence PUnit := do
  let s ← get
  match s.named? h, (s.namedNode? h).map Node.item with
  | some n, some (.plain x) =>
    let x ← x.setOpcode op
    modify (·.modifyItem n fun _ => .plain x)
  | _, _ => pure ⟨⟩

/-- Puts one switch table in the place of another, and gives the switch that owns it the opcode
that goes with it. -/
def swapTable (old : Nat) (table : Item) (op : Opcode) : Action Sequence PUnit := do
  let (new, s) := (← get).create table
  set s
  bracketed do
    set (← (← get).replace old new)
    setSwitch (table.owner?.getD .none) op

/-- Turns a packed table into the equivalent sparse one. -/
def toSparse (n : Nat) : Action Sequence PUnit := do
  match ((← get).node? n).map Node.item, Opcode.ofName? (ascii "sparse-switch") with
  | some (.packed p), some op => swapTable n (.sparse p.toSparse) op
  | _, _ => throw (.fault none)

/-- Turns a sparse table into the equivalent packed one; it is left sorted if there is none. -/
def toPacked (n : Nat) : Action Sequence PUnit := do
  match ((← get).node? n).map Node.item, Opcode.ofName? (ascii "packed-switch") with
  | some (.sparse t), some op =>
    let (r, t) := SparseTable.toPacked.apply t
    modify (·.modifyItem n fun _ => .sparse t)
    swapTable n (.packed (← r)) op
  | _, _ => throw (.fault none)

/-! ## Editing in place -/

/-- Works on the item at a position that must exist. -/
def onItem {α : Type} (i : Int) (act : Action Item α) : Action Sequence α := do
  let s ← get
  let n ← s.nodeAt i
  let (r, x) := act.apply (((s.node? n).map Node.item).getD default)
  set (s.modifyItem n fun _ => x)
  r

/-- Works on the instruction at a position, which must not be a payload, and on the pool. Its
address is given along. -/
def onInstruction {α : Type} (i : Int) (act : Int → Action (Instruction × Option Pool) α) :
    Action Sequence α := do
  let s ← get
  let n ← s.nodeAt i
  match s.node? n with
  | some x@{ item := .plain y, .. } =>
    let (r, y, pool) := (act x.address).apply (y, s.pool)
    set { s.modifyItem n (fun _ => .plain y) with pool }
    r
  | _ => throw (.fault none)

/-- Works on the packed table at a position. -/
def onPacked {α : Type} (i : Int) (act : Action PackedTable α) : Action Sequence α :=
  onItem i <| Action.of fun
    | .packed p => let (r, p) := act.apply p; (r, .packed p)
    | x => (fault none, x)

/-- Works on the sparse table at a position. -/
def onSparse {α : Type} (i : Int) (act : Action SparseTable α) : Action Sequence α :=
  onItem i <| Action.of fun
    | .sparse t => let (r, t) := act.apply t; (r, .sparse t)
    | x => (fault none, x)

/-- Works on the array contents at a position. -/
def onArray {α : Type} (i : Int) (act : Action ArrayPayload α) : Action Sequence α :=
  onItem i <| Action.of fun
    | .array a => let (r, a) := act.apply a; (r, .array a)
    | x => (fault none, x)

/-- Takes a case out of the switch table at a position. -/
def removeCase (i case : Int) : Action Sequence PUnit :=
  onItem i <| Action.of fun
    | .packed p => match p.removeAt case with
      | .ok p => (.ok ⟨⟩, .packed p)
      | .error e => (.error e, .packed p)
    | .sparse t => match t.removeAt case with
      | .ok t => (.ok ⟨⟩, .sparse t)
      | .error e => (.error e, .sparse t)
    | x => (fault none, x)

/-- Points a case of the switch table at a position at a handle. -/
def setCaseHandle (i case : Int) (h : Handle) : Action Sequence PUnit :=
  onItem i <| Action.of fun x =>
    match if case < 0 then none else x.cases[case.toNat]? with
    | some c => (.ok ⟨⟩, x.setCases (x.cases.set case.toNat { c with handle := h }))
    | none => (fault none, x)

/-! ## Reading -/

/-- Forgets all items. -/
def clear : Sequence :=
  { s with
    items := #[]
    arena := #[]
    references := []
    units := 0
    nodes := s.nodes.map fun x => { x with handle := none } }

/-- Reads items until `total` code units are used; each item takes one or more. -/
def decodeItems (total : Nat) : Nat → Nat → Cursor → Action Sequence Cursor
  | 0, _, c => pure c
  | fuel + 1, used, c =>
    if used < total then do
      let start := c.pos
      let first ← c.peek 2
      let (item, c) ← labelled (ascii "instruction at 0x" ++ hex used)
        (Item.decode (littleEndian first) c)
      modify fun s =>
        let (n, s) := s.create item
        let s := (s.register n).setAddress n used
        { s with items := s.items.push n }
      let next := used + item.codeUnits
      if total < next then
        Action.refuse (.malformed (ascii "code") start (.overruns used total))
      else decodeItems total fuel next c
    else pure c

/-- The payload that an opcode refers to. -/
def payloadFor (op : Opcode) : Opcode :=
  if op.name = ascii "packed-switch" then Opcode.packedSwitchPayload
  else if op.name = ascii "sparse-switch" then Opcode.sparseSwitchPayload
  else Opcode.arrayPayload

def noTarget {α : Type} (label : Bytes) : Action Sequence α :=
  Action.refuse (.within label .missingTarget)

/-- The node at an address, as decoding has placed it. -/
def nodeByAddress? (address : Int) : Option Nat :=
  (s.positionAt? address).bind fun i => s.items[i]?

/-- Turns the offset of a branch into the handle of the item there. -/
def linkBranch (n : Nat) : Action Sequence PUnit := do
  let s ← get
  match s.node? n with
  | some x@{ item := .plain i, .. } =>
    if i.hasTarget then
      let dest := x.address + (← i.data)
      match s.nodeByAddress? dest with
      | none => noTarget (x.text ++ ascii ": target 0x" ++ hex dest ++ ascii " is not an instruction")
      | some t =>
        let op := ((s.node? t).map fun y => y.item.opcode).getD default
        if i.opcode.is .payloadRef && op != payloadFor i.opcode then
          noTarget (x.text ++ ascii ": target 0x" ++ hex dest ++ ascii " is " ++ op.name)
        else
          let target := s.handleOf t
          let owner := s.handleOf n
          modify fun s =>
            (s.modifyItem n fun _ => .plain { i with target }).modifyItem t (Item.setOwner owner)
    else pure ⟨⟩
  | _ => pure ⟨⟩

/-- Turns the offsets of a table's cases, from number `i` on, into handles. -/
def linkCases (n : Nat) (owner : Node) : Nat → List Case → Action Sequence PUnit
  | _, [] => pure ⟨⟩
  | i, c :: rest => do
    let s ← get
    let dest := owner.address + signed32 c.offset
    match s.nodeByAddress? dest with
    | none =>
      noTarget (owner.text ++ ascii " case " ++ decimal i ++ ascii ": target 0x" ++ hex dest ++
        ascii " is not an instruction")
    | some t =>
      let handle := s.handleOf t
      modify (·.modifyItem n fun x => x.setCases (x.cases.set i { c with handle }))
      linkCases n owner (i + 1) rest

def linkTable (n : Nat) : Action Sequence PUnit := do
  let s ← get
  match (s.node? n).map Node.item with
  | some x =>
    match x.owner?.bind s.namedNode? with
    | some owner => linkCases n owner 0 x.cases
    | none => pure ⟨⟩
  | none => pure ⟨⟩

/-- Marks the no-operations before payloads that nothing refers to as padding. -/
def markPadding : Sequence :=
  let targeted := s.contents.flatMap fun x =>
    match x.item with
    | .plain i => if i.hasTarget then [i.target] else []
    | x => if (x.owner?.getD .none) < 0 then [] else x.cases.map Case.handle
  let isPad (n next : Nat) : Bool :=
    match s.node? n, s.node? next with
    | some x@{ item := .plain i, .. }, some y =>
      i.units.head? == some 0 && x.address % 2 == 1 && y.item.isPayload &&
        !targeted.contains (s.handleOf n)
    | _, _ => false
  (s.items.toList.zip (s.items.toList.drop 1)).foldl
    (fun s (n, next) =>
      if isPad n next then
        s.modifyItem n fun
          | .plain i => .plain { i with isPadding := true }
          | x => x
      else s) s

/-- Reads as many code units as the size cell says, and links offsets to handles. -/
def decode (c : Cursor) : Action Sequence Cursor := do
  match (← get).size with
  | none => Action.refuse .listWithoutSize
  | some cell =>
    let total := cell.get.toNat
    modify clear
    let c ← decodeItems total total 0 c
    modify fun s => { s with units := total }
    for n in (← get).items.toList do linkBranch n
    for n in (← get).items.toList do linkTable n
    modify fun s => s.markPadding.relink
    return c

/-! ## Writing -/

/-- The next longer form of a jump. -/
def wider? (op : Opcode) : Option Opcode :=
  if op.name = ascii "goto" then Opcode.ofName? (ascii "goto/16")
  else if op.name = ascii "goto/16" then Opcode.ofName? (ascii "goto/32")
  else none

/-- Whether a failure says that a value does not fit its operand. -/
def isRange : Stop → Bool
  | .failure (.literalRange _ _) => true
  | _ => false

/-- Writes the offset of a branch, or widens it and says so. -/
def encodeBranch (n : Nat) : Action Sequence Bool := do
  let s ← get
  match s.node? n with
  | some x@{ item := .plain i, .. } =>
    if i.hasTarget then
      match if i.target = .finish then none else s.addressOf? i.target with
      | none => noTarget x.text
      | some dest =>
        match i.setData (dest - x.address), wider? i.opcode with
        | .ok i, _ =>
          modify (·.modifyItem n fun _ => .plain i)
          return false
        | .error e, some op =>
          if isRange e then
            let i ← i.setOpcode op
            modify (·.modifyItem n fun _ => .plain i)
            return true
          else throw e
        | .error e, none => throw e
    else return false
  | _ => return false

/-- The offsets of a table's cases, from number `i` on; those before a failure are kept. -/
def encodeCases (op : Opcode) (base : Int) : Nat → List Case → Except Stop PUnit × List Case
  | _, [] => (.ok ⟨⟩, [])
  | i, c :: rest =>
    match if c.handle = .finish then none else s.addressOf? c.handle with
    | none =>
      (fail (.within (op.name ++ ascii " case " ++ decimal i) .missingTarget), c :: rest)
    | some dest =>
      let (r, rest) := encodeCases op base (i + 1) rest
      (r, c.setOffset (dest - base) :: rest)

/-- Writes the offsets of a table's cases; a table that no switch owns keeps those it has. -/
def encodeTable (n : Nat) : Action Sequence PUnit := do
  let s ← get
  match (s.node? n).map Node.item with
  | some x =>
    match x.owner?.bind s.addressOf? with
    | some base =>
      let (r, cases) := s.encodeCases x.opcode base 0 x.cases
      modify (·.modifyItem n (Item.setCases cases))
      r
    | none => pure ⟨⟩
  | none => pure ⟨⟩

/-- Writes every target as an offset, and says whether some jump had to be widened. -/
def encodeOffsets : Action Sequence Bool := do
  let mut grown := false
  for n in (← get).items.toList do
    let g ← encodeBranch n
    encodeTable n
    grown := grown || g
  return grown

/-- Repeats the encoding until no jump has to be widened; every jump is widened at most twice. -/
def settle : Nat → Action Sequence PUnit
  | 0 => pure ⟨⟩
  | fuel + 1 => do
    if ← encodeOffsets then
      modify layout
      settle fuel
    else pure ⟨⟩

def refreshItem (n : Nat) : Action Sequence PUnit := do
  let s ← get
  match (s.node? n).map Node.item with
  | some (.plain _) | none => pure ⟨⟩
  | some x =>
    let (r, x) := Item.refresh.apply x
    modify (·.modifyItem n fun _ => x)
    r

/-- Brings offsets, tables and the size cell up to date. -/
def refresh : Action Sequence PUnit := do
  if 0 < (← get).depth then Action.refuse .refreshInBracket
  else
    modify relink
    settle (2 * (← get).items.size + 1)
    for n in (← get).items.toList do refreshItem n
    modify fun s => { s with size := s.size.map (·.set s.units) }

/-- The pieces it is written in. -/
def pieces : List Bytes := s.contents.flatMap fun x => x.item.pieces

def bytes : Bytes := s.pieces.flatten

def byteCount : Nat := total (s.contents.map fun x => x.item.byteCount)

end Sequence

end Dalvik
