import Dalvik.Code.Sequence

/-!
# Exception handlers

A handler lists exception types with the instructions that take them, and optionally one that takes
everything. The sign of its stored size says whether it catches all. Several ranges of code may
share a handler.
-/

namespace Dalvik

/-- A type and the instruction that handles it. -/
structure CatchPair where
  type : Uleb := {}
  /-- The address as it is stored. -/
  address : Uleb := {}
  handler : Handle := .none
  deriving DecidableEq, Repr, Inhabited

namespace CatchPair

def decode (c : Cursor) : Action CatchPair Cursor := do
  let c ← Action.on (·.type) (fun v p => { p with type := v }) (Uleb.decode c)
  Action.on (·.address) (fun v p => { p with address := v }) (Uleb.decode c)

def pieces (p : CatchPair) : List Bytes := [p.type.bytes, p.address.bytes]

def byteCount (p : CatchPair) : Nat := p.type.size + p.address.size

end CatchPair

structure CatchHandler where
  size : Sleb := {}
  pairs : List CatchPair := []
  catchesAll : Bool := false
  /-- The stored address of the instruction that takes everything. -/
  allAddress : Uleb := {}
  all : Handle := .none
  /-- Where it stands in the list of handlers, as of the last layout. -/
  offset : Nat := 0
  deriving DecidableEq, Repr, Inhabited

namespace CatchHandler

variable (h : CatchHandler)

/-- Stores the number of pairs, negative if it catches all. -/
def updateSize : CatchHandler :=
  let n : Int := h.pairs.length
  { h with size := h.size.set (if h.catchesAll then -n else n) }

def addPair (type : Int) (handler : Handle) : CatchHandler :=
  updateSize { h with pairs := h.pairs ++ [{ type := Uleb.set {} type, handler }] }

/-- Sets the instruction that takes everything; the handle of nothing takes it away. -/
def setAll (handler : Handle) : CatchHandler :=
  updateSize { h with catchesAll := handler != .none, all := handler }

def pieces : List Bytes :=
  h.size.bytes :: h.pairs.flatMap CatchPair.pieces ++
    if h.catchesAll then [h.allAddress.bytes] else []

def byteCount : Nat :=
  h.size.size + total (h.pairs.map CatchPair.byteCount) + if h.catchesAll then h.allAddress.size else 0

def decode (c : Cursor) : Action CatchHandler Cursor := do
  let c ← Action.on (·.size) (fun v h => { h with size := v }) (Sleb.decode c)
  modify fun h => { h with catchesAll := h.size.get ≤ 0 }
  modify fun h => updateSize { h with pairs := resizeList h.size.get.natAbs {} h.pairs }
  let c ← Action.on (·.pairs) (fun v h => { h with pairs := v })
    (Action.of fun pairs => decodeEach CatchPair.decode 0 pairs c)
  if (← get).catchesAll then
    Action.on (·.allAddress) (fun v h => { h with allAddress := v }) (Uleb.decode c)
  else return c

/-- Follows an instruction that moved from one handle to another. -/
def retarget (source dest : Handle) : CatchHandler :=
  let move (x : Handle) := if x = source then dest else x
  { h with pairs := h.pairs.map fun p => { p with handler := move p.handler }, all := move h.all }

end CatchHandler

/-- A range of code with a handler. -/
structure TryItem where
  /-- The stored first address, number of code units and place of the handler. -/
  start : UInt32 := 0
  count : UInt16 := 0
  handlerOffset : UInt16 := 0
  first : Handle := .none
  /-- The first instruction past the range. -/
  past : Handle := .none
  /-- The slot of the handler. -/
  handler : Option Nat := none
  deriving DecidableEq, Repr, Inhabited

namespace TryItem

def decode (c : Cursor) : Action TryItem Cursor := do
  let c ← Action.on (·.start) (fun v t => { t with start := v }) (decodeU32 c)
  let c ← Action.on (·.count) (fun v t => { t with count := v }) (decodeU16 c)
  Action.on (·.handlerOffset) (fun v t => { t with handlerOffset := v }) (decodeU16 c)

def pieces (t : TryItem) : List Bytes := [bytesU32 t.start, bytesU16 t.count, bytesU16 t.handlerOffset]

def byteCount (_ : TryItem) : Nat := 4 + 2 + 2

def retarget (source dest : Handle) (t : TryItem) : TryItem :=
  let move (x : Handle) := if x = source then dest else x
  { t with first := move t.first, past := move t.past }

end TryItem

end Dalvik
