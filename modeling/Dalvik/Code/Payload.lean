import Dalvik.Code.Instruction
import Dalvik.Table

/-!
# Payloads

The data that switches and array initialisers refer to. A switch table pairs case values with
targets: a packed one has consecutive values from a first one on, a sparse one lists them. Each
case keeps the offset it is encoded as and the handle of the instruction it lands on.
-/

namespace Dalvik

/-- One case of a switch: the offset from the switch, and the instruction it stands for. -/
structure Case where
  offset : UInt32 := 0
  handle : Handle := .none
  deriving DecidableEq, Repr, Inhabited

namespace Case

def decode (c : Cursor) : Action Case Cursor :=
  Action.on (·.offset) (fun offset x => { x with offset }) (decodeU32 c)

def bytes (x : Case) : Bytes := bytesU32 x.offset

def setOffset (n : Int) (x : Case) : Case := { x with offset := UInt32.ofInt n }

/-- Follows an instruction that moved from one handle to another. -/
def retarget (source dest : Handle) (x : Case) : Case :=
  if x.handle = source then { x with handle := dest } else x

end Case

/-- Cuts a list to `n` elements or fills it up with `fresh` ones. -/
def resizeList {α : Type} (n : Nat) (fresh : α) (xs : List α) : List α :=
  xs.take n ++ List.replicate (n - xs.length) fresh

/-- Reads elements in place, the first of them being number `i`; those before a failure are kept. -/
def decodeEach {α : Type} (element : Cursor → Action α Cursor) :
    Nat → List α → Cursor → Except Stop Cursor × List α
  | _, [], c => (.ok c, [])
  | i, x :: rest, c =>
    match (element c).apply x with
    | (.error e, x) => (.error (e.within (ascii "element " ++ decimal i)), x :: rest)
    | (.ok c, x) =>
      let (r, rest) := decodeEach element (i + 1) rest c
      (r, x :: rest)

/-- Checks the unit a payload starts with. -/
def checkIdentifier (what : String) (start : Nat) (got : UInt16) (op : Opcode) : Except Stop PUnit :=
  if got.toNat = op.value then .ok ⟨⟩
  else fail (.malformed (ascii what) start (.identifier got.toNat op.value))

/-! ## Packed switch tables -/

structure PackedTable where
  identifier : UInt16 := UInt16.ofNat Opcode.packedSwitchPayload.value
  /-- The stored number of cases. -/
  size : UInt16 := 0
  first : UInt32 := 0
  cases : List Case := []
  /-- The switch that refers to the table. -/
  owner : Handle := .none
  deriving DecidableEq, Repr, Inhabited

namespace PackedTable

def updateSize (p : PackedTable) : PackedTable := { p with size := UInt16.ofNat p.cases.length }

/-- The value of case `i`. -/
def key (p : PackedTable) (i : Nat) : Int := wrap32 (signed32 p.first + i)

def keys (p : PackedTable) : List Int := (List.range p.cases.length).map p.key

def push (p : PackedTable) (x : Case) : PackedTable := updateSize { p with cases := p.cases ++ [x] }

def resize (p : PackedTable) (n : Int) : PackedTable :=
  updateSize { p with cases := resizeList n.toNat {} p.cases }

def removeAt (p : PackedTable) (i : Int) : Except Stop PackedTable :=
  if 0 ≤ i ∧ i < p.cases.length then .ok (updateSize { p with cases := p.cases.eraseIdx i.toNat })
  else fault none

/-- The pieces it is written in. -/
def pieces (p : PackedTable) : List Bytes :=
  bytesU16 p.identifier :: bytesU16 p.size :: bytesU32 p.first :: p.cases.map Case.bytes

def byteCount (p : PackedTable) : Nat := 8 + 4 * p.cases.length

def decode (c : Cursor) : Action PackedTable Cursor := do
  let start := c.pos
  let c ← Action.on (·.identifier) (fun v p => { p with identifier := v }) (decodeU16 c)
  let c ← Action.on (·.size) (fun v p => { p with size := v }) (decodeU16 c)
  let c ← Action.on (·.first) (fun v p => { p with first := v }) (decodeU32 c)
  modify fun p => { p with cases := resizeList p.size.toNat {} p.cases }
  let c ← Action.on (·.cases) (fun v p => { p with cases := v })
    (Action.of fun cases => decodeEach Case.decode 0 cases c)
  checkIdentifier "packed-switch payload" start (← get).identifier Opcode.packedSwitchPayload
  return c

end PackedTable

/-! ## Sparse switch tables -/

/-- Values and cases are two lists that share one stored size and are sorted together. -/
structure SparseTable where
  identifier : UInt16 := UInt16.ofNat Opcode.sparseSwitchPayload.value
  size : UInt16 := 0
  keys : List UInt32 := []
  cases : List Case := []
  owner : Handle := .none
  /-- A change may have broken the order. -/
  unsorted : Bool := false
  deriving DecidableEq, Repr, Inhabited

namespace SparseTable

def updateSize (s : SparseTable) : SparseTable := { s with size := UInt16.ofNat s.cases.length }

def values (s : SparseTable) : List Int := s.keys.map signed32

def push (s : SparseTable) (key : Int) (x : Case) : SparseTable :=
  updateSize { s with keys := s.keys ++ [UInt32.ofInt key], cases := s.cases ++ [x], unsorted := true }

/-- Changes the value of case `i`. -/
def setKey (s : SparseTable) (i key : Int) : Except Stop SparseTable :=
  if 0 ≤ i ∧ i < s.keys.length then
    .ok { s with keys := s.keys.set i.toNat (UInt32.ofInt key), unsorted := true }
  else fault none

def removeAt (s : SparseTable) (i : Int) : Except Stop SparseTable :=
  if 0 ≤ i ∧ i < s.keys.length ∧ i < s.cases.length then
    .ok (updateSize { s with keys := s.keys.eraseIdx i.toNat, cases := s.cases.eraseIdx i.toNat })
  else fault none

def keyOrder (x y : UInt32) : Ordering := compare (signed32 x) (signed32 y)

/-- Puts at position `i` what was at position `perm[i]`. -/
def arrange {α : Type} (perm : List Nat) (xs : List α) : List α := perm.filterMap (xs[·]?)

/-- Sorts by value, each case staying with its value; says whether anything moved. -/
def sort (s : SparseTable) : Except Stop (Bool × SparseTable) :=
  let s := { s with unsorted := false }
  if Table.needsSort keyOrder s.keys then
    let perm := Table.sorting keyOrder s.keys
    if perm.length = s.cases.length then
      .ok (true, { s with keys := arrange perm s.keys, cases := arrange perm s.cases })
    else fault (some (Failure.permutation perm.length s.cases.length).message)
  else .ok (false, s)

/-- The first value that equals the one before it. -/
def repeated? : List Int → Option Int
  | a :: b :: rest => if a = b then some b else repeated? (b :: rest)
  | _ => none

/-- Restores the order and the stored size; two cases must not share a value. -/
def refresh : Action SparseTable PUnit := do
  let s ← get
  if s.unsorted || Table.needsSort keyOrder s.keys then set (← s.sort).2
  match repeated? (← get).values with
  | some k => Action.refuse (.repeatedKey k)
  | none => modify updateSize

def pieces (s : SparseTable) : List Bytes :=
  bytesU16 s.identifier :: bytesU16 s.size :: (s.keys.map bytesU32 ++ s.cases.map Case.bytes)

def byteCount (s : SparseTable) : Nat := 4 + 4 * s.keys.length + 4 * s.cases.length

def decode (c : Cursor) : Action SparseTable Cursor := do
  let start := c.pos
  let c ← Action.on (·.identifier) (fun v s => { s with identifier := v }) (decodeU16 c)
  let c ← Action.on (·.size) (fun v s => { s with size := v }) (decodeU16 c)
  modify fun s => { s with keys := resizeList s.size.toNat 0 s.keys }
  let c ← Action.on (·.keys) (fun v s => { s with keys := v })
    (Action.of fun keys => decodeEach decodeU32 0 keys c)
  modify fun s => { s with cases := resizeList s.size.toNat {} s.cases }
  let c ← Action.on (·.cases) (fun v s => { s with cases := v })
    (Action.of fun cases => decodeEach Case.decode 0 cases c)
  checkIdentifier "sparse-switch payload" start (← get).identifier Opcode.sparseSwitchPayload
  return c

/-- The equivalent packed table of a table whose values, once sorted, are consecutive. The table
itself is left sorted. -/
def toPacked : Action SparseTable PackedTable := do
  let (_, s) ← (← get).sort
  set s
  let values := s.values
  match (values.zip (values.drop 1)).find? fun (a, b) => b ≠ a + 1 with
  | some (a, b) => Action.refuse (.notSequential b a)
  | none =>
    return PackedTable.updateSize
      { owner := s.owner, first := s.keys.headD 0, cases := s.cases }

end SparseTable

/-- The equivalent sparse table. -/
def PackedTable.toSparse (p : PackedTable) : SparseTable :=
  SparseTable.updateSize
    { keys := p.keys.map UInt32.ofInt, cases := p.cases, owner := p.owner, unsorted := !p.cases.isEmpty }

/-! ## Array contents -/

/-- Elements of one width, padded to a whole number of code units. -/
structure ArrayPayload where
  identifier : UInt16 := UInt16.ofNat Opcode.arrayPayload.value
  width : UInt16 := 1
  count : UInt32 := 0
  data : Bytes := []
  pad : Bytes := []
  deriving DecidableEq, Repr, Inhabited

namespace ArrayPayload

def isWidth (w : Int) : Bool := w = 1 || w = 2 || w = 4 || w = 8

/-- Cuts into chunks of `w + 1` bytes; a shorter rest is dropped. -/
def chunks (w : Nat) (s : Bytes) : List Bytes :=
  if (s.take (w + 1)).length = w + 1 then s.take (w + 1) :: chunks w (s.drop (w + 1)) else []
termination_by s.length
decreasing_by all_goals (simp only [List.length_take, List.length_drop] at *; omega)

/-- The elements, sign-extended. -/
def values (a : ArrayPayload) : List Int :=
  (chunks (a.width.toNat - 1) a.data).map fun b =>
    Literal.signExtend (8 * a.width.toNat) (littleEndian b)

/-- Replaces the elements, each stored in `width` bytes. -/
def setValues (a : ArrayPayload) (width : Int) (values : List Int) : Except Stop ArrayPayload :=
  if isWidth width then
    let data := values.flatMap fun (v : Int) => toLittleEndian width.toNat (v % twoPow 64).toNat
    .ok { a with
      width := UInt16.ofInt width
      count := UInt32.ofNat values.length
      data
      pad := resizeList (data.length % 2) 0 a.pad }
  else fail (.elementWidth width)

def pieces (a : ArrayPayload) : List Bytes :=
  [bytesU16 a.identifier, bytesU16 a.width, bytesU32 a.count, a.data, a.pad]

def byteCount (a : ArrayPayload) : Nat := 8 + a.data.length + a.pad.length

def decode (c : Cursor) : Action ArrayPayload Cursor := do
  let start := c.pos
  let refuse (d : Defect) := Action.refuse (.malformed (ascii "array payload") start d)
  let c ← Action.on (·.identifier) (fun v a => { a with identifier := v }) (decodeU16 c)
  let c ← Action.on (·.width) (fun v a => { a with width := v }) (decodeU16 c)
  let c ← Action.on (·.count) (fun v a => { a with count := v }) (decodeU32 c)
  let a ← get
  checkIdentifier "array payload" start a.identifier Opcode.arrayPayload
  let width := a.width.toNat
  let n := width * a.count.toNat
  if !isWidth width then refuse (.elementWidth width)
  else if c.available < n then refuse (.elementsOverrun a.count.toNat width)
  else
    set { a with data := resizeList n 0 a.data, pad := resizeList (n % 2) 0 a.pad }
    let c ← Action.on (·.data) (fun v a => { a with data := v }) (decodeRun c)
    Action.on (·.pad) (fun v a => { a with pad := v }) (decodeRun c)

end ArrayPayload

end Dalvik
