import Dalvik.Code.Payload

/-!
# Encoded values

The values that initialise static fields and stand in notes: a byte with the kind and a small
argument, then up to eight bytes, a nested array or a nested note. Numbers are stored in as few
bytes as carry them.
-/

namespace Dalvik

inductive ValueKind where
  | byte
  | short
  | char
  | int
  | long
  | float
  | double
  | methodType
  | methodHandle
  | string
  | type
  | field
  | method
  | enum
  | array
  | note
  | null
  | boolean
  deriving DecidableEq, Repr, Inhabited

namespace ValueKind

def all : List ValueKind :=
  [.byte, .short, .char, .int, .long, .float, .double, .methodType, .methodHandle, .string, .type,
    .field, .method, .enum, .array, .note, .null, .boolean]

def tag : ValueKind → Nat
  | .byte => 0x00
  | .short => 0x02
  | .char => 0x03
  | .int => 0x04
  | .long => 0x06
  | .float => 0x10
  | .double => 0x11
  | .methodType => 0x15
  | .methodHandle => 0x16
  | .string => 0x17
  | .type => 0x18
  | .field => 0x19
  | .method => 0x1a
  | .enum => 0x1b
  | .array => 0x1c
  | .note => 0x1d
  | .null => 0x1e
  | .boolean => 0x1f

def name : ValueKind → Bytes
  | .byte => ascii "byte"
  | .short => ascii "short"
  | .char => ascii "char"
  | .int => ascii "int"
  | .long => ascii "long"
  | .float => ascii "float"
  | .double => ascii "double"
  | .methodType => ascii "method_type"
  | .methodHandle => ascii "method_handle"
  | .string => ascii "string"
  | .type => ascii "type"
  | .field => ascii "field"
  | .method => ascii "method"
  | .enum => ascii "enum"
  | .array => ascii "array"
  | .note => ascii "annotation"
  | .null => ascii "null"
  | .boolean => ascii "boolean"

def ofTag? (t : Nat) : Option ValueKind := all.find? fun k => k.tag == t

/-- The name of a tag; a tag that no kind has is shown as it is. -/
def nameOf (t : Nat) : Bytes :=
  match ofTag? t with
  | some k => k.name
  | none => ascii "value(0x" ++ hexWide 2 t ++ ascii ")"

/-- The most bytes a value of the kind may take; 0 for those kept in the first byte or nested. -/
def maxSize : ValueKind → Nat
  | .byte => 1
  | .short | .char => 2
  | .int | .float | .methodType | .methodHandle | .string | .type | .field | .method | .enum => 4
  | .long | .double => 8
  | _ => 0

/-- The kind of constant that an index value refers to. -/
def refers? : ValueKind → Option Kind
  | .methodType => some .proto
  | .methodHandle => some .methodHandle
  | .string => some .string
  | .type => some .type
  | .field | .enum => some .field
  | .method => some .method
  | _ => none

end ValueKind

inductive Value where
  /-- The tag of a kind that nests nothing, its argument and its bytes. -/
  | plain (tag arg : Nat) (data : Bytes)
  | array (arg : Nat) (size : Uleb) (items : List Value)
  | note (arg : Nat) (type size : Uleb) (elements : List (Uleb × Value))
  deriving Inhabited

namespace Value

def null : Value := .plain ValueKind.null.tag 0 []

def tag : Value → Nat
  | .plain tag _ _ => tag
  | .array .. => ValueKind.array.tag
  | .note .. => ValueKind.note.tag

def kindName (v : Value) : Bytes := ValueKind.nameOf v.tag

/-- How many values or notes stand directly below. -/
def childCount : Value → Nat
  | .plain .. => 0
  | _ => 1

mutual

def byteCount : Value → Nat
  | .plain _ _ data => 1 + data.length
  | .array _ size items => 1 + size.size + itemsByteCount items
  | .note _ type size elements => 1 + type.size + size.size + elementsByteCount elements

def itemsByteCount : List Value → Nat
  | [] => 0
  | v :: rest => v.byteCount + itemsByteCount rest

def elementsByteCount : List (Uleb × Value) → Nat
  | [] => 0
  | (name, v) :: rest => name.size + v.byteCount + elementsByteCount rest

end

private def first (arg tag : Nat) : Bytes := [UInt8.ofNat (arg * 32 + tag)]

mutual

/-- The pieces it is written in. -/
def pieces : Value → List Bytes
  | .plain tag arg data => [first arg tag, data]
  | .array arg size items => first arg ValueKind.array.tag :: size.bytes :: itemPieces items
  | .note arg type size elements =>
    first arg ValueKind.note.tag :: type.bytes :: size.bytes :: elementPieces elements

def itemPieces : List Value → List Bytes
  | [] => []
  | v :: rest => v.pieces ++ itemPieces rest

def elementPieces : List (Uleb × Value) → List Bytes
  | [] => []
  | (name, v) :: rest => name.bytes :: v.pieces ++ elementPieces rest

end

def bytes (v : Value) : Bytes := v.pieces.flatten

mutual

/-- Makes every stored size the number of elements. -/
def refresh : Value → Value
  | .plain tag arg data => .plain tag arg data
  | .array arg size items => .array arg (size.set items.length) (refreshItems items)
  | .note arg type size elements =>
    .note arg type (size.set elements.length) (refreshElements elements)

def refreshItems : List Value → List Value
  | [] => []
  | v :: rest => v.refresh :: refreshItems rest

def refreshElements : List (Uleb × Value) → List (Uleb × Value)
  | [] => []
  | (name, v) :: rest => (name, v.refresh) :: refreshElements rest

end

/-! ## Reading -/

/-- Changes the first element of a pair. -/
def onFirst {α β γ : Type} (act : Action α γ) : Action (α × β) γ :=
  Action.on Prod.fst (fun a x => (a, x.2)) act

def onSecond {α β γ : Type} (act : Action β γ) : Action (α × β) γ :=
  Action.on Prod.snd (fun b x => (x.1, b)) act

/-- Reads a size and as many elements, which start out as `fresh`. -/
def decodeSized {α : Type} (fresh : α) (element : Cursor → Action α Cursor) (c : Cursor) :
    Action (Uleb × List α) Cursor := do
  let c ← onFirst (Uleb.decode c)
  modify fun x => (x.1, resizeList x.1.value.toNat fresh x.2)
  onSecond (Action.of fun xs => decodeEach element 0 xs c)

/-- Reads a value in place. Each level of nesting takes a byte, so `fuel` may be the bytes left. -/
def decodeFuel : Nat → Cursor → Action Value Cursor
  | 0, c => do return (← c.u8).2
  | fuel + 1, c => do
    let start := c.pos
    let refuse (d : Defect) : Action Value Cursor :=
      Action.refuse (.malformed (ascii "encoded value") start d)
    let (b, c) ← c.u8
    let tag := b.toNat % 32
    let arg := b.toNat / 32
    set (Value.plain tag arg [])
    match ValueKind.ofTag? tag with
    | none => refuse (.valueType tag)
    | some .array =>
      let (r, size, items) := (decodeSized null (decodeFuel fuel) c).apply ({}, [])
      set (Value.array arg size items)
      r
    | some .note =>
      let element (c : Cursor) : Action (Uleb × Value) Cursor := do
        let c ← onFirst (Uleb.decode c)
        onSecond (decodeFuel fuel c)
      let (r, type) := (Uleb.decode c).apply {}
      set (Value.note arg type {} [])
      let c ← r
      let (r, size, elements) := (decodeSized ({}, null) element c).apply ({}, [])
      set (Value.note arg type size elements)
      r
    | some .null => return c
    | some .boolean => if 1 < arg then refuse (.booleanArgument arg) else return c
    | some kind =>
      if kind.maxSize < arg + 1 then refuse (.valueWidth (arg + 1) kind.name)
      else
        let (data, c) ← c.bytes (arg + 1)
        set (Value.plain tag arg data)
        return c

def decode (c : Cursor) : Action Value Cursor := decodeFuel (c.available + 1) c

/-! ## Constants -/

/-- The constant it stands for; an index that the pool cannot resolve stays raw. -/
def constant (pool : Option Pool) : Value → Except Stop Constant
  | .plain tag arg data =>
    let unsigned := littleEndian data
    let signed := Literal.signExtend (8 * data.length) unsigned
    let filled (width : Nat) := unsigned * Nat.pow 256 (width - data.length)
    match ValueKind.ofTag? tag with
    | some .byte => .ok (.literal (.byte signed))
    | some .short => .ok (.literal (.short signed))
    | some .char => .ok (.literal (.char (UInt16.ofNat unsigned)))
    | some .int => .ok (.literal (.int signed))
    | some .long => .ok (.literal (.long signed))
    | some .float => .ok (.literal (.float (filled 4)))
    | some .double => .ok (.literal (.double (filled 8)))
    | some .null => .ok .null
    | some .boolean => .ok (.literal (.boolean (arg != 0)))
    | k =>
      let kind := (k.bind ValueKind.refers?).getD .string
      let raw := Constant.raw kind unsigned
      match pool with
      | some p => .ok ((p.lookup kind unsigned).toOption.getD raw)
      | none => .ok raw
  | v => fail (.noConstant v.kindName)

/-- Drops the last byte for as long as `redundant` holds of it and the one before. -/
def shorten (redundant : UInt8 → UInt8 → Bool) : List UInt8 → List UInt8
  | top :: next :: rest =>
    if redundant top next then shorten redundant (next :: rest) else top :: next :: rest
  | s => s

/-- The fewest bytes that sign-extend to a number. -/
def signedBytes (n : Int) : Bytes :=
  (shorten (fun top next => (top = 0 && next < 0x80) || (top = 0xff && 0x80 ≤ next))
    (toLittleEndian 8 (n % twoPow 64).toNat).reverse).reverse

/-- The fewest bytes that zero-extend to a number. -/
def unsignedBytes (n : Nat) : Bytes :=
  (shorten (fun top _ => top = 0) (toLittleEndian 8 n).reverse).reverse

/-- The bytes without the low zeros, which reading fills in again; one byte is always left. -/
def rightZeroBytes (size n : Nat) : Bytes := shorten (fun low _ => low = 0) (toLittleEndian size n)

def payload (kind : ValueKind) (data : Bytes) : Value := .plain kind.tag (data.length - 1) data

def ofLiteral (p : Literal) : Value :=
  match p.kind with
  | .boolean => .plain ValueKind.boolean.tag (if p.toBool then 1 else 0) []
  | .byte => payload .byte [UInt8.ofInt p.toLong]
  | .short => payload .short (signedBytes p.toLong)
  | .char => payload .char (unsignedBytes p.stored)
  | .int => payload .int (signedBytes p.toInt)
  | .long => payload .long (signedBytes p.toLong)
  | .float => payload .float (rightZeroBytes 4 p.stored)
  | .double => payload .double (rightZeroBytes 8 p.stored)

/-- The kind of value that refers to a constant. A field of its own class's type is an enumeration
constant. -/
def kindFor? : Constant → Option ValueKind
  | .string _ => some .string
  | .type _ => some .type
  | .field f => some (if f.type = f.owner then .enum else .field)
  | .method _ => some .method
  | .proto _ => some .methodType
  | .raw k _ => ValueKind.all.find? fun v => v.refers? == some k && v != .enum
  | _ => none

/-- The value of a constant in the shortest form; the pool takes in what it refers to. -/
def ofConstant (k : Option Constant) : Action (Option Pool) Value := do
  match k with
  | some (.literal p) => return ofLiteral p
  | some .null => return null
  | _ =>
    match k, k.bind kindFor? with
    | some k, some kind =>
      match k, ← get with
      | .raw _ i, _ => return payload kind (unsignedBytes (i % twoPow 32).toNat)
      | _, none => Action.refuse (.unresolved k.kind.name k.text)
      | _, some pool =>
        let (i, pool) ← pool.intern k
        set (some pool)
        return payload kind (unsignedBytes (i % twoPow 32).toNat)
    | k, _ => Action.refuse (.notEncodableValue ((k.map Constant.text).getD (ascii "<nil>")))

end Value

/-! ## Arrays -/

/-- A stored number of values, and the values. -/
structure ValueArray where
  size : Uleb := {}
  items : List Value := []
  deriving Inhabited

namespace ValueArray

variable (a : ValueArray)

def updateSize : ValueArray := { a with size := a.size.set a.items.length }

def byteCount : Nat := a.size.size + Value.itemsByteCount a.items

def pieces : List Bytes := a.size.bytes :: Value.itemPieces a.items

def bytes : Bytes := a.pieces.flatten

def refresh : ValueArray := updateSize { a with items := Value.refreshItems a.items }

def resize (n : Int) : ValueArray := updateSize { a with items := resizeList n.toNat Value.null a.items }

def push (v : Value) : ValueArray := updateSize { a with items := a.items ++ [v] }

def removeAt (i : Int) : Except Stop (Value × ValueArray) :=
  match if i < 0 then none else a.items[i.toNat]? with
  | some v => .ok (v, updateSize { a with items := a.items.eraseIdx i.toNat })
  | none => fault none

def setAt (i : Nat) (v : Value) : ValueArray := { a with items := a.items.set i v }

def decode (c : Cursor) : Action ValueArray Cursor := do
  let c ← Action.on (·.size) (fun size a => { a with size }) (Uleb.decode c)
  modify fun a => { a with items := resizeList a.size.value.toNat Value.null a.items }
  Action.on (·.items) (fun items a => { a with items })
    (Action.of fun items => decodeEach Value.decode 0 items c)

/-- The constants of all elements. -/
def constants (pool : Option Pool) : Except Stop (List Constant) :=
  a.items.zipIdx.mapM fun (v, i) => labelled (ascii "element " ++ decimal i) (v.constant pool)

/-- Sets elements from number `i` on; those before a failure are kept. -/
private def setFrom : Nat → List (Option Constant) → Action (ValueArray × Option Pool) PUnit
  | _, [] => pure ⟨⟩
  | i, k :: rest => do
    let v ← Action.on Prod.snd (fun p x => (x.1, p))
      (Action.within (ascii "element " ++ decimal i) (Value.ofConstant k))
    modify fun x => (x.1.setAt i v, x.2)
    setFrom (i + 1) rest

/-- Replaces the contents by constants. -/
def setConstants (ks : List (Option Constant)) : Action (ValueArray × Option Pool) PUnit := do
  modify fun x => (x.1.resize ks.length, x.2)
  setFrom 0 ks

end ValueArray

end Dalvik
