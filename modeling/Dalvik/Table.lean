import Dalvik.Cell

/-!
# Tables

An ordered list of elements with an optional count cell that every change keeps equal to the
length. An element lives in a slot of its own, so that it can be found again by identity after
others were inserted, removed or moved; the order lists the slots from first to last.
-/

namespace Dalvik

/-- What an element belongs to. -/
inductive Parent where
  | none
  | table
  | owner
  deriving DecidableEq, Repr, Inhabited

structure Slot (α : Type) where
  parent : Parent
  value : α
  deriving Repr

structure Table (α : Type) where
  count : Option Cell := none
  /-- Elements belong to the owner of the table instead of the table itself. -/
  owned : Bool := false
  slots : Array (Slot α) := #[]
  order : List Nat := []

namespace Table

variable {α β : Type}

instance : Inhabited (Table α) := ⟨{}⟩

def size (t : Table α) : Nat := t.order.length

/-- The elements from first to last. -/
def values (t : Table α) : List α := t.order.filterMap fun s => t.slots[s]?.map Slot.value

def slotAt? (t : Table α) (i : Int) : Option Nat := if i < 0 then none else t.order[i.toNat]?

def value? (t : Table α) (slot : Nat) : Option α := t.slots[slot]?.map Slot.value

def get? (t : Table α) (i : Int) : Option α := (t.slotAt? i).bind t.value?

/-- The element at a position that must exist. -/
def elementAt (t : Table α) (i : Int) : Except Stop α :=
  match t.get? i with
  | some v => .ok v
  | none => fault none

/-- The slot of a position that must exist. -/
def slotOf (t : Table α) (i : Int) : Except Stop Nat :=
  match t.slotAt? i with
  | some s => .ok s
  | none => fault none

def parent (t : Table α) (slot : Nat) : Parent := (t.slots[slot]?.map Slot.parent).getD .none

def indexOf? (t : Table α) (slot : Nat) : Option Nat := t.order.findIdx? (· == slot)

/-- The parent of new elements. -/
def home (t : Table α) : Parent := if t.owned then .owner else .table

def place (parent : Parent) (slots : Array (Slot α)) (s : Nat) : Array (Slot α) :=
  slots.modify s fun x => { x with parent }

/-- Hands the elements over to the owner. -/
def setOwner (t : Table α) : Table α :=
  { t with owned := true, slots := t.order.foldl (place .owner) t.slots }

/-- Changes the element in a slot. -/
def modifySlot (t : Table α) (slot : Nat) (f : α → α) : Table α :=
  { t with slots := t.slots.modify slot fun x => { x with value := f x.value } }

def update (t : Table α) (i : Int) (f : α → α) : Table α :=
  match t.slotAt? i with
  | some s => t.modifySlot s f
  | none => t

def updateCount (t : Table α) : Table α := { t with count := t.count.map (·.set t.order.length) }

def push (t : Table α) (v : α) : Table α :=
  updateCount { t with slots := t.slots.push ⟨t.home, v⟩, order := t.order ++ [t.slots.size] }

/-- Makes an element that is not in the table yet. -/
def create (t : Table α) (v : α) : Nat × Table α :=
  (t.slots.size, { t with slots := t.slots.push ⟨.none, v⟩ })

/-- Puts the element of a slot at the end, unless it is in the table. -/
def attach (t : Table α) (slot : Nat) : Table α :=
  if t.order.contains slot then t
  else updateCount { t with order := t.order ++ [slot], slots := place t.home t.slots slot }

def clear (t : Table α) : Table α :=
  updateCount { t with order := [], slots := t.order.foldl (place .none) t.slots }

/-- Puts an element before position `i`. -/
def insert (t : Table α) (i : Int) (v : α) : Except Stop (Table α) :=
  if i < 0 ∨ (t.order.length : Int) < i then fault none
  else .ok <| updateCount { t with
    slots := t.slots.push ⟨t.home, v⟩
    order := t.order.take i.toNat ++ t.slots.size :: t.order.drop i.toNat }

/-- Takes out the element at a position that must exist; it no longer has a parent. -/
def removeAt (t : Table α) (i : Int) : Except Stop (Slot α × Table α) :=
  match t.slotAt? i with
  | none => fault none
  | some s =>
    let t := updateCount { t with order := t.order.eraseIdx i.toNat, slots := place .none t.slots s }
    match t.slots[s]? with
    | some x => .ok (x, t)
    | none => fault none

/-- Takes out the element in a slot, if the table has it. -/
def remove (t : Table α) (slot : Nat) : Bool × Table α :=
  match t.indexOf? slot with
  | none => (false, t)
  | some i =>
    (true, updateCount { t with order := t.order.eraseIdx i, slots := place .none t.slots slot })

/-- Takes out every element that `p` holds of, and says how many there were. -/
def removeIf (t : Table α) (p : α → Bool) : Nat × Table α :=
  let (gone, kept) := t.order.partition fun s => (t.value? s).any p
  (gone.length, updateCount { t with order := kept, slots := gone.foldl (place .none) t.slots })

/-- Cuts the table to `n` elements or fills it up with `fresh` ones. -/
def resize (t : Table α) (n : Int) (fresh : α) : Table α :=
  let n := n.toNat
  let gone := t.order.drop n
  let extra := n - t.order.length
  updateCount { t with
    slots := gone.foldl (place .none) t.slots ++ Array.replicate extra ⟨t.home, fresh⟩
    order := t.order.take n ++ List.range' t.slots.size extra }

def ofValues (count : Option Cell) (vs : List α) : Table α :=
  updateCount { count, slots := (vs.map (Slot.mk .table)).toArray, order := List.range vs.length }

/-! ## Order -/

/-- Whether some element is greater than its successor. -/
def needsSort (cmp : α → α → Ordering) : List α → Bool
  | a :: b :: r => cmp a b == .gt || needsSort cmp (b :: r)
  | _ => false

/-- The positions in stable sorted order. -/
def sorting (cmp : α → α → Ordering) (vs : List α) : List Nat :=
  ((vs.zipIdx).mergeSort fun x y => cmp x.1 y.1 != .gt).map Prod.snd

/-- Puts at position `i` what was at position `perm[i]`. -/
def permute (t : Table α) (perm : List Int) : Except Stop (Table α) :=
  if perm.length ≠ t.order.length then fail (.permutation perm.length t.order.length)
  else do
    let order ← perm.mapM fun i =>
      match t.slotAt? i with
      | some s => .ok s
      | none => fault none
    return { t with order }

/-- A permutation that does not fit is a fault here. -/
def permuteOrFault (t : Table α) (perm : List Nat) : Except Stop (Table α) :=
  match t.permute (perm.map Int.ofNat) with
  | .error (.failure e) => fault (some e.message)
  | r => r

/-- Sorts stably; nothing changes, and the answer is false, when the order already holds. -/
def sort (t : Table α) (cmp : α → α → Ordering) : Except Stop (Bool × Table α) := do
  if needsSort cmp t.values then
    let t ← t.permuteOrFault (sorting cmp t.values)
    return (true, t)
  else return (false, t)

/-- Sorts stably and moves the elements of a parallel table along. -/
def sortWith (t : Table α) (cmp : α → α → Ordering) (u : Table β) :
    Except Stop (Bool × Table α × Table β) := do
  if needsSort cmp t.values then
    let perm := sorting cmp t.values
    let u ← u.permuteOrFault perm
    let t ← t.permuteOrFault perm
    return (true, t, u)
  else return (false, t, u)

/-! ## Encoding -/

/-- Reads the elements of the given slots in place, the first of them being number `i`. -/
def decodeSlots (element : Cursor → Action α Cursor) : Nat → List Nat → Cursor → Action (Table α) Cursor
  | _, [], c => pure c
  | i, s :: rest, c => do
    let c ← Action.of fun t =>
      match t.slots[s]? with
      | none => (.ok c, t)
      | some x =>
        let (r, v) := (element c).apply x.value
        (r.mapError (Stop.within (ascii "element " ++ decimal i)),
          { t with slots := t.slots.setIfInBounds s { x with value := v } })
    decodeSlots element (i + 1) rest c

/-- Reads the count cell, if there is one. -/
def decodeCount (c : Cursor) : Action (Table α) Cursor :=
  Action.of fun t =>
    match t.count with
    | none => (.ok c, t)
    | some cell =>
      let (r, cell) := (Cell.decode c).apply cell
      (r, { t with count := some cell })

/-- Takes the size from the count cell, if there is one, and reads the elements in order. -/
def decode (fresh : α) (element : Cursor → Action α Cursor) (c : Cursor) : Action (Table α) Cursor := do
  modify fun t =>
    match t.count with
    | some cell => t.resize cell.get fresh
    | none => t
  let t ← get
  decodeSlots element 0 t.order c

end Table

end Dalvik
