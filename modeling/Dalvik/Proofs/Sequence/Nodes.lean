import Dalvik.Code.Sequence

/-!
# What the basic operations do to a node

A node is looked at in three ways: by its handle, its shape (its address, and its item without
links) and its item. Each basic operation has one equation for each of these, and later proofs do
not unfold the operations.
-/

namespace Dalvik

namespace Case

/-- The case without its handle. -/
def unlinked (c : Case) : Case := { c with handle := .none }

@[simp] theorem unlinked_offset (c : Case) : c.unlinked.offset = c.offset := rfl

@[simp] theorem unlinked_unlinked (c : Case) : c.unlinked.unlinked = c.unlinked := rfl

@[simp] theorem unlinked_retarget (source dest : Handle) (c : Case) :
    (c.retarget source dest).unlinked = c.unlinked := by
  unfold retarget
  split <;> rfl

theorem retarget_retarget (source dest : Handle) (c : Case) :
    (c.retarget source dest).retarget source dest = c.retarget source dest := by
  unfold retarget
  split
  · split <;> simp_all
  · simp_all

end Case

namespace Item

/-- The item without what it refers to and without its owner. -/
def unlinked : Item → Item
  | .plain x => .plain { x with target := .none }
  | .packed p => .packed { p with cases := p.cases.map Case.unlinked, owner := .none }
  | .sparse t => .sparse { t with cases := t.cases.map Case.unlinked, owner := .none }
  | .array a => .array a

/-- The code units that `layout` reserves for the item. -/
def extent (x : Item) : Nat := if x.isPadding then 1 else x.codeUnits

section Unlinked

variable (x : Item)

@[simp] theorem unlinked_isPadding : x.unlinked.isPadding = x.isPadding := by cases x <;> rfl

@[simp] theorem unlinked_isPayload : x.unlinked.isPayload = x.isPayload := by cases x <;> rfl

@[simp] theorem unlinked_opcode : x.unlinked.opcode = x.opcode := by cases x <;> rfl

@[simp] theorem unlinked_byteCount : x.unlinked.byteCount = x.byteCount := by
  cases x <;> simp [unlinked, byteCount, PackedTable.byteCount, SparseTable.byteCount]

@[simp] theorem unlinked_codeUnits : x.unlinked.codeUnits = x.codeUnits := by
  cases x <;>
    simp [unlinked, codeUnits, byteCount, PackedTable.byteCount, SparseTable.byteCount]

@[simp] theorem unlinked_extent : x.unlinked.extent = x.extent := by simp [extent]

@[simp] theorem unlinked_pieces : x.unlinked.pieces = x.pieces := by
  cases x <;>
    simp [unlinked, pieces, Instruction.bytes, PackedTable.pieces, SparseTable.pieces, Case.bytes,
      Function.comp_def]

@[simp] theorem unlinked_caseKeys : x.unlinked.caseKeys = x.caseKeys := by
  cases x <;> simp [unlinked, caseKeys, PackedTable.keys, SparseTable.values, PackedTable.key]

@[simp] theorem unlinked_unlinked : x.unlinked.unlinked = x.unlinked := by
  cases x <;> simp [unlinked, Function.comp_def]

@[simp] theorem unlinked_setOwner (h : Handle) : (x.setOwner h).unlinked = x.unlinked := by
  cases x <;> rfl

@[simp] theorem unlinked_retarget (source dest : Handle) :
    (x.retarget source dest).unlinked = x.unlinked := by
  cases x with
  | plain i =>
    simp only [retarget]
    split <;> rfl
  | packed p => simp [retarget, setCases, cases, unlinked, Function.comp_def]
  | sparse t => simp [retarget, setCases, cases, unlinked, Function.comp_def]
  | array a => rfl

theorem retarget_retarget (source dest : Handle) :
    (x.retarget source dest).retarget source dest = x.retarget source dest := by
  cases x with
  | plain i =>
    simp only [retarget]
    split
    · split <;> simp_all
    · simp_all
  | packed p => simp [retarget, setCases, cases, Function.comp_def, Case.retarget_retarget]
  | sparse t => simp [retarget, setCases, cases, Function.comp_def, Case.retarget_retarget]
  | array a => rfl

end Unlinked

end Item

/-- The address of a node, and its item without links. -/
def Node.shape (x : Node) : Int × Item := (x.address, x.item.unlinked)

namespace Sequence

variable {s : Sequence} {n m : Nat}

/-- The handle of a node that is in the sequence. -/
def handle? (s : Sequence) (n : Nat) : Option Nat := (s.node? n).bind Node.handle

def shape? (s : Sequence) (n : Nat) : Option (Int × Item) := (s.node? n).map Node.shape

def item? (s : Sequence) (n : Nat) : Option Item := (s.node? n).map Node.item

theorem handleOf_eq (s : Sequence) (n : Nat) : s.handleOf n = ((s.handle? n).getD 0 : Nat) := rfl

theorem handleOf_of_handle? {h : Nat} (hn : s.handle? n = some h) : s.handleOf n = h := by
  rw [handleOf_eq, hn, Option.getD_some]

theorem node?_isSome_of_handle? {h : Nat} (hn : s.handle? n = some h) : ∃ x, s.node? n = some x := by
  unfold handle? at hn
  cases hx : s.node? n with
  | none => simp [hx] at hn
  | some x => exact ⟨x, rfl⟩

theorem shape?_of_node? {x : Node} (hx : s.node? n = some x) : s.shape? n = some x.shape := by
  rw [shape?, hx, Option.map_some]

theorem item?_of_node? {x : Node} (hx : s.node? n = some x) : s.item? n = some x.item := by
  rw [item?, hx, Option.map_some]

theorem item?_eq_some {x : Item} : s.item? n = some x ↔ ∃ y, s.node? n = some y ∧ y.item = x := by
  simp [item?, Option.map_eq_some_iff]

/-- The code units of the item at a node. -/
def unitsOf (s : Sequence) (n : Nat) : Nat := ((s.item? n).map Item.codeUnits).getD 0

theorem unitsOf_of_item? {x : Item} (hx : s.item? n = some x) : s.unitsOf n = x.codeUnits := by
  rw [unitsOf, hx, Option.map_some, Option.getD_some]

/-! ## Changing one node -/

@[simp] theorem node?_modifyNode (f : Node → Node) :
    (s.modifyNode n f).node? m = if n = m then (s.node? m).map f else s.node? m := by
  simp [modifyNode, node?, Array.getElem?_modify]

@[simp] theorem arena_modifyNode (f : Node → Node) : (s.modifyNode n f).arena = s.arena := rfl
@[simp] theorem items_modifyNode (f : Node → Node) : (s.modifyNode n f).items = s.items := rfl
@[simp] theorem units_modifyNode (f : Node → Node) : (s.modifyNode n f).units = s.units := rfl
@[simp] theorem depth_modifyNode (f : Node → Node) : (s.modifyNode n f).depth = s.depth := rfl
@[simp] theorem moves_modifyNode (f : Node → Node) : (s.modifyNode n f).moves = s.moves := rfl
@[simp] theorem size_modifyNode (f : Node → Node) : (s.modifyNode n f).size = s.size := rfl
@[simp] theorem pool_modifyNode (f : Node → Node) : (s.modifyNode n f).pool = s.pool := rfl

@[simp] theorem arena_modifyItem (f : Item → Item) : (s.modifyItem n f).arena = s.arena := rfl
@[simp] theorem items_modifyItem (f : Item → Item) : (s.modifyItem n f).items = s.items := rfl
@[simp] theorem units_modifyItem (f : Item → Item) : (s.modifyItem n f).units = s.units := rfl
@[simp] theorem depth_modifyItem (f : Item → Item) : (s.modifyItem n f).depth = s.depth := rfl
@[simp] theorem moves_modifyItem (f : Item → Item) : (s.modifyItem n f).moves = s.moves := rfl
@[simp] theorem size_modifyItem (f : Item → Item) : (s.modifyItem n f).size = s.size := rfl
@[simp] theorem pool_modifyItem (f : Item → Item) : (s.modifyItem n f).pool = s.pool := rfl
@[simp] theorem named?_modifyItem (f : Item → Item) (h : Handle) : (s.modifyItem n f).named? h = s.named? h := rfl

theorem node?_modifyItem (f : Item → Item) :
    (s.modifyItem n f).node? m =
      if n = m then (s.node? m).map fun x => { x with item := f x.item } else s.node? m :=
  node?_modifyNode _

@[simp] theorem handle?_modifyItem (f : Item → Item) : (s.modifyItem n f).handle? m = s.handle? m := by
  unfold handle?
  rw [node?_modifyItem]
  split
  · cases s.node? m <;> rfl
  · rfl

@[simp] theorem item?_modifyItem (f : Item → Item) :
    (s.modifyItem n f).item? m = if n = m then (s.item? m).map f else s.item? m := by
  unfold item?
  rw [node?_modifyItem]
  split
  · cases s.node? m <;> rfl
  · rfl

/-- A change of links keeps every shape. -/
theorem shape?_modifyItem {f : Item → Item} (hf : ∀ x, s.item? n = some x → (f x).unlinked = x.unlinked) :
    (s.modifyItem n f).shape? m = s.shape? m := by
  unfold shape?
  rw [node?_modifyItem]
  split
  · next h =>
    subst h
    cases hx : s.node? n with
    | none => rfl
    | some x => simp [Node.shape, hf x.item (item?_of_node? hx)]
  · rfl

@[simp] theorem arena_setAddress (a : Int) : (s.setAddress n a).arena = s.arena := rfl
@[simp] theorem items_setAddress (a : Int) : (s.setAddress n a).items = s.items := rfl
@[simp] theorem depth_setAddress (a : Int) : (s.setAddress n a).depth = s.depth := rfl
@[simp] theorem moves_setAddress (a : Int) : (s.setAddress n a).moves = s.moves := rfl
@[simp] theorem size_setAddress (a : Int) : (s.setAddress n a).size = s.size := rfl
@[simp] theorem pool_setAddress (a : Int) : (s.setAddress n a).pool = s.pool := rfl

theorem node?_setAddress (a : Int) :
    (s.setAddress n a).node? m =
      if n = m then (s.node? m).map fun x => { x with address := a } else s.node? m :=
  node?_modifyNode _

@[simp] theorem handle?_setAddress (a : Int) : (s.setAddress n a).handle? m = s.handle? m := by
  unfold handle?
  rw [node?_setAddress]
  split
  · cases s.node? m <;> rfl
  · rfl

@[simp] theorem item?_setAddress (a : Int) : (s.setAddress n a).item? m = s.item? m := by
  unfold item?
  rw [node?_setAddress]
  split
  · cases s.node? m <;> rfl
  · rfl

theorem shape?_setAddress (a : Int) :
    (s.setAddress n a).shape? m =
      if n = m then (s.shape? m).map fun x => (a, x.2) else s.shape? m := by
  unfold shape?
  rw [node?_setAddress]
  split
  · cases s.node? m <;> rfl
  · rfl

/-! ## Making a node and giving it a handle -/

theorem node?_create (item : Item) :
    (s.create item).2.node? m = if m = s.nodes.size then some { item } else s.node? m := by
  simp [create, node?, Array.getElem?_push]

@[simp] theorem create_fst (item : Item) : (s.create item).1 = s.nodes.size := rfl
@[simp] theorem arena_create (item : Item) : (s.create item).2.arena = s.arena := rfl
@[simp] theorem items_create (item : Item) : (s.create item).2.items = s.items := rfl
@[simp] theorem depth_create (item : Item) : (s.create item).2.depth = s.depth := rfl
@[simp] theorem moves_create (item : Item) : (s.create item).2.moves = s.moves := rfl
@[simp] theorem size_create (item : Item) : (s.create item).2.size = s.size := rfl
@[simp] theorem pool_create (item : Item) : (s.create item).2.pool = s.pool := rfl

@[simp] theorem node?_size : s.node? s.nodes.size = none := by simp [node?]

theorem lt_size_of_node? {x : Node} (hx : s.node? n = some x) : n < s.nodes.size := by
  unfold node? at hx
  exact (Array.getElem?_eq_some_iff.1 hx).1

@[simp] theorem handle?_create (item : Item) : (s.create item).2.handle? m = s.handle? m := by
  unfold handle?
  rw [node?_create]
  split
  · next h => subst h; simp
  · rfl

theorem node?_create_self (s : Sequence) (item : Item) : (s.create item).2.node? s.nodes.size = some { item } := by
  rw [node?_create, if_pos rfl]

theorem handle?_create_self (s : Sequence) (item : Item) : (s.create item).2.handle? s.nodes.size = none := by
  rw [handle?_create, handle?, node?_size, Option.bind_none]

theorem item?_create (item : Item) :
    (s.create item).2.item? m = if m = s.nodes.size then some item else s.item? m := by
  unfold item?
  rw [node?_create]
  split <;> rfl

theorem shape?_create (item : Item) :
    (s.create item).2.shape? m = if m = s.nodes.size then some (0, item.unlinked) else s.shape? m := by
  unfold shape?
  rw [node?_create]
  split <;> rfl

/-- `register` of a node without a handle gives it the next one. -/
theorem register_of_none (hn : s.handle? n = none) :
    s.register n =
      { s.modifyNode n (fun x => { x with handle := some s.arena.size }) with
        arena := s.arena.push (some n) } := by
  unfold register
  rw [show (s.node? n).bind Node.handle = none from hn]
  rfl

theorem arena_register (hn : s.handle? n = none) : (s.register n).arena = s.arena.push (some n) := by
  rw [register_of_none hn]

theorem node?_register (hn : s.handle? n = none) :
    (s.register n).node? m =
      if n = m then (s.node? m).map fun x => { x with handle := some s.arena.size } else s.node? m := by
  rw [register_of_none hn]
  exact node?_modifyNode _

theorem handle?_register (hn : s.handle? n = none) {x : Node} (hx : s.node? n = some x) :
    (s.register n).handle? m = if n = m then some s.arena.size else s.handle? m := by
  unfold handle?
  rw [node?_register hn]
  split
  · next h => subst h; simp [hx]
  · rfl

@[simp] theorem items_register : (s.register n).items = s.items := by
  unfold register
  split <;> rfl

@[simp] theorem depth_register : (s.register n).depth = s.depth := by
  unfold register
  split <;> rfl

@[simp] theorem moves_register : (s.register n).moves = s.moves := by
  unfold register
  split <;> rfl

@[simp] theorem size_register : (s.register n).size = s.size := by
  unfold register
  split <;> rfl

@[simp] theorem pool_register : (s.register n).pool = s.pool := by
  unfold register
  split <;> rfl

@[simp] theorem item?_register : (s.register n).item? m = s.item? m := by
  unfold register
  split
  · rfl
  · unfold item?
    simp only [node?, modifyNode, Array.getElem?_modify]
    split
    · cases s.nodes[m]? <;> rfl
    · rfl

@[simp] theorem shape?_register : (s.register n).shape? m = s.shape? m := by
  unfold register
  split
  · rfl
  · unfold shape?
    simp only [node?, modifyNode, Array.getElem?_modify]
    split
    · cases s.nodes[m]? <;> rfl
    · rfl

/-! ## Moving references and taking a handle away -/

private theorem getElem?_foldl_modify {f : Node → Node} (idempotent : ∀ x, f (f x) = f x)
    (slots : List (Option Nat)) (nodes : Array Node) :
    (slots.foldl
      (fun nodes named =>
        match named with
        | some n => nodes.modify n f
        | none => nodes) nodes)[m]? =
      if some m ∈ slots then nodes[m]?.map f else nodes[m]? := by
  induction slots generalizing nodes with
  | nil => simp
  | cons slot slots ih =>
    rw [List.foldl_cons, ih]
    cases slot with
    | none => simp
    | some n =>
      simp only [Array.getElem?_modify, List.mem_cons, Option.some.injEq]
      by_cases hm : n = m
      · subst hm
        cases nodes[n]? <;> simp [idempotent]
      · simp [hm, Ne.symm hm]

/-- `retarget` changes every node that has a handle. -/
theorem node?_retarget (source dest : Handle) :
    (s.retarget source dest).node? m =
      if some m ∈ s.arena then (s.node? m).map fun x => { x with item := x.item.retarget source dest }
      else s.node? m := by
  have h := getElem?_foldl_modify (m := m)
    (f := fun x => { x with item := x.item.retarget source dest })
    (fun x => by simp [Item.retarget_retarget]) s.arena.toList s.nodes
  simp only [Array.mem_toList_iff] at h
  simp only [node?, retarget, ← Array.foldl_toList]
  exact h

@[simp] theorem handle?_retarget (source dest : Handle) :
    (s.retarget source dest).handle? m = s.handle? m := by
  unfold handle?
  rw [node?_retarget]
  split
  · cases s.node? m <;> rfl
  · rfl

@[simp] theorem shape?_retarget (source dest : Handle) :
    (s.retarget source dest).shape? m = s.shape? m := by
  unfold shape?
  rw [node?_retarget]
  split
  · cases s.node? m <;> simp [Node.shape]
  · rfl

theorem item?_retarget (source dest : Handle) :
    (s.retarget source dest).item? m =
      if some m ∈ s.arena then (s.item? m).map (Item.retarget source dest) else s.item? m := by
  unfold item?
  rw [node?_retarget]
  split
  · cases s.node? m <;> rfl
  · rfl

@[simp] theorem arena_retarget (source dest : Handle) : (s.retarget source dest).arena = s.arena := rfl
@[simp] theorem items_retarget (source dest : Handle) : (s.retarget source dest).items = s.items := rfl
@[simp] theorem depth_retarget (source dest : Handle) : (s.retarget source dest).depth = s.depth := rfl
@[simp] theorem size_retarget (source dest : Handle) : (s.retarget source dest).size = s.size := rfl
@[simp] theorem pool_retarget (source dest : Handle) : (s.retarget source dest).pool = s.pool := rfl

@[simp] theorem moves_retarget (source dest : Handle) :
    (s.retarget source dest).moves = s.moves.push (source, dest) := rfl

theorem arena_forget (next : Handle) :
    (s.forget n next).arena = s.arena.setIfInBounds (s.handleOf n).toNat none := rfl

@[simp] theorem items_forget (next : Handle) : (s.forget n next).items = s.items := rfl
@[simp] theorem depth_forget (next : Handle) : (s.forget n next).depth = s.depth := rfl
@[simp] theorem size_forget (next : Handle) : (s.forget n next).size = s.size := rfl
@[simp] theorem pool_forget (next : Handle) : (s.forget n next).pool = s.pool := rfl

@[simp] theorem moves_forget (next : Handle) :
    (s.forget n next).moves = s.moves.push (s.handleOf n, next) := rfl

theorem handle?_forget (next : Handle) :
    (s.forget n next).handle? m = if n = m then none else s.handle? m := by
  unfold forget
  rw [handle?_retarget]
  change ((s.modifyNode n fun x => { x with handle := none }).node? m).bind Node.handle = _
  rw [node?_modifyNode]
  split
  · cases s.node? m <;> rfl
  · rfl

@[simp] theorem shape?_forget (next : Handle) : (s.forget n next).shape? m = s.shape? m := by
  unfold forget
  rw [shape?_retarget]
  change ((s.modifyNode n fun x => { x with handle := none }).node? m).map Node.shape = _
  rw [node?_modifyNode, shape?]
  split
  · cases s.node? m <;> rfl
  · rfl

/-- `forget` moves the references of every node that has a handle after it. -/
theorem item?_forget (next : Handle) :
    (s.forget n next).item? m =
      if some m ∈ s.arena.setIfInBounds (s.handleOf n).toNat none then
        (s.item? m).map (Item.retarget (s.handleOf n) next)
      else s.item? m := by
  unfold forget
  rw [item?_retarget]
  have same : ((s.modifyNode n fun x => { x with handle := none }).node? m).map Node.item = s.item? m := by
    rw [node?_modifyNode, item?]
    split
    · cases s.node? m <;> rfl
    · rfl
  exact congrArg (fun r => if some m ∈ s.arena.setIfInBounds (s.handleOf n).toNat none then
    r.map (Item.retarget (s.handleOf n) next) else r) same

end Sequence

end Dalvik
