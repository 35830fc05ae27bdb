import Dalvik.Constant.Pool
import Dalvik.Image.NoteDirectory

/-!
# Members of a class

The fields and methods a class defines, in four tables in the order of their indices. An index is
stored as the difference from the one before it. A member that goes takes its notes along.
-/

namespace Dalvik

/-- What a kind of member stores after its index and access flags. -/
class MemberTail (τ : Type) where
  fresh : τ
  decode : Cursor → Action τ Cursor
  pieces : τ → List Bytes
  byteCount : τ → Nat
  /-- Stores where the code lies, if the kind of member has code. -/
  setOffset : Int → τ → τ
  /-- Drops the notes of a member. -/
  detach : NoteDirectory → Int → Nat × NoteDirectory

/-- A member: the stored difference, the access flags, the index, and what else its kind has. -/
structure Member (τ : Type) where
  diff : Uleb := {}
  access : Uleb := {}
  index : Int := 0
  tail : τ
  deriving DecidableEq, Repr, Inhabited

/-- Fields store nothing else. -/
structure FieldTail where
  deriving DecidableEq, Repr, Inhabited

/-- Methods store where their code lies. -/
structure MethodTail where
  codeOffset : Uleb := {}
  deriving DecidableEq, Repr, Inhabited

abbrev FieldMember := Member FieldTail
abbrev MethodMember := Member MethodTail

instance : MemberTail FieldTail where
  fresh := {}
  decode c := pure c
  pieces _ := []
  byteCount _ := 0
  setOffset _ t := t
  detach := NoteDirectory.detachField

instance : MemberTail MethodTail where
  fresh := {}
  decode c := Action.on (·.codeOffset) (fun codeOffset t => { t with codeOffset }) (Uleb.decode c)
  pieces t := [t.codeOffset.bytes]
  byteCount t := t.codeOffset.size
  setOffset n t := { t with codeOffset := t.codeOffset.set n }
  detach := NoteDirectory.detachMethod

namespace Member

variable {τ : Type} [MemberTail τ]

def fresh : Member τ := { tail := MemberTail.fresh }

def decode (c : Cursor) : Action (Member τ) Cursor := do
  let c ← Action.on (·.diff) (fun v m => { m with diff := v }) (Uleb.decode c)
  let c ← Action.on (·.access) (fun v m => { m with access := v }) (Uleb.decode c)
  Action.on (·.tail) (fun v m => { m with tail := v }) (MemberTail.decode c)

def pieces (m : Member τ) : List Bytes := m.diff.bytes :: m.access.bytes :: MemberTail.pieces m.tail

def byteCount (m : Member τ) : Nat := m.diff.size + m.access.size + MemberTail.byteCount m.tail

end Member

abbrev MemberTable (τ : Type) := Table (Member τ)

namespace MemberTable

variable {τ : Type} [MemberTail τ] (t : MemberTable τ)

def fresh : MemberTable τ := { count := some (.uleb {}) }

def members : List (Member τ) := Table.values t

def byIndex (x y : Member τ) : Ordering := compare x.index y.index

/-- The members with their stored differences taken from the indices. -/
def withDiffs (previous : Int) : List (Member τ) → List (Member τ)
  | [] => []
  | m :: rest => { m with diff := m.diff.set (m.index - previous) } :: withDiffs m.index rest

/-- Replaces the members from first to last. -/
def setMembers (ms : List (Member τ)) : MemberTable τ :=
  (t.order.zip ms).foldl (fun (t : Table (Member τ)) (s, m) => t.modifySlot s fun _ => m) t

/-- Takes every stored difference from the indices. -/
def resetDiffs : MemberTable τ := setMembers t (withDiffs 0 (members t))

/-- The members with the indices that the stored differences give; `i` and `index` are the number
and the index of the one before. A difference of zero is refused after the first member. -/
def linkIndices (start : Nat) (i : Nat) (index : Int) :
    List (Member τ) → Except Stop PUnit × List (Member τ)
  | [] => (.ok ⟨⟩, [])
  | m :: rest =>
    if 0 < i ∧ m.diff.get = 0 then
      (fail (.malformed (ascii "class data") start (.repeatsIndex i index)), m :: rest)
    else
      let index := index + m.diff.get
      let (r, rest) := linkIndices start (i + 1) index rest
      (r, { m with index } :: rest)

/-- Reads the members in place; the count was read before. -/
def decode (c : Cursor) : Action (MemberTable τ) Cursor := do
  let start := c.pos
  let c ← Table.decode Member.fresh Member.decode c
  let t ← get
  let (r, ms) := linkIndices start 0 0 (members t)
  set (setMembers t ms)
  r
  return c

/-- The position of the member with an index. -/
def find? (index : Int) : Option Nat := (members t).findIdx? fun m => m.index = index

/-- Adds a member; its stored difference is left for later. -/
def push (index : Int) : MemberTable τ := Table.push t { Member.fresh with index }

/-- Adds a member unless there is one with that index. -/
def ensure (index : Int) : MemberTable τ :=
  if (find? t index).isSome then t else resetDiffs (push t index)

/-- Takes out the member at a position that must exist, with its notes if the class has a
directory. -/
def removeAt (i : Int) (notes : Option NoteDirectory) :
    Except Stop (Member τ × MemberTable τ × Option NoteDirectory) := do
  let m ← Table.elementAt t i
  let (_, t) ← Table.removeAt t i
  let notes ← notes.mapM fun d => do
    let (_, d) ← (MemberTail.detach τ d m.index).2.sort
    return d
  return (m, resetDiffs t, notes)

/-- Takes out the member in a slot, with its notes if the class has a directory, and says whether the
table has it. -/
def remove (slot : Nat) (notes : Option NoteDirectory) :
    Except Stop (Bool × MemberTable τ × Option NoteDirectory) := do
  match (Table.indexOf? t slot).bind fun _ => Table.value? t slot with
  | none => return (false, t, notes)
  | some m =>
    let notes ← notes.mapM fun d => do
      let (_, d) ← (MemberTail.detach τ d m.index).2.sort
      return d
    return (true, resetDiffs (Table.remove t slot).2, notes)

/-- Sorts by index and says whether anything moved. -/
def sort (notes : Option NoteDirectory) :
    Except Stop (Bool × MemberTable τ × Option NoteDirectory) := do
  let (moved, t) ← Table.sort t byIndex
  if moved then
    let notes ← notes.mapM fun d => do
      let (_, d) ← d.sort
      return d
    return (true, resetDiffs t, notes)
  else return (false, t, notes)

/-- The first index that two members in a row share. -/
def repeated? : List (Member τ) → Option Int
  | a :: b :: rest => if a.index = b.index then some b.index else repeated? (b :: rest)
  | _ => none

/-- Sorts, stores the differences and the count; no index may be defined twice. -/
def refresh : Action (MemberTable τ × Option NoteDirectory) PUnit := do
  let (t, notes) ← get
  let (_, t, notes) ← sort t notes
  let t := resetDiffs t
  set (t, notes)
  match repeated? (members t) with
  | some index => Action.refuse (.definedTwice index)
  | none => set (Table.updateCount t, notes)

def countBytes : Bytes := (t.count.map Cell.bytes).getD []

def countSize : Nat := (t.count.map Cell.size).getD 0

def pieces : List Bytes := (members t).flatMap Member.pieces

def byteCount : Nat := total ((members t).map Member.byteCount)

end MemberTable

structure Members where
  staticFields : MemberTable FieldTail := .fresh
  instanceFields : MemberTable FieldTail := .fresh
  directMethods : MemberTable MethodTail := .fresh
  virtualMethods : MemberTable MethodTail := .fresh
  deriving Inhabited

namespace Members

variable (m : Members)

def fields : List FieldMember := m.staticFields.members ++ m.instanceFields.members
def methods : List MethodMember := m.directMethods.members ++ m.virtualMethods.members

def pieces : List Bytes :=
  [m.staticFields.countBytes, m.instanceFields.countBytes, m.directMethods.countBytes,
    m.virtualMethods.countBytes] ++ m.staticFields.pieces ++ m.instanceFields.pieces ++
    m.directMethods.pieces ++ m.virtualMethods.pieces

def bytes : Bytes := m.pieces.flatten

def byteCount : Nat :=
  m.staticFields.countSize + m.instanceFields.countSize + m.directMethods.countSize +
    m.virtualMethods.countSize + m.staticFields.byteCount + m.instanceFields.byteCount +
    m.directMethods.byteCount + m.virtualMethods.byteCount

/-- Works on one of the four tables. -/
def onStatic {α : Type} (act : Action (MemberTable FieldTail) α) : Action Members α :=
  Action.on (·.staticFields) (fun t m => { m with staticFields := t }) act

def onInstance {α : Type} (act : Action (MemberTable FieldTail) α) : Action Members α :=
  Action.on (·.instanceFields) (fun t m => { m with instanceFields := t }) act

def onDirect {α : Type} (act : Action (MemberTable MethodTail) α) : Action Members α :=
  Action.on (·.directMethods) (fun t m => { m with directMethods := t }) act

def onVirtual {α : Type} (act : Action (MemberTable MethodTail) α) : Action Members α :=
  Action.on (·.virtualMethods) (fun t m => { m with virtualMethods := t }) act

def decode (c : Cursor) : Action Members Cursor := do
  let c ← onStatic (Table.decodeCount c)
  let c ← onInstance (Table.decodeCount c)
  let c ← onDirect (Table.decodeCount c)
  let c ← onVirtual (Table.decodeCount c)
  let c ← onStatic (MemberTable.decode c)
  let c ← onInstance (MemberTable.decode c)
  let c ← onDirect (MemberTable.decode c)
  onVirtual (MemberTable.decode c)

end Members

/-! ## Members with their notes -/

/-- The four tables of a class. -/
inductive MemberGroup where
  | staticField
  | instanceField
  | directMethod
  | virtualMethod
  deriving DecidableEq, Repr, Inhabited

namespace MemberGroup

def all : List MemberGroup := [.staticField, .instanceField, .directMethod, .virtualMethod]

/-- The kind of constant that the indices of a group refer to. -/
def kind : MemberGroup → Kind
  | .staticField | .instanceField => .field
  | .directMethod | .virtualMethod => .method

end MemberGroup

/-- The members of a class and its notes. While they are linked, changes to the members keep the
notes in step. -/
structure ClassContents where
  members : Members := {}
  notes : NoteDirectory := {}
  linked : Bool := false
  deriving Inhabited

namespace ClassContents

/-- Works on one table and the notes that are linked to it. -/
def onGroup {α : Type} (g : MemberGroup)
    (act : {τ : Type} → [MemberTail τ] → Action (MemberTable τ × Option NoteDirectory) α) :
    Action ClassContents α :=
  let run {τ : Type} [MemberTail τ] (table : Members → MemberTable τ)
      (store : MemberTable τ → Members → Members) : Action ClassContents α :=
    Action.on (fun c => (table c.members, if c.linked then some c.notes else none))
      (fun x c => { c with members := store x.1 c.members, notes := x.2.getD c.notes }) act
  match g with
  | .staticField => run (·.staticFields) fun t m => { m with staticFields := t }
  | .instanceField => run (·.instanceFields) fun t m => { m with instanceFields := t }
  | .directMethod => run (·.directMethods) fun t m => { m with directMethods := t }
  | .virtualMethod => run (·.virtualMethods) fun t m => { m with virtualMethods := t }

/-- Changes a table without touching the notes. -/
def onTable {α : Type} (g : MemberGroup)
    (act : {τ : Type} → [MemberTail τ] → Action (MemberTable τ) α) : Action ClassContents α :=
  onGroup g (Action.on Prod.fst (fun t x => (t, x.2)) act)

def ensure (g : MemberGroup) (index : Int) : Action ClassContents PUnit :=
  onTable g (modify (MemberTable.ensure · index))

def push (g : MemberGroup) (index : Int) : Action ClassContents PUnit :=
  onTable g (modify (MemberTable.push · index))

def find? (g : MemberGroup) (index : Int) : Action ClassContents (Option Nat) :=
  onTable g do return MemberTable.find? (← get) index

/-- Takes out the member at a position and gives its index. -/
def removeAt (g : MemberGroup) (i : Int) : Action ClassContents Int :=
  onGroup g do
    let (t, notes) ← get
    let (m, t, notes) ← MemberTable.removeAt t i notes
    set (t, notes)
    return m.index

/-- The slot of the member at a position that must exist. -/
def slotOf (g : MemberGroup) (i : Int) : Action ClassContents Nat :=
  onTable g do Table.slotOf (← get) i

/-- Takes out the member in a slot and says whether it was there. -/
def remove (g : MemberGroup) (slot : Nat) : Action ClassContents Bool :=
  onGroup g do
    let (t, notes) ← get
    let (found, t, notes) ← MemberTable.remove t slot notes
    set (t, notes)
    return found

def sort (g : MemberGroup) : Action ClassContents Bool :=
  onGroup g do
    let (t, notes) ← get
    let (moved, t, notes) ← MemberTable.sort t notes
    set (t, notes)
    return moved

def changeAt (g : MemberGroup) (i : Int) (f : {τ : Type} → Member τ → Member τ) :
    Action ClassContents PUnit :=
  onTable g do
    let t ← get
    let _ ← Table.elementAt t i
    set (Table.update t i f)

def setIndex (g : MemberGroup) (i index : Int) : Action ClassContents PUnit :=
  changeAt g i fun m => { m with index }

def setAccess (g : MemberGroup) (i access : Int) : Action ClassContents PUnit :=
  changeAt g i fun m => { m with access := m.access.set access }

/-- Sets where the code of a method lies; fields have none. -/
def setCodeOffset (g : MemberGroup) (i offset : Int) : Action ClassContents PUnit :=
  onTable g do
    let t ← get
    let _ ← Table.elementAt t i
    set (Table.update t i fun m => { m with tail := MemberTail.setOffset offset m.tail })

/-- The constant that names the member at a position. -/
def constant (g : MemberGroup) (i : Int) (pool : Option Pool) : Action ClassContents Constant := do
  let index ← onTable g do return (← Table.elementAt (← get) i).index
  match pool with
  | some p => p.lookup g.kind index
  | none => throw (.fault none)

def decode (c : Cursor) : Action ClassContents Cursor :=
  Action.on (·.members) (fun m x => { x with members := m }) (Members.decode c)

/-- Refreshes the four tables in order, up to the first failure. -/
def refresh : Action ClassContents PUnit := do
  onGroup .staticField MemberTable.refresh
  onGroup .instanceField MemberTable.refresh
  onGroup .directMethod MemberTable.refresh
  onGroup .virtualMethod MemberTable.refresh

def onNotes {α : Type} (act : Action NoteDirectory α) : Action ClassContents α :=
  Action.on (·.notes) (fun n x => { x with notes := n }) act

end ClassContents

end Dalvik
