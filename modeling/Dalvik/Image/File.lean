import Dalvik.Code.CodeItem
import Dalvik.Image.Header
import Dalvik.Image.Members
import Dalvik.Image.Value

/-!
# Loaded images

An image with its constants and classes, and what can be asked of it: the text of a class, whether
the stored digests hold, and whether every part is encoded again exactly as it stands in the file.
-/

namespace Dalvik

/-- A class as an image defines it. `codes` has the code of each method, in the order of
`Members.methods`; members, notes and values are missing when the class has none. -/
structure ClassDef where
  type : Descriptor
  access : UInt32 := 0
  super : Descriptor := ⟨[]⟩
  interfaces : List Descriptor := []
  source : Bytes := []
  members : Option Members := none
  codes : List (Option CodeItem) := []
  notes : Option NoteDirectory := none
  values : Option ValueArray := none
  membersOffset : Nat := 0
  notesOffset : Nat := 0
  valuesOffset : Nat := 0
  deriving Inhabited

namespace ClassDef

variable (c : ClassDef)

def methods : List MethodMember := (c.members.map Members.methods).getD []

/-- The members with the notes that belong to them. -/
def contents (m : Members) : ClassContents :=
  { members := m, notes := c.notes.getD {}, linked := c.notes.isSome }

/-- A field with the value it starts with. A value that no literal spells is left out. -/
private def fieldText (pool : Pool) (f : FieldMember) (initial : Option Value) :
    Except Stop Assembly.Field := do
  let ref ← labelled (ascii "class " ++ c.type.name) (pool.field f.index)
  let initial ← match initial.map (Value.constant (some pool)) with
    | none => pure none
    | some (.ok k) => pure (some k)
    | some (.error (.failure (.noConstant _))) => pure none
    | some (.error e) => throw (e.within (ascii "field " ++ ref.text))
  return { access := ⟨f.access.value⟩, ref, initial }

private def methodText (pool : Pool) (m : MethodMember) (code : Option CodeItem) :
    Except Stop Assembly.Method := do
  let ref ← labelled (ascii "class " ++ c.type.name) (pool.method m.index)
  let access : Assembly.Access := ⟨m.access.value⟩
  let body ← code.mapM fun code => do
    let params ← Assembly.paramRegistersOf access ref.proto
    labelled (ascii "method " ++ ref.text) (code.toBody params true)
  return { access, ref, body }

/-- The class as assembly. The values line up with the static fields. -/
def toAssembly (pool : Pool) : Except Stop Assembly.Class := do
  let head : Assembly.Class :=
    { access := ⟨c.access⟩, type := c.type, super := c.super, source := c.source,
      interfaces := c.interfaces }
  match c.members with
  | none => return head
  | some m =>
    let initial := ((c.values.map ValueArray.items).getD []).take m.staticFields.size
    let fields ← (m.fields.zipIdx.mapM fun (f, i) => c.fieldText pool f initial[i]? :
      Except Stop (List Assembly.Field))
    let methods ← ((m.methods.zip c.codes).mapM fun (m, code) => c.methodText pool m code :
      Except Stop (List Assembly.Method))
    return { head with fields, methods }

end ClassDef

structure ImageFile where
  name : Bytes
  data : Bytes
  header : Header
  pool : Pool
  classes : List ClassDef
  deriving Inhabited

namespace ImageFile

variable (f : ImageFile)

private def label : Bytes := ascii "dex " ++ f.name

/-- Checks the stored checksum and signature. -/
def verify : Except Stop PUnit := labelled f.label (Header.verify f.data)

/-- Whether the file has these bytes at an offset. -/
def holdsAt (offset : Nat) (bytes : Bytes) : Bool := (f.data.drop offset).take bytes.length == bytes

/-- What is wrong with the encoding of a part, as it was read and after a refresh. -/
private def recode {σ : Type} (what : Bytes) (offset : Nat) (bytes : σ → Bytes)
    (refresh : Action σ PUnit) (x : σ) : Except Stop (Option Failure) :=
  if !f.holdsAt offset (bytes x) then .ok (some (.differs what offset (ascii "decode")))
  else
    match refresh.apply x with
    | (.error (.failure e), _) =>
      .ok (some (.within (what ++ ascii " at 0x" ++ hex offset ++ ascii ": refresh") e))
    | (.error e, _) => .error e
    | (.ok _, y) =>
      if f.holdsAt offset (bytes y) then .ok none
      else .ok (some (.differs what offset (ascii "refresh")))

private def methodName (m : MethodMember) : Bytes :=
  match f.pool.method m.index with
  | .ok ref => ref.text
  | .error _ => []

/-- What is wrong with the encoding of a class: the code of its methods, then its members. -/
private def recodeClass (c : ClassDef) : Except Stop (List Failure) := do
  match c.members with
  | none => return []
  | some m =>
    let codes ← ((m.methods.zip c.codes).filterMapM fun (m, code) => do
      match code with
      | none => return none
      | some code =>
        f.recode (ascii "code of " ++ f.methodName m) m.tail.codeOffset.value.toNat CodeItem.bytes
          CodeItem.refresh code : Except Stop (List Failure))
    let members ← f.recode (ascii "class data of " ++ c.type.name) c.membersOffset
      (fun x => x.members.bytes) ClassContents.refresh (c.contents m)
    return codes ++ members.toList

/-- Encodes the members and code of every class again, as read and refreshed, and compares with the
file. All differences are reported together. -/
def roundTrip : Except Stop PUnit := do
  let found ← (f.classes.mapM f.recodeClass : Except Stop (List (List Failure)))
  match Failure.all found.flatten with
  | none => return ⟨⟩
  | some e => fail (.within f.label e)

end ImageFile

end Dalvik
