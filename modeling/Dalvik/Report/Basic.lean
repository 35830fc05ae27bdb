import Dalvik.Digest
import Dalvik.Failure.Category

/-!
# Reports

A report describes a value for display: nested records of numbers, texts and raw bytes, and
failures where a part could not be had. How it is spelled out is left to whoever shows it.
-/

namespace Dalvik

inductive Report where
  | null
  | flag (value : Bool)
  | number (value : Int)
  /-- A number that may need 64 bits. -/
  | long (value : Int)
  | text (value : Bytes)
  /-- Bytes that are no text. -/
  | raw (value : Bytes)
  | list (items : List Report)
  | record (fields : List (String × Report))
  deriving Inhabited

/-- Values that a report can be made of. -/
class ToReport (α : Type) where
  report : α → Report

export ToReport (report)

namespace Report

instance : ToReport Report := ⟨id⟩
instance : ToReport Unit := ⟨fun _ => .null⟩
instance : ToReport Bool := ⟨.flag⟩
instance : ToReport Int := ⟨.number⟩
instance : ToReport Nat := ⟨fun n => .number n⟩
instance : ToReport UInt8 := ⟨fun n => .number n.toNat⟩
instance : ToReport UInt16 := ⟨fun n => .number n.toNat⟩
instance : ToReport UInt32 := ⟨fun n => .number n.toNat⟩
instance : ToReport String := ⟨fun s => .text (Bytes.ofString s)⟩
instance : ToReport Bytes := ⟨.text⟩

variable {α β : Type} [ToReport α] [ToReport β]

instance : ToReport (Option α) := ⟨fun o => o.elim .null report⟩
instance : ToReport (List α) := ⟨fun xs => .list (xs.map report)⟩

/-- A tuple is one flat list. -/
instance : ToReport (α × β) := ⟨fun (a, b) =>
  match report b with
  | .list rest => .list (report a :: rest)
  | b => .list [report a, b]⟩

instance : CoeOut α Report := ⟨report⟩

instance : ToReport Ordering := ⟨fun
  | .lt => .number (-1)
  | .eq => .number 0
  | .gt => .number 1⟩

/-- The categories a failure belongs to and its message. -/
instance : ToReport Failure := ⟨fun f =>
  let names := f.categories.map Category.name
  .record [("error", if names.isEmpty then "error" else ",".intercalate names), ("message", f.message)]⟩

instance : ToReport Stop := ⟨fun
  | .failure f => report f
  | .fault m => .record (("error", report "panic") :: m.toList.map fun m => ("message", report m))⟩

instance : ToReport (Except Stop α) := ⟨fun
  | .ok a => report a
  | .error e => report e⟩

/-- A record with further fields. -/
def extend (fields : List (String × Report)) : Report → Report
  | .record own => .record (own ++ fields)
  | r => r

/-- The longest contents that are shown in full. -/
def longest : Nat := 8192

/-- Serialised contents; long ones are shown by length and checksum. -/
def contents (b : Bytes) : Report :=
  if longest < b.length then .record [("len", b.length), ("crc", Crc32.checksum b)] else .raw b

/-- A failure, or nothing where there was none. -/
def outcome (r : Except Stop PUnit) : Report :=
  match r with
  | .ok _ => .null
  | .error e => report e

end Report

end Dalvik
