import Dalvik.Assembly.Printer
import Dalvik.Image.Event
import Dalvik.Storage.Disk

/-!
# Exporting classes

Writes every class that is come across to a file of its own, laid out by package below a directory.
A class that cannot be written does not keep the others from being written.
-/

namespace Dalvik

/-- Where the text of a class goes below a directory: `foo/Bar.smali` for `Lfoo/Bar;`. -/
def classPath (directory : Bytes) (t : Descriptor) : Bytes :=
  let name := if 2 < t.name.length ∧ t.name.head? = some (byte 'L') then t.name.tail.dropLast else t.name
  Path.join [directory, name ++ ascii ".smali"]

/-- How classes are written; an indentation that is not positive stands for the usual one. -/
structure ExportOptions where
  directory : Bytes
  indent : Int := 0
  comments : Bool := true

structure Export where
  disk : Disk := {}
  written : List Bytes := []
  failure : Option Failure := none
  remarks : List (Nat × Bytes) := []
  deriving Inhabited

namespace Export

private def onDisk (act : Disk → Except Stop Disk) : Action Export PUnit := do
  let disk ← act (← get).disk
  modify fun x => { x with disk }

/-- Writes a class to its file. -/
def writeClass (o : ExportOptions) (c : ClassDef) (pool : Pool) : Action Export PUnit := do
  let assembly ← c.toAssembly pool
  let path := classPath o.directory c.type
  onDisk (·.makeDirectories (Path.directory path))
  onDisk (·.write path
    (Assembly.render assembly.write
      { step := if 0 < o.indent then o.indent else 4, comments := o.comments }))
  modify fun x => { x with
    remarks := x.remarks ++ [(1, ascii "wrote " ++ path)]
    written := x.written ++ [path] }

/-- Takes note of one event. Only a fault stops the export. -/
def event (o : ExportOptions) : Event → Action Export PUnit
  | .remark level text => modify fun x => { x with remarks := x.remarks ++ [(level, text)] }
  | .defined c pool => do
    match ← Action.attempt (Action.within (ascii "class " ++ c.type.name) (writeClass o c pool)) with
    | .ok _ => pure ⟨⟩
    | .error (.failure e) =>
      modify fun x => { x with failure := some ((x.failure.map (Failure.also · e)).getD e) }
    | .error stop => throw stop
  | _ => pure ⟨⟩

/-- Writes the classes of some events to a disk. -/
def run (o : ExportOptions) (events : List Event) (disk : Disk) : Except Stop Export :=
  let (r, x) := (events.forM (event o)).apply { disk }
  r.map fun _ => x

end Export

end Dalvik
