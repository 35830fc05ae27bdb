import Dalvik.Assembly.Printer
import Dalvik.Command.Run
import Dalvik.Image.Event
import Dalvik.Report.Image

/-!
# Reports on loaded images, archives, exports and runs of the command
-/

namespace Dalvik

def ClassDef.describe (c : ClassDef) (pool : Pool) : Report :=
  .record [("type", c.type), ("access", c.access), ("methods", c.methods.length),
    ("annotations", c.notes.map NoteDirectory.describe),
    ("static_values", c.values.map fun v => Report.contents v.bytes),
    ("smali", (c.toAssembly pool).map fun a => Assembly.render a.write)]

def ImageFile.describe (f : ImageFile) : Report :=
  .record [("name", f.name), ("classes", f.classes.map fun c => c.describe f.pool), ("pool", f.pool),
    ("version", f.header.versionNumber?.getD 0), ("verify", Report.outcome f.verify),
    ("round_trip", Report.outcome f.roundTrip)]

/-- The listing, the remarks and the defined types. -/
def describeEvents (events : List Event) : List (String × Report) :=
  [("visits", events.filterMap Event.line?),
    ("verbose", (events.filterMap Event.remark?).map fun (level, text) =>
      decimal level ++ ascii " " ++ text),
    ("defs", (events.filterMap Event.defined?).map ClassDef.type)]

/-! ## Archives and runs -/

namespace Report

/-- The contents of a file: text, or the bytes when they are no text. -/
def fileContents (b : Bytes) : Report :=
  if Utf8.isValid b && !b.contains 0 then .text b else .record [("hex", .raw b)]

/-- Files by their paths. -/
def files (fs : List (Bytes × Bytes)) : Report :=
  .record (fs.map fun (path, contents) =>
    ((String.fromUTF8? ⟨path.toArray⟩).getD "", fileContents contents))

/-- Remarks with their levels. -/
def remarks (rs : List (Nat × Bytes)) : Report := report rs

end Report

/-- How loading the images of an archive went. -/
def Archive.describeLoad (r : Except Stop PUnit × List ImageFile × List Event) : Except Stop Report :=
  match r with
  | (.error (.fault m), _, _) => fault m
  | (r, files, events) =>
    return .record ([("err", Report.outcome r), ("files", report (files.map (·.name)))] ++
      describeEvents events)

/-- How copying an entry went. -/
def Archive.describeCopy (r : Except Stop PUnit × Extracted × Sink) : Report :=
  let (r, x, sink) := r
  .record [("err", Report.outcome r), ("name", x.name), ("size", x.size), ("crc", x.crc),
    ("compressed", x.compressed), ("data", Report.contents sink.held.toList)]

/-- What an export wrote below a directory. -/
def Export.fields (x : Export) (directory : Bytes) : List (String × Report) :=
  [("written", x.written), ("write_err", x.failure),
    ("files", Report.files (x.disk.filesBelow (Path.components directory)))]

/-- How a run ended, and which files it made besides those that were there. -/
def Command.Outcome.describe (o : Command.Outcome) (known : List Bytes) : Report :=
  .record [("exit", o.exit), ("stdout", o.out), ("stderr", o.err),
    ("files", Report.files ((o.disk.filesBelow []).filter fun f => !known.contains f.1))]

end Dalvik
