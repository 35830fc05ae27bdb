import Dalvik.Cell
import Dalvik.Report.Basic
import Dalvik.Sink

/-!
# Reports on cursors, cells and meters
-/

namespace Dalvik

def Cursor.describe (c : Cursor) : Report :=
  .record [("len", c.data.size), ("available", c.available), ("finished", c.finished),
    ("bytes", .raw c.data.toList)]

def Meter.describe (m : Meter) : Report :=
  .record [("size", m.size), ("crc", m.crc32), ("open", m.isOpen), ("sink", m.sink.held.size),
    ("flushed", m.sink.flushes), ("closed", m.sink.closes)]

def Cell.describe (c : Cell) : Report :=
  .record ([("count_bytes", report c.size), ("bytes", .raw c.bytes), ("get", report c.get)] ++
    c.unsigned?.toList.map fun n => ("u32", report n))

/-- The fields of a run of bytes. -/
def describeRun (s : Bytes) : List (String × Report) :=
  [("count_bytes", s.length), ("bytes", Report.contents s), ("get", Report.contents s),
    ("size", s.length)]

def Signature.describe (s : Signature) : Report :=
  .record (describeRun s.bytes ++ [("expected", .raw s.expected), ("valid", report s.isValid),
    ("disabled", report s.unchecked)])

/-- How far the writing of some pieces gets in a sink with limited room. -/
def describeWriting (room : Nat) (pieces : List Bytes) : Report :=
  let (n, e, _) := ({ room := some room } : Sink).writeAll pieces
  .record [("n", n), ("err", e)]

end Dalvik
