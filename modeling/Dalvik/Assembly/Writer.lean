import Dalvik.Assembly.Scanner
import Dalvik.Sink

/-!
# Writer

Indented text on its way to a sink. Output is collected in a buffer that is passed on when it is
full; the first failure sticks and everything after it is ignored.
-/

namespace Dalvik.Assembly

structure Buffered where
  sink : Sink := {}
  buffer : Array UInt8 := #[]
  failure : Option Failure := none
  deriving Inhabited

namespace Buffered

def capacity : Nat := 4096

/-- Passes the buffer on. A failure leaves what the sink did not take. -/
def flush (b : Buffered) : Buffered :=
  if b.failure.isSome || b.buffer.isEmpty then b
  else
    let (n, e, sink) := b.sink.write b.buffer.toList
    match e <|> (if n < b.buffer.size then some .shortWrite else none) with
    | none => { b with sink, buffer := #[] }
    | some e => { sink, buffer := b.buffer.extract n b.buffer.size, failure := some e }

def putFuel : Nat → Bytes → Buffered → Buffered
  | 0, _, b => b
  | fuel + 1, s, b =>
    if b.failure.isSome then b
    else
      let room := capacity - b.buffer.size
      if s.length ≤ room then { b with buffer := b.buffer ++ s.toArray }
      else putFuel fuel (s.drop room) (flush { b with buffer := b.buffer ++ (s.take room).toArray })

/-- Adds text, passing the buffer on each time it fills up before the text is all in. -/
def put (b : Buffered) (s : Bytes) : Buffered := putFuel (s.length + 2) s b

/-- Adds one byte, passing a full buffer on first. -/
def putByte (b : Buffered) (c : UInt8) : Buffered :=
  let b := if b.failure.isNone && capacity ≤ b.buffer.size then b.flush else b
  if b.failure.isSome then b else { b with buffer := b.buffer.push c }

end Buffered

structure Writer where
  out : Buffered := {}
  depth : Nat := 0
  /-- Blanks for each level of indentation. -/
  step : Int := 4
  comments : Bool := true
  lineOpen : Bool := false
  deriving Inhabited

namespace Writer

variable (w : Writer)

def failure : Option Failure := w.out.failure

def flush : Writer := { w with out := w.out.flush }

/-- Writes text without newlines, indented when it opens a line. -/
def append (s : Bytes) : Writer :=
  if w.failure.isSome || s.isEmpty then w
  else
    let pad := if w.lineOpen then 0 else (w.depth * w.step).toNat
    let out := if pad = 0 then w.out else w.out.put (List.replicate pad (byte ' '))
    { w with lineOpen := true, out := out.put s }

/-- Writes a blank and then the text. -/
def spaced (s : Bytes) : Writer := (w.append (ascii " ")).append s

def newline : Writer :=
  if w.failure.isSome then w else { w with out := w.out.putByte 0x0a, lineOpen := false }

/-- Writes a comment after whatever is on the line, if comments are on. -/
def comment (text : Bytes) : Writer :=
  if !w.comments || text.isEmpty then w
  else (if w.lineOpen then w.append (ascii "    ") else w).append (ascii "# " ++ text)

/-- Writes a line of its own. -/
def line (s : Bytes) : Writer := (w.append s).newline

/-- Writes a keyword and its operands, leaving out empty ones. -/
def directive (d : Directive) (operands : List Bytes) : Writer :=
  operands.foldl (fun w s => if s.isEmpty then w else w.spaced s) (w.append d.word)

/-- Writes the closing keyword on a line. -/
def close (d : Directive) : Writer := w.line d.endWord

def indent : Writer := { w with depth := w.depth + 1 }
def outdent : Writer := { w with depth := w.depth - 1 }

/-- What has reached the sink. -/
def text : Bytes := w.out.sink.held.toList

end Writer

end Dalvik.Assembly
