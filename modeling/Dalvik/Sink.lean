import Dalvik.Digest
import Dalvik.Failure

/-!
# Sinks and the meter

A sink takes bytes and a source gives them, each in its own way. A meter passes bytes through to a
sink and keeps their number and CRC-32, so that the size and checksum of a streamed entry are known
right after it.
-/

namespace Dalvik

/-- What can be written to. A write gives the number of bytes that were taken and why it stopped; what
can be flushed or closed says what went wrong there. -/
class ByteSink (σ : Type) where
  write : σ → Bytes → Nat × Option Failure × σ
  flush : σ → Option Failure × σ
  close : σ → Option Failure × σ
  /-- The bytes taken so far. -/
  held : σ → Bytes

/-- What can be read from. A read into a buffer of some size gives bytes and how the source ended, if
it did, with `none` inside for a plain end. -/
class ByteSource (ρ : Type) where
  read : ρ → Nat → Bytes × Option (Option Failure) × ρ
  /-- The bytes still to come. -/
  contents : ρ → Bytes
  /-- No more reads than this come before the one that ends. -/
  patience : ρ → Nat

/-- Where bytes go. `room` bounds what it takes in all; a full sink fails, or with `short` only
reports the smaller count. A `closable` sink can be flushed and closed, and fails at both when
`failing`. -/
structure Sink where
  room : Option Nat := none
  short : Bool := false
  closable : Bool := false
  failing : Bool := false
  held : Array UInt8 := #[]
  flushes : Nat := 0
  closes : Nat := 0
  deriving Inhabited

namespace Sink

/-- How many of the bytes are taken, why not all of them, and the sink afterwards. -/
def write (s : Sink) (data : Bytes) : Nat × Option Failure × Sink :=
  match s.room with
  | none => (data.length, none, { s with held := s.held ++ data.toArray })
  | some room =>
    if s.held.size + data.length ≤ room then
      (data.length, none, { s with held := s.held ++ data.toArray })
    else
      let fits := data.take (room - s.held.size)
      (fits.length, if s.short then none else some (.external (ascii "sink full")),
        { s with held := s.held ++ fits.toArray })

/-- Writes pieces in order up to the first failure. -/
def writeAll (s : Sink) : List Bytes → Nat × Option Failure × Sink
  | [] => (0, none, s)
  | p :: rest =>
    match s.write p with
    | (n, none, s) =>
      let (m, e, s) := s.writeAll rest
      (n + m, e, s)
    | stopped => stopped

def flush (s : Sink) : Option Failure × Sink :=
  if s.closable then
    (if s.failing then some (.external (ascii "flush failed")) else none, { s with flushes := s.flushes + 1 })
  else (none, s)

def close (s : Sink) : Option Failure × Sink :=
  if s.closable then
    (if s.failing then some (.external (ascii "close failed")) else none, { s with closes := s.closes + 1 })
  else (none, s)

instance : ByteSink Sink where
  write := write
  flush := flush
  close := close
  held s := s.held.toList

end Sink

/-- Where bytes come from: at most `chunk` of them at a time (0 for as many as asked), then the end
or, when `failing`, a failure; with `eager` the end comes together with the last bytes. A read that
goes past a `barrier` fails and gives nothing. -/
structure Source where
  data : Bytes
  chunk : Nat := 0
  failing : Option Failure := none
  eager : Bool := false
  barrier : Option (Nat × Failure) := none
  deriving Inhabited

namespace Source

/-- How many bytes one read into a buffer of `room` bytes asks for. -/
def span (s : Source) (room : Nat) : Nat := if s.chunk = 0 then room else min room s.chunk

/-- One read into a buffer of `room` bytes: the bytes, how the source ended if it did (with `none`
inside for a plain end), and the rest. -/
def read (s : Source) (room : Nat) : Bytes × Option (Option Failure) × Source :=
  let n := s.span room
  match s.barrier with
  | some (distance, e) =>
    if distance < n then ([], some (some e), s)
    else (s.data.take n, none, { s with data := s.data.drop n, barrier := some (distance - n, e) })
  | none =>
    if s.data.isEmpty then ([], some s.failing, s)
    else
      let rest := { s with data := s.data.drop n }
      (s.data.take n, if s.eager && rest.data.isEmpty then some s.failing else none, rest)

/-- Reads to the end. -/
def readAll (s : Source) : Except Stop Bytes :=
  match s.barrier, s.failing with
  | some (_, e), _ => fail e
  | none, some e => fail e
  | none, none => .ok s.data

@[default_instance]
instance : ByteSource Source where
  read := read
  contents s := s.data
  patience s := s.data.length + s.barrier.elim 0 Prod.fst

end Source

structure Meter (σ : Type := Sink) where
  sink : σ
  crc : UInt32 := 0
  checking : Bool := true
  size : Nat := 0
  isOpen : Bool := true
  deriving Inhabited

namespace Meter

variable {σ ρ : Type}

/-- Turns the checksum off, or on again from a fresh start. -/
def disableCrc (m : Meter σ) (disable : Bool) : Meter σ :=
  if disable then { m with checking := false, crc := 0 }
  else if m.checking then m else { m with checking := true, crc := 0 }

def crc32 (m : Meter σ) : UInt32 := if m.checking then m.crc else 0

def reset (m : Meter σ) : Meter σ := { m with size := 0, crc := 0 }

def text (m : Meter σ) : Bytes := ascii "[" ++ decimal m.size ++ ascii "]"

variable [ByteSink σ] [ByteSource ρ]

def write (m : Meter σ) (data : Bytes) : Nat × Option Failure × Meter σ :=
  if data.isEmpty then (0, none, m)
  else
    let (n, e, sink) := ByteSink.write m.sink data
    (n, e, { m with
      sink
      size := m.size + n
      crc := if m.checking then Crc32.update m.crc (data.take n) else m.crc })

def bufferStart : Nat := 2048
def bufferStep : Nat := 500
def bufferMax : Nat := 81920

/-- Copies a source with a buffer that grows while the source goes on: the number of bytes taken,
the failure, the buffer sizes that were asked for, and the meter afterwards. `fuel` bounds the
number of reads. -/
def copy : Nat → Nat → ρ → Meter σ → Nat × Option Failure × List Nat × Meter σ
  | 0, _, _, m => (0, none, [], m)
  | fuel + 1, room, source, m =>
    let (data, ended, source) := ByteSource.read source room
    let (written, failure, m) := m.write data
    let refused := failure <|> if written = data.length then none else some .shortWrite
    match refused with
    | some e => (written, some e, [room], m)
    | none =>
      match ended with
      | some e => (written, e, [room], m)
      | none =>
        let grown := if data.isEmpty ∨ bufferMax ≤ room then room else room + bufferStep
        let (n, e, asked, m) := copy fuel grown source m
        (written + n, e, room :: asked, m)

def readFrom (m : Meter σ) (source : ρ) : Nat × Option Failure × List Nat × Meter σ :=
  copy (ByteSource.patience source + 1) bufferStart source m

def flush (m : Meter σ) : Option Failure × Meter σ :=
  let (e, sink) := ByteSink.flush m.sink
  (e, { m with sink })

def close (m : Meter σ) : Option Failure × Meter σ :=
  let (e, sink) := ByteSink.close m.sink
  (e, { m with sink, isOpen := false })

end Meter

end Dalvik
