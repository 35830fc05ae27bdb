import Dalvik.Sink
import Dalvik.Storage.Disk

/-!
# Archive directories

An archive is read from its end: a trailer says where the directory lies, and the directory lists
the entries. Offsets count from the start of the archive, which need not be the start of the file.
-/

namespace Dalvik

/-- An entry as the directory lists it. -/
structure ArchiveEntry where
  name : Bytes
  flags : Nat
  method : Nat
  crc : UInt32
  packedSize : Nat
  size : Nat
  /-- Where the entry's own header lies in the file. -/
  headerOffset : Int
  deriving Repr, Inhabited

/-- An opened archive: the path and contents of its file, and its entries in order. -/
structure Archive where
  path : Bytes
  file : Array UInt8
  entries : List ArchiveEntry
  deriving Inhabited

namespace Archive

/-- The `n` bytes of a file from a position on. -/
def slice (file : Array UInt8) (start n : Nat) : Bytes := (file.extract start (start + n)).toList

private def field (r : Bytes) (i width : Nat) : Nat := littleEndian ((r.drop i).take width)

def trailerSignature : Bytes := [0x50, 0x4b, 0x05, 0x06]
def listingSignature : Bytes := [0x50, 0x4b, 0x01, 0x02]
def headerSignature : Bytes := [0x50, 0x4b, 0x03, 0x04]
def descriptorSignature : Bytes := [0x50, 0x4b, 0x07, 0x08]

def trailerLength : Nat := 22
def listingLength : Nat := 46
def headerLength : Nat := 30

/-! ## The trailer -/

/-- What the trailer says: the number of entries, and the size and offset of the directory. -/
structure Trailer where
  /-- Where the trailer itself lies. -/
  position : Nat
  count : Nat
  size : Nat
  offset : Nat
  deriving Repr

/-- The last position at or before `i` with a trailer; one whose comment is cut off ends the
search. -/
private def searchTrailer (file : Array UInt8) (first : Nat) : Nat → Option Nat
  | 0 => if 0 < first then none else accept 0
  | i + 1 => if i + 1 < first then none
    else if slice file (i + 1) 4 = trailerSignature then accept (i + 1)
    else searchTrailer file first i
where
  accept (i : Nat) : Option Nat :=
    if slice file i 4 = trailerSignature ∧
        i + trailerLength + field (slice file i trailerLength) 20 2 ≤ file.size then some i
    else none

/-- How far from the end the trailer is looked for. -/
def searchDepth : Nat := 65 * 1024

/-- Finds and reads the trailer. -/
def trailer? (file : Array UInt8) : Option Trailer :=
  if file.size < trailerLength then none
  else
    (searchTrailer file (file.size - searchDepth) (file.size - trailerLength)).map fun position =>
      let r := slice file position trailerLength
      { position, count := field r 10 2, size := field r 12 4, offset := field r 16 4 }

/-! ## The directory -/

/-- Bytes at a position, all of which must be there. -/
private def full (file : Array UInt8) (start n : Nat) : Except Failure Bytes :=
  let s := slice file start n
  if s.length = n then .ok s else .error (if s.isEmpty then .eof else .unexpectedEof)

/-- Reads the entry at a position of the directory, and where the next one starts. Entries that need
64-bit sizes or offsets are refused. -/
def readEntry (file : Array UInt8) (start : Nat) : Except Failure (ArchiveEntry × Nat) := do
  let r ← full file start listingLength
  if r.take 4 ≠ listingSignature then throw .notArchive
  let nameLength := field r 28 2
  let rest := nameLength + field r 30 2 + field r 32 2
  let d ← full file (start + listingLength) rest
  let entry : ArchiveEntry :=
    { name := d.take nameLength, flags := field r 8 2, method := field r 10 2,
      crc := UInt32.ofNat (field r 16 4), packedSize := field r 20 4, size := field r 24 4,
      headerOffset := field r 42 4 }
  if entry.packedSize = 0xffffffff ∨ entry.headerOffset = 0xffffffff then throw .notArchive
  return (entry, start + listingLength + rest)

/-- Reads entries up to the first thing that is none, and says what that was. Each entry takes some
bytes, so `fuel` may be the size of the file. -/
private def readEntries (file : Array UInt8) : Nat → Nat → List ArchiveEntry × Failure
  | 0, _ => ([], .notArchive)
  | fuel + 1, start =>
    match readEntry file start with
    | .error e => ([], e)
    | .ok (entry, next) =>
      let (entries, e) := readEntries file fuel next
      (entry :: entries, e)

/-- Where the archive starts in the file, if the trailer can be right. A start after that of the
file is ignored when there is an entry at the directory's offset anyway. -/
private def start? (file : Array UInt8) (t : Trailer) : Option Int :=
  let start : Int := t.position - t.size - t.offset
  if start + t.offset < 0 ∨ (file.size : Int) ≤ start + t.offset then none
  else if 0 < start then
    match readEntry file t.offset with
    | .ok _ => some 0
    | .error _ => some start
  else some start

/-- The entries of an archive. Their number must agree with the trailer in its low 16 bits. -/
def entriesOf (file : Array UInt8) : Except Failure (List ArchiveEntry) :=
  match trailer? file with
  | none => .error .notArchive
  | some t =>
    match start? file t with
    | none => .error .notArchive
    | some start =>
      let (entries, e) := readEntries file (file.size + 1) (start + t.offset).toNat
      if e = .eof then .error e
      else if entries.length % twoPow 16 ≠ t.count then .error e
      else .ok (entries.map fun x => { x with headerOffset := x.headerOffset + start })

/-- Opens the archive at a path. -/
def openAt (d : Disk) (path : Bytes) : Except Stop Archive :=
  labelled (ascii "unable to open APK " ++ path) do
    match ← d.read path with
    | .error e => fail e
    | .ok contents =>
      let file := contents.toArray
      match entriesOf file with
      | .error e => fail e
      | .ok entries => return { path, file, entries }

end Archive

end Dalvik
