import Dalvik.Archive.Entry
import Dalvik.Image.Loader

/-!
# Packages

A package is an archive that holds images among other things. Its images are read in the order of
their entries, or copied out one by one under a check of size and checksum.
-/

namespace Dalvik.Archive

/-- White space ends the name of an image. -/
private def isSpace (b : UInt8) : Bool := b = 0x20 || (0x09 ≤ b && b ≤ 0x0d && b ≠ 0x0b)

def imageSuffix : Bytes := ascii ".dex"

/-- Whether an entry is an image, by its name: no white space, and an ending after something. -/
def isImageName (name : Bytes) : Bool :=
  imageSuffix.isSuffixOf name && imageSuffix.length < name.length && !name.any isSpace

variable (a : Archive)

/-- The entries that are images, with their numbers. -/
def images : List (ArchiveEntry × Nat) := a.entries.zipIdx.filter fun e => isImageName e.1.name

/-- Loads one image after the other up to the first failure. -/
private def loadEach (lenient : Bool) :
    List (ArchiveEntry × Nat) → Except Stop PUnit × List ImageFile × List Event
  | [] => (.ok ⟨⟩, [], [])
  | (e, i) :: rest =>
    let found : Event := .remark 1 (ascii "dex file " ++ e.name ++ ascii " at entry " ++ decimal i)
    match a.source e with
    | .error cause =>
      (fail (.within (ascii "opening apk " ++ a.path ++ ascii " dex " ++ e.name) cause), [], [found])
    | .ok source =>
      match load { name := e.name, archive := some a.path, lenient } source e.size with
      | (.error stop, events) => (.error stop, [], found :: events)
      | (.ok file, events) =>
        let (r, files, later) := loadEach lenient rest
        (r, file :: files, found :: events ++ later)

/-- Loads the images of an archive; those before a failure are given. -/
def loadImages (lenient : Bool) : Except Stop PUnit × List ImageFile × List Event :=
  let (r, files, events) := a.loadEach lenient a.images
  (r, files, .archive a.path :: .remark 1 (ascii "APK " ++ a.path ++ ascii " contains " ++
    decimal a.entries.length ++ ascii " entries") :: events)

/-- What is known of an extracted entry. -/
structure Extracted where
  name : Bytes := []
  size : Nat := 0
  crc : UInt32 := 0
  compressed : Bool := false
  deriving Repr, Inhabited

/-- Copies an entry to a sink and compares what was written with the directory. -/
def copyEntry (e : ArchiveEntry) (sink : Sink) : Except Stop PUnit × Extracted × Sink :=
  let x : Extracted := { name := e.name, compressed := e.method != stored }
  let label := a.path ++ ascii " entry " ++ e.name
  let refused (cause : Failure) : Except Stop PUnit := fail (.within (ascii "apk " ++ label) cause)
  match a.source e with
  | .error cause => (fail (.within (ascii "opening apk " ++ label) cause), x, sink)
  | .ok source =>
    let (_, failure, _, m) := ({ sink } : Meter).readFrom source
    let x := { x with size := m.size, crc := m.crc32 }
    match failure with
    | some .archiveChecksum => (refused (.crcMismatch x.crc.toNat e.crc.toNat), x, m.sink)
    | some cause => (fail (.within (ascii "extracting apk " ++ label) cause), x, m.sink)
    | none =>
      match m.flush with
      | (some cause, m) => (fail cause, x, m.sink)
      | (none, m) =>
        if x.size ≠ e.size then (refused (.sizeMismatch x.size e.size), x, m.sink)
        else if e.crc ≠ 0 ∧ x.crc ≠ e.crc then
          (refused (.crcMismatch x.crc.toNat e.crc.toNat), x, m.sink)
        else (.ok ⟨⟩, x, m.sink)

/-- Copies the first entry with a name to a sink. -/
def extract (name : Bytes) (sink : Sink) : Except Stop PUnit × Extracted × Sink :=
  match a.entries.find? (·.name == name) with
  | some e => a.copyEntry e sink
  | none => (fail (.within (ascii "apk " ++ a.path) (.entryNotFound name)), {}, sink)

/-- Loads the images of the archive at a path. -/
def loadAt (d : Disk) (path : Bytes) (lenient : Bool) :
    Except Stop PUnit × List ImageFile × List Event :=
  match openAt d path with
  | .ok a => a.loadImages lenient
  | .error e => (.error e, [], [])

/-- Copies an entry of the archive at a path to a sink. -/
def extractAt (d : Disk) (path name : Bytes) (sink : Sink) : Except Stop PUnit × Extracted × Sink :=
  match openAt d path with
  | .ok a => a.extract name sink
  | .error e => (.error e, {}, sink)

end Dalvik.Archive
