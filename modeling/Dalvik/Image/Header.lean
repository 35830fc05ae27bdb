import Dalvik.Cell
import Dalvik.Digest

/-!
# Header

The first 112 bytes of an image: magic, version, checksum, signature, sizes, and where each section
lies. The signature covers everything after itself and the checksum everything after itself, so
sealing computes the signature first.
-/

namespace Dalvik

/-- The number of elements of a section and where they start. -/
structure Section where
  size : UInt32 := 0
  offset : UInt32 := 0
  deriving DecidableEq, Repr, Inhabited

namespace Section

def bytes (s : Section) : Bytes := bytesU32 s.size ++ bytesU32 s.offset

def byteCount (_ : Section) : Nat := 4 + 4

def decode (c : Cursor) : Action Section Cursor := do
  let c ← Action.on (·.size) (fun size s => { s with size }) (decodeU32 c)
  Action.on (·.offset) (fun offset s => { s with offset }) (decodeU32 c)

end Section

/-- The version bytes of a number: three digits and a NUL. -/
def versionBytes (n : Int) : Bytes :=
  let n := n.tmod 1000
  let text := if n < 0 then byte '-' :: padLeft 2 (byte '0') (decimal n.natAbs)
    else padLeft 3 (byte '0') (decimal n)
  text ++ [0]

structure Header where
  magic : Signature := .new (ascii "dex magic") (ascii "dex\n")
  version : Bytes := versionBytes 35
  checksum : UInt32 := 0
  signature : Bytes := List.replicate 20 0
  fileSize : UInt32 := 0x70
  headerSize : UInt32 := 0x70
  endianTag : UInt32 := 0x12345678
  link : Section := {}
  mapOffset : UInt32 := 0
  strings : Section := {}
  types : Section := {}
  protos : Section := {}
  fields : Section := {}
  methods : Section := {}
  classes : Section := {}
  data : Section := {}
  deriving DecidableEq, Repr, Inhabited

namespace Header

/-- The size of a header in bytes. -/
def length : Nat := 0x70

def minVersion : Nat := 35
def maxVersion : Nat := 39

variable (h : Header)

/-- The sections of identifiers and data in order. -/
def sections : List Section := [h.strings, h.types, h.protos, h.fields, h.methods, h.classes, h.data]

/-- Replaces section number `i` of those that `sections` lists. -/
def setSection (i : Nat) (s : Section) : Header :=
  match i with
  | 0 => { h with strings := s }
  | 1 => { h with types := s }
  | 2 => { h with protos := s }
  | 3 => { h with fields := s }
  | 4 => { h with methods := s }
  | 5 => { h with classes := s }
  | 6 => { h with data := s }
  | _ => h

/-- The number that three digits and a NUL spell. -/
def versionNumber? : Option Nat :=
  match h.version with
  | [a, b, c, 0] =>
    let digit? (x : UInt8) : Option Nat :=
      if 0x30 ≤ x && x ≤ 0x39 then some (x.toNat - 0x30) else none
    match digit? a, digit? b, digit? c with
    | some a, some b, some c => some (100 * a + 10 * b + c)
    | _, _, _ => none
  | _ => none

def isValid : Bool := h.magic.isValid && h.versionNumber?.isSome

/-- Lets a foreign magic or version through. -/
def disableVerification (disable : Bool) : Header :=
  { h with magic := { h.magic with unchecked := disable } }

def pieces : List Bytes :=
  [h.magic.bytes, h.version, bytesU32 h.checksum, h.signature, bytesU32 h.fileSize,
    bytesU32 h.headerSize, bytesU32 h.endianTag, h.link.bytes, bytesU32 h.mapOffset] ++
    h.sections.map Section.bytes

def bytes : Bytes := h.pieces.flatten

def byteCount : Nat :=
  h.magic.bytes.length + h.version.length + 4 + h.signature.length + 4 + 4 + 4 + h.link.byteCount + 4 +
    total (h.sections.map Section.byteCount)

/-- Reads the fields in order; those before a failure are kept. -/
def decodeFields (c : Cursor) : Action Header Cursor := do
  let c ← Action.on (·.magic) (fun v h => { h with magic := v }) (Signature.decode c)
  let c ← Action.on (·.version) (fun v h => { h with version := v }) (decodeRun c)
  let c ← Action.on (·.checksum) (fun v h => { h with checksum := v }) (decodeU32 c)
  let c ← Action.on (·.signature) (fun v h => { h with signature := v }) (decodeRun c)
  let c ← Action.on (·.fileSize) (fun v h => { h with fileSize := v }) (decodeU32 c)
  let c ← Action.on (·.headerSize) (fun v h => { h with headerSize := v }) (decodeU32 c)
  let c ← Action.on (·.endianTag) (fun v h => { h with endianTag := v }) (decodeU32 c)
  let c ← Action.on (·.link) (fun v h => { h with link := v }) (Section.decode c)
  let c ← Action.on (·.mapOffset) (fun v h => { h with mapOffset := v }) (decodeU32 c)
  let c ← Action.on (·.strings) (fun v h => { h with strings := v }) (Section.decode c)
  let c ← Action.on (·.types) (fun v h => { h with types := v }) (Section.decode c)
  let c ← Action.on (·.protos) (fun v h => { h with protos := v }) (Section.decode c)
  let c ← Action.on (·.fields) (fun v h => { h with fields := v }) (Section.decode c)
  let c ← Action.on (·.methods) (fun v h => { h with methods := v }) (Section.decode c)
  let c ← Action.on (·.classes) (fun v h => { h with classes := v }) (Section.decode c)
  Action.on (·.data) (fun v h => { h with data := v }) (Section.decode c)

/-- Reads a header; version and byte order are checked unless verification is off. -/
def decode (c : Cursor) : Action Header Cursor := do
  let start := c.pos
  let refuse (offset : Nat) (d : Defect) : Action Header Cursor :=
    Action.refuse (.malformed (ascii "dex header") (start + offset) d)
  let rest ← decodeFields c
  let h ← get
  if h.magic.unchecked then return rest
  match h.versionNumber? with
  | none => refuse 4 (.version h.version)
  | some n =>
    if n < minVersion ∨ maxVersion < n then refuse 4 (.unsupportedVersion n)
    else if h.endianTag = 0x12345678 then return rest
    else if h.endianTag = 0x78563412 then refuse 40 .bigEndian
    else refuse 40 (.endianTag h.endianTag.toNat)

/-! ## Checksums -/

/-- The checksum of a file: everything after the checksum field. -/
def computeChecksum (file : Bytes) : Except Stop UInt32 :=
  if file.length < 12 then fault none else .ok (Adler32.checksum (file.drop 12))

/-- The signature of a file: everything after the signature field. -/
def computeSignature (file : Bytes) : Except Stop Bytes :=
  if file.length < 32 then fault none else .ok (Sha1.digest (file.drop 32))

private def checkSize (file : Bytes) : Except Stop PUnit :=
  if file.length < length then
    fail (.malformed (ascii "dex header") 0 (.shorterThanHeader file.length))
  else .ok ⟨⟩

/-- Computes signature and checksum of a file and stores them in the file and the header. -/
def sealFile (file : Bytes) : Except Stop (Bytes × Header) := do
  checkSize file
  let signature ← computeSignature file
  let file := file.take 12 ++ signature ++ file.drop 32
  let checksum ← computeChecksum file
  return (file.take 8 ++ bytesU32 checksum ++ file.drop 12, { h with signature, checksum })

/-- Checks the stored checksum and signature of a file. -/
def verify (file : Bytes) : Except Stop PUnit := do
  checkSize file
  let stored := littleEndian ((file.drop 8).take 4)
  let computed ← computeChecksum file
  if stored ≠ computed.toNat then fail (.checksum stored computed.toNat)
  let storedSignature := (file.drop 12).take 20
  let signature ← computeSignature file
  if storedSignature ≠ signature then fail (.signature storedSignature signature)

end Header

end Dalvik
