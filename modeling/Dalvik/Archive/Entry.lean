import Dalvik.Archive.Directory

/-!
# Contents of archive entries

An entry's bytes are checked while they are read: against the size the directory gives and, at the
end, against the checksum. Only stored entries are read.
-/

namespace Dalvik.Archive

variable (a : Archive)

/-- The method of entries that are stored as they are. -/
def stored : Nat := 0

/-- Where the bytes of an entry start: after its own header. -/
def bodyOffset (e : ArchiveEntry) : Except Failure Nat :=
  if e.headerOffset < 0 then .error (.disk (ascii "readat") a.path .negativeOffset)
  else
    let offset := e.headerOffset.toNat
    let r := slice a.file offset headerLength
    if r.length < headerLength then .error .eof
    else if r.take 4 ≠ headerSignature then .error .notArchive
    else .ok (offset + headerLength + littleEndian ((r.drop 26).take 2) + littleEndian ((r.drop 28).take 2))

/-- What is wrong at the end of an entry that has all its bytes. A descriptor after the bytes, if the
flags announce one, must repeat the checksum; a checksum of zero is otherwise not looked at. -/
def verdict (e : ArchiveEntry) (data : Bytes) (past : Nat) : Option Failure :=
  let wrong := if Crc32.checksum data = e.crc then none else some Failure.archiveChecksum
  if e.flags / 8 % 2 = 1 then
    let r := slice a.file past 16
    let fields := if r.take 4 = descriptorSignature then r.drop 4 else r.take 12
    if fields.length < 12 then some .unexpectedEof
    else if littleEndian (fields.take 4) ≠ e.crc.toNat then some .archiveChecksum
    else wrong
  else if e.crc = 0 then none
  else wrong

/-- A source of the bytes of an entry. An entry with more bytes than the directory says fails at the
read that goes past them; so does one that the file cuts short. -/
def source (e : ArchiveEntry) : Except Failure Source := do
  let body ← a.bodyOffset e
  if e.name.getLast? = some Path.slash then
    return { data := [], failing := if e.size = 0 then none else some .notArchive }
  if e.method ≠ stored then throw .archiveMethod
  let data := slice a.file body e.packedSize
  if e.size < data.length then return { data, barrier := some (e.size, .notArchive) }
  else if data.length < e.size then
    if data.length < e.packedSize then return { data, barrier := some (data.length, .unexpectedEof) }
    else return { data, failing := some .unexpectedEof }
  else return { data, failing := a.verdict e data (body + e.packedSize) }

end Dalvik.Archive
