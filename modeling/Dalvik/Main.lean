import Dalvik.Command.Run

/-!
# The program

Copies the files that the arguments name into a disk, runs the command on it, prints what it said
and writes the files it made.
-/

namespace Dalvik.Program

open Command

private def text (s : Bytes) : String := (String.fromUTF8? ⟨s.toArray⟩).getD ""

/-- A file under its path, if it can be read. -/
private def fileAt (path : String) : IO (Option (Bytes × Bytes)) := do
  try
    let contents ← IO.FS.readBinFile path
    return some (Bytes.ofString path, contents.data.toList)
  catch _ => return none

/-- The files that a run may read: the arguments, the values of flags and the standard settings. -/
private def candidates (args : List String) : List String :=
  let values := args.filterMap fun a =>
    (Bytes.cut (byte '=') (Bytes.ofString a)).map fun (_, value) => text value
  (text standardSettings :: args ++ values).eraseDups

/-- Writes a file and makes the directories on the way to it. -/
private def store (file : Bytes × Bytes) : IO Unit := do
  IO.FS.createDirAll (text (Path.directory file.1))
  IO.FS.writeBinFile (text file.1) ⟨file.2.toArray⟩

def run (args : List String) : IO UInt32 := do
  let files ← (candidates args).filterMapM fileAt
  let o := Command.run (.ofFiles files) (args.map Bytes.ofString)
  for f in o.disk.filesBelow [] do
    if !files.contains f then store f
  let out ← IO.getStdout
  out.write ⟨o.out.toArray⟩
  let err ← IO.getStderr
  err.write ⟨o.err.toArray⟩
  return UInt32.ofNat o.exit

end Dalvik.Program

def main (args : List String) : IO UInt32 := Dalvik.Program.run args
