import Dalvik.Action
import Dalvik.Storage.Path

/-!
# Disks

The files that a command reads and writes, as a value. A place is the list of components of a
cleaned path from the working directory; places outside it start with double dots or the root.
-/

namespace Dalvik

structure Disk where
  /-- Places that are directories. -/
  directories : List (List Bytes) := []
  files : List (List Bytes × Bytes) := []
  deriving Inhabited

namespace Disk

variable (d : Disk)

/-- The working directory, what is above it and the root always exist. -/
def isDirectory (place : List Bytes) : Bool :=
  place.all (· == Path.dotDot) || place == [[Path.slash]] || d.directories.contains place

def file? (place : List Bytes) : Option Bytes := (d.files.find? (·.1 == place)).map Prod.snd

/-- What a path leads to. -/
inductive Found where
  | directory
  | file (contents : Bytes)
  | missing
  deriving Repr

def found (place : List Bytes) : Found :=
  if d.isDirectory place then .directory
  else
    match d.file? place with
    | some contents => .file contents
    | none => .missing

/-- Goes through the components of a path one by one; all but the last must be directories. -/
def walk (place : List Bytes) : List Bytes → Except DiskCause (List Bytes)
  | [] => .ok place
  | part :: rest =>
    match d.found place with
    | .file _ => .error .notDirectory
    | .missing => .error .notExist
    | .directory =>
      if part.isEmpty || part == Path.dot then walk place rest
      else if part == Path.dotDot then
        match place.getLast? with
        | none => walk [Path.dotDot] rest
        | some last =>
          if last == Path.dotDot then walk (place ++ [Path.dotDot]) rest
          else if place == [[Path.slash]] then walk place rest
          else walk place.dropLast rest
      else walk (place ++ [part]) rest

/-- The place that a path names. -/
def locate (path : Bytes) : Except DiskCause (List Bytes) :=
  if path.isEmpty then .error .notExist
  else if Path.isRooted path then d.walk [[Path.slash]] (Path.split path)
  else d.walk [] (Path.split path)

def refused {α : Type} (operation : String) (path : Bytes) (cause : DiskCause) :
    Except Stop α :=
  fail (.disk (ascii operation) path cause)

/-- What exists at a path; `operation` is named when nothing does. -/
def look (operation : String) (path : Bytes) : Except Stop Found :=
  match d.locate path with
  | .error cause => refused operation path cause
  | .ok place =>
    match d.found place with
    | .missing => refused operation path .notExist
    | found => .ok found

/-- The contents of a file. A directory can be opened, but not read. -/
def read (path : Bytes) : Except Stop (Except Failure Bytes) := do
  match ← d.look "open" path with
  | .file contents => return .ok contents
  | _ => return .error (.disk (ascii "read") path .isDirectory)

/-- Puts a file at a place. -/
def setFile (place : List Bytes) (contents : Bytes) : Disk :=
  { d with files := d.files.filter (·.1 != place) ++ [(place, contents)] }

/-- Writes a file whose directory exists. -/
def write (path contents : Bytes) : Except Stop Disk :=
  match d.locate path with
  | .error cause => refused "open" path cause
  | .ok place =>
    if d.isDirectory place then refused "open" path .isDirectory else .ok (d.setFile place contents)

/-- Makes a directory and all those on the way to it. -/
def makeDirectories (path : Bytes) : Except Stop Disk :=
  (Path.ancestors path).foldlM (fun (d : Disk) path =>
    match d.locate path with
    | .error cause => refused "mkdir" path cause
    | .ok place =>
      match d.found place with
      | .directory => .ok d
      | .file _ => refused "mkdir" path .notDirectory
      | .missing => .ok { d with directories := d.directories ++ [place] }) d

/-- A disk with the given files. -/
def ofFiles (files : List (Bytes × Bytes)) : Disk :=
  files.foldl (fun d (path, contents) =>
    let d := (d.makeDirectories (Path.directory path)).toOption.getD d
    (d.write path contents).toOption.getD d) {}

/-- The files below a directory by their paths from there. -/
def filesBelow (place : List Bytes) : List (Bytes × Bytes) :=
  d.files.filterMap fun (p, contents) =>
    if !place.isPrefixOf p then none
    else
      match p.drop place.length with
      | [] => none
      | c :: rest =>
        if c == Path.dotDot || c == [Path.slash] then none
        else some (Bytes.join [Path.slash] (c :: rest), contents)

end Disk

end Dalvik
