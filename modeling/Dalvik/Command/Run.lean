import Dalvik.Archive.Package
import Dalvik.Command.Flags
import Dalvik.Command.Settings
import Dalvik.Export

/-!
# The command

Lists, disassembles, checks or extracts the images of a file. A run takes a disk and arguments and
gives what it prints, its exit code and the disk it leaves.
-/

namespace Dalvik

/-- Loads the image in a file of a disk. -/
def loadFile (d : Disk) (path : Bytes) (lenient : Bool) : Except Stop ImageFile × List Event :=
  let o : LoadOptions := { name := path, lenient }
  match d.look "stat" path with
  | .error e => (.error (e.within (o.label ++ ascii ": os.Stat failed()")), [])
  | .ok (.file contents) => load o { data := contents } contents.length
  | .ok _ => load o { data := [], failing := some (.disk (ascii "read") path .isDirectory) } 0

namespace Command

/-! ## Options -/

inductive Task where
  | dump
  | disassemble
  | verify
  | extract
  deriving DecidableEq, Repr, Inhabited

namespace Task

def all : List Task := [.dump, .disassemble, .verify, .extract]

def flagName : Task → Bytes
  | .dump => ascii "dump"
  | .disassemble => ascii "smali"
  | .verify => ascii "verify"
  | .extract => ascii "extract"

end Task

/-- The flags in the order they are described. -/
def flags : List Flag :=
  [{ name := ascii "comments", kind := .switch, help := ascii "Write comments in smali output",
      standard := ascii "true" },
    { name := ascii "config", kind := .text,
      help := ascii "TOML config file (default dexedit.toml if present)" },
    { name := ascii "dump", kind := .switch, help := ascii "Dump DEX/APK info to stdout" },
    { name := ascii "extract", kind := .switch,
      help := ascii "Extract the DEX files of an APK, checking size and CRC" },
    { name := ascii "indent", kind := .number, help := ascii "Indent step of smali output",
      standard := ascii "4" },
    { name := ascii "out", kind := .text, help := ascii "Output directory for -smali and -extract",
      standard := ascii "\".\"" },
    { name := ascii "skip-magic-check", kind := .switch,
      help := ascii "Accept unknown DEX magic and versions" },
    { name := ascii "smali", kind := .switch, help := ascii "Disassemble every class to smali files" },
    { name := ascii "v", kind := .number, help := ascii "Verbose trace output level" },
    { name := ascii "verify", kind := .switch,
      help := ascii "Check checksums and the byte-exact round trip of code and class data" }]

def usageLine : Bytes := ascii "usage: dexedit [flags] <APK or DEX file>\n"

/-- The settings file that is read unless another is named. -/
def standardSettings : Bytes := ascii "dexedit.toml"

/-- The last value given to a flag. -/
private def last? (given : List (Bytes × FlagValue)) (name : String) : Option FlagValue :=
  (given.reverse.find? (·.1 == ascii name)).map Prod.snd

/-- The settings of a file. -/
private def settingsOf (d : Disk) (path : Bytes) : Except Stop Settings :=
  labelled (ascii "config " ++ path) do
    match ← d.read path with
    | .error e => fail e
    | .ok text => Settings.apply {} text

/-- The named settings file, or the standard one if there is one. -/
private def baseSettings (d : Disk) (given : List (Bytes × FlagValue)) : Except Stop Settings :=
  match last? given "config" with
  | some (.text (c :: rest)) => settingsOf d (c :: rest)
  | _ =>
    match d.look "open" standardSettings with
    | .error (.failure (.disk _ _ .notExist)) => .ok {}
    | _ => settingsOf d standardSettings

/-- Flags win over the settings file. -/
private def override (given : List (Bytes × FlagValue)) (s : Settings) : Settings :=
  given.foldl (fun s (name, v) =>
    match v with
    | .number n =>
      if name = ascii "v" then { s with verbose := n }
      else if name = ascii "indent" then { s with indent := n }
      else s
    | .switch b =>
      if name = ascii "skip-magic-check" then { s with skipMagicCheck := b }
      else if name = ascii "comments" then { s with comments := b }
      else s
    | .text t => if name = ascii "out" then { s with outDirectory := t } else s) s

/-- What a run is to do. -/
structure Options where
  settings : Settings
  task : Task
  path : Bytes

/-- The options of the given flags and arguments: one task and one file. -/
def optionsOf (d : Disk) (given : List (Bytes × FlagValue)) (rest : List Bytes) :
    Except Stop Options := do
  let settings := override given (← baseSettings d given)
  match Task.all.filter fun t => (given.reverse.find? (·.1 == t.flagName)).any fun g => g.2 == .switch true with
  | [task] =>
    match rest with
    | [path] => return { settings, task, path }
    | _ => fail (.external (ascii "please supply an input APK or DEX file"))
  | _ => fail (.external (ascii "select one of: -dump, -smali, -verify, -extract"))

/-! ## Running -/

/-- What a run has printed, and the disk as it has left it. -/
structure Session where
  detail : Int
  disk : Disk
  out : Bytes := []
  err : Bytes := []

def say (s : Bytes) : Action Session PUnit := modify fun x => { x with out := x.out ++ s }

/-- One JSON string. -/
private def jsonText (s : Bytes) : Bytes :=
  byte '"' :: ((Utf8.pieces s).flatMap fun
    | .stray _ => ascii "\\ufffd"
    | .point v =>
      if v = 0x22 then ascii "\\\""
      else if v = 0x5c then ascii "\\\\"
      else if v = 0x0a then ascii "\\n"
      else if v = 0x0d then ascii "\\r"
      else if v = 0x09 then ascii "\\t"
      else if v < 0x20 then ascii "\\u" ++ hexWide 4 v
      else Utf8.encodePoint v) ++ [byte '"']

/-- A line of the log, which is kept only when some detail is asked for. Fields stand after the
message, each with its value already spelled. -/
def log (message : Bytes) (fields : List (String × Bytes) := []) : Action Session PUnit :=
  modify fun x =>
    if x.detail ≤ 0 then x
    else
      let tail := if fields.isEmpty then []
        else byte '\t' :: 0x7b :: Bytes.join (ascii ", ")
          (fields.map fun (k, v) => jsonText (ascii k) ++ ascii ": " ++ v) ++ [0x7d]
      { x with err := x.err ++ ascii "INFO\tdexedit\t" ++ message ++ tail ++ [byte '\n'] }

private def logRemarks (remarks : List (Nat × Bytes)) : Action Session PUnit := do
  let detail := (← get).detail
  for (level, text) in remarks do
    if level ≤ detail then log text [("vlevel", decimal level)]

def isImagePath (path : Bytes) : Bool := Archive.imageSuffix.isSuffixOf path

/-- The images of a file, which is one itself or an archive. -/
def loadPath (d : Disk) (lenient : Bool) (path : Bytes) :
    Except Stop PUnit × List ImageFile × List Event :=
  if isImagePath path then
    match loadFile d path lenient with
    | (.ok file, events) => (.ok ⟨⟩, [file], events)
    | (.error e, events) => (.error e, [], events)
  else Archive.loadAt d path lenient

/-- The failures of some checks; a fault stays one. -/
private def failuresOf (checks : List (Except Stop PUnit)) : Except Stop (List Failure) :=
  checks.filterMapM fun
    | .ok _ => .ok none
    | .error (.failure e) => .ok (some e)
    | .error e => .error e

private def refuseAll (es : List Failure) : Action Session PUnit :=
  match Failure.all es with
  | some e => Action.refuse e
  | none => pure ⟨⟩

/-- Checks one image after the other and says how each fared. -/
private def verifyEach : List ImageFile → Action Session (List Failure)
  | [] => return []
  | f :: rest => do
    let es ← failuresOf [f.verify, f.roundTrip]
    if es.isEmpty then say (f.name ++ ascii ": ok, " ++ decimal f.classes.length ++ ascii " classes\n")
    else say (f.name ++ ascii ": FAILED\n")
    return es ++ (← verifyEach rest)

def extractEach (a : Archive) (directory : Bytes) : List (ArchiveEntry × Nat) → Action Session PUnit
  | [] => pure ⟨⟩
  | (e, _) :: rest => do
    let path := Path.join [directory, Path.base e.name]
    let disk ← (← get).disk.makeDirectories (Path.directory path)
    modify fun x => { x with disk }
    let disk ← (← get).disk.write path []
    let (r, x, sink) := Archive.extractAt disk a.path e.name {}
    modify fun s => { s with disk := (disk.write path sink.held.toList).toOption.getD disk }
    r
    log (ascii "extracted") [("entry", jsonText x.name), ("size", decimal x.size),
      ("compressed", ascii (if x.compressed then "true" else "false"))]
    say (path ++ ascii ": " ++ decimal x.size ++ ascii " bytes crc 0x" ++ hexWide 8 x.crc.toNat ++
      ascii "\n")
    extractEach a directory rest

def perform (o : Options) : Action Session PUnit := do
  let s := o.settings
  let loaded := loadPath (← get).disk s.skipMagicCheck o.path
  match o.task with
  | .dump =>
    let (r, _, events) := loaded
    say (listing events)
    logRemarks (events.filterMap Event.remark?)
    r
  | .disassemble =>
    let (r, _, events) := loaded
    let x ← Export.run { directory := s.outDirectory, indent := s.indent, comments := s.comments }
      events (← get).disk
    modify fun y => { y with disk := x.disk }
    logRemarks x.remarks
    r
    say (ascii "wrote " ++ decimal x.written.length ++ ascii " classes to " ++ s.outDirectory ++
      ascii "\n")
    refuseAll x.failure.toList
  | .verify =>
    let (r, files, events) := loaded
    logRemarks (events.filterMap Event.remark?)
    r
    refuseAll (← verifyEach files)
  | .extract =>
    if isImagePath o.path then Action.refuse (.needsArchive o.path)
    else
      let a ← Archive.openAt (← get).disk o.path
      extractEach a s.outDirectory a.images

/-- How a run ended. -/
structure Outcome where
  exit : Nat
  out : Bytes := []
  err : Bytes := []
  disk : Disk

private def line (s : Bytes) : Bytes := if s.getLast? = some (byte '\n') then s else s ++ [byte '\n']

/-- Runs the command. -/
def run (d : Disk) (args : List Bytes) : Outcome :=
  let misused (before message : Bytes) : Outcome :=
    { exit := 2, err := before ++ ascii "error: " ++ message ++ ascii "\n" ++ usageLine, disk := d }
  let description := usageLine ++ flags.flatMap Flag.usage
  match Flag.parse flags args with
  | .error .help => { exit := 0, err := description, disk := d }
  | .error e => misused (e.message ++ ascii "\n" ++ description) e.message
  | .ok (given, rest) =>
    match optionsOf d given rest with
    | .error (.failure e) => misused [] e.message
    | .error (.fault _) => { exit := 2, disk := d }
    | .ok o =>
      let act : Action Session PUnit := do
        log (ascii "input is " ++ o.path)
        perform o
        log (ascii "leaving main")
      match act.apply { detail := o.settings.verbose, disk := d } with
      | (.ok _, x) => { exit := 0, out := x.out, err := x.err, disk := x.disk }
      | (.error (.failure e), x) =>
        { exit := 1, out := x.out, err := x.err ++ line (ascii "dexedit: " ++ e.message), disk := x.disk }
      | (.error (.fault _), x) => { exit := 2, out := x.out, err := x.err, disk := x.disk }

end Command

end Dalvik
