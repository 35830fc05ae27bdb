import Dalvik.Text.Quoted

/-!
# Failures

Every refusal is a value that says what went wrong; `Failure.message` is the one place that words
it. A `Stop` is either a failure or a fault: a broken precondition, after which the value worked on
is no longer usable.
-/

namespace Dalvik

/-- A position in a named source text; lines and columns count from one. -/
structure Origin where
  name : Bytes := []
  line : Nat := 1
  column : Nat := 1
  deriving DecidableEq, Repr, Inhabited

def Origin.text (o : Origin) : Bytes :=
  let place := decimal o.line ++ ascii ":" ++ decimal o.column
  if o.name.isEmpty then place else o.name ++ ascii ":" ++ place

/-- What is wrong with a source text. -/
inductive Complaint where
  | expecting (want found : Bytes)
  | unexpected (found : Bytes)
  | invalid (noun text : Bytes)
  | invalidFor (text type : Bytes)
  | sourceName (text : Bytes)
  | nullFor (type : Bytes)
  | missing (directive : Bytes)
  | unknownDirective (text : Bytes)
  | unknownInstruction (name : Bytes)
  | registerRange
  | elementWidth (width : Int)
  | expectingQuoted
  | unterminated
  | expectingLiteral
  | breaksRange (register : Bytes)
  | duplicateLabel (name : Bytes)
  | unknownLabel (name : Bytes)
  | stated (text : Bytes)
  deriving DecidableEq, Repr

private def inQuotes (s : Bytes) : Bytes := ascii "'" ++ s ++ ascii "'"

def Complaint.text : Complaint → Bytes
  | .expecting want found => ascii "expecting " ++ want ++ ascii ", found " ++ inQuotes found
  | .unexpected found => ascii "unexpected " ++ inQuotes found
  | .invalid noun text => ascii "invalid " ++ noun ++ ascii " " ++ inQuotes text
  | .invalidFor text type => ascii "invalid value " ++ inQuotes text ++ ascii " for " ++ type
  | .sourceName text => ascii "invalid source name " ++ text
  | .nullFor type => ascii "null value for " ++ type
  | .missing directive => ascii "missing " ++ inQuotes directive
  | .unknownDirective text => ascii "unknown directive " ++ inQuotes text
  | .unknownInstruction name => ascii "unknown instruction " ++ inQuotes name
  | .registerRange => ascii "invalid register range"
  | .elementWidth width => ascii "invalid array element width " ++ decimal width
  | .expectingQuoted => ascii "expecting quoted literal"
  | .unterminated => ascii "unterminated literal"
  | .expectingLiteral => ascii "expecting literal"
  | .breaksRange register => ascii "register " ++ register ++ ascii " breaks the range"
  | .duplicateLabel name => ascii "duplicate label ':" ++ name ++ ascii "'"
  | .unknownLabel name => ascii "unknown label ':" ++ name ++ ascii "'"
  | .stated text => text

/-- What is wrong with a structure of an image. -/
inductive Defect where
  | unknownOpcode (unit : Nat)
  | overruns (address : Int) (size : Int)
  | identifier (got want : Nat)
  | elementWidth (width : Nat)
  | elementsOverrun (count width : Nat)
  | repeatsIndex (member : Nat) (index : Int)
  | valueType (tag : Nat)
  | booleanArgument (arg : Nat)
  | valueWidth (size : Nat) (kind : Bytes)
  | version (text : Bytes)
  | unsupportedVersion (number : Nat)
  | bigEndian
  | endianTag (tag : Nat)
  | shorterThanHeader (size : Nat)
  | notAnInstruction (what : Bytes) (address : Int)
  | noHandler (item : Nat) (offset : Int)
  | unterminatedString
  deriving DecidableEq, Repr

def Defect.text : Defect → Bytes
  | .unknownOpcode unit => ascii "unknown opcode 0x" ++ hexWide 4 unit
  | .overruns address size =>
    ascii "instruction at 0x" ++ hex address ++ ascii " overruns " ++ decimal size ++ ascii " code units"
  | .identifier got want => ascii "ident 0x" ++ hexWide 4 got ++ ascii ", want 0x" ++ hexWide 4 want
  | .elementWidth width => ascii "element width " ++ decimal width
  | .elementsOverrun count width =>
    decimal count ++ ascii " elements of " ++ decimal width ++ ascii " bytes overrun input"
  | .repeatsIndex member index =>
    ascii "member " ++ decimal member ++ ascii " repeats index " ++ decimal index
  | .valueType tag => ascii "unknown value type 0x" ++ hexWide 2 tag
  | .booleanArgument arg => ascii "boolean argument " ++ decimal arg
  | .valueWidth size kind => decimal size ++ ascii " bytes for a " ++ kind
  | .version text => ascii "version " ++ Quoted.quote text
  | .unsupportedVersion number =>
    ascii "unsupported version " ++ padLeft 3 (byte '0') (decimal number)
  | .bigEndian => ascii "big-endian files are not supported"
  | .endianTag tag => ascii "endian tag 0x" ++ hexWide 8 tag
  | .shorterThanHeader size =>
    ascii "file of " ++ decimal size ++ ascii " bytes is shorter than a header"
  | .notAnInstruction what address =>
    what ++ ascii " address 0x" ++ hex address ++ ascii " is not an instruction"
  | .noHandler item offset =>
    ascii "try " ++ decimal item ++ ascii ": no handler at offset " ++ decimal offset
  | .unterminatedString => ascii "missing NUL terminator"

/-- What is wrong with an encoded string. -/
inductive BadString where
  | truncated (position : Nat)
  | nul (position : Nat)
  | byteAt (value : Nat) (position : Nat)
  | length (declared actual : Int)
  deriving DecidableEq, Repr

def BadString.text : BadString → Bytes
  | .truncated position => ascii "truncated sequence at byte " ++ decimal position
  | .nul position => ascii "NUL byte at " ++ decimal position
  | .byteAt value position => ascii "byte 0x" ++ hexWide 2 value ++ ascii " at " ++ decimal position
  | .length declared actual =>
    ascii "length " ++ decimal declared ++ ascii ", decoded " ++ decimal actual

/-- Why a file of the disk was refused. -/
inductive DiskCause where
  | notExist
  | isDirectory
  | notDirectory
  | negativeOffset
  deriving DecidableEq, Repr

def DiskCause.text : DiskCause → Bytes
  | .notExist => ascii "no such file or directory"
  | .isDirectory => ascii "is a directory"
  | .notDirectory => ascii "not a directory"
  | .negativeOffset => ascii "negative offset"

inductive Failure where
  /-- More bytes were asked for than are left. -/
  | shortRead (need : Int) (offset available : Nat)
  | badPosition (position : Int) (size : Nat)
  | badWhence (whence : Int)
  | noMark
  | leb128 (offset : Nat)
  /-- A fixed byte string was expected. -/
  | mismatch (what got want : Bytes)
  | malformed (what : Bytes) (offset : Int) (defect : Defect)
  | parse (origin : Origin) (complaint : Complaint)
  /-- A reference that names nothing. -/
  | unresolved (what ref : Bytes)
  | badSyntax (what text : Bytes)
  /-- A literal that has no value of the wanted type. -/
  | notOfType
  /-- The instruction a reference should reach is gone. -/
  | missingTarget
  | registerRange (op : Bytes) (register : Int) (slot : Int) (largest : Int)
  | registerCount (op : Bytes) (count : Int)
  | registerSlot (op : Bytes) (slot : Int)
  | literalRange (op : Bytes) (value : Int)
  | notSequential (key before : Int)
  | repeatedKey (key : Int)
  | permutation (given size : Nat)
  | intoPayload (op : Bytes)
  | lacksOperand (op : Bytes) (operand : Bytes)
  | wrongReference (want got : Bytes)
  | notInList (item : Bytes)
  | listWithoutSize
  | refreshInBracket
  | elementWidth (width : Int)
  | definedTwice (index : Int)
  | noConstant (kind : Bytes)
  | notEncodable (text : Bytes)
  | notEncodableValue (text : Bytes)
  | checksum (stored computed : Nat)
  | signature (stored computed : Bytes)
  | mutf8 (cause : BadString)
  | longTry (start units : Int)
  | expectedSize (expected actual : Nat)
  | notImage
  | headerSize (stored actual : Nat)
  /-- A constant did not get the index that the file gives it. -/
  | misplaced (kind : Bytes) (index : Nat) (text : Bytes) (found : Int)
  | entriesOverrun (count : Nat)
  | shorty (proto : Bytes)
  /-- A part of a file is not encoded again as it was. -/
  | differs (what : Bytes) (offset : Int) (stage : Bytes)
  | entryNotFound (name : Bytes)
  | sizeMismatch (wrote directory : Nat)
  | crcMismatch (computed directory : Nat)
  | notArchive
  | archiveMethod
  | archiveChecksum
  | shortWrite
  | unexpectedEof
  | eof
  | disk (operation path : Bytes) (cause : DiskCause)
  | badSetting (line : Nat)
  | settingType (line : Nat) (key got want : Bytes)
  | unknownSettings (names : List Bytes)
  | needsArchive (path : Bytes)
  /-- A failure that the sink or source of bytes reports in its own words. -/
  | external (message : Bytes)
  /-- What was being done when `cause` arose. -/
  | within (label : Bytes) (cause : Failure)
  /-- Two failures of independent work. -/
  | also (first second : Failure)
  deriving DecidableEq, Repr

namespace Failure

def message : Failure → Bytes
  | .shortRead need offset available =>
    ascii "read past end of data: need " ++ decimal need ++ ascii " bytes at offset " ++
      decimal offset ++ ascii ", have " ++ decimal available
  | .badPosition position size =>
    ascii "position out of range: " ++ decimal position ++ ascii " (size " ++ decimal size ++ ascii ")"
  | .badWhence whence => ascii "dexio: bad whence " ++ decimal whence
  | .noMark => ascii "reset without matching mark"
  | .leb128 offset => ascii "malformed LEB128 value at offset " ++ decimal offset
  | .mismatch what got want =>
    what ++ ascii ": '" ++ hexBytes got ++ ascii "', expecting '" ++ hexBytes want ++ ascii "'"
  | .malformed what offset defect =>
    what ++ ascii " at offset " ++ decimal offset ++ ascii ": " ++ defect.text
  | .parse origin complaint => origin.text ++ ascii ": " ++ complaint.text
  | .unresolved what ref => ascii "unresolved " ++ what ++ ascii ": " ++ ref
  | .badSyntax what text => ascii "invalid key syntax: " ++ what ++ ascii " " ++ Quoted.quote text
  | .notOfType => ascii "invalid key syntax"
  | .missingTarget => ascii "missing target"
  | .registerRange op register slot largest =>
    op ++ ascii ": register " ++ decimal register ++ ascii " in slot " ++ decimal slot ++
      ascii ", max " ++ decimal largest ++ ascii ": register out of range"
  | .registerCount op count =>
    op ++ ascii ": " ++ decimal count ++ ascii " registers: register out of range"
  | .registerSlot op slot =>
    op ++ ascii ": no register slot " ++ decimal slot ++ ascii ": register out of range"
  | .literalRange op value => op ++ ascii ": 0x" ++ hex value ++ ascii ": value out of range"
  | .notSequential key before =>
    ascii "key 0x" ++ hex key ++ ascii " follows 0x" ++ hex before ++
      ascii ": switch keys are not sequential"
  | .repeatedKey key => ascii "sparse-switch payload: key 0x" ++ hex key ++ ascii " repeated"
  | .permutation given size =>
    ascii "block: permutation of " ++ decimal given ++ ascii " applied to " ++ decimal size ++
      ascii " items"
  | .intoPayload op => ascii "ins: cannot turn " ++ op ++ ascii " into a payload"
  | .lacksOperand op operand => ascii "ins: " ++ op ++ ascii " has no " ++ operand
  | .wrongReference want got =>
    ascii "ins: want a " ++ want ++ ascii " reference, got " ++ got
  | .notInList item => ascii "ins: " ++ item ++ ascii " is not in the list"
  | .listWithoutSize => ascii "ins: decoding a list without a size"
  | .refreshInBracket => ascii "ins: refresh inside a Link bracket"
  | .elementWidth width => ascii "ins: invalid array element width " ++ decimal width
  | .definedTwice index => ascii "class data: index " ++ decimal index ++ ascii " defined twice"
  | .noConstant kind => ascii "value has no key form: " ++ kind
  | .notEncodable text => ascii "dex: cannot encode " ++ text
  | .notEncodableValue text => ascii "dex: cannot encode " ++ text ++ ascii " as a value"
  | .checksum stored computed =>
    ascii "dex checksum mismatch: stored 0x" ++ hexWide 8 stored ++ ascii ", computed 0x" ++
      hexWide 8 computed
  | .signature stored computed =>
    ascii "dex signature mismatch: stored " ++ hexBytes stored ++ ascii ", computed " ++
      hexBytes computed
  | .mutf8 cause => ascii "malformed MUTF-8: " ++ cause.text
  | .longTry start units =>
    ascii "try at 0x" ++ hex start ++ ascii " covers " ++ decimal units ++ ascii " code units"
  | .expectedSize expected actual =>
    ascii "expected " ++ decimal expected ++ ascii " bytes, read " ++ decimal actual
  | .notImage => ascii "not a DEX file"
  | .headerSize stored actual =>
    ascii "header file size " ++ decimal stored ++ ascii ", actual size " ++ decimal actual
  | .misplaced kind index text found =>
    kind ++ ascii " " ++ decimal index ++ ascii " (" ++ text ++
      ascii ") duplicates or precedes its dependencies, interned at " ++ decimal found
  | .entriesOverrun count => decimal count ++ ascii " entries overrun the file"
  | .shorty proto => ascii "shorty does not match " ++ proto
  | .differs what offset stage =>
    what ++ ascii " at 0x" ++ hex offset ++ ascii " differs after " ++ stage
  | .entryNotFound name => ascii "no such entry: " ++ name
  | .sizeMismatch wrote directory =>
    ascii "entry size mismatch: wrote " ++ decimal wrote ++ ascii ", directory " ++ decimal directory
  | .crcMismatch computed directory =>
    ascii "entry crc mismatch: computed 0x" ++ hexWide 8 computed ++ ascii ", directory 0x" ++
      hexWide 8 directory
  | .notArchive => ascii "zip: not a valid zip file"
  | .archiveMethod => ascii "zip: unsupported compression algorithm"
  | .archiveChecksum => ascii "zip: checksum error"
  | .shortWrite => ascii "short write"
  | .unexpectedEof => ascii "unexpected EOF"
  | .eof => ascii "EOF"
  | .disk operation path cause => operation ++ ascii " " ++ path ++ ascii ": " ++ cause.text
  | .badSetting line => ascii "toml: line " ++ decimal line ++ ascii ": expected a key and a value"
  | .settingType line key got want =>
    ascii "toml: line " ++ decimal line ++ ascii " (last key " ++ Quoted.quote key ++
      ascii "): incompatible types: TOML value has type " ++ got ++ ascii "; destination has type " ++
      want
  | .unknownSettings names => ascii "unknown keys " ++ Bytes.join (ascii ", ") names
  | .needsArchive path => ascii "-extract needs an APK, not " ++ path
  | .external text => text
  | .within label cause => label ++ ascii ": " ++ cause.message
  | .also first second => first.message ++ ascii "\n" ++ second.message

/-- The failure itself and everything it was caused by, outermost first. -/
def chain : Failure → List Failure
  | .within label cause => .within label cause :: cause.chain
  | .also first second => .also first second :: first.chain ++ second.chain
  | f => [f]

/-- All failures as one, or nothing when there are none. -/
def all : List Failure → Option Failure
  | [] => none
  | f :: r => some (r.foldl .also f)

end Failure

/-- Why a computation ended early. -/
inductive Stop where
  | failure (cause : Failure)
  /-- A precondition was broken; with the words of the check that found it, if one did. -/
  | fault (message : Option Bytes)
  deriving DecidableEq, Repr

/-- Refuses with a failure. -/
def fail {α : Type} (cause : Failure) : Except Stop α := .error (.failure cause)

/-- Ends with a fault. -/
def fault {α : Type} (message : Option Bytes) : Except Stop α := .error (.fault message)

/-- Adds what was being done to a failure; faults stay as they are. -/
def Stop.within (label : Bytes) : Stop → Stop
  | .failure cause => .failure (.within label cause)
  | stop => stop

/-- Runs `work` and adds `label` to its failure. -/
def labelled {α : Type} (label : Bytes) (work : Except Stop α) : Except Stop α :=
  work.mapError (Stop.within label)

end Dalvik
