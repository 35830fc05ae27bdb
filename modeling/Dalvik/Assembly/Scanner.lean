import Dalvik.Action

/-!
# Scanner

A position in assembly text. Lines are counted only when an origin is asked for, from the place
where the last one was computed.
-/

namespace Dalvik.Assembly

structure Scanner where
  name : Bytes := []
  data : Array UInt8
  pos : Nat := 0
  /-- Where lines have been counted up to, the line there, and where that line starts. -/
  counted : Nat := 0
  line : Nat := 1
  lineStart : Nat := 0
  deriving Inhabited

def newline : UInt8 := 0x0a

def isSpace (b : UInt8) : Bool := b == byte ' ' || b == 0x09 || b == 0x0d
def isWhite (b : UInt8) : Bool := isSpace b || b == newline

/-- Bytes that end a bare token. -/
def isDelimiter (b : UInt8) : Bool :=
  isWhite b || b == byte ',' || b == 0x7b || b == 0x7d || b == byte '#'

namespace Scanner

def ofBytes (text : Bytes) (name : Bytes := []) : Scanner := { name, data := text.toArray }

variable (s : Scanner)

def finished : Bool := s.data.size ≤ s.pos

/-- Moves to a position, or to the nearer end of the text. -/
def setPosition (p : Int) : Scanner := { s with pos := (max 0 (min p s.data.size)).toNat }

def skip (n : Int) : Scanner := s.setPosition (wrap64 (s.pos + n))

/-- Line number and line start after `n` more bytes from position `i`. -/
def countLines (data : Array UInt8) : Nat → Nat → Nat × Nat → Nat × Nat
  | 0, _, located => located
  | n + 1, i, (line, start) =>
    countLines data n (i + 1) (if data[i]? = some newline then (line + 1, i + 1) else (line, start))

/-- The line and column of the position. -/
def origin : Origin × Scanner :=
  let s := if s.pos < s.counted then { s with counted := 0, line := 1, lineStart := 0 } else s
  let (line, lineStart) := countLines s.data (s.pos - s.counted) s.counted (s.line, s.lineStart)
  (⟨s.name, line, s.pos - lineStart + 1⟩, { s with counted := s.pos, line, lineStart })

/-- The byte at the position, zero at the end. -/
def peek : UInt8 := s.data.getD s.pos 0

/-- Whether the bytes from position `i` on start with `t`. -/
def matchesAt (data : Array UInt8) : Nat → Bytes → Bool
  | _, [] => true
  | i, b :: r => data[i]? == some b && matchesAt data (i + 1) r

def startsWith (t : Bytes) : Bool := matchesAt s.data s.pos t

/-- The end of the run of bytes that `p` holds of, within `n` bytes from `i`. -/
def runEnd (p : UInt8 → Bool) (data : Array UInt8) : Nat → Nat → Nat
  | 0, i => i
  | n + 1, i =>
    match data[i]? with
    | some b => if p b then runEnd p data n (i + 1) else i
    | none => i

/-- Moves past bytes that `p` holds of. -/
def skipWhile (p : UInt8 → Bool) : Scanner :=
  { s with pos := runEnd p s.data (s.data.size - s.pos) s.pos }

/-- Skips blanks on the line. -/
def skipSpaces : Scanner := s.skipWhile isSpace

/-- Moves past the next newline. -/
def skipLine : Scanner :=
  let s := s.skipWhile (· != newline)
  if s.finished then s else { s with pos := s.pos + 1 }

def skipBlankFuel : Nat → Scanner → Scanner
  | 0, s => s
  | fuel + 1, s =>
    let s := s.skipWhile isWhite
    if s.peek = byte '#' then skipBlankFuel fuel s.skipLine else s

/-- Skips blanks, newlines and comments. -/
def skipBlank : Scanner := skipBlankFuel (s.data.size - s.pos + 1) s

/-- Skips blanks, and says whether nothing but a comment is left on the line. -/
def atLineEnd : Bool × Scanner :=
  let s := s.skipSpaces
  (s.finished || s.peek == newline || s.peek == byte '#', s)

def slice (start stop : Nat) : Bytes := (s.data.extract start stop).toList

/-- Everything up to the next delimiter. -/
def token : Bytes × Scanner :=
  let t := s.skipWhile fun b => !isDelimiter b
  (s.slice s.pos t.pos, t)

def peekToken : Bytes := s.token.1

/-- Whether the position after `n` more bytes ends a token. -/
def delimitedAfter (n : Nat) : Bool :=
  match s.data[s.pos + n]? with
  | some b => isDelimiter b
  | none => true

/-- Whether the word `w` is next, as a whole token. -/
def isAt (w : Bytes) : Bool := s.startsWith w && s.delimitedAfter w.length

/-- Consumes `t` if it is next. -/
def accept (t : Bytes) : Bool × Scanner :=
  if s.startsWith t then (true, { s with pos := s.pos + t.length }) else (false, s)

/-- Where a literal opened by `quote` ends: after its closing quote, or at the place where it turned
out to be unterminated. -/
def quotedEnd (quote : UInt8) (data : Array UInt8) : Nat → Nat → Except Nat Nat
  | 0, _ => .error data.size
  | fuel + 1, i =>
    match data[i]? with
    | none => .error data.size
    | some b =>
      if b = byte '\\' then quotedEnd quote data fuel (i + 2)
      else if b = newline then .error i
      else if b = quote then .ok (i + 1)
      else quotedEnd quote data fuel (i + 1)

end Scanner

/-! ## Reading -/

/-- Work that reads assembly text. -/
abbrev Reading (α : Type) := Action Scanner α

namespace Reading

variable {α : Type}

def position : Reading Nat := return (← get).pos

/-- Changes the position. -/
def move (f : Scanner → Scanner) : Reading PUnit := modify f

/-- Changes the position and gives what was read. -/
def step (f : Scanner → α × Scanner) : Reading α := do
  let (a, s) := f (← get)
  set s
  return a

def origin : Reading Origin := step Scanner.origin

/-- Fails at the position. -/
def complain (what : Complaint) : Reading α := do
  let o ← origin
  Action.refuse (.parse o what)

/-- Fails at the start of the bad token. -/
def complainAt (pos : Nat) (what : Complaint) : Reading α := do
  move (·.setPosition pos)
  complain what

/-- Fails because `want` was not found. -/
def expecting (want : Bytes) : Reading α := do
  complain (.expecting (ascii "'" ++ want ++ ascii "'") (← get).peekToken)

def skipSpaces : Reading PUnit := move Scanner.skipSpaces
def skipBlank : Reading PUnit := move Scanner.skipBlank
def token : Reading Bytes := step Scanner.token
def accept (t : Bytes) : Reading Bool := step (·.accept t)

/-- A quoted literal with its quotes and escapes. -/
def quoted : Reading Bytes := do
  let s ← get
  let q := s.peek
  if q != 0x22 && q != 0x27 then complain .expectingQuoted
  match Scanner.quotedEnd q s.data (s.data.size - s.pos) (s.pos + 1) with
  | .ok stop =>
    set { s with pos := stop }
    return s.slice s.pos stop
  | .error stop =>
    set { s with pos := stop }
    complain .unterminated

/-- A token, or a quoted literal as one. -/
def literal : Reading Bytes := do
  let s ← get
  if s.peek == 0x22 || s.peek == 0x27 then quoted
  else
    let t ← token
    if t.isEmpty then complain .expectingLiteral
    return t

/-- Consumes `t`, which must end a token unless it ends in punctuation. -/
def expect (t : Bytes) : Reading PUnit := do
  let s ← get
  if !s.startsWith t then expecting t
  match t.getLast? with
  | none => throw (.fault none)
  | some last =>
    if !(ascii ",\x7b\x7d:>.").contains last && !s.delimitedAfter t.length then expecting t
    set { s with pos := s.pos + t.length }

/-- Nothing but a comment may be left on the line. -/
def expectLineEnd : Reading PUnit := do
  if !(← step Scanner.atLineEnd) then complain (.unexpected (← get).peekToken)

end Reading

/-! ## Directives -/

/-- A keyword that starts with a dot. -/
structure Directive where
  word : Bytes
  deriving DecidableEq, Repr

namespace Directive

/-- The keyword that closes a block; the empty word has none. -/
def closing (d : Directive) : Except Stop Bytes :=
  if d.word.isEmpty then fault none else .ok (ascii ".end " ++ d.word.drop 1)

/-- The closing keyword of a known directive. -/
def endWord (d : Directive) : Bytes := ascii ".end " ++ d.word.drop 1

def classHead : Directive := ⟨ascii ".class"⟩
def super : Directive := ⟨ascii ".super"⟩
def source : Directive := ⟨ascii ".source"⟩
def implements : Directive := ⟨ascii ".implements"⟩
def field : Directive := ⟨ascii ".field"⟩
def method : Directive := ⟨ascii ".method"⟩
def registers : Directive := ⟨ascii ".registers"⟩
def locals : Directive := ⟨ascii ".locals"⟩
def catchOne : Directive := ⟨ascii ".catch"⟩
def catchAll : Directive := ⟨ascii ".catchall"⟩
def packedSwitch : Directive := ⟨ascii ".packed-switch"⟩
def sparseSwitch : Directive := ⟨ascii ".sparse-switch"⟩
def arrayData : Directive := ⟨ascii ".array-data"⟩
def notes : Directive := ⟨ascii ".annotation"⟩

def isNext (d : Directive) : Reading Bool := return (← get).isAt d.word
def isEnd (d : Directive) : Reading Bool := return (← get).isAt d.endWord

def expect (d : Directive) : Reading PUnit := do
  if !(← d.isNext) then Reading.expecting d.word
  Reading.move (·.skip d.word.length)

def expectEnd (d : Directive) : Reading PUnit := do
  Reading.skipBlank
  if !(← d.isEnd) then Reading.expecting d.endWord
  Reading.move (·.skip d.endWord.length)

/-- Lines about debugging, which code may contain and which say nothing. -/
def ignored : List Bytes :=
  [ascii ".line", ascii ".prologue", ascii ".epilogue", ascii ".local", ascii ".end local",
    ascii ".restart local", ascii ".source", ascii ".end param", ascii ".param"]

end Directive

end Dalvik.Assembly
