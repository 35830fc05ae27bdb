import Dalvik.Constant.Literal

/-!
# Command-line flags

A flag is `-name`, `-name=value` or, unless it is a switch, `-name value`; two dashes do as well as
one. Flags end at the first argument that is none, or after `--`.
-/

namespace Dalvik.Command

inductive FlagKind where
  | text
  | number
  | switch
  deriving DecidableEq, Repr, Inhabited

inductive FlagValue where
  | text (s : Bytes)
  | number (n : Int)
  | switch (b : Bool)
  deriving DecidableEq, Repr, Inhabited

structure Flag where
  name : Bytes
  kind : FlagKind
  help : Bytes
  /-- What is shown as the value the flag has unless it is given. -/
  standard : Bytes := []
  deriving Repr, Inhabited

inductive FlagError where
  | help
  | badSyntax (argument : Bytes)
  | undefined (name : Bytes)
  | needsArgument (name : Bytes)
  | badSwitch (value name : Bytes)
  | badNumber (value name : Bytes)
  | numberRange (value name : Bytes)
  deriving DecidableEq, Repr, Inhabited

def FlagError.message : FlagError → Bytes
  | .help => ascii "flag: help requested"
  | .badSyntax argument => ascii "bad flag syntax: " ++ argument
  | .undefined name => ascii "flag provided but not defined: -" ++ name
  | .needsArgument name => ascii "flag needs an argument: -" ++ name
  | .badSwitch value name =>
    ascii "invalid boolean value " ++ Quoted.quote value ++ ascii " for -" ++ name ++
      ascii ": parse error"
  | .badNumber value name =>
    ascii "invalid value " ++ Quoted.quote value ++ ascii " for flag -" ++ name ++
      ascii ": parse error"
  | .numberRange value name =>
    ascii "invalid value " ++ Quoted.quote value ++ ascii " for flag -" ++ name ++
      ascii ": value out of range"

namespace Flag

/-! ## Values -/

/-- What a number's text comes to. -/
private inductive Magnitude where
  | value (n : Nat)
  | malformed
  | tooLarge

/-- The value of some digits; a value that needs more than 64 bits ends the reading. -/
private def magnitude (base : Nat) : Nat → Bytes → Magnitude
  | n, [] => .value n
  | n, b :: rest =>
    if b = byte '_' then magnitude base n rest
    else
      match Escaped.hexDigit? b with
      | none => .malformed
      | some d =>
        if base ≤ d then .malformed
        else if twoPow 64 ≤ n * base + d then .tooLarge
        else magnitude base (n * base + d) rest

/-- The base that a number's text announces, and the digits after the mark. A leading zero alone
announces base eight. -/
private def baseOf (s : Bytes) : Nat × Bytes :=
  match s with
  | a :: b :: c :: rest =>
    let mark := Floating.Read.lower b
    if a ≠ byte '0' then (10, s)
    else if mark = byte 'b' then (2, c :: rest)
    else if mark = byte 'o' then (8, c :: rest)
    else if mark = byte 'x' then (16, c :: rest)
    else (8, s.tail)
  | a :: rest => if a = byte '0' then (8, rest) else (10, s)
  | [] => (10, [])

/-- Reads a signed 64-bit number. -/
private def number (name s : Bytes) : Except FlagError Int :=
  let (negative, body) := Floating.Read.takeSign s
  let (base, digits) := baseOf body
  if body.isEmpty then .error (.badNumber s name)
  else
    match magnitude base 0 digits with
    | .malformed => .error (.badNumber s name)
    | .tooLarge => .error (.numberRange s name)
    | .value n =>
      if s.contains (byte '_') && !Floating.Read.underscoresOk s then .error (.badNumber s name)
      else if negative ∧ n ≤ twoPow 63 then .ok (-n)
      else if ¬ negative ∧ n < twoPow 63 then .ok n
      else .error (.numberRange s name)

private def switch (name s : Bytes) : Except FlagError Bool :=
  if [ascii "1", ascii "t", ascii "T", ascii "true", ascii "TRUE", ascii "True"].contains s then .ok true
  else if [ascii "0", ascii "f", ascii "F", ascii "false", ascii "FALSE", ascii "False"].contains s then
    .ok false
  else .error (.badSwitch s name)

private def value (f : Flag) (s : Bytes) : Except FlagError FlagValue :=
  match f.kind with
  | .text => .ok (.text s)
  | .number => return .number (← number f.name s)
  | .switch => return .switch (← switch f.name s)

/-! ## Arguments -/

/-- What an argument is: no flag, the end of the flags, or a name with perhaps a value. -/
private inductive Shape where
  | plain
  | stop
  | bad
  | flag (name : Bytes) (value : Option Bytes)

/-- Cuts a name at the first equals sign after its first character. -/
private def named (name : Bytes) : Shape :=
  match name with
  | [] => .bad
  | c :: rest =>
    if c = byte '-' || c = byte '=' then .bad
    else
      match Bytes.cut (byte '=') rest with
      | some (before, after) => .flag (c :: before) (some after)
      | none => .flag name none

private def shape (s : Bytes) : Shape :=
  match s with
  | a :: b :: rest =>
    if a ≠ byte '-' then .plain
    else if b ≠ byte '-' then named (b :: rest)
    else if rest.isEmpty then .stop
    else named rest
  | _ => .plain

/-- The flags that are given, in order, and the arguments after them. -/
def parse (flags : List Flag) :
    List Bytes → Except FlagError (List (Bytes × FlagValue) × List Bytes)
  | [] => .ok ([], [])
  | s :: rest =>
    let add (given : Bytes × FlagValue) (r : Except FlagError (List (Bytes × FlagValue) × List Bytes)) :=
      r.map fun (more, rest) => (given :: more, rest)
    match shape s with
    | .plain => .ok ([], s :: rest)
    | .stop => .ok ([], rest)
    | .bad => .error (.badSyntax s)
    | .flag name text =>
      match flags.find? (·.name == name) with
      | none =>
        if name = ascii "help" ∨ name = ascii "h" then .error .help else .error (.undefined name)
      | some f =>
        match text, f.kind, rest with
        | some text, _, rest => do
          let v ← f.value text
          add (name, v) (parse flags rest)
        | none, .switch, rest => add (name, .switch true) (parse flags rest)
        | none, _, text :: rest => do
          let v ← f.value text
          add (name, v) (parse flags rest)
        | none, _, [] => .error (.needsArgument name)

/-! ## Usage -/

private def kindText : FlagKind → Bytes
  | .text => ascii " string"
  | .number => ascii " int"
  | .switch => []

/-- How a flag is described. -/
def usage (f : Flag) : Bytes :=
  ascii "  -" ++ f.name ++ kindText f.kind ++ ascii "\n    \t" ++ f.help ++
    (if f.standard.isEmpty then [] else ascii " (default " ++ f.standard ++ ascii ")") ++ ascii "\n"

end Flag

end Dalvik.Command
