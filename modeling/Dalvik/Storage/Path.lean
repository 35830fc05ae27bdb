import Dalvik.Bytes

/-!
# Paths

A path is text whose components are divided by slashes. Cleaning drops empty and single-dot
components and lets a double dot take back the component before it; at the start of a relative
path double dots stay, at the root they vanish.
-/

namespace Dalvik.Path

def slash : UInt8 := byte '/'
def dot : Bytes := ascii "."
def dotDot : Bytes := ascii ".."

/-- The components, empty ones included. -/
def split : Bytes → List Bytes
  | [] => [[]]
  | c :: rest =>
    if c = slash then [] :: split rest
    else
      match split rest with
      | [] => [[c]]
      | p :: ps => (c :: p) :: ps

def isRooted (path : Bytes) : Bool := path.head? == some slash

/-- Adds a component to those collected so far, which are kept last first. -/
def push (rooted : Bool) (stack : List Bytes) (part : Bytes) : List Bytes :=
  if part.isEmpty || part == dot then stack
  else if part == dotDot then
    match stack with
    | [] => if rooted then [] else [dotDot]
    | top :: rest => if top == dotDot then dotDot :: stack else rest
  else part :: stack

/-- The components of the cleaned path. -/
def components (path : Bytes) : List Bytes := ((split path).foldl (push (isRooted path)) []).reverse

/-- The path of some components. -/
def ofComponents (rooted : Bool) (parts : List Bytes) : Bytes :=
  if rooted then slash :: Bytes.join [slash] parts
  else if parts.isEmpty then dot
  else Bytes.join [slash] parts

def clean (path : Bytes) : Bytes := ofComponents (isRooted path) (components path)

/-- The cleaned path of one name below another; empty names are left out. -/
def join (parts : List Bytes) : Bytes :=
  match parts.filter (!·.isEmpty) with
  | [] => []
  | parts => clean (Bytes.join [slash] parts)

/-- Everything up to the last component, cleaned. -/
def directory (path : Bytes) : Bytes :=
  clean (path.reverse.dropWhile (· ≠ slash)).reverse

/-- The last component. -/
def base (path : Bytes) : Bytes :=
  if path.isEmpty then dot
  else
    let trimmed := path.reverse.dropWhile (· == slash)
    if trimmed.isEmpty then [slash] else (trimmed.takeWhile (· ≠ slash)).reverse

/-- The cleaned paths that a path goes through, itself last. -/
def ancestors (path : Bytes) : List Bytes :=
  let parts := components path
  (List.range parts.length).map fun n => ofComponents (isRooted path) (parts.take (n + 1))

end Dalvik.Path
