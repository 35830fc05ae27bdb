import Dalvik.Bytes

/-!
# Blanks
-/

namespace Dalvik.Blank

/-- Blanks, tabs and line ends. -/
def isBlank (b : UInt8) : Bool := b = byte ' ' || b = byte '\t' || b = byte '\n'

/-- Every run of blanks, tabs and line ends becomes one blank. -/
def squeeze : Bytes → Bytes
  | [] => []
  | [b] => if isBlank b then [byte ' '] else [b]
  | a :: b :: rest =>
    if !isBlank a then a :: squeeze (b :: rest)
    else if isBlank b then squeeze (b :: rest)
    else byte ' ' :: squeeze (b :: rest)

end Dalvik.Blank
