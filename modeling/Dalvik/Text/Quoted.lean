import Dalvik.Text.Printable
import Dalvik.Text.Utf8

/-!
# Quoted text in diagnostics

A message shows foreign text between double quotes, with control characters, unprintable
characters and malformed bytes escaped.
-/

namespace Dalvik.Quoted

private def escape : Utf8.Piece → Bytes
  | .stray b => ascii "\\x" ++ hexWide 2 b.toNat
  | .point v =>
    if v = 0x22 then ascii "\\\""
    else if v = 0x5c then ascii "\\\\"
    else if v = 0x07 then ascii "\\a"
    else if v = 0x08 then ascii "\\b"
    else if v = 0x0c then ascii "\\f"
    else if v = 0x0a then ascii "\\n"
    else if v = 0x0d then ascii "\\r"
    else if v = 0x09 then ascii "\\t"
    else if v = 0x0b then ascii "\\v"
    else if Printable.isPrintable v then Utf8.encodePoint v
    else if v < 0x20 ∨ v = 0x7f then ascii "\\x" ++ hexWide 2 v
    else if v < 0x10000 then ascii "\\u" ++ hexWide 4 v
    else ascii "\\U" ++ hexWide 8 v

def quote (s : Bytes) : Bytes := byte '"' :: (Utf8.pieces s).flatMap escape ++ [byte '"']

end Dalvik.Quoted
