import Dalvik.Failure
import Dalvik.Text.Utf16

/-!
# Modified UTF-8

The encoding of strings in an image: each UTF-16 unit on its own in one to three bytes, and NUL in
two, so that a zero byte can end the string.
-/

namespace Dalvik.Mutf8

def encodeUnit (u : UInt16) : Bytes :=
  let n := u.toNat
  let tail (k : Nat) : UInt8 := UInt8.ofNat (0x80 + k % 64)
  if n ≠ 0 ∧ n < 0x80 then [UInt8.ofNat n]
  else if n < 0x800 then [UInt8.ofNat (0xc0 + n / 64), tail n]
  else [UInt8.ofNat (0xe0 + n / 4096), tail (n / 64), tail n]

/-- A UTF-8 string, without the final NUL. -/
def encode (s : Bytes) : Bytes := (Utf16.ofBytes s).flatMap encodeUnit

/-- The length that the image records. -/
def unitCount (s : Bytes) : Nat := (Utf16.ofBytes s).length

/-- The bits of a continuation byte. -/
def tailBits (i : Nat) : Option UInt8 → Except Stop Nat
  | some b => if b.toNat / 64 = 2 then .ok (b.toNat % 64) else fail (.mutf8 (.truncated i))
  | none => fail (.mutf8 (.truncated i))

/-- The units of the bytes from position `i` on. -/
def decodeUnits (i : Nat) : Bytes → Except Stop (List UInt16)
  | [] => .ok []
  | b :: rest =>
    let c := b.toNat
    if c = 0 then fail (.mutf8 (.nul i))
    else if c < 0x80 then return UInt16.ofNat c :: (← decodeUnits (i + 1) rest)
    else if c / 32 = 6 then
      match rest with
      | [] => fail (.mutf8 (.truncated (i + 1)))
      | b2 :: rest => do
        let c2 ← tailBits (i + 1) (some b2)
        return UInt16.ofNat (c % 32 * 64 + c2) :: (← decodeUnits (i + 2) rest)
    else if c / 16 = 14 then
      match rest with
      | b2 :: b3 :: rest => do
        let c2 ← tailBits (i + 1) (some b2)
        let c3 ← tailBits (i + 2) (some b3)
        return UInt16.ofNat (c % 16 * 4096 + c2 * 64 + c3) :: (← decodeUnits (i + 3) rest)
      | rest => do
        let _ ← tailBits (i + 1) rest.head?
        fail (.mutf8 (.truncated (i + 2)))
    else fail (.mutf8 (.byteAt c i))

/-- The UTF-8 string of bytes without the final NUL; unpaired surrogates are replaced. -/
def decode (s : Bytes) : Except Stop Bytes := do
  return Utf8.encode (Utf16.decode (← decodeUnits 0 s))

end Dalvik.Mutf8
