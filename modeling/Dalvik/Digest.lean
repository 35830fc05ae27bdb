import Dalvik.Bytes

/-!
# Digests

The two checksums and the message digest that guard an image and the entries of an archive.
-/

/-!
## CRC-32

The reflected polynomial `0xedb88320`, with the register inverted before and after.
-/

namespace Dalvik.Crc32

/-- One bit of the division. -/
def shift (crc : UInt32) : UInt32 :=
  if crc &&& 1 = 1 then (crc >>> 1) ^^^ 0xedb88320 else crc >>> 1

def step (crc : UInt32) (b : UInt8) : UInt32 :=
  let r := crc ^^^ b.toUInt32
  shift (shift (shift (shift (shift (shift (shift (shift r)))))))

/-- Extends the checksum of some bytes by those that follow them. -/
def update (crc : UInt32) (data : Bytes) : UInt32 := (data.foldl step (crc ^^^ 0xffffffff)) ^^^ 0xffffffff

def checksum (data : Bytes) : UInt32 := update 0 data

end Dalvik.Crc32

/-!
## Adler-32

Two sums modulo the largest prime below 2^16: of the bytes, and of the successive first sums.
-/

namespace Dalvik.Adler32

def modulus : Nat := 65521

def step (s : Nat × Nat) (b : UInt8) : Nat × Nat :=
  let a := (s.1 + b.toNat) % modulus
  (a, (s.2 + a) % modulus)

def checksum (data : Bytes) : UInt32 :=
  let (a, b) := data.foldl step (1, 0)
  UInt32.ofNat (b * 65536 + a)

end Dalvik.Adler32

/-!
## SHA-1

The 160-bit digest over 64-byte blocks of the padded message.
-/

namespace Dalvik.Sha1

def rotate (x : UInt32) (n : UInt32) : UInt32 := x <<< n ||| x >>> (32 - n)

structure State where
  a : UInt32 := 0x67452301
  b : UInt32 := 0xefcdab89
  c : UInt32 := 0x98badcfe
  d : UInt32 := 0x10325476
  e : UInt32 := 0xc3d2e1f0
  deriving DecidableEq, Repr, Inhabited

/-- The word of four bytes, the highest first. -/
def word : Bytes → UInt32
  | a :: b :: c :: d :: _ =>
    a.toUInt32 <<< 24 ||| b.toUInt32 <<< 16 ||| c.toUInt32 <<< 8 ||| d.toUInt32
  | _ => 0

def words : Bytes → List UInt32
  | a :: b :: c :: d :: r => word [a, b, c, d] :: words r
  | _ => []

/-- The bytes of a number, the highest first. -/
def bigEndian (width n : Nat) : Bytes := (toLittleEndian width n).reverse

/-- The message followed by a one bit, zeros and its length in bits. -/
def padded (data : Bytes) : Bytes :=
  let n := data.length
  data ++ 0x80 :: List.replicate ((119 - n % 64) % 64) 0 ++ bigEndian 8 (8 * n)

/-- Each further word of the schedule mixes four earlier ones. -/
def schedule (block : Array UInt32) : Array UInt32 :=
  (List.range 64).foldl
    (fun w i =>
      let at' (k : Nat) := w.getD (i + 16 - k) 0
      w.push (rotate (at' 3 ^^^ at' 8 ^^^ at' 14 ^^^ at' 16) 1))
    block

def round (s : State) (i : Nat) (w : UInt32) : State :=
  let (f, k) : UInt32 × UInt32 :=
    if i < 20 then (s.b &&& s.c ||| ~~~s.b &&& s.d, 0x5a827999)
    else if i < 40 then (s.b ^^^ s.c ^^^ s.d, 0x6ed9eba1)
    else if i < 60 then (s.b &&& s.c ||| s.b &&& s.d ||| s.c &&& s.d, 0x8f1bbcdc)
    else (s.b ^^^ s.c ^^^ s.d, 0xca62c1d6)
  { a := rotate s.a 5 + f + s.e + k + w, b := s.a, c := rotate s.b 30, d := s.c, e := s.d }

def compress (s : State) (block : List UInt32) : State :=
  let t := (schedule block.toArray).toList.zipIdx.foldl (fun t (w, i) => round t i w) s
  { a := s.a + t.a, b := s.b + t.b, c := s.c + t.c, d := s.d + t.d, e := s.e + t.e }

/-- The words in groups of sixteen; `fuel` bounds the number of groups. -/
def blocks : Nat → List UInt32 → List (List UInt32)
  | 0, _ => []
  | fuel + 1, ws => ws.take 16 :: blocks fuel (ws.drop 16)

def digest (data : Bytes) : Bytes :=
  let ws := words (padded data)
  let s := (blocks (ws.length / 16) ws).foldl compress {}
  [s.a, s.b, s.c, s.d, s.e].flatMap fun x => bigEndian 4 x.toNat

end Dalvik.Sha1
