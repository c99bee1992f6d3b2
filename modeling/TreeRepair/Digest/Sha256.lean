import TreeRepair.Digest.Hex

/-!
SHA-256 (FIPS 180-4): padding to whole 64-byte blocks, the 64-word message schedule of a block, and
the compression of the blocks into eight words. `sha256Hex` is the lowercase hexadecimal digest.
-/
namespace TreeRepair.Digest.Sha256

/-! ## Constants -/

/-- The fractional parts of the cube roots of the first 64 primes. -/
def roundConstants : List UInt32 :=
  [0x428a2f98, 0x71374491, 0xb5c0fbcf, 0xe9b5dba5, 0x3956c25b, 0x59f111f1, 0x923f82a4, 0xab1c5ed5,
   0xd807aa98, 0x12835b01, 0x243185be, 0x550c7dc3, 0x72be5d74, 0x80deb1fe, 0x9bdc06a7, 0xc19bf174,
   0xe49b69c1, 0xefbe4786, 0x0fc19dc6, 0x240ca1cc, 0x2de92c6f, 0x4a7484aa, 0x5cb0a9dc, 0x76f988da,
   0x983e5152, 0xa831c66d, 0xb00327c8, 0xbf597fc7, 0xc6e00bf3, 0xd5a79147, 0x06ca6351, 0x14292967,
   0x27b70a85, 0x2e1b2138, 0x4d2c6dfc, 0x53380d13, 0x650a7354, 0x766a0abb, 0x81c2c92e, 0x92722c85,
   0xa2bfe8a1, 0xa81a664b, 0xc24b8b70, 0xc76c51a3, 0xd192e819, 0xd6990624, 0xf40e3585, 0x106aa070,
   0x19a4c116, 0x1e376c08, 0x2748774c, 0x34b0bcb5, 0x391c0cb3, 0x4ed8aa4a, 0x5b9cca4f, 0x682e6ff3,
   0x748f82ee, 0x78a5636f, 0x84c87814, 0x8cc70208, 0x90befffa, 0xa4506ceb, 0xbef9a3f7, 0xc67178f2]

/-- The eight words that a digest is folded into. -/
structure Words where
  a : UInt32
  b : UInt32
  c : UInt32
  d : UInt32
  e : UInt32
  f : UInt32
  g : UInt32
  h : UInt32

/-- The fractional parts of the square roots of the first eight primes. -/
def Words.start : Words :=
  ⟨0x6a09e667, 0xbb67ae85, 0x3c6ef372, 0xa54ff53a, 0x510e527f, 0x9b05688c, 0x1f83d9ab, 0x5be0cd19⟩

/-- Adds word by word. -/
def Words.add (s t : Words) : Words :=
  ⟨s.a + t.a, s.b + t.b, s.c + t.c, s.d + t.d, s.e + t.e, s.f + t.f, s.g + t.g, s.h + t.h⟩

/-- The words in order. -/
def Words.toList (s : Words) : List UInt32 := [s.a, s.b, s.c, s.d, s.e, s.f, s.g, s.h]

/-! ## One block -/

/-- Rotates a word to the right by `1 ≤ n ≤ 31` bits. -/
def rotateRight (x n : UInt32) : UInt32 := (x >>> n) ||| (x <<< (32 - n))

/-- The big-endian word at a byte offset. -/
def wordAt (bytes : ByteArray) (i : Nat) : UInt32 :=
  ((byteAt bytes i).toUInt32 <<< 24) ||| ((byteAt bytes (i + 1)).toUInt32 <<< 16)
    ||| ((byteAt bytes (i + 2)).toUInt32 <<< 8) ||| (byteAt bytes (i + 3)).toUInt32

/-- Appends the next schedule word, made of the words 2, 7, 15 and 16 places back. -/
def extend (w : Array UInt32) : Array UInt32 :=
  let back (n : Nat) : UInt32 := w.getD (w.size - n) 0
  let x := back 15
  let y := back 2
  let s0 := rotateRight x 7 ^^^ rotateRight x 18 ^^^ (x >>> 3)
  let s1 := rotateRight y 17 ^^^ rotateRight y 19 ^^^ (y >>> 10)
  w.push (back 16 + s0 + back 7 + s1)

/-- The 64 schedule words of the block at a byte offset: its sixteen words, then 48 more. -/
def schedule (bytes : ByteArray) (start : Nat) : Array UInt32 :=
  (List.range 48).foldl (fun w _ => extend w)
    ((List.range 16).map fun i => wordAt bytes (start + 4 * i)).toArray

/-- One round with its constant and schedule word added into `k`. -/
def round (s : Words) (k : UInt32) : Words :=
  let s1 := rotateRight s.e 6 ^^^ rotateRight s.e 11 ^^^ rotateRight s.e 25
  let choice := (s.e &&& s.f) ^^^ ((~~~s.e) &&& s.g)
  let t1 := s.h + s1 + choice + k
  let s0 := rotateRight s.a 2 ^^^ rotateRight s.a 13 ^^^ rotateRight s.a 22
  let majority := (s.a &&& s.b) ^^^ (s.a &&& s.c) ^^^ (s.b &&& s.c)
  ⟨t1 + (s0 + majority), s.a, s.b, s.c, s.d + t1, s.e, s.f, s.g⟩

/-- Folds the block at a byte offset into the words. -/
def compress (bytes : ByteArray) (s : Words) (start : Nat) : Words :=
  let w := schedule bytes start
  s.add ((roundConstants.zip w.toList).foldl (fun t k => round t (k.1 + k.2)) s)

/-! ## Messages -/

/-- The eight bytes of a number, high byte first. -/
def bigEndian64 (n : Nat) : List UInt8 :=
  (List.range 8).map fun i => (n >>> (56 - 8 * i)).toUInt8

/-- The four bytes of a word, high byte first. -/
def wordBytes (w : UInt32) : List UInt8 :=
  [(w >>> 24).toUInt8, (w >>> 16).toUInt8, (w >>> 8).toUInt8, w.toUInt8]

/-- The message, a one bit, zeros up to eight bytes before a block's end, and the length in bits. -/
def pad (message : ByteArray) : ByteArray :=
  let zeros := (55 + 64 - message.size % 64) % 64
  message ++ ((0x80 :: List.replicate zeros 0) ++ bigEndian64 (message.size * 8)).toByteArray

/-- The 32 bytes of the digest. -/
def hash (message : ByteArray) : List UInt8 :=
  let padded := pad message
  let blocks := (List.range (padded.size / 64)).map (64 * ·)
  (blocks.foldl (compress padded) Words.start).toList.flatMap wordBytes

end TreeRepair.Digest.Sha256

namespace TreeRepair.Digest

/-- The SHA-256 digest of a byte string in lowercase hexadecimal. -/
def sha256Hex (message : ByteArray) : String := hexText (Sha256.hash message)

end TreeRepair.Digest
