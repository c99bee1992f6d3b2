import TreeRepair.Digest.Hex

/-!
BLAKE3 with 32 bytes of output and no key. A message is cut into chunks of 1024 bytes, a chunk into
blocks of 64; the chunks are the leaves of a binary tree whose left subtrees are full. `blake3Hex`
is the lowercase hexadecimal digest.
-/
namespace TreeRepair.Digest.Blake3

/-! ## Compression -/

/-- The chaining value a chunk starts from. -/
def start : Array UInt32 :=
  #[0x6a09e667, 0xbb67ae85, 0x3c6ef372, 0xa54ff53a, 0x510e527f, 0x9b05688c, 0x1f83d9ab, 0x5be0cd19]

/-- Where each of the sixteen block words moves between two rounds. -/
def permutation : List Nat := [2, 6, 3, 10, 7, 0, 4, 13, 1, 11, 12, 5, 9, 14, 15, 8]

/-- The flag of a chunk's first block. -/
def chunkStart : UInt32 := 1

/-- The flag of a chunk's last block. -/
def chunkEnd : UInt32 := 2

/-- The flag of an inner node of the tree. -/
def parentNode : UInt32 := 4

/-- The flag of the tree's root. -/
def rootNode : UInt32 := 8

/-- Rotates a word to the right by `1 ≤ n ≤ 31` bits. -/
def rotateRight (x n : UInt32) : UInt32 := (x >>> n) ||| (x <<< (32 - n))

/-- The word at an index, zero outside. -/
def wordOf (s : Array UInt32) (i : Nat) : UInt32 := s.getD i 0

/-- Mixes two message words into four words of the state. -/
def mix (s : Array UInt32) (a b c d : Nat) (x y : UInt32) : Array UInt32 :=
  let va := wordOf s a + wordOf s b + x
  let vd := rotateRight (wordOf s d ^^^ va) 16
  let vc := wordOf s c + vd
  let vb := rotateRight (wordOf s b ^^^ vc) 12
  let va := va + vb + y
  let vd := rotateRight (vd ^^^ va) 8
  let vc := vc + vd
  let vb := rotateRight (vb ^^^ vc) 7
  (((s.setIfInBounds a va).setIfInBounds b vb).setIfInBounds c vc).setIfInBounds d vd

/-- Mixes the columns of the state, then its diagonals. -/
def round (s m : Array UInt32) : Array UInt32 :=
  let s := mix s 0 4 8 12 (wordOf m 0) (wordOf m 1)
  let s := mix s 1 5 9 13 (wordOf m 2) (wordOf m 3)
  let s := mix s 2 6 10 14 (wordOf m 4) (wordOf m 5)
  let s := mix s 3 7 11 15 (wordOf m 6) (wordOf m 7)
  let s := mix s 0 5 10 15 (wordOf m 8) (wordOf m 9)
  let s := mix s 1 6 11 12 (wordOf m 10) (wordOf m 11)
  let s := mix s 2 7 8 13 (wordOf m 12) (wordOf m 13)
  mix s 3 4 9 14 (wordOf m 14) (wordOf m 15)

/-- Moves the block words to their places for the next round. -/
def permute (m : Array UInt32) : Array UInt32 := (permutation.map (wordOf m)).toArray

/-- Seven rounds, the block words permuted in between. -/
def rounds : Nat → Array UInt32 → Array UInt32 → Array UInt32
  | 0, s, _ => s
  | n + 1, s, m => rounds n (round s m) (permute m)

/-- The next chaining value: the block compressed, its two halves combined. -/
def compress (cv block : Array UInt32) (counter : Nat) (length flags : UInt32) : Array UInt32 :=
  let state := cv ++ start.take 4 ++ #[counter.toUInt32, (counter >>> 32).toUInt32, length, flags]
  let out := rounds 7 state block
  ((List.range 8).map fun i => wordOf out i ^^^ wordOf out (i + 8)).toArray

/-! ## Chunks and the tree -/

/-- The little-endian word at a byte offset, where bytes from `stop` on count as zero. -/
def wordAt (bytes : ByteArray) (stop i : Nat) : UInt32 :=
  let byte (j : Nat) : UInt32 := if j < stop then (byteAt bytes j).toUInt32 else 0
  byte i ||| (byte (i + 1) <<< 8) ||| (byte (i + 2) <<< 16) ||| (byte (i + 3) <<< 24)

/-- The sixteen words of the block at an offset, padded with zeros from `stop` on. -/
def blockAt (bytes : ByteArray) (stop i : Nat) : Array UInt32 :=
  ((List.range 16).map fun k => wordAt bytes stop (i + 4 * k)).toArray

/-- The chaining value of the chunk that covers the bytes `[low, stop)`. -/
def chunk (bytes : ByteArray) (low stop counter : Nat) (flags : UInt32) : Array UInt32 :=
  let size := stop - low
  let blocks := max 1 ((size + 63) / 64)
  (List.range blocks).foldl (fun cv k =>
    let first := if k = 0 then chunkStart else 0
    let last := if k + 1 = blocks then chunkEnd ||| flags else 0
    let length := min 64 (size - 64 * k)
    compress cv (blockAt bytes stop (low + 64 * k)) counter length.toUInt32 (first ||| last)) start

/-- The number of chunks in the left subtree over `n ≥ 2` chunks: the largest power of two below `n`. -/
def leftChunks (n : Nat) : Nat := Nat.pow 2 (Nat.log2 (n - 1))

/-- The chaining value of the tree over `n` chunks that starts at chunk number `counter` and covers
the bytes up to `stop`; the fuel `depth` bounds the height. -/
def tree (bytes : ByteArray) (stop : Nat) : Nat → Nat → Nat → UInt32 → Array UInt32
  | 0, counter, _, flags => chunk bytes (1024 * counter) stop counter flags
  | depth + 1, counter, n, flags =>
    if n ≤ 1 then chunk bytes (1024 * counter) (min stop (1024 * (counter + 1))) counter flags
    else
      let left := leftChunks n
      let l := tree bytes stop depth counter left 0
      let r := tree bytes stop depth (counter + left) (n - left) 0
      compress start (l ++ r) 0 64 (parentNode ||| flags)

/-- The four bytes of a word, low byte first. -/
def wordBytes (w : UInt32) : List UInt8 :=
  [w.toUInt8, (w >>> 8).toUInt8, (w >>> 16).toUInt8, (w >>> 24).toUInt8]

/-- The 32 bytes of the digest. -/
def hash (message : ByteArray) : List UInt8 :=
  let n := max 1 ((message.size + 1023) / 1024)
  (tree message message.size (Nat.log2 n + 2) 0 n rootNode).toList.flatMap wordBytes

end TreeRepair.Digest.Blake3

namespace TreeRepair.Digest

/-- The BLAKE3 digest of a byte string in lowercase hexadecimal. -/
def blake3Hex (message : ByteArray) : String := hexText (Blake3.hash message)

end TreeRepair.Digest
