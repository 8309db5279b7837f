/-!
# BLAKE2b with a 256 bit digest

The digest of a byte sequence without a key.  Blocks of 128 bytes are mixed into eight words of
chaining state; the last block is filled up with zeros and marked.
-/

namespace VectorMachine.Blake2b
set_option autoImplicit false

def initialWords : Array UInt64 := #[
  0x6a09e667f3bcc908, 0xbb67ae8584caa73b, 0x3c6ef372fe94f82b, 0xa54ff53a5f1d36f1,
  0x510e527fade682d1, 0x9b05688c2b3e6c1f, 0x1f83d9abfb41bd6b, 0x5be0cd19137e2179]

/-- The message schedule of the ten distinct rounds. -/
def schedule : Array (Array Nat) := #[
  #[0, 1, 2, 3, 4, 5, 6, 7, 8, 9, 10, 11, 12, 13, 14, 15],
  #[14, 10, 4, 8, 9, 15, 13, 6, 1, 12, 0, 2, 11, 7, 5, 3],
  #[11, 8, 12, 0, 5, 2, 15, 13, 10, 14, 3, 6, 7, 1, 9, 4],
  #[7, 9, 3, 1, 13, 12, 11, 14, 2, 6, 5, 10, 4, 0, 15, 8],
  #[9, 0, 5, 7, 2, 4, 10, 15, 14, 1, 11, 12, 6, 8, 3, 13],
  #[2, 12, 6, 10, 0, 11, 8, 3, 4, 13, 7, 5, 15, 14, 1, 9],
  #[12, 5, 1, 15, 14, 13, 4, 10, 0, 7, 6, 3, 9, 2, 8, 11],
  #[13, 11, 7, 14, 12, 1, 3, 9, 5, 0, 15, 4, 8, 6, 2, 10],
  #[6, 15, 14, 9, 11, 3, 0, 8, 12, 2, 13, 7, 1, 4, 10, 5],
  #[10, 2, 8, 4, 7, 6, 1, 5, 15, 11, 9, 14, 3, 12, 13, 0]]

def roundCount : Nat := 12

def blockBytes : Nat := 128

def digestBytes : Nat := 32

def word (v : Array UInt64) (i : Nat) : UInt64 := v[i]?.getD 0

def rotateRight (x : UInt64) (n : UInt64) : UInt64 := (x >>> n) ||| (x <<< (64 - n))

/-- Mixes two message words into four words of the state. -/
def mix (v : Array UInt64) (a b c d : Nat) (x y : UInt64) : Array UInt64 :=
  let va := word v a + word v b + x
  let vd := rotateRight (word v d ^^^ va) 32
  let vc := word v c + vd
  let vb := rotateRight (word v b ^^^ vc) 24
  let va := va + vb + y
  let vd := rotateRight (vd ^^^ va) 16
  let vc := vc + vd
  let vb := rotateRight (vb ^^^ vc) 63
  (((v.setIfInBounds a va).setIfInBounds b vb).setIfInBounds c vc).setIfInBounds d vd

/-- The columns and then the diagonals of the state, four words each. -/
def lines : List (Nat × Nat × Nat × Nat) := [
  (0, 4, 8, 12), (1, 5, 9, 13), (2, 6, 10, 14), (3, 7, 11, 15),
  (0, 5, 10, 15), (1, 6, 11, 12), (2, 7, 8, 13), (3, 4, 9, 14)]

def round (message : Array UInt64) (v : Array UInt64) (r : Nat) : Array UInt64 :=
  let order := schedule[r % 10]?.getD #[]
  let pick (i : Nat) : UInt64 := word message (order[i]?.getD 0)
  (lines.foldl (fun (v, i) (a, b, c, d) => (mix v a b c d (pick (2 * i)) (pick (2 * i + 1)), i + 1))
    (v, 0)).1

/-- Mixes one block into the chaining words; `count` is the number of bytes up to its end. -/
def compress (h : Array UInt64) (message : Array UInt64) (count : Nat) (last : Bool) :
    Array UInt64 :=
  let v := h ++ initialWords
  let v := v.setIfInBounds 12 (word v 12 ^^^ count.toUInt64)
  let v := v.setIfInBounds 13 (word v 13 ^^^ (count / Nat.pow 2 64).toUInt64)
  let v := if last then v.setIfInBounds 14 (~~~ (word v 14)) else v
  let v := (List.range roundCount).foldl (round message) v
  h.mapIdx fun i x => x ^^^ word v i ^^^ word v (i + 8)

/-- Eight bytes as a word, the least significant byte first. -/
def wordAt (data : ByteArray) (start : Nat) : UInt64 :=
  (List.range 8).foldr (fun i acc => acc * 256 + (data.data[start + i]?.getD 0).toUInt64) 0

/-- The sixteen words of a block, zeros behind the end of the data. -/
def blockAt (data : ByteArray) (start : Nat) : Array UInt64 :=
  (Array.range 16).map fun i => wordAt data (start + 8 * i)

def startWords : Array UInt64 :=
  initialWords.modify 0 (· ^^^ (0x01010000 ^^^ digestBytes.toUInt64))

def wordBytes (x : UInt64) : List UInt8 :=
  (List.range 8).map fun i => (x >>> (8 * i).toUInt64).toUInt8

def digest (data : ByteArray) : List UInt8 :=
  let full := (data.size - 1) / blockBytes
  let h := (List.range full).foldl
    (fun h i => compress h (blockAt data (blockBytes * i)) (blockBytes * (i + 1)) false) startWords
  let h := compress h (blockAt data (blockBytes * full)) data.size true
  (h.toList.flatMap wordBytes).take digestBytes

end VectorMachine.Blake2b
