import HdWallet.Bytes

/-!
# The SHA-2 digests

Blocks of sixteen words are mixed one after another into a state of eight words.
The digests with 32-bit and with 64-bit words differ in the width, in the number
of rounds and in a few distances, so there is one definition and two variants. The
keyed digest hashes a message twice, each time behind a block made from the key.
-/

namespace HdWallet.Sha2

/-- The eight words that a block is mixed into. -/
structure State (w : Nat) where
  a : BitVec w
  b : BitVec w
  c : BitVec w
  d : BitVec w
  e : BitVec w
  f : BitVec w
  g : BitVec w
  h : BitVec w
deriving DecidableEq

/-- What one digest has and the other has differently. -/
structure Variant (w : Nat) where
  /-- Fractional bits of the cube roots of the first primes, one for each round. -/
  constants : List (BitVec w)
  /-- Fractional bits of the square roots of the first eight primes. -/
  initial : State w
  /-- How far the first word is rotated in a round. -/
  sumA : Nat × Nat × Nat
  /-- How far the fifth word is rotated in a round. -/
  sumE : Nat × Nat × Nat
  /-- How far the earlier word of the recurrence is rotated twice and shifted. -/
  low : Nat × Nat × Nat
  /-- How far the later word of the recurrence is rotated twice and shifted. -/
  high : Nat × Nat × Nat

namespace Variant

variable {w : Nat}

/-- Three rotations of a word, added without carry. -/
def rotations (x : BitVec w) : Nat × Nat × Nat → BitVec w
  | (i, j, k) => x.rotateRight i ^^^ x.rotateRight j ^^^ x.rotateRight k

def shifts (x : BitVec w) : Nat × Nat × Nat → BitVec w
  | (i, j, k) => x.rotateRight i ^^^ x.rotateRight j ^^^ (x >>> k)

/-- One round, with its constant and its message word added up. -/
def round (v : Variant w) (s : State w) (input : BitVec w) : State w :=
  let choice := (s.e &&& s.f) ^^^ (~~~s.e &&& s.g)
  let majority := (s.a &&& s.b) ^^^ (s.a &&& s.c) ^^^ (s.b &&& s.c)
  let t := s.h + rotations s.e v.sumE + choice + input
  ⟨t + (rotations s.a v.sumA + majority), s.a, s.b, s.c, s.d + t, s.e, s.f, s.g⟩

/-- The words of a window of sixteen, followed by so many that the recurrence adds. -/
def extend (v : Variant w) : (count : Nat) → (window : List (BitVec w)) → List (BitVec w)
  | 0, window => window
  | count + 1, window =>
    let word (i : Nat) : BitVec w := window.getD i 0
    let next := word 0 + shifts (word 1) v.low + word 9 + shifts (word 14) v.high
    word 0 :: v.extend count (window.drop 1 ++ [next])

/-- The words of a block, followed by those that the recurrence adds. -/
def schedule (v : Variant w) (block : List (BitVec w)) : List (BitVec w) :=
  v.extend (v.constants.length - 16) block

def compress (v : Variant w) (s : State w) (block : List (BitVec w)) : State w :=
  let inputs := List.zipWith (· + ·) v.constants (v.schedule block)
  let t := inputs.foldl v.round s
  ⟨s.a + t.a, s.b + t.b, s.c + t.c, s.d + t.d, s.e + t.e, s.f + t.f, s.g + t.g, s.h + t.h⟩

def blockSize (_ : Variant w) : Nat := 16 * (w / 8)

/-- The message, a marker bit, and zeros up to the length in bits, which takes two
words and fills the last block. -/
def pad (v : Variant w) (message : Bytes) : Bytes :=
  let size := v.blockSize
  let lengthSize := 2 * (w / 8)
  let zeros := (2 * size - 1 - lengthSize - message.length % size) % size
  message ++ [0x80] ++ List.replicate zeros 0 ++ Bytes.ofNatBE lengthSize (8 * message.length)

/-- The words of a block, most significant byte first. -/
def words (block : Bytes) : List (BitVec w) :=
  (List.range 16).map fun i =>
    BitVec.ofNat w (Bytes.toNatBE ((block.drop (w / 8 * i)).take (w / 8)))

def digest (v : Variant w) (message : Bytes) : Bytes :=
  let padded := v.pad message
  let blocks := (List.range (padded.length / v.blockSize)).map fun i =>
    words ((padded.drop (v.blockSize * i)).take v.blockSize)
  let s := blocks.foldl v.compress v.initial
  [s.a, s.b, s.c, s.d, s.e, s.f, s.g, s.h].flatMap fun word => Bytes.ofNatBE (w / 8) word.toNat

def keyed (v : Variant w) (key message : Bytes) : Bytes :=
  let key := if v.blockSize < key.length then v.digest key else key
  let block := key ++ List.replicate (v.blockSize - key.length) 0
  v.digest (block.map (· ^^^ 0x5c) ++ v.digest (block.map (· ^^^ 0x36) ++ message))

end Variant

/-- The digest of thirty-two bytes. -/
def sha256 : Variant 32 where
  constants := [
    0x428a2f98, 0x71374491, 0xb5c0fbcf, 0xe9b5dba5, 0x3956c25b, 0x59f111f1, 0x923f82a4, 0xab1c5ed5,
    0xd807aa98, 0x12835b01, 0x243185be, 0x550c7dc3, 0x72be5d74, 0x80deb1fe, 0x9bdc06a7, 0xc19bf174,
    0xe49b69c1, 0xefbe4786, 0x0fc19dc6, 0x240ca1cc, 0x2de92c6f, 0x4a7484aa, 0x5cb0a9dc, 0x76f988da,
    0x983e5152, 0xa831c66d, 0xb00327c8, 0xbf597fc7, 0xc6e00bf3, 0xd5a79147, 0x06ca6351, 0x14292967,
    0x27b70a85, 0x2e1b2138, 0x4d2c6dfc, 0x53380d13, 0x650a7354, 0x766a0abb, 0x81c2c92e, 0x92722c85,
    0xa2bfe8a1, 0xa81a664b, 0xc24b8b70, 0xc76c51a3, 0xd192e819, 0xd6990624, 0xf40e3585, 0x106aa070,
    0x19a4c116, 0x1e376c08, 0x2748774c, 0x34b0bcb5, 0x391c0cb3, 0x4ed8aa4a, 0x5b9cca4f, 0x682e6ff3,
    0x748f82ee, 0x78a5636f, 0x84c87814, 0x8cc70208, 0x90befffa, 0xa4506ceb, 0xbef9a3f7, 0xc67178f2]
  initial := {
    a := 0x6a09e667
    b := 0xbb67ae85
    c := 0x3c6ef372
    d := 0xa54ff53a
    e := 0x510e527f
    f := 0x9b05688c
    g := 0x1f83d9ab
    h := 0x5be0cd19 }
  sumA := (2, 13, 22)
  sumE := (6, 11, 25)
  low := (7, 18, 3)
  high := (17, 19, 10)

/-- The digest of sixty-four bytes. -/
def sha512 : Variant 64 where
  constants := [
    0x428a2f98d728ae22, 0x7137449123ef65cd, 0xb5c0fbcfec4d3b2f, 0xe9b5dba58189dbbc,
    0x3956c25bf348b538, 0x59f111f1b605d019, 0x923f82a4af194f9b, 0xab1c5ed5da6d8118,
    0xd807aa98a3030242, 0x12835b0145706fbe, 0x243185be4ee4b28c, 0x550c7dc3d5ffb4e2,
    0x72be5d74f27b896f, 0x80deb1fe3b1696b1, 0x9bdc06a725c71235, 0xc19bf174cf692694,
    0xe49b69c19ef14ad2, 0xefbe4786384f25e3, 0x0fc19dc68b8cd5b5, 0x240ca1cc77ac9c65,
    0x2de92c6f592b0275, 0x4a7484aa6ea6e483, 0x5cb0a9dcbd41fbd4, 0x76f988da831153b5,
    0x983e5152ee66dfab, 0xa831c66d2db43210, 0xb00327c898fb213f, 0xbf597fc7beef0ee4,
    0xc6e00bf33da88fc2, 0xd5a79147930aa725, 0x06ca6351e003826f, 0x142929670a0e6e70,
    0x27b70a8546d22ffc, 0x2e1b21385c26c926, 0x4d2c6dfc5ac42aed, 0x53380d139d95b3df,
    0x650a73548baf63de, 0x766a0abb3c77b2a8, 0x81c2c92e47edaee6, 0x92722c851482353b,
    0xa2bfe8a14cf10364, 0xa81a664bbc423001, 0xc24b8b70d0f89791, 0xc76c51a30654be30,
    0xd192e819d6ef5218, 0xd69906245565a910, 0xf40e35855771202a, 0x106aa07032bbd1b8,
    0x19a4c116b8d2d0c8, 0x1e376c085141ab53, 0x2748774cdf8eeb99, 0x34b0bcb5e19b48a8,
    0x391c0cb3c5c95a63, 0x4ed8aa4ae3418acb, 0x5b9cca4f7763e373, 0x682e6ff3d6b2b8a3,
    0x748f82ee5defb2fc, 0x78a5636f43172f60, 0x84c87814a1f0ab72, 0x8cc702081a6439ec,
    0x90befffa23631e28, 0xa4506cebde82bde9, 0xbef9a3f7b2c67915, 0xc67178f2e372532b,
    0xca273eceea26619c, 0xd186b8c721c0c207, 0xeada7dd6cde0eb1e, 0xf57d4f7fee6ed178,
    0x06f067aa72176fba, 0x0a637dc5a2c898a6, 0x113f9804bef90dae, 0x1b710b35131c471b,
    0x28db77f523047d84, 0x32caab7b40c72493, 0x3c9ebe0a15c9bebc, 0x431d67c49c100d4c,
    0x4cc5d4becb3e42b6, 0x597f299cfc657e2a, 0x5fcb6fab3ad6faec, 0x6c44198c4a475817]
  initial := {
    a := 0x6a09e667f3bcc908
    b := 0xbb67ae8584caa73b
    c := 0x3c6ef372fe94f82b
    d := 0xa54ff53a5f1d36f1
    e := 0x510e527fade682d1
    f := 0x9b05688c2b3e6c1f
    g := 0x1f83d9abfb41bd6b
    h := 0x5be0cd19137e2179 }
  sumA := (28, 34, 39)
  sumE := (14, 18, 41)
  low := (1, 8, 7)
  high := (19, 61, 6)

end HdWallet.Sha2
