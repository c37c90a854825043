import HdWallet.Bytes

/-!
# RIPEMD-160

The digest of a byte string in twenty bytes. A block of sixteen 32-bit words runs
through two lines of eighty rounds each, which differ in the order of the words,
the rotations, the constants and the order of the mixing functions. The two ends
are added crosswise to the state.
-/

namespace HdWallet.Ripemd160

/-- The five words that a block is mixed into. -/
structure State where
  a : UInt32
  b : UInt32
  c : UInt32
  d : UInt32
  e : UInt32
deriving DecidableEq, Inhabited

/-- The words before the first block. -/
def initial : State where
  a := 0x67452301
  b := 0xefcdab89
  c := 0x98badcfe
  d := 0x10325476
  e := 0xc3d2e1f0

/-- The five functions that mix three words. -/
def mixes : List (UInt32 → UInt32 → UInt32 → UInt32) := [
  fun x y z => x ^^^ y ^^^ z,
  fun x y z => (x &&& y) ||| (~~~x &&& z),
  fun x y z => (x ||| ~~~y) ^^^ z,
  fun x y z => (x &&& z) ||| (y &&& ~~~z),
  fun x y z => x ^^^ (y ||| ~~~z)]

/-- A line of rounds: for each of the five groups of sixteen rounds its mixing
function, its constant, the words it takes and how far it rotates. -/
structure Line where
  mixes : List (UInt32 → UInt32 → UInt32 → UInt32)
  constants : List UInt32
  order : List (List Nat)
  rotations : List (List UInt32)

def left : Line where
  mixes := mixes
  constants := [0x00000000, 0x5a827999, 0x6ed9eba1, 0x8f1bbcdc, 0xa953fd4e]
  order := [
    [0, 1, 2, 3, 4, 5, 6, 7, 8, 9, 10, 11, 12, 13, 14, 15],
    [7, 4, 13, 1, 10, 6, 15, 3, 12, 0, 9, 5, 2, 14, 11, 8],
    [3, 10, 14, 4, 9, 15, 8, 1, 2, 7, 0, 6, 13, 11, 5, 12],
    [1, 9, 11, 10, 0, 8, 12, 4, 13, 3, 7, 15, 14, 5, 6, 2],
    [4, 0, 5, 9, 7, 12, 2, 10, 14, 1, 3, 8, 11, 6, 15, 13]]
  rotations := [
    [11, 14, 15, 12, 5, 8, 7, 9, 11, 13, 14, 15, 6, 7, 9, 8],
    [7, 6, 8, 13, 11, 9, 7, 15, 7, 12, 15, 9, 11, 7, 13, 12],
    [11, 13, 6, 7, 14, 9, 13, 15, 14, 8, 13, 6, 5, 12, 7, 5],
    [11, 12, 14, 15, 14, 15, 9, 8, 9, 14, 5, 6, 8, 6, 5, 12],
    [9, 15, 5, 11, 6, 8, 13, 12, 5, 12, 13, 14, 11, 8, 5, 6]]

def right : Line where
  mixes := mixes.reverse
  constants := [0x50a28be6, 0x5c4dd124, 0x6d703ef3, 0x7a6d76e9, 0x00000000]
  order := [
    [5, 14, 7, 0, 9, 2, 11, 4, 13, 6, 15, 8, 1, 10, 3, 12],
    [6, 11, 3, 7, 0, 13, 5, 10, 14, 15, 8, 12, 4, 9, 1, 2],
    [15, 5, 1, 3, 7, 14, 6, 9, 11, 8, 12, 2, 10, 0, 4, 13],
    [8, 6, 4, 1, 3, 11, 15, 0, 5, 12, 2, 13, 9, 7, 10, 14],
    [12, 15, 10, 4, 1, 5, 8, 7, 6, 2, 13, 14, 0, 3, 9, 11]]
  rotations := [
    [8, 9, 9, 11, 13, 15, 15, 5, 7, 7, 8, 11, 14, 14, 12, 6],
    [9, 13, 15, 7, 12, 8, 9, 11, 7, 7, 12, 7, 6, 15, 13, 11],
    [9, 7, 15, 11, 8, 6, 6, 14, 12, 13, 5, 14, 13, 13, 7, 5],
    [15, 5, 8, 11, 14, 14, 6, 14, 6, 9, 12, 9, 12, 5, 15, 8],
    [8, 5, 12, 9, 12, 5, 14, 6, 8, 13, 6, 5, 15, 13, 11, 11]]

def rotate (x : UInt32) (n : UInt32) : UInt32 := (x <<< n) ||| (x >>> (32 - n))

def round (mix : UInt32 → UInt32 → UInt32 → UInt32) (constant : UInt32) (s : State)
    (input : UInt32 × UInt32) : State :=
  let t := rotate (s.a + mix s.b s.c s.d + input.1 + constant) input.2 + s.e
  ⟨s.e, t, s.b, rotate s.c 10, s.d⟩

def Line.run (line : Line) (block : Array UInt32) (s : State) : State :=
  let groups := (line.mixes.zip line.constants).zip (line.order.zip line.rotations)
  groups.foldl (fun s ((mix, constant), (order, rotations)) =>
    ((order.map (block.getD · 0)).zip rotations).foldl (round mix constant) s) s

def compress (s : State) (block : Array UInt32) : State :=
  let l := left.run block s
  let r := right.run block s
  ⟨s.b + l.c + r.d, s.c + l.d + r.e, s.d + l.e + r.a, s.e + l.a + r.b, s.a + l.b + r.c⟩

/-- The message, a marker bit, and zeros up to the length in bits, which fills the
last block. -/
def pad (message : Bytes) : Bytes :=
  let zeros := (119 - message.length % 64) % 64
  message ++ [0x80] ++ List.replicate zeros 0 ++ Bytes.ofNatLE 8 (8 * message.length)

/-- The words of a block, least significant byte first. -/
def words (block : Bytes) : Array UInt32 :=
  (Array.range 16).map fun i => UInt32.ofNat (Bytes.toNatLE ((block.drop (4 * i)).take 4))

def digest (message : Bytes) : Bytes :=
  let padded := pad message
  let blocks := (List.range (padded.length / 64)).map fun i =>
    words ((padded.drop (64 * i)).take 64)
  let s := blocks.foldl compress initial
  [s.a, s.b, s.c, s.d, s.e].flatMap fun word => Bytes.ofNatLE 4 word.toNat

end HdWallet.Ripemd160
