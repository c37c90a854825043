import HdWallet.Bytes

/-!
# The curve secp256k1

Points of the curve y² = x³ + 7 over a prime field, with their group law. Sums and
multiples are taken in Jacobian coordinates, where (x, y, z) stands for the point
(x / z², y / z³) and z = 0 for the neutral point, so that a multiple takes one
division. Public keys are written as one byte for the parity of y and the
thirty-two bytes of x.
-/

namespace HdWallet.Secp256k1

def fieldOrder : Nat := 0xfffffffffffffffffffffffffffffffffffffffffffffffffffffffefffffc2f

def groupOrder : Nat := 0xfffffffffffffffffffffffffffffffebaaedce6af48a03bbfd25e8cd0364141

/-- The low 256 binary digits of a number, highest first. -/
def binaryDigits (n : Nat) : List Bool := (List.range 256).reverse.map n.testBit

def power (base exponent : Nat) : Nat :=
  (binaryDigits exponent).foldl (fun acc digit =>
    let square := acc * acc % fieldOrder
    if digit then square * base % fieldOrder else square) 1

def inverse (a : Nat) : Nat := power a (fieldOrder - 2)

def root? (a : Nat) : Option Nat :=
  let r := power a ((fieldOrder + 1) / 4)
  if r * r % fieldOrder = a then some r else none

def minus (a b : Nat) : Nat := (a + (fieldOrder - b % fieldOrder)) % fieldOrder

structure Jacobian where
  x : Nat
  y : Nat
  z : Nat
deriving DecidableEq

/-- A point that is not the neutral one. -/
structure Point where
  x : Nat
  y : Nat
deriving DecidableEq, Inhabited

namespace Jacobian

def neutral : Jacobian := ⟨1, 1, 0⟩

def ofPoint (p : Point) : Jacobian := ⟨p.x, p.y, 1⟩

def toPoint? (p : Jacobian) : Option Point :=
  if p.z = 0 then none
  else
    let i := inverse p.z
    let square := i * i % fieldOrder
    some ⟨p.x * square % fieldOrder, p.y * (square * i % fieldOrder) % fieldOrder⟩

def double (p : Jacobian) : Jacobian :=
  if p.z = 0 ∨ p.y = 0 then neutral
  else
    let y2 := p.y * p.y % fieldOrder
    let s := 4 * p.x * y2 % fieldOrder
    let m := 3 * p.x * p.x % fieldOrder
    let x := minus (m * m) (2 * s)
    ⟨x, minus (m * minus s x) (8 * y2 * y2), 2 * p.y * p.z % fieldOrder⟩

def add (p q : Jacobian) : Jacobian :=
  if p.z = 0 then q
  else if q.z = 0 then p
  else
    let pz2 := p.z * p.z % fieldOrder
    let qz2 := q.z * q.z % fieldOrder
    let u := p.x * qz2 % fieldOrder
    let s := p.y * (qz2 * q.z % fieldOrder) % fieldOrder
    let h := minus (q.x * pz2) u
    let r := minus (q.y * (pz2 * p.z % fieldOrder)) s
    if h = 0 then if r = 0 then p.double else neutral
    else
      let h2 := h * h % fieldOrder
      let h3 := h2 * h % fieldOrder
      let v := u * h2 % fieldOrder
      let x := minus (r * r) (h3 + 2 * v)
      ⟨x, minus (r * minus v x) (s * h3), h * (p.z * q.z % fieldOrder) % fieldOrder⟩

def times (n : Nat) (p : Jacobian) : Jacobian :=
  (binaryDigits n).foldl (fun acc digit => if digit then acc.double.add p else acc.double) neutral

end Jacobian

namespace Point

/-- The point whose multiples are the public keys. -/
def generator : Point where
  x := 0x79be667ef9dcbbac55a06295ce870b07029bfcdb2dce28d959f2815b16f81798
  y := 0x483ada7726a3c4655da4fbfc0e1108a8fd17b448a68554199c47d08ffb10d4b8

/-- The public key of a scalar, unless it is a multiple of the group order. -/
def ofScalar? (scalar : Nat) : Option Point :=
  ((Jacobian.ofPoint generator).times scalar).toPoint?

/-- The sum of a point and the public key of a scalar, unless it is neutral. -/
def tweak? (p : Point) (scalar : Nat) : Option Point :=
  (((Jacobian.ofPoint generator).times scalar).add (.ofPoint p)).toPoint?

/-- The thirty-three bytes of a public key. -/
def bytes (p : Point) : Bytes := (if p.y % 2 = 0 then 2 else 3) :: Bytes.ofNatBE 32 p.x

/-- The point with a given x and parity of y, if there is one. -/
def ofX? (x : Nat) (odd : Bool) : Option Point :=
  if fieldOrder ≤ x then none
  else
    (root? ((x * x * x + 7) % fieldOrder)).map fun y =>
      ⟨x, if (y % 2 == 1) == odd then y else fieldOrder - y⟩

/-- The public key that thirty-three bytes stand for. The first byte gives the
parity of y; an even y may also be given by the tag 5. -/
def ofBytes? : Bytes → Option Point
  | tag :: x =>
    if x.length ≠ 32 then none
    else if tag = 2 ∨ tag = 5 then ofX? (Bytes.toNatBE x) false
    else if tag = 3 then ofX? (Bytes.toNatBE x) true
    else none
  | [] => none

end Point

def isScalar (n : Nat) : Bool := 0 < n && n < groupOrder

/-- The scalar of a signing key, and its public key. -/
structure KeyPair where
  scalar : Nat
  point : Point
  valid : isScalar scalar
  matched : Point.ofScalar? scalar = some point
deriving DecidableEq

namespace KeyPair

/-- The pair of a scalar, if it is that of a signing key. -/
def ofScalar? (scalar : Nat) : Option KeyPair :=
  if valid : isScalar scalar then
    match matched : Point.ofScalar? scalar with
    | some point => some ⟨scalar, point, valid, matched⟩
    | none => none
  else none

/-- The thirty-two bytes of the scalar. -/
def bytes (pair : KeyPair) : Bytes := Bytes.ofNatBE 32 pair.scalar

end KeyPair

end HdWallet.Secp256k1
