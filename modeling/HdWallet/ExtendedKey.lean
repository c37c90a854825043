import HdWallet.Path
import HdWallet.Secp256k1
import HdWallet.Text.Base58

/-!
# Extended keys

An extended key is a private or public key with a chain code, from which child
keys are derived. A normal child is derived alike from a private key and from its
public view; a hardened child only from a private key. A key also records where it
was derived: its depth, its parent's fingerprint and its own child number. The
text form starts with four letters, of which the last three tell private from
public keys; of the version bytes nothing else is asked.
-/

namespace HdWallet

/-- Why there is no such extended key. -/
inductive KeyFailure where
  /-- A text is not the guarded text of a payload. -/
  | checksum
  /-- A payload or a path does not have the form it should have. -/
  | form
  | childNumber
  /-- A number is not the scalar of a signing key, or bytes are no point. -/
  | noSuchKey
  | depth
  | seedLength
deriving DecidableEq

def KeyFailure.text : KeyFailure → String
  | checksum => "base58 error"
  | form => "decoding error"
  | childNumber => "invalid child number"
  | noSuchKey => "cryptographic error"
  | depth => "maximum derivation depth exceeded"
  | seedLength => "seed length invalid"

/-- Where an extended key was derived, and its chain code. -/
structure KeyOrigin where
  depth : Nat
  /-- Four bytes that name the parent key. -/
  parent : Bytes
  child : UInt32
  chainCode : Bytes
deriving DecidableEq, Inhabited

structure ExtendedPrivateKey where
  pair : Secp256k1.KeyPair
  origin : KeyOrigin
deriving DecidableEq

structure ExtendedPublicKey where
  point : Secp256k1.Point
  origin : KeyOrigin
deriving DecidableEq, Inhabited

namespace KeyOrigin

def greatestDepth : Nat := 255

/-- What the derivation of a child adds to its parent's key, and the child's
origin. The parent is given by its public key, and `material` is the form of the
parent that the child depends on. A key of the greatest depth has no children. -/
def derive (origin : KeyOrigin) (parentKey material : Bytes) (child : ChildNumber) :
    Except KeyFailure (Nat × KeyOrigin) :=
  if greatestDepth ≤ origin.depth then .error .depth
  else
    let digest :=
      Sha2.sha512.keyed origin.chainCode (material ++ Bytes.ofNatBE 4 child.word.toNat)
    let tweak := Bytes.toNatBE (digest.take 32)
    if Secp256k1.isScalar tweak then
      .ok (tweak, {
        depth := origin.depth + 1
        parent := (Digest.keyHash parentKey).take 4
        child := child.word
        chainCode := digest.drop 32 })
    else .error .noSuchKey

end KeyOrigin

namespace ExtendedPrivateKey

def ofScalar (scalar : Nat) (origin : KeyOrigin) : Except KeyFailure ExtendedPrivateKey :=
  match Secp256k1.KeyPair.ofScalar? scalar with
  | some pair => .ok ⟨pair, origin⟩
  | none => .error .noSuchKey

/-- The master key of a seed of sixteen, thirty-two or sixty-four bytes. -/
def master (seed : Bytes) : Except KeyFailure ExtendedPrivateKey :=
  if [16, 32, 64].contains seed.length then
    let digest := Sha2.sha512.keyed "Bitcoin seed".toUTF8.toList seed
    ofScalar (Bytes.toNatBE (digest.take 32)) ⟨0, [0, 0, 0, 0], 0, digest.drop 32⟩
  else .error .seedLength

def view (key : ExtendedPrivateKey) : ExtendedPublicKey := ⟨key.pair.point, key.origin⟩

def derive (key : ExtendedPrivateKey) (child : ChildNumber) :
    Except KeyFailure ExtendedPrivateKey := do
  let publicKey := key.pair.point.bytes
  let material := if child.isHardened then 0 :: key.pair.bytes else publicKey
  let (tweak, origin) ← key.origin.derive publicKey material child
  ofScalar ((key.pair.scalar + tweak) % Secp256k1.groupOrder) origin

end ExtendedPrivateKey

namespace ExtendedPublicKey

/-- A child of a public key. There are no hardened ones. -/
def derive (key : ExtendedPublicKey) (child : ChildNumber) :
    Except KeyFailure ExtendedPublicKey :=
  if child.isHardened then .error .childNumber
  else do
    let (tweak, origin) ← key.origin.derive key.point.bytes key.point.bytes child
    match key.point.tweak? tweak with
    | some point => .ok ⟨point, origin⟩
    | none => .error .noSuchKey

/-- The version bytes whose text starts with `xpub`. -/
def version : Bytes := [0x04, 0x88, 0xb2, 0x1e]

def text (key : ExtendedPublicKey) : String :=
  Base58.encodeGuarded (version ++ UInt8.ofNat key.origin.depth :: key.origin.parent
    ++ Bytes.ofNatBE 4 key.origin.child.toNat ++ key.origin.chainCode ++ key.point.bytes)

end ExtendedPublicKey

/-- The parts of an extended key's text. -/
structure KeyRecord where
  /-- The letters that tell private from public keys. -/
  letters : List Char
  origin : KeyOrigin
  key : Bytes

namespace KeyRecord

/-- Read a text. After the version come depth, parent, child number, chain code and the
key itself in thirty-three bytes. -/
def ofText (text : String) : Except KeyFailure KeyRecord :=
  match Base58.decodeGuarded? text with
  | none => .error .checksum
  | some bytes =>
    let letters := text.toList.take 4
    if bytes.length ≠ 78 ∨ !letters.all Char.isAlpha then .error .form
    else
      let field start size := (bytes.drop start).take size
      .ok {
        letters := letters.drop 1
        origin := {
          depth := Bytes.toNatBE (field 4 1)
          parent := field 5 4
          child := UInt32.ofNat (Bytes.toNatBE (field 9 4))
          chainCode := field 13 32 }
        key := field 45 33 }

/-- The private key of a record, if it is one of a private key. -/
def privateKey (r : KeyRecord) : Except KeyFailure ExtendedPrivateKey :=
  if r.letters = "prv".toList ∧ r.key.head? = some 0 then
    ExtendedPrivateKey.ofScalar (Bytes.toNatBE (r.key.drop 1)) r.origin
  else .error .noSuchKey

/-- The public key of a record, if it is one of a public key. -/
def publicKey (r : KeyRecord) : Except KeyFailure ExtendedPublicKey :=
  if r.letters = "pub".toList then
    match Secp256k1.Point.ofBytes? r.key with
    | some point => .ok ⟨point, r.origin⟩
    | none => .error .noSuchKey
  else .error .noSuchKey

end KeyRecord

namespace ChildNumber

/-- The child of an index without the hardened bit. -/
def ofIndex (index : UInt32) (isHardened : Bool) : Except KeyFailure ChildNumber :=
  if index &&& hardenedBit = 0 then .ok (if isHardened then hardened index else normal index)
  else .error .childNumber

/-- The child whose index a text gives. -/
def ofDigits (digits : String) (isHardened : Bool) : Except KeyFailure ChildNumber :=
  match digits.toNat? with
  | none => .error .form
  | some n => if n < UInt32.size then ofIndex (UInt32.ofNat n) isHardened else .error .form

/-- The child that a level of a path stands for: its index, with a prime if it is hardened. -/
def ofText (text : String) : Except KeyFailure ChildNumber :=
  match text.splitOn "'" with
  | [digits] => ofDigits digits false
  | [digits, ""] => ofDigits digits true
  | _ => .error .form

/-- The children that a path stands for, from the master key on. -/
def routeOfText (text : String) : Except KeyFailure (List ChildNumber) :=
  match text.splitOn "/" with
  | "m" :: levels => levels.mapM ofText
  | _ => .error .form

end ChildNumber

end HdWallet
