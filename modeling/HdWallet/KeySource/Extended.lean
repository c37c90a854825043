import HdWallet.ExtendedKey
import HdWallet.KeySource.Branches

/-!
# The library of keys on secp256k1

Account keys are extended keys on the curve secp256k1, and addresses pay to their
digests.
-/

namespace HdWallet

instance KeyLibrary.secp256k1 : KeyLibrary where
  Private := ExtendedPrivateKey
  Public := ExtendedPublicKey
  Child := ChildNumber
  Route := List ChildNumber
  readRoute text := (ChildNumber.routeOfText text).mapError KeyFailure.text
  ofSeed seed route :=
    ((ExtendedPrivateKey.master seed).bind fun key => route.foldlM ExtendedPrivateKey.derive key)
      |>.mapError KeyFailure.text
  readPrivate text := ((KeyRecord.ofText text).bind (·.privateKey)).mapError KeyFailure.text
  readPublic text := ((KeyRecord.ofText text).bind (·.publicKey)).mapError KeyFailure.text
  publicText := ExtendedPublicKey.text
  child index hardened := (ChildNumber.ofIndex index hardened).mapError KeyFailure.text
  derivePrivate key child := (key.derive child).mapError KeyFailure.text
  derivePublic key child := (key.derive child).mapError KeyFailure.text
  view := ExtendedPrivateKey.view
  privateBytes key := key.pair.bytes
  publicBytes key := key.point.bytes
  signingKey bytes :=
    if bytes.length = 32 ∧ Secp256k1.isScalar (Bytes.toNatBE bytes) then .ok ⟨bytes⟩
    else .error "malformed or out-of-range secret key"
  publicKeyOf signing :=
    (Secp256k1.Point.ofScalar? (Bytes.toNatBE signing.bytes)).elim [] (·.bytes)
  keyHash := Digest.keyHash
  guardedText := Base58.encodeGuarded

namespace AccountKey

def public? (key : AccountKey) : Option KeyLibrary.Public := some key.view

/-- The key without its spending authority, which every key can do without. -/
def watchOnly? (key : AccountKey) : Except String AccountKey := .ok (watch key.view)

end AccountKey

end HdWallet
