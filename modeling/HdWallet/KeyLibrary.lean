import HdWallet.KeySource

/-!
# Libraries of keys

Extended keys, signing keys, digests and the text of addresses come from libraries
of their own. What an account asks of them stands here and nothing more, so all
that is said of account keys holds whatever library is in use. An operation that
can fail gives its failure in the library's own words.
-/

namespace HdWallet

/-- What holds and derives keys, and writes them. -/
class KeyLibrary where
  /-- Extended private keys. -/
  Private : Type
  /-- Extended public keys. -/
  Public : Type
  /-- The numbers of children. -/
  Child : Type
  /-- Paths from a master key on. -/
  Route : Type
  readRoute : String → Except String Route
  /-- The key below the master key of a seed. -/
  ofSeed : Bytes → Route → Except String Private
  readPrivate : String → Except String Private
  readPublic : String → Except String Public
  publicText : Public → String
  /-- The number of a child, hardened or not. -/
  child : (index : UInt32) → (hardened : Bool) → Except String Child
  derivePrivate : Private → Child → Except String Private
  derivePublic : Public → Child → Except String Public
  /-- The public view of a private key. -/
  view : Private → Public
  /-- The thirty-two bytes of a private key. -/
  privateBytes : Private → Bytes
  /-- The thirty-three bytes of a public key. -/
  publicBytes : Public → Bytes
  /-- The signing key that bytes stand for. -/
  signingKey : Bytes → Except String SigningKey
  /-- The thirty-three bytes of the public key of a signing key. -/
  publicKeyOf : SigningKey → Bytes
  /-- The twenty bytes that name a public key. -/
  keyHash : Bytes → Bytes
  /-- The text of a payload, with a checksum. -/
  guardedText : Bytes → String

namespace KeyLibrary

variable [KeyLibrary]

/-- What account keys rely on. -/
structure Lawful : Prop where
  /-- The normal children of a public view are the views of the private key's children, and
  where one has no such child neither has the other, in the same words. -/
  derivePublic_view {index : UInt32} {number : Child} (key : Private) :
    child index false = .ok number →
    derivePublic (view key) number = (derivePrivate key number).map view
  /-- A signing key that is read from an extended key has the same public key. -/
  publicKeyOf_signingKey {key : Private} {signing : SigningKey} :
    signingKey (privateBytes key) = .ok signing →
    publicKeyOf signing = publicBytes (view key)

end KeyLibrary

end HdWallet
