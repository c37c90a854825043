import HdWallet.Digest.Ripemd160
import HdWallet.Digest.Sha2

/-!
# The digests that keys and addresses use

Public keys are named by a digest of twenty bytes, and encoded texts end in four
bytes that guard against mistyping. Both are made of two digests in a row.
-/

namespace HdWallet.Digest

/-- The twenty bytes that name a public key. -/
def keyHash (publicKey : Bytes) : Bytes := Ripemd160.digest (Sha2.sha256.digest publicKey)

/-- The four bytes that guard a payload. -/
def checksum (payload : Bytes) : Bytes :=
  (Sha2.sha256.digest (Sha2.sha256.digest payload)).take 4

end HdWallet.Digest
