import Std.Data.ExtTreeMap
import HdWallet.Digest
import HdWallet.KeySource
import HdWallet.Secp256k1

/-!
# Key sources for trials

These sources hold no account key. They yield addresses that can be read, such as
`receiving-3`, and may be told to fail, to repeat an address or to withhold their
signing keys, so that every behaviour of an account can be tried out.
-/

namespace HdWallet.KeySource

def nameAt (path : Path) : String := path.branch.text ++ "-" ++ toString path.index.toNat

/-- What a numbered source is told to do at one place. -/
structure Override where
  address : Option Address := none
  script : Option Script := none
  /-- Derivation fails with this text, whatever else is told. -/
  failure : Option String := none

/-- A source whose scripts and signing keys hold the branch and the index as
numbers. What it is told for a name takes precedence. -/
def numbered (overrides : Std.ExtTreeMap String Override) (canSign : Bool) : KeySource where
  derive path :=
    let place := path.branch.text ++ "/" ++ toString path.index.toNat
    let told : Override := overrides.getD place {}
    let number := UInt8.ofNat path.branch.number.toNat :: Bytes.ofNatBE 4 path.index.toNat
    match told.failure with
    | some detail => .error (.derivation detail)
    | none => .ok {
        address := told.address.getD ⟨nameAt path⟩
        script := told.script.getD (.payToKeyHash (number ++ List.replicate 15 0)) }
  signingKey path :=
    let number := UInt8.ofNat path.branch.number.toNat :: Bytes.ofNatBE 4 path.index.toNat
    if canSign then .ok ⟨List.replicate 27 1 ++ number⟩ else .error .watchOnly
  canSign

/-- A source whose scripts pay to the digest of the address's text, and whose
signing keys are digests of the path's text. With `shared`, both branches have the
same addresses. -/
def digested (shared canSign : Bool) : KeySource where
  derive path :=
    let name := if shared then "shared-" ++ toString path.index.toNat else nameAt path
    .ok { address := ⟨name⟩, script := .payToKeyHash (Digest.keyHash name.toUTF8.toList) }
  signingKey path :=
    let key := Sha2.sha256.digest path.text.toUTF8.toList
    if !canSign then .error .watchOnly
    else if Secp256k1.isScalar (Bytes.toNatBE key) then .ok ⟨key⟩
    else .error (.derivation "not a signing key")
  canSign

end HdWallet.KeySource
