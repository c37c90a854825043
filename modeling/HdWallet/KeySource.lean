import HdWallet.Path

/-!
# Key sources

A key source is whatever holds the account key. It derives an address and its
locking script at every path, and the signing key there if it may spend. Being a
function of the path, it always derives the same at the same path; nothing else
is asked of it, so it may fail and it may repeat an address.
-/

namespace HdWallet

structure Derived where
  address : Address
  script : Script
deriving DecidableEq, Inhabited

structure SigningKey where
  bytes : Bytes
deriving DecidableEq, Inhabited

/-- Whatever holds the account key. -/
structure KeySource where
  /-- The address at a path. -/
  derive : Path → Except Failure Derived
  /-- The signing key at a path. A source without spending authority has none. -/
  signingKey : Path → Except Failure SigningKey
  /-- Whether the source can sign. -/
  canSign : Bool

instance : Inhabited KeySource := ⟨fun _ => .error .watchOnly, fun _ => .error .watchOnly, false⟩

end HdWallet
