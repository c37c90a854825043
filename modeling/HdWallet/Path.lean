import HdWallet.Failure

/-!
# Derivation paths

A path names one address of an account below a master key: three hardened levels
for purpose, coin type and account, then the branch and the index of the address.
Levels are kept without the hardened bit. They become child numbers only through
`ChildNumber.normal?` and `ChildNumber.hardened?`, which refuse a level that has
the bit already.
-/

namespace HdWallet

def hardenedBit : UInt32 := 0x80000000

/-- The largest index of a child that is not hardened. -/
def lastNormalIndex : Nat := hardenedBit.toNat - 1

/-- One level of a derivation path. -/
inductive ChildNumber where
  | normal (index : UInt32)
  | hardened (index : UInt32)
deriving DecidableEq, Inhabited

namespace ChildNumber

/-- The child that is not hardened, unless the index has the hardened bit. -/
def normal? (index : UInt32) : Except Failure ChildNumber :=
  if index &&& hardenedBit = 0 then .ok (normal index)
  else .error (.invalidChildNumber index.toNat)

/-- The hardened child, unless the index has the hardened bit. -/
def hardened? (index : UInt32) : Except Failure ChildNumber :=
  if index &&& hardenedBit = 0 then .ok (hardened index)
  else .error (.invalidChildNumber index.toNat)

def ofWord (word : UInt32) : ChildNumber :=
  if word &&& hardenedBit = 0 then normal word else hardened (word ^^^ hardenedBit)

def word : ChildNumber → UInt32
  | normal index => index
  | hardened index => index ||| hardenedBit

def index : ChildNumber → UInt32
  | normal index | hardened index => index

def isHardened : ChildNumber → Bool
  | normal _ => false
  | hardened _ => true

def harden (c : ChildNumber) : ChildNumber := hardened c.index

def unharden (c : ChildNumber) : ChildNumber := normal c.index

/-- The index, with a prime if the child is hardened. -/
def text : ChildNumber → String
  | normal index => toString index.toNat
  | hardened index => toString index.toNat ++ "'"

end ChildNumber

structure AccountPath where
  purpose : UInt32
  coinType : UInt32
  account : UInt32
deriving DecidableEq, Inhabited

structure Path where
  purpose : UInt32
  coinType : UInt32
  account : UInt32
  branch : Branch
  index : UInt32
deriving DecidableEq, Inhabited

namespace AccountPath

def child (account : AccountPath) (branch : Branch) (index : UInt32) : Path where
  purpose := account.purpose
  coinType := account.coinType
  account := account.account
  branch
  index

/-- The account's path in words, from the master key on. -/
def text (account : AccountPath) : String :=
  "m/" ++ toString account.purpose.toNat ++ "'/" ++ toString account.coinType.toNat ++ "'/"
    ++ toString account.account.toNat ++ "'"

def childNumbers (account : AccountPath) : Except Failure (List ChildNumber) :=
  [account.purpose, account.coinType, account.account].mapM ChildNumber.hardened?

end AccountPath

namespace Path

def accountPath (path : Path) : AccountPath := ⟨path.purpose, path.coinType, path.account⟩

/-- The path in words, from the master key on. -/
def text (path : Path) : String :=
  path.accountPath.text ++ "/" ++ toString path.branch.number.toNat ++ "/"
    ++ toString path.index.toNat

def belowAccount (path : Path) : Except Failure (List ChildNumber) :=
  [path.branch.number, path.index].mapM ChildNumber.normal?

def childNumbers (path : Path) : Except Failure (List ChildNumber) := do
  let account ← path.accountPath.childNumbers
  let below ← path.belowAccount
  pure (account ++ below)

end Path

end HdWallet
