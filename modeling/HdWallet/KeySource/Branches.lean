import HdWallet.KeyLibrary

/-!
# Key sources over an account key

The keys of both branches are derived once; each address then costs one more
normal child. Addresses are derived from the public view of the branch key, with
or without spending authority.
-/

namespace HdWallet

variable [KeyLibrary]

/-- The address that pays to the digest of a public key, and its script. The version
byte tells networks apart. -/
def payToKeyHash (version : UInt8) (publicKey : Bytes) : Derived :=
  let hash := KeyLibrary.keyHash publicKey
  { address := ⟨KeyLibrary.guardedText (version :: hash)⟩, script := .payToKeyHash hash }

def mainNetwork : UInt8 := 76

/-- The key of an account: to watch only, or with spending authority. -/
inductive AccountKey where
  | watch (key : KeyLibrary.Public)
  | spend (key : KeyLibrary.Private)

namespace AccountKey

/-- What is shown of a key: whether it is private, and nothing else. -/
def summary : AccountKey → String
  | watch _ => "Public \x7b .. \x7d"
  | spend _ => "Private \x7b .. \x7d"

/-- The account key below the master key of a seed. -/
def ofSeed? (seed : Bytes) (account : AccountPath) : Except String AccountKey := do
  let route ← KeyLibrary.readRoute account.text
  spend <$> KeyLibrary.ofSeed seed route

/-- The key that a text stands for. It is read as a private key first. -/
def ofText? (text : String) : Except String AccountKey :=
  match KeyLibrary.readPrivate text with
  | .ok key => .ok (spend key)
  | .error _ =>
    match KeyLibrary.readPublic text with
    | .ok key => .ok (watch key)
    | .error words => .error ("invalid extended key: " ++ words)

def view : AccountKey → KeyLibrary.Public
  | watch key => key
  | spend key => KeyLibrary.view key

end AccountKey

/-- The keys of both branches of an account, and the version byte of its addresses. -/
structure BranchKeys where
  receiving : AccountKey
  change : AccountKey
  version : UInt8

namespace BranchKeys

/-- A failure of the library, in its own words. -/
def orFail {α : Type} (result : Except String α) : Except Failure α :=
  result.mapError .derivation

/-- The library's number of a child. -/
def libraryChild (child : ChildNumber) : Except Failure KeyLibrary.Child :=
  (KeyLibrary.child child.index child.isHardened).mapError fun words =>
    .derivation ("child " ++ child.text ++ ": " ++ words)

/-- The key of a branch below an account key, with the same authority. -/
def branchKey (account : AccountKey) (branch : Branch) : Except Failure AccountKey := do
  let child ← libraryChild (← ChildNumber.normal? branch.number)
  match account with
  | .watch key => .watch <$> orFail (KeyLibrary.derivePublic key child)
  | .spend key => .spend <$> orFail (KeyLibrary.derivePrivate key child)

def ofAccountKey (key : AccountKey) (version : UInt8) : Except Failure BranchKeys := do
  pure { receiving := ← branchKey key .receiving, change := ← branchKey key .change, version }

def key (keys : BranchKeys) : Branch → AccountKey
  | .receiving => keys.receiving
  | .change => keys.change

/-- The library's number of the child at a path. Only the index counts. -/
def pathChild (path : Path) : Except Failure KeyLibrary.Child := do
  libraryChild (← ChildNumber.normal? path.index)

/-- The address at a path. Only its branch and index count. -/
def derive (keys : BranchKeys) (path : Path) : Except Failure Derived := do
  let child ← pathChild path
  let key ← orFail (KeyLibrary.derivePublic (keys.key path.branch).view child)
  pure (payToKeyHash keys.version (KeyLibrary.publicBytes key))

def signingKey (keys : BranchKeys) (path : Path) : Except Failure SigningKey :=
  match keys.key path.branch with
  | .watch _ => .error .watchOnly
  | .spend key => do
    let key ← orFail (KeyLibrary.derivePrivate key (← pathChild path))
    orFail (KeyLibrary.signingKey (KeyLibrary.privateBytes key))

def canSign (keys : BranchKeys) : Bool :=
  match keys.receiving with
  | .watch _ => false
  | .spend _ => true

def source (keys : BranchKeys) : KeySource := ⟨keys.derive, keys.signingKey, keys.canSign⟩

end BranchKeys

end HdWallet
