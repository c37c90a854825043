import HdWallet.Chain
import HdWallet.Config

/-!
# The addresses of an account

A keychain holds the chains of both branches and the key source that derives
them. No address may occur in both. Marking an address used and changing a gap
limit first change the chain and then grow it to what the gap rule asks for; if
the growth fails, the change stays and so do the slots derived until then.
-/

namespace HdWallet

/-- Both chains of an account and the key source that derives them. -/
structure Keychain where
  account : AccountPath
  receiving : Chain
  change : Chain
  source : KeySource
  /-- The highest index that a restored snapshot may refer to. -/
  maxRestoredIndex : Nat

namespace Keychain

def chain (keys : Keychain) : Branch → Chain
  | .receiving => keys.receiving
  | .change => keys.change

def setChain (branch : Branch) (chain : Chain) (keys : Keychain) : Keychain :=
  match branch with
  | .receiving => { keys with receiving := chain }
  | .change => { keys with change := chain }

def onChain {α : Type} (branch : Branch) (step : Step Chain α) : Step Keychain α :=
  step.onPart (·.chain branch) (setChain branch)

/-- Derive so many further addresses of a branch. The answer holds them. -/
def generate (branch : Branch) (count : Nat) : Step Keychain (List Address) := do
  let keys ← get
  let taken := (keys.chain branch.other).contains
  onChain branch (Chain.grow keys.source taken count)
  let grown ← get
  pure ((grown.chain branch).addresses.drop (keys.chain branch).size)

/-- Grow a branch to at least so many addresses. The answer holds the new ones. -/
def ensure (branch : Branch) (count : Nat) : Step Keychain (List Address) := do
  let missing := count - ((← get).chain branch).size
  if UInt32.size ≤ missing then throw (.branchExhausted branch)
  generate branch missing

def maintain (branch : Branch) : Step Keychain (List Address) := do
  ensure branch ((← get).chain branch).requiredSize

def blank (config : Config) (source : KeySource) : Keychain :=
  let chain branch : Chain := {
    account := config.accountPath
    branch
    gapLimit := (config.gapLimit branch).toNat
    cacheLifetime := config.cacheLifetime }
  { account := config.accountPath
    receiving := chain .receiving
    change := chain .change
    source
    maxRestoredIndex := config.maxRestoredIndex.toNat }

/-- Both chains with as many addresses as the gap rule asks for. -/
def ofConfig (config : Config) (source : KeySource) : Except Failure Keychain := do
  config.validate
  let fill : Step Keychain Unit := do
    discard (maintain .receiving)
    discard (maintain .change)
  match fill (blank config source) with
  | .ok _ keys => .ok keys
  | .error e _ => .error e

/-- The first unused slot of a branch whose index is not excluded. If there is
none, one gap limit of slots is derived and the search runs once more. -/
def nextUnused (branch : Branch) (excluded : Std.ExtTreeSet Nat) : Step Keychain Slot := do
  match ((← get).chain branch).firstUnused? excluded with
  | some slot => pure slot
  | none =>
    discard (generate branch ((← get).chain branch).gapLimit)
    match ((← get).chain branch).firstUnused? excluded with
    | some slot => pure slot
    | none => throw (.branchExhausted branch)

/-- Where an address is. An address in both chains is a defect. -/
def locate (keys : Keychain) (address : Address) : Except Failure (Option (Branch × Nat)) :=
  match keys.receiving.indexOf? address, keys.change.indexOf? address with
  | some _, some _ => .error (.duplicateAddress address)
  | some index, none => .ok (some (.receiving, index))
  | none, some index => .ok (some (.change, index))
  | none, none => .ok none

/-- Mark a slot used and grow its chain. The answer says whether it was unused
before. -/
def markIndexUsed (branch : Branch) (index : Nat) : Step Keychain Bool := do
  let (chain, isNew) ← Step.ofExcept (((← get).chain branch).markUsed index)
  if isNew then
    modify (setChain branch chain)
    discard (maintain branch)
  pure isNew

/-- Mark an address used and grow its chain. The answer says whether it was
unused before. -/
def markUsed (address : Address) : Step Keychain Bool := do
  match ← Step.ofExcept ((← get).locate address) with
  | some (branch, index) => markIndexUsed branch index
  | none => throw (.unknownAddress address)

def find? (keys : Keychain) (address : Address) : Option Slot :=
  (keys.receiving.find? address).or (keys.change.find? address)

/-- The slot that is found for a script, on the receiving branch if on both. -/
def ofScript? (keys : Keychain) (script : Script) : Option Slot :=
  (keys.receiving.ofScript? script).or (keys.change.ofScript? script)

def owns (keys : Keychain) (script : Script) : Bool := (keys.ofScript? script).isSome

/-- The slot at a path, which must belong to this account. -/
def at? (keys : Keychain) (path : Path) : Option Slot :=
  if keys.account.child path.branch path.index = path then
    (keys.chain path.branch).slot? path.index.toNat
  else none

/-- Change the cached balance of an address. The answer says whether the address
is one of the account's. -/
def modifyCache (keys : Keychain) (address : Address) (f : CachedBalance → CachedBalance) :
    Keychain × Bool :=
  match keys.receiving.indexOf? address with
  | some index => ({ keys with receiving := keys.receiving.modifyCache index f }, true)
  | none =>
    match keys.change.indexOf? address with
    | some index => ({ keys with change := keys.change.modifyCache index f }, true)
    | none => (keys, false)

def slots (keys : Keychain) : List Slot :=
  keys.receiving.slots.toList ++ keys.change.slots.toList

def addresses (keys : Keychain) : List Address := keys.slots.map (·.address)

def stats (keys : Keychain) (branch : Branch) : ChainStats := .ofChain (keys.chain branch)

/-- Change the gap limit of a branch and grow its chain. The answer holds the new
addresses. -/
def setGapLimit (branch : Branch) (limit : Nat) : Step Keychain (List Address) := do
  if limit = 0 ∨ largestGapLimit < limit then
    throw (.invalidParameter ("gap limit must be between 1 and " ++ toString largestGapLimit
      ++ ", got " ++ toString limit))
  modify fun keys => setChain branch { keys.chain branch with gapLimit := limit } keys
  maintain branch

def setCacheLifetime (keys : Keychain) (lifetime : UInt64) : Keychain :=
  { keys with
    receiving := keys.receiving.setCacheLifetime lifetime
    change := keys.change.setCacheLifetime lifetime }

def signingKey (keys : Keychain) (path : Path) : Except Failure SigningKey :=
  if (keys.at? path).isNone then .error (.noSlot path.text) else keys.source.signingKey path

def canSign (keys : Keychain) : Bool := keys.source.canSign

end Keychain

end HdWallet
