import HdWallet.Holdings

/-!
# Snapshots

A snapshot is what is saved of an account: for each branch which slots were used
and what their balances were, and the coins of the ledger. Addresses are not
saved; restoring derives them again. A snapshot is laid over the present state:
slots that it does not mention stay as they are, and of several mentions of a
slot the last one counts. The ledger is replaced.
-/

namespace HdWallet

def snapshotVersion : UInt32 := 1

structure SavedSlot where
  index : UInt32
  used : Bool
  reading : Reading
deriving DecidableEq, Inhabited

structure Snapshot where
  version : UInt32
  receiving : List SavedSlot
  change : List SavedSlot
  coins : List Coin
deriving DecidableEq, Inhabited

namespace Snapshot

def slots (s : Snapshot) : Branch → List SavedSlot
  | .receiving => s.receiving
  | .change => s.change

def highestIndex (s : Snapshot) (branch : Branch) : Option Nat :=
  ((s.slots branch).map (·.index.toNat)).max?

def validate (s : Snapshot) : Except Failure Unit :=
  if s.version = snapshotVersion then .ok () else .error (.unsupportedVersion s.version.toNat)

def ofChain (chain : Chain) : List SavedSlot :=
  chain.slots.toList.map fun slot => ⟨slot.path.index, slot.used, slot.cache.reading⟩

def ofHoldings (h : Holdings) : Snapshot where
  version := snapshotVersion
  receiving := ofChain h.keychain.receiving
  change := ofChain h.keychain.change
  coins := h.ledger.coins

/-- Refuse an index above what the account allows a snapshot to refer to. -/
def checkIndex (s : Snapshot) (limit : Nat) (branch : Branch) : Except Failure Unit :=
  match s.highestIndex branch with
  | some index => if limit < index then .error (.indexOutOfRange branch index limit) else .ok ()
  | none => .ok ()

def restoreReading (chain : Chain) (index : Nat) (reading : Reading) : Except Failure Chain :=
  match chain.slot? index with
  | some _ => .ok (chain.modifyCache index ({ · with reading }))
  | none =>
    .error (.inconsistent
      (chain.branch.text ++ " index " ++ toString index ++ " missing after growth"))

/-- Lay saved slots over a chain, one after another. -/
def overlay : List SavedSlot → Step Chain Unit
  | [] => pure ()
  | saved :: rest => do
    let index := saved.index.toNat
    set (← Step.ofExcept ((← get).setUsed index saved.used))
    set (← Step.ofExcept (restoreReading (← get) index saved.reading))
    overlay rest

/-- Derive the slots that a snapshot refers to on one branch, lay the saved ones
over them, and grow the chain to what the gap rule asks for. -/
def applyBranch (s : Snapshot) (branch : Branch) : Step Keychain Unit := do
  if let some highest := s.highestIndex branch then
    discard (Keychain.ensure branch (highest + 1))
  Keychain.onChain branch (overlay (s.slots branch))
  discard (Keychain.maintain branch)

/-- Lay a snapshot over the present state. What it refers to is checked before
anything is derived, and the ledger is replaced last. -/
def apply (s : Snapshot) : Step Holdings Unit := do
  Step.ofExcept s.validate
  let limit := (← get).keychain.maxRestoredIndex
  Step.ofExcept (s.checkIndex limit .receiving)
  Step.ofExcept (s.checkIndex limit .change)
  Holdings.onKeychain (s.applyBranch .receiving)
  Holdings.onKeychain (s.applyBranch .change)
  modify fun h =>
    let kept := s.coins.filter fun coin => !h.reservations.isWithheld coin.outpoint
    { h with ledger := .ofCoins kept }

end Snapshot

end HdWallet
