import HdWallet.Retry
import HdWallet.Snapshot

/-!
# Accounts

An account joins its settings and holdings with a queue of queries to try again.
A balance source is asked while the account goes on changing, so an answer may
arrive late. Every batch of balance queries therefore holds a ticket, and each
address has a floor: an answer counts only if its ticket is above the floor. A
balance that counts raises the floor to its own ticket, and an invalidation raises
it to the last ticket issued. So no answer overwrites a newer one, and none undoes
an invalidation that came after its query.
-/

namespace HdWallet

/-- What a balance source answers to a query. -/
abbrev Reply (α : Type) := Except SourceFailure α

structure Account where
  config : Config
  holdings : Holdings
  retries : RetryQueue
  /-- The last ticket issued. -/
  tickets : Nat := 0
  /-- For an address, the greatest ticket whose answers no longer count. -/
  floors : Std.ExtTreeMap Address Nat := ∅

structure AccountBalance where
  /-- What may be selected for a payment. -/
  spendable : Amount
  /-- What active reservations withhold. -/
  reserved : Amount
  /-- The sum of the cached balances that count. -/
  cached : Amount
  /-- The number of addresses without a cached balance that counts. -/
  staleSlots : Nat
deriving DecidableEq

namespace Account

/-- An account with as many addresses as the gap rule asks for, and nothing else. -/
def ofConfig (config : Config) (source : KeySource) : Except Failure Account := do
  let keychain ← Keychain.ofConfig config source
  pure {
    config
    holdings := {
      keychain
      ledger := .empty
      reservations := { lifetime := config.reservationLifetime } }
    retries := .ofLimit config.retryAttempts.toNat }

def keychain (a : Account) : Keychain := a.holdings.keychain

def ledger (a : Account) : Ledger := a.holdings.ledger

def reservations (a : Account) : ReservationTable := a.holdings.reservations

def onHoldings {α : Type} (step : Step Holdings α) : Step Account α :=
  step.onPart holdings fun holdings a => { a with holdings }

def onKeychain {α : Type} (step : Step Keychain α) : Step Account α :=
  onHoldings (Holdings.onKeychain step)

def setKeychain (a : Account) (keychain : Keychain) : Account :=
  { a with holdings := { a.holdings with keychain } }

/-- The first unused address of a branch. Change addresses that reservations claim
are passed over. -/
def nextUnused (branch : Branch) : Step Account Slot := do
  let a ← get
  let excluded : Std.ExtTreeSet Nat :=
    match branch with
    | .receiving => ∅
    | .change => a.reservations.claimed
  onKeychain (Keychain.nextUnused branch excluded)

def markUsed (address : Address) : Step Account Bool := onKeychain (Keychain.markUsed address)

/-- Change the gap limit of a branch. The settings follow if it succeeds. -/
def setGapLimit (branch : Branch) (limit : UInt32) : Step Account (List Address) := do
  let added ← onKeychain (Keychain.setGapLimit branch limit.toNat)
  modify fun a =>
    match branch with
    | .receiving => { a with config := { a.config with receivingGapLimit := limit } }
    | .change => { a with config := { a.config with changeGapLimit := limit } }
  pure added

def setCacheLifetime (a : Account) (lifetime : UInt64) : Account :=
  { a.setKeychain (a.keychain.setCacheLifetime lifetime) with
    config := { a.config with cacheLifetime := lifetime } }

/-- The cached balance of an address, if it counts. -/
def cachedBalance (a : Account) (address : Address) (now : Timestamp) :
    Except Failure (Option Amount) :=
  match a.keychain.find? address with
  | none => .error (.unknownAddress address)
  | some slot => .ok (slot.cache.balance? now)

/-- A ticket for balance queries made from now on. -/
def issueTicket : Step Account Nat := do
  modify fun a => { a with tickets := a.tickets + 1 }
  pure (← get).tickets

/-- The greatest ticket whose answers about an address no longer count. -/
def floor (a : Account) (address : Address) : Nat := a.floors.getD address 0

/-- Keep a balance that was asked for with a ticket, if it counts. The answer says
whether it was kept. -/
def recordBalance (a : Account) (address : Address) (balance : Amount) (ticket : Nat)
    (now : Timestamp) : Account × Bool :=
  if ticket ≤ a.floor address then (a, false)
  else
    -- The account is taken apart before its slots change, so that they change in place.
    let ⟨config, ⟨keychain, ledger, reservations⟩, retries, tickets, floors⟩ := a
    let (keychain, known) := keychain.modifyCache address (·.record balance now)
    (⟨config, ⟨keychain, ledger, reservations⟩, retries, tickets,
      if known then floors.insert address ticket else floors⟩, known)

/-- Let the balance of an address, and every answer still on its way, no longer
count. The answer says whether the address is one of the account's. -/
def invalidateAddress (a : Account) (address : Address) : Account × Bool :=
  let (keychain, known) := a.keychain.modifyCache address (·.invalidate)
  if known then
    ({ a.setKeychain keychain with floors := a.floors.insert address a.tickets }, true)
  else (a, false)

/-- Let the balance of the address that a script belongs to no longer count. -/
def invalidateScript (a : Account) (script : Script) : Account :=
  match a.keychain.ofScript? script with
  | none => a
  | some slot => (a.invalidateAddress slot.address).1

/-- Let the balance of one of the account's addresses no longer count. -/
def invalidate (address : Address) : Step Account Unit := do
  let (a, known) := (← get).invalidateAddress address
  if known then set a else throw (.unknownAddress address)

def balance (a : Account) (now : Timestamp) : AccountBalance :=
  let balances := a.keychain.slots.map (·.cache.balance? now)
  { spendable := a.ledger.totalValue
    reserved := a.reservations.reservedValue
    cached := .saturate (Amount.sum (balances.filterMap id))
    staleSlots := balances.countP Option.isNone }

/-- Put in a coin, unless it is withheld or its outpoint is taken. -/
def addCoin (a : Account) (coin : Coin) : Account × Bool :=
  let (holdings, isNew) := a.holdings.addCoin coin
  ({ a with holdings }, isNew)

def removeCoin (a : Account) (outpoint : OutPoint) : Account × Option Coin :=
  let (ledger, coin) := a.ledger.remove outpoint
  ({ a with holdings := { a.holdings with ledger } }, coin)

/-- Mark the addresses used that coins pay to, and let their balances no longer
count, one coin after another. -/
def noteReceived : List Coin → Step Account Unit
  | [] => pure ()
  | coin :: rest => do
    if let some slot := (← get).keychain.ofScript? coin.script then
      discard (markUsed slot.address)
    modify (·.invalidateScript coin.script)
    noteReceived rest

/-- Take in what a transaction pays to the account. The answer holds the new coins. -/
def receive (tx : Transaction) : Step Account (List Coin) := do
  let (holdings, added) := (← get).holdings.receive tx
  modify fun a => { a with holdings }
  noteReceived added
  pure added

/-- Take out what a transaction spends. The answer holds the coins that could be
selected until then. -/
def spend (a : Account) (tx : Transaction) : Account × List Coin :=
  let (holdings, removed) := a.holdings.spend tx
  ((removed.map (·.script)).foldl invalidateScript { a with holdings }, removed)

def selector (config : Config) (strategy : Strategy) : Selector :=
  { strategy, dust := config.dust, nodeBudget := config.nodeBudget.toNat }

/-- Plan a payment, after cancelling the reservations that are too old. -/
def reserve (request : SpendRequest) (now : Timestamp) : Step Account Reservation := do
  discard (onHoldings (Holdings.expire now))
  onHoldings (Holdings.reserve request (selector (← get).config request.strategy) now)

def release (id : Nat) (outcome : Reservation.Outcome) : Step Account Reservation :=
  onHoldings (Holdings.release id outcome)

/-- Cancel the reservations that are too old. The answer holds their ids. -/
def expire (now : Timestamp) : Step Account (List Nat) := onHoldings (Holdings.expire now)

def snapshot (a : Account) : Snapshot := .ofHoldings a.holdings

def applySnapshot (s : Snapshot) : Step Account Unit := onHoldings s.apply

/-- Queue a query that failed for the first time, if the failure may pass. -/
def noteFailure (a : Account) (kind : RetryKind) (f : AddressFailure) (now : Timestamp) :
    Account :=
  if f.failure.isTransient then
    { a with retries := (a.retries.enqueue f.address kind f.failure now).1 }
  else a

end Account

end HdWallet
