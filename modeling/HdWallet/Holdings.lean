import HdWallet.Keychain
import HdWallet.Ledger
import HdWallet.Reservation

/-!
# What an account holds

The holdings of an account are its addresses, the coins it may select and its
reservations. The operations here move coins between the ledger and the table of
reservations and mark addresses used. Planning a payment withdraws nothing
before everything that may fail is done. Resolving one takes the reservation out
of the table first, and what has been done stays when a later part fails.
-/

namespace HdWallet

/-- The addresses, the selectable coins and the reservations of an account. -/
structure Holdings where
  keychain : Keychain
  ledger : Ledger
  reservations : ReservationTable

namespace Holdings

def onKeychain {α : Type} (step : Step Keychain α) : Step Holdings α :=
  step.onPart keychain fun keychain h => { h with keychain }

def alreadyReserved? (h : Holdings) (coins : List Coin) : Option Coin :=
  coins.find? (h.reservations.isReserved ·.outpoint)

/-- Plan a payment and withhold its coins and a change address. -/
def reserve (request : SpendRequest) (selector : Selector) (now : Timestamp) :
    Step Holdings Reservation := do
  let h ← get
  let selection ←
    match selector.choose h.ledger.coins request.payment with
    | .ok selection => pure selection
    | .error failure => throw (.ofSelection failure)
  if let some coin := h.alreadyReserved? selection.coins then
    throw (.inconsistent ("selectable output " ++ coin.outpoint.text ++ " is already reserved"))
  let slot ← onKeychain (Keychain.nextUnused .change h.reservations.claimed)
  let (ledger, removed) := h.ledger.removeAll (selection.coins.map (·.outpoint))
  if removed.length ≠ selection.coins.length then
    modify fun h => { h with ledger := (ledger.addAll removed).1 }
    throw (.inconsistent "selected output vanished from the ledger")
  let (reservations, reservation) := h.reservations.register fun id => {
    id
    coins := selection.coins
    change := ⟨slot.path.index, slot.address, slot.script⟩
    reservedAt := now
    target := request.target
    total := selection.total
    fee := selection.fee
    changeOutput := if selection.hasChange then some ⟨selection.change, slot.script⟩ else none
    strategy := selection.strategy }
  modify fun h => { h with ledger, reservations }
  pure reservation

/-- Resolve a reservation. The coins of a completed one stay withheld, and its
change address is used if the plan has a change output. The coins of a cancelled
one go back to the ledger. -/
def release (id : Nat) (outcome : Reservation.Outcome) : Step Holdings Reservation := do
  match (← get).reservations.take id with
  | none => throw (.unknownReservation id)
  | some (reservations, reservation) =>
    match outcome with
    | .completed =>
      modify fun h => { h with reservations := reservations.addPending reservation.coins }
      if reservation.hasChange then
        discard (onKeychain (Keychain.markIndexUsed .change reservation.change.index.toNat))
    | .cancelled =>
      modify fun h => { h with reservations, ledger := (h.ledger.addAll reservation.coins).1 }
    pure reservation

def cancelAll : List Nat → Step Holdings Unit
  | [] => pure ()
  | id :: rest => do
    discard (release id .cancelled)
    cancelAll rest

/-- Cancel the reservations that are as old as their lifetime allows. The answer
holds their ids. -/
def expire (now : Timestamp) : Step Holdings (List Nat) := do
  let table := (← get).reservations
  let expired := table.reservations.filter (·.isExpired table.lifetime now)
  let ids := expired.map (·.id)
  cancelAll ids
  pure ids

/-- Put in a coin, unless it is withheld or its outpoint is taken. -/
def addCoin (h : Holdings) (coin : Coin) : Holdings × Bool :=
  if h.reservations.isWithheld coin.outpoint then (h, false)
  else
    let (ledger, isNew) := h.ledger.add coin
    ({ h with ledger }, isNew)

/-- Put in the coins that a transaction pays to the account, except those that
are withheld. The answer holds those that were put in. -/
def receive (h : Holdings) (tx : Transaction) : Holdings × List Coin :=
  let accept (coin : Coin) :=
    h.keychain.owns coin.script && !h.reservations.isWithheld coin.outpoint
  let (ledger, added) := h.ledger.receive accept tx
  ({ h with ledger }, added)

/-- Take out the coins that a transaction spends, wherever they are. The answer
holds those that were in the ledger. -/
def spend (h : Holdings) (tx : Transaction) : Holdings × List Coin :=
  let reservations := tx.inputs.foldl (fun table o => (table.markSpent o).1) h.reservations
  let (ledger, removed) := h.ledger.spend tx
  ({ h with reservations, ledger }, removed)

/-- Make the ledger agree with what the source reports about one address. Reports
locked by another script are left out. The answer says whether the address is one
of the account's. -/
def resync (address : Address) (reported : List Coin) : Step Holdings Bool := do
  let h ← get
  match h.keychain.find? address with
  | none => pure false
  | some slot =>
    let own := reported.filter (·.script == slot.script)
    let reservations :=
      h.reservations.settle (· == slot.script) (.ofList (own.map (·.outpoint)))
    let kept := own.filter fun coin => !reservations.isWithheld coin.outpoint
    let keep : Std.ExtTreeSet OutPoint := .ofList (kept.map (·.outpoint))
    let gone := (h.ledger.lockedBy slot.script).filter fun coin => !keep.contains coin.outpoint
    let ledger := (h.ledger.removeAll (gone.map (·.outpoint))).1
    modify fun h => { h with reservations, ledger := (ledger.addAll kept).1 }
    if !kept.isEmpty then discard (onKeychain (Keychain.markUsed address))
    pure true

def markAllUsed : List Address → Step Holdings Unit
  | [] => pure ()
  | address :: rest => do
    discard (onKeychain (Keychain.markUsed address))
    markAllUsed rest

/-- Replace the ledger by what the source reports about every address asked for,
and mark the addresses with coins used. Each address counts only for coins that
its own script locks. The answer is the number of coins. -/
def replaceAll (reports : List (Address × List Coin)) : Step Holdings Nat := do
  let h ← get
  let own : List (Address × List Coin) := reports.filterMap fun (address, coins) =>
    (h.keychain.find? address).map fun slot => (address, coins.filter (·.script == slot.script))
  let reported := own.flatMap (·.2.map (·.outpoint))
  let reservations := h.reservations.settle (fun _ => true) (.ofList reported)
  let kept : List (Address × List Coin) := own.map fun (address, coins) =>
    (address, coins.filter fun coin : Coin => !reservations.isWithheld coin.outpoint)
  modify fun h => { h with reservations, ledger := .ofCoins (kept.flatMap (·.2)) }
  markAllUsed ((kept.filter (!·.2.isEmpty)).map (·.1))
  pure (← get).ledger.size

end Holdings

end HdWallet
