import Std.Data.ExtTreeMap
import Std.Data.ExtTreeSet
import HdWallet.Selection.Selector

/-!
# Reservations of coins

A reservation withholds the coins of a planned payment, and one change address,
until the payment is broadcast or abandoned. The table knows for each outpoint
which reservation holds it. Coins of a completed reservation stay withheld as
pending spends until they are seen spent or the source no longer reports them,
so that nothing brings them back in between.

The total of a reservation is that of its plan. It does not follow coins that are
seen spent while the reservation is active.
-/

namespace HdWallet

structure SpendRequest where
  /-- What is to be paid, without the fee. -/
  target : Amount
  /-- The outputs that the transaction has already. -/
  recipients : List Output
  rate : FeeRate
  strategy : Strategy
deriving DecidableEq

namespace SpendRequest

/-- Pay an amount to one recipient who is not known yet. -/
def ofTarget (target : Amount) (rate : FeeRate) : SpendRequest :=
  { target, recipients := [], rate, strategy := .largestFirst }

/-- Pay the given outputs. The target is what they are worth together. -/
def ofOutputs (recipients : List Output) (rate : FeeRate) : SpendRequest :=
  { target := .saturate (Amount.sum (recipients.map (·.value)))
    recipients
    rate
    strategy := .largestFirst }

/-- The outputs that the size estimate counts. There is at least one. -/
def recipientCount (request : SpendRequest) : Nat := max request.recipients.length 1

def payment (request : SpendRequest) : Payment :=
  { target := request.target, outputs := request.recipientCount, rate := request.rate }

end SpendRequest

structure ChangeClaim where
  index : UInt32
  address : Address
  script : Script
deriving DecidableEq, Inhabited

/-- A claim on coins and on a change address that is not resolved yet. -/
structure Reservation where
  id : Nat
  /-- The coins withheld, highest value first. -/
  coins : List Coin
  change : ChangeClaim
  reservedAt : Timestamp
  target : Amount
  /-- What the coins of the plan are worth. -/
  total : Amount
  fee : Amount
  /-- The output that pays change to the claimed address, if the plan has one. -/
  changeOutput : Option Output
  strategy : Strategy
deriving DecidableEq

namespace Reservation

def label (id : Nat) : String := "res-" ++ toString id

def hasChange (r : Reservation) : Bool := r.changeOutput.isSome

def changeAmount (r : Reservation) : Amount := (r.changeOutput.map (·.value)).getD 0

def outpoints (r : Reservation) : List OutPoint := r.coins.map (·.outpoint)

def isExpired (r : Reservation) (lifetime : UInt64) (now : Timestamp) : Bool :=
  lifetime.toNat ≤ Timestamp.elapsed r.reservedAt now

inductive Outcome where
  /-- The payment was broadcast. -/
  | completed
  /-- The payment was abandoned. -/
  | cancelled
deriving DecidableEq, Inhabited

def Outcome.text : Outcome → String
  | completed => "completed"
  | cancelled => "cancelled"

end Reservation

/-- The active reservations and the outpoints that must stay out of the ledger. -/
structure ReservationTable where
  active : Std.ExtTreeMap Nat Reservation := ∅
  /-- Which reservation holds an outpoint. -/
  holders : Std.ExtTreeMap OutPoint Nat := ∅
  /-- The scripts of coins that completed reservations spent and that were not seen
  spent yet. -/
  pending : Std.ExtTreeMap OutPoint Script := ∅
  nextId : Nat := 1
  /-- Seconds after which an active reservation is cancelled. -/
  lifetime : UInt64

namespace ReservationTable

/-- The active reservations, oldest first. -/
def reservations (table : ReservationTable) : List Reservation := table.active.toList.map (·.2)

def find? (table : ReservationTable) (id : Nat) : Option Reservation := table.active[id]?

def isReserved (table : ReservationTable) (outpoint : OutPoint) : Bool :=
  table.holders.contains outpoint

/-- Whether a completed reservation spent an outpoint that was not seen spent. -/
def isPending (table : ReservationTable) (outpoint : OutPoint) : Bool :=
  table.pending.contains outpoint

def isWithheld (table : ReservationTable) (outpoint : OutPoint) : Bool :=
  table.isReserved outpoint || table.isPending outpoint

def claimed (table : ReservationTable) : Std.ExtTreeSet Nat :=
  .ofList (table.reservations.map (·.change.index.toNat))

def reservedValue (table : ReservationTable) : Amount :=
  .saturate (Amount.sum (table.reservations.map (·.total)))

/-- Forget pending spends that the source no longer reports. Only those locked by
a queried script are looked at. -/
def settle (table : ReservationTable) (queried : Script → Bool)
    (reported : Std.ExtTreeSet OutPoint) : ReservationTable :=
  { table with
    pending := table.pending.filter fun outpoint script =>
      !queried script || reported.contains outpoint }

/-- Make a reservation active under the next id. -/
def register (table : ReservationTable) (reservation : Nat → Reservation) :
    ReservationTable × Reservation :=
  let id := table.nextId
  let r := reservation id
  ({ table with
    active := table.active.insert id r
    holders := r.outpoints.foldl (·.insert · id) table.holders
    nextId := id + 1 }, r)

def take (table : ReservationTable) (id : Nat) : Option (ReservationTable × Reservation) :=
  (table.find? id).map fun r =>
    ({ table with
      active := table.active.erase id
      holders := r.outpoints.foldl (·.erase ·) table.holders }, r)

/-- Withhold coins as spent until they are seen spent. -/
def addPending (table : ReservationTable) (coins : List Coin) : ReservationTable :=
  { table with
    pending := coins.foldl (fun m coin => m.insert coin.outpoint coin.script) table.pending }

/-- Note that an outpoint was seen spent. It is no longer pending, and the
reservation that held it no longer returns it. The answer is that reservation's
id. -/
def markSpent (table : ReservationTable) (outpoint : OutPoint) :
    ReservationTable × Option Nat :=
  let table := { table with pending := table.pending.erase outpoint }
  match table.holders[outpoint]? with
  | none => (table, none)
  | some id =>
    let drop (r : Reservation) : Reservation :=
      { r with coins := r.coins.filter (·.outpoint ≠ outpoint) }
    ({ table with
      active := table.active.alter id (·.map drop)
      holders := table.holders.erase outpoint }, some id)

end ReservationTable

end HdWallet
