import Std.Data.ExtTreeMap
import Std.Data.ExtTreeSet
import HdWallet.Transaction

/-!
# The ledger of selectable coins

The ledger is a finite map from outpoints to outputs, so a coin is stored under
its own outpoint by construction, and two ledgers with the same coins and total
are equal. The first coin put at an outpoint stays there until it is removed. A
running total is kept beside the map; it is exact, however large it grows.
-/

namespace HdWallet

/-- The coins that may be selected for a payment. -/
structure Ledger where
  outputs : Std.ExtTreeMap OutPoint Output := ∅
  /-- The sum of all values. -/
  total : Nat := 0

namespace Ledger

def empty : Ledger := {}

instance : Inhabited Ledger := ⟨empty⟩

def find? (ledger : Ledger) (outpoint : OutPoint) : Option Coin :=
  ledger.outputs[outpoint]?.map (⟨outpoint, ·⟩)

def contains (ledger : Ledger) (outpoint : OutPoint) : Bool := ledger.outputs.contains outpoint

def size (ledger : Ledger) : Nat := ledger.outputs.size

/-- The coins in outpoint order. -/
def coins (ledger : Ledger) : List Coin := ledger.outputs.toList.map fun (o, output) => ⟨o, output⟩

/-- What all coins are worth, or the largest amount if they are worth more. -/
def totalValue (ledger : Ledger) : Amount := .saturate ledger.total

def lockedBy (ledger : Ledger) (script : Script) : List Coin :=
  ledger.coins.filter (·.script == script)

/-- Put in a coin. An outpoint that is taken keeps what it has; the answer says
whether the coin was put in. -/
def add (ledger : Ledger) (coin : Coin) : Ledger × Bool :=
  if ledger.contains coin.outpoint then (ledger, false)
  else
    ({ outputs := ledger.outputs.insert coin.outpoint coin.output
       total := ledger.total + coin.value.toNat }, true)

def remove (ledger : Ledger) (outpoint : OutPoint) : Ledger × Option Coin :=
  match ledger.find? outpoint with
  | none => (ledger, none)
  | some coin =>
    ({ outputs := ledger.outputs.erase outpoint
       total := ledger.total - coin.value.toNat }, some coin)

/-- Put in coins one after another. The answer holds those that were put in. -/
def addAll : Ledger → List Coin → Ledger × List Coin
  | ledger, [] => (ledger, [])
  | ledger, coin :: rest =>
    let (ledger, isNew) := ledger.add coin
    let (ledger, added) := addAll ledger rest
    (ledger, if isNew then coin :: added else added)

/-- Take out the coins at some outpoints, one after another. The answer holds
those that were there. -/
def removeAll : Ledger → List OutPoint → Ledger × List Coin
  | ledger, [] => (ledger, [])
  | ledger, outpoint :: rest =>
    let (ledger, coin) := ledger.remove outpoint
    let (ledger, removed) := removeAll ledger rest
    (ledger, coin.toList ++ removed)

/-- The ledger that holds just these coins, the first of those at one outpoint. -/
def ofCoins (coins : List Coin) : Ledger := (empty.addAll coins).1

/-- Put in the coins that a transaction makes, as far as they are accepted. The
answer holds those that were put in. -/
def receive (ledger : Ledger) (accept : Coin → Bool) (tx : Transaction) : Ledger × List Coin :=
  ledger.addAll (tx.coins.filter accept)

/-- Take out the coins that a transaction spends. The answer holds those that
were there. -/
def spend (ledger : Ledger) (tx : Transaction) : Ledger × List Coin :=
  ledger.removeAll tx.inputs

end Ledger

end HdWallet
