import HdWallet.Fee
import HdWallet.Transaction

/-!
# Coin selection: payments, plans and the ranking of coins

A payment says what the chosen coins have to cover: a target, a number of
recipient outputs and a fee rate. A selection is the resulting plan. Every
strategy looks at the candidates in one deterministic order, by value from high
to low and then by outpoint, and sums their values in `Nat`, so that no set of
coins is too large to be searched.
-/

namespace HdWallet

/-- Change below this value is not worth an output of its own. -/
def standardDust : Amount := 546

def standardNodeBudget : UInt64 := 100000

inductive Strategy where
  /-- The largest coins, with a margin of twice the fee. -/
  | largestFirst
  /-- The smallest coins, which merges many into few. -/
  | smallestFirst
  /-- A bounded search for the set with the least excess. -/
  | branchAndBound
  /-- Every coin. -/
  | sweepAll
deriving DecidableEq, Inhabited

namespace Strategy

def text : Strategy → String
  | largestFirst => "largest-first"
  | smallestFirst => "smallest-first"
  | branchAndBound => "branch-and-bound"
  | sweepAll => "sweep-all"

end Strategy

/-- What chosen coins have to pay for. -/
structure Payment where
  target : Amount
  outputs : Nat
  rate : FeeRate
deriving DecidableEq

namespace Payment

def required (payment : Payment) (inputs : Nat) : Nat :=
  payment.target.toNat + payment.rate.feeFor inputs payment.outputs

end Payment

structure Selection where
  /-- The chosen coins, highest value first. -/
  coins : List Coin
  total : Amount
  target : Amount
  /-- The value of the change output, zero if there is none. -/
  change : Amount
  /-- Estimated bytes of the transaction. -/
  size : Nat
  /-- The fee paid, with any dust that was folded into it. -/
  fee : Amount
  /-- What is left over target and fee when there is no change output. -/
  excess : Amount
  /-- The strategy that made the plan, which need not be the one asked for. -/
  strategy : Strategy
deriving DecidableEq

namespace Selection

def hasChange (s : Selection) : Bool := s.change > 0

end Selection

inductive SelectionFailure where
  /-- The candidates do not cover target and fee. -/
  | insufficient (available required : Amount)
  /-- The chosen coins are worth more than the largest amount. -/
  | overflow
deriving DecidableEq

namespace SelectionFailure

def message : SelectionFailure → String
  | insufficient available required =>
    "Insufficient funds: available " ++ toString available.toNat ++ ", required "
      ++ toString required.toNat
  | overflow => "Selected value exceeds the largest amount"

end SelectionFailure

namespace Coin

/-- Whether `a` comes no later than `b` in the ranking: by value from high to
low, and by outpoint among equals. -/
def ranksBefore (a b : Coin) : Bool :=
  b.value < a.value || (a.value == b.value && (compare a.outpoint b.outpoint).isLE)

/-- Put a coin before the first one that it does not rank after. -/
def insertRanked (coin : Coin) : List Coin → List Coin
  | [] => [coin]
  | other :: rest =>
    if coin.ranksBefore other then coin :: other :: rest else other :: insertRanked coin rest

/-- The coins in ranking order. Coins that rank the same keep their order. -/
def ranked (coins : List Coin) : List Coin := coins.foldr insertRanked []

theorem perm_insertRanked (coin : Coin) (coins : List Coin) :
    (insertRanked coin coins).Perm (coin :: coins) := by
  induction coins with
  | nil => exact List.Perm.refl _
  | cons other rest ih =>
    rw [insertRanked]
    split
    · exact List.Perm.refl _
    · exact (ih.cons other).trans (List.Perm.swap coin other rest)

theorem perm_ranked (coins : List Coin) : (ranked coins).Perm coins := by
  induction coins with
  | nil => exact List.Perm.refl _
  | cons coin rest ih => exact (perm_insertRanked coin (ranked rest)).trans (ih.cons coin)

end Coin

end HdWallet
