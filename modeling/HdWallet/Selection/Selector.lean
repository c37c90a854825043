import HdWallet.Selection.Greedy
import HdWallet.Selection.Search

/-!
# Choosing coins for a payment

A selector ranks the candidates, lets its strategy pick some of them and turns
the pick into a plan. A change output is planned if it would be worth at least
the dust threshold; otherwise everything over the target goes to the fee. Branch
and bound falls back to the largest coins when its node budget does not suffice,
and the plan then says so.
-/

namespace HdWallet

/-- How coins are chosen: a strategy, the least change worth an output, and the
nodes that branch and bound may visit. -/
structure Selector where
  strategy : Strategy
  dust : Amount := standardDust
  nodeBudget : Nat := standardNodeBudget.toNat
deriving DecidableEq

namespace Selector

def plan (dust : Amount) (payment : Payment) (strategy : Strategy) (coins : List Coin) :
    Except SelectionFailure Selection :=
  let total := Coin.total coins
  if Amount.largest < total then .error .overflow
  else
    let target := payment.target.toNat
    let inputs := coins.length
    let withoutChange := payment.rate.feeFor inputs payment.outputs
    let withChange := payment.rate.feeFor inputs (payment.outputs + 1)
    let bound := (Amount.saturate (target + withChange)).toNat
    let plan : Selection := {
      coins
      total := .saturate total
      target := payment.target
      change := 0
      size := transactionSize inputs payment.outputs
      fee := .saturate (total - target)
      excess := .saturate (total - (target + withoutChange))
      strategy }
    if bound ≤ total ∧ dust.toNat ≤ total - bound then
      .ok { plan with
        change := .saturate (total - bound)
        size := transactionSize inputs (payment.outputs + 1)
        fee := .saturate withChange }
    else .ok plan

/-- The coins that the strategy picks from the ranked candidates, and the
strategy that picked them. -/
def pick? (selector : Selector) (payment : Payment) (ranked : List Coin) :
    Option (List Coin × Strategy) :=
  let strategy := selector.strategy
  match strategy with
  | .largestFirst => (Greedy.largestFirst payment ranked).map (·, strategy)
  | .smallestFirst => (Greedy.smallestFirst payment ranked).map (·, strategy)
  | .sweepAll => (Greedy.sweepAll payment ranked).map (·, strategy)
  | .branchAndBound =>
    match Search.run payment (ranked.map (·.value.toNat)) selector.nodeBudget with
    | .found positions => some (positions.filterMap (ranked[·]?), strategy)
    | .exhausted => none
    | .exceeded => (Greedy.largestFirst payment ranked).map (·, .largestFirst)

def choose (selector : Selector) (candidates : List Coin) (payment : Payment) :
    Except SelectionFailure Selection :=
  let ranked := Coin.ranked candidates
  match selector.pick? payment ranked with
  | some (coins, strategy) => plan selector.dust payment strategy coins
  | none => .error (.insufficient (.saturate (Coin.total ranked))
      (.saturate (payment.required (max ranked.length 1))))

/-- The most that a sweep of all coins can send. -/
def maxSendable (coins : List Coin) (outputs : Nat) (rate : FeeRate) : Amount :=
  if coins.isEmpty then 0
  else .saturate (Coin.total coins - rate.feeFor coins.length outputs)

end Selector

end HdWallet
