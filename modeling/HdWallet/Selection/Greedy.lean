import HdWallet.Selection.Basic

/-!
# Greedy selection

A greedy strategy takes coins one by one from an end of the ranking and stops
as soon as what it holds is enough. Both strategies are instances of one scan,
`takeUntil?`, which finds how many coins that is.
-/

namespace HdWallet.Greedy

/-- The least number of coins, counting the `count` coins worth `total` already
taken, at which `enough count total` first holds. -/
def takeUntil? (enough : Nat → Nat → Bool) : Nat → Nat → List Coin → Option Nat
  | _, _, [] => none
  | count, total, coin :: rest =>
    let total := total + coin.value.toNat
    if enough (count + 1) total then some (count + 1)
    else takeUntil? enough (count + 1) total rest

/-- The shortest run of largest coins that covers the target and twice the fee,
so that the fee can be computed anew once a change output is added. -/
def largestFirst (payment : Payment) (ranked : List Coin) : Option (List Coin) :=
  let enough count total :=
    payment.target.toNat + 2 * payment.rate.feeFor count payment.outputs ≤ total
  (takeUntil? (fun count total => decide (enough count total)) 0 0 ranked).map ranked.take

/-- The shortest run of smallest coins that covers the target and the fee of a
transaction with a change output. -/
def smallestFirst (payment : Payment) (ranked : List Coin) : Option (List Coin) :=
  let enough count total :=
    payment.target.toNat + payment.rate.feeFor count (payment.outputs + 1) ≤ total
  (takeUntil? (fun count total => decide (enough count total)) 0 0 ranked.reverse).map
    fun count => ranked.drop (ranked.length - count)

/-- Every coin, if there is one and all together cover the target and the fee. -/
def sweepAll (payment : Payment) (ranked : List Coin) : Option (List Coin) :=
  if ranked.isEmpty || Coin.total ranked < payment.required ranked.length then none
  else some ranked

end HdWallet.Greedy
