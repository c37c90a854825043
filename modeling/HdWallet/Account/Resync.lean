import HdWallet.Account.Basic

/-!
# Replacing the ledger

A full resync asks for the unspent outputs of every address and then replaces the
ledger in one step. If any query failed, nothing is replaced; the failures that may
pass are queued to be tried again.
-/

namespace HdWallet

/-- A full resync that waits for answers. -/
structure Resync where
  reports : List (Address × List Coin) := []
  failures : List AddressFailure := []
deriving DecidableEq

namespace Resync

/-- Take in answers. The account does not change yet. -/
def absorb (r : Resync) (replies : List (Address × Reply (List Coin))) : Resync where
  reports := r.reports ++ replies.filterMap fun (address, reply) =>
    match reply with
    | .ok coins => some (address, coins)
    | .error _ => none
  failures := r.failures ++ replies.filterMap fun (address, reply) =>
    match reply with
    | .ok _ => none
    | .error failure => some ⟨address, failure⟩

/-- Replace the ledger after the last answer, unless a query failed. The answer is
the new number of coins. -/
def close (r : Resync) (now : Timestamp) : Step Account Nat := do
  if r.failures.isEmpty then Account.onHoldings (Holdings.replaceAll r.reports)
  else
    modify fun a => r.failures.foldl (·.noteFailure .unspent · now) a
    throw (.queriesFailed r.failures)

end Resync

end HdWallet
