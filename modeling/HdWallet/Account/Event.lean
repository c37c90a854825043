import HdWallet.Account.Basic

/-!
# Changes reported by others

A notification says that an address may have changed. What it says about the
change is never trusted: the balance stops counting at once, and balance and
unspent outputs are asked for anew. Notifications of other people's addresses are
ignored.
-/

namespace HdWallet.Account

/-- Begin to handle a notification. The answer is the ticket of the queries, unless
the address is not the account's. -/
def startEvent (address : Address) : Step Account (Option Nat) := do
  let (a, known) := (← get).invalidateAddress address
  if known then
    set a
    some <$> issueTicket
  else pure none

/-- Take in the answer to the balance query of a notification. The answer holds the
failure, if it failed. -/
def noteEventBalance (address : Address) (ticket : Nat) (reply : Reply Amount) (now : Timestamp)
    (a : Account) : Account × List AddressFailure :=
  match reply with
  | .ok balance => ((a.recordBalance address balance ticket now).1, [])
  | .error failure => (a.noteFailure .balance ⟨address, failure⟩ now, [⟨address, failure⟩])

/-- Take in the answers to both queries of a notification. -/
def closeEvent (address : Address) (ticket : Nat) (balance : Reply Amount)
    (unspent : Reply (List Coin)) (now : Timestamp) : Step Account Unit := do
  let (a, failures) := noteEventBalance address ticket balance now (← get)
  set a
  match unspent with
  | .ok coins =>
    discard (onHoldings (Holdings.resync address coins))
    Step.ofExcept (Failure.ofBatch failures)
  | .error failure =>
    modify (·.noteFailure .unspent ⟨address, failure⟩ now)
    Step.ofExcept (Failure.ofBatch (failures ++ [⟨address, failure⟩]))

end HdWallet.Account
