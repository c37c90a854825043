import HdWallet.Account.Basic

/-!
# Trying queued queries again

A pass takes all requests out of the queue and tries them once, first those for
balances and then those for unspent outputs. A request that fails again goes back
to the queue or is given up. If the pass is cancelled, requests that were not
answered go back as they were; if taking in an answer fails, they do not, and neither
does a request whose query breaks down without an answer.
-/

namespace HdWallet

/-- How a pass went. -/
structure RetryReport where
  succeeded : Nat := 0
  requeued : Nat := 0
  /-- Requests given up. -/
  dropped : List AddressFailure := []
deriving DecidableEq, Inhabited

/-- A pass that waits for answers. -/
structure Drain where
  ticket : Nat
  /-- The requests of the present kind that were not answered yet. Of several about
  one address the last counts. -/
  waiting : Std.ExtTreeMap Address RetryRequest
  /-- The requests for unspent outputs, while those for balances are tried. -/
  later : List RetryRequest
  report : RetryReport := {}

namespace Drain

def byAddress (requests : List RetryRequest) : Std.ExtTreeMap Address RetryRequest :=
  .ofList (requests.map fun r => (r.address, r))

/-- Take all requests out of the queue. Without any there is nothing to do. -/
def start : Step Account (Option Drain) := do
  let (queue, balances) := (← get).retries.take .balance
  let (retries, unspent) := queue.take .unspent
  modify fun a => { a with retries }
  let ticket ← Account.issueTicket
  if balances.isEmpty && unspent.isEmpty then pure none
  else pure (some { ticket, waiting := byAddress balances, later := unspent })

/-- Turn from balances to unspent outputs. -/
def turn (d : Drain) : Drain := { d with waiting := byAddress d.later, later := [] }

def addresses (d : Drain) : List Address := d.waiting.keys

def succeed (d : Drain) : Drain :=
  { d with report := { d.report with succeeded := d.report.succeeded + 1 } }

/-- Put back a request that failed again, or give it up. -/
def requeue (d : Drain) (request : RetryRequest) (failure : SourceFailure) (a : Account) :
    Account × Drain :=
  match a.retries.requeue request failure with
  | (retries, some dropped) =>
    ({ a with retries }, { d with report := { d.report with
      dropped := d.report.dropped ++ [dropped] } })
  | (retries, none) =>
    ({ a with retries }, { d with report := { d.report with
      requeued := d.report.requeued + 1 } })

def absorbBalance (d : Drain) (address : Address) (reply : Reply Amount) (now : Timestamp)
    (a : Account) : Account × Drain :=
  match d.waiting[address]? with
  | none => (a, d)
  | some request =>
    let d := { d with waiting := d.waiting.erase address }
    match reply with
    | .ok balance => ((a.recordBalance address balance d.ticket now).1, d.succeed)
    | .error failure => d.requeue request failure a

/-- Take in the answer to a query for unspent outputs. -/
def absorbUnspent (d : Drain) (address : Address) (reply : Reply (List Coin)) :
    Step Account Drain := do
  match d.waiting[address]? with
  | none => pure d
  | some request =>
    let d := { d with waiting := d.waiting.erase address }
    match reply with
    | .ok coins =>
      discard (Account.onHoldings (Holdings.resync address coins))
      pure d.succeed
    | .error failure =>
      let (a, d) := d.requeue request failure (← get)
      set a
      pure d

/-- Put back the requests that were not answered. -/
def abandon (d : Drain) (a : Account) : Account :=
  { a with retries := (d.waiting.values ++ d.later).foldl RetryQueue.restore a.retries }

end Drain

end HdWallet
