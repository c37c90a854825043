import HdWallet.Account.Basic

/-!
# Refreshing balances

A refresh asks for the balances that do not count any more. The addresses are
looked at in one step, which also issues the ticket. Answers then arrive in any
order, each kept or discarded on its own, so that one failing address never holds
back the others. The failures are reported together at the end, and those that may
pass are queued to be tried again.
-/

namespace HdWallet

/-- How a refresh went. -/
structure RefreshReport where
  /-- Balances fetched and kept. -/
  refreshed : Nat := 0
  /-- Addresses whose balance still counted. -/
  skippedFresh : Nat := 0
  /-- Balances fetched that no longer counted. -/
  discarded : Nat := 0
deriving DecidableEq, Inhabited

/-- A refresh that waits for answers. -/
structure Refresh where
  ticket : Nat
  report : RefreshReport
  failures : List AddressFailure := []
deriving DecidableEq

namespace Refresh

/-- Of some addresses, those whose balance does not count, and how many others
there are. All must be the account's. -/
def staleAmong (a : Account) (now : Timestamp) :
    List Address → Except Failure (List Address × Nat)
  | [] => .ok ([], 0)
  | address :: rest => do
    match a.keychain.find? address with
    | none => throw (.unknownAddress address)
    | some slot =>
      let (stale, fresh) ← staleAmong a now rest
      pure (if slot.cache.isValid now then (stale, fresh + 1) else (address :: stale, fresh))

/-- Begin a refresh of some addresses. The answer holds those to ask about; if there
are none, no ticket is issued. -/
def start (addresses : List Address) (now : Timestamp) : Step Account (Refresh × List Address) := do
  let a ← get
  let (stale, fresh) ← Step.ofExcept (staleAmong a now addresses)
  let ticket ← if stale.isEmpty then pure a.tickets else Account.issueTicket
  pure ({ ticket, report := { skippedFresh := fresh } }, stale)

def absorb (r : Refresh) (address : Address) (reply : Reply Amount) (now : Timestamp)
    (a : Account) : Account × Refresh :=
  match reply with
  | .ok balance =>
    let (a, kept) := a.recordBalance address balance r.ticket now
    if kept then
      ({ a with retries := (a.retries.resolve address .balance).1 },
        { r with report := { r.report with refreshed := r.report.refreshed + 1 } })
    else (a, { r with report := { r.report with discarded := r.report.discarded + 1 } })
  | .error failure =>
    let f : AddressFailure := ⟨address, failure⟩
    (a.noteFailure .balance f now, { r with failures := r.failures ++ [f] })

def close (r : Refresh) : Except Failure RefreshReport := do
  Failure.ofBatch r.failures
  pure r.report

end Refresh

end HdWallet
