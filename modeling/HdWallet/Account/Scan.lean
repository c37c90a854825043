import Std.Data.ExtTreeSet
import HdWallet.Account.Basic

/-!
# Finding used addresses

A scan asks for the history of every unused address and marks those with a history
used. Marking grows the chains, so the scan goes on in rounds over the addresses
not asked about yet, until none is left. The history of a single address can be
asked for as well, and marks it used in the same way.
-/

namespace HdWallet

/-- A scan between two rounds, or waiting for the answers of one. -/
structure Scan where
  asked : Std.ExtTreeSet Address := ∅
  /-- The number of addresses that the scan has marked used. -/
  found : Nat := 0
  failures : List AddressFailure := []

namespace Scan

/-- The unused addresses that were not asked about yet. -/
def pending (s : Scan) (a : Account) : List Address :=
  (a.keychain.slots.filter fun slot => !slot.used && !s.asked.contains slot.address).map
    (·.address)

/-- Begin a round. The answer holds the addresses to ask about; the scan is done if
there are none. -/
def startRound (s : Scan) (a : Account) : Scan × List Address :=
  let addresses := s.pending a
  ({ s with asked := s.asked.insertMany addresses }, addresses)

def absorb (s : Scan) (address : Address) : Reply (List HistoryItem) → Step Account Scan
  | .error failure => pure { s with failures := s.failures ++ [⟨address, failure⟩] }
  | .ok [] => pure s
  | .ok (_ :: _) => do
    if ((← get).keychain.find? address).isNone then pure s
    else if ← Account.markUsed address then pure { s with found := s.found + 1 }
    else pure s

/-- End a round. A failed query ends the scan. -/
def closeRound (s : Scan) : Except Failure Unit := Failure.ofBatch s.failures

end Scan

namespace Account

def checkAddress (a : Account) (address : Address) : Except Failure Unit :=
  if (a.keychain.find? address).isNone then .error (.unknownAddress address) else .ok ()

def noteHistory (address : Address) : Reply (List HistoryItem) → Step Account (List HistoryItem)
  | .error failure => throw (.source failure)
  | .ok items => do
    if !items.isEmpty then discard (markUsed address)
    pure items

end Account

end HdWallet
