import HdWallet.Branch
import HdWallet.Selection.Basic

/-!
# Why an operation fails

A failure is a cause. Its wording is a function of the cause, and so is the
family that it belongs to. A step that fails keeps what it did to its state
before it failed: `Step` carries the state through both outcomes, so that every
theorem about a failing operation can say what it left behind.
-/

namespace HdWallet

/-- Why a balance source did not answer a query. -/
inductive SourceFailure where
  | transport (reason : String)
  | timeout
  /-- The source knows the data, but they are not confirmed yet. -/
  | unconfirmed
  | rejected (reason : String)
deriving DecidableEq, Inhabited

namespace SourceFailure

def message : SourceFailure → String
  | transport reason => "Transport error: " ++ reason
  | timeout => "Request timed out"
  | unconfirmed => "Not yet confirmed"
  | rejected reason => "Rejected by source: " ++ reason

/-- Whether the same query may succeed later. -/
def isTransient : SourceFailure → Bool
  | transport _ | timeout => true
  | unconfirmed | rejected _ => false

end SourceFailure

/-- A query about one address that failed. -/
structure AddressFailure where
  address : Address
  failure : SourceFailure
deriving DecidableEq, Inhabited

def AddressFailure.message (f : AddressFailure) : String :=
  f.address.text ++ " (" ++ f.failure.message ++ ")"

/-- Why an operation of the wallet fails. -/
inductive Failure where
  | unknownAddress (address : Address)
  | noSlot (path : String)
  | unknownReservation (id : Nat)
  | insufficientFunds (available required shortfall : Amount)
  | amountOverflow
  | branchExhausted (branch : Branch)
  /-- An address occurs a second time among the account's addresses. -/
  | duplicateAddress (address : Address)
  | inconsistent (detail : String)
  | invalidChildNumber (number : Nat)
  | derivation (detail : String)
  | watchOnly
  | source (failure : SourceFailure)
  | queriesFailed (failures : List AddressFailure)
  | serialization (detail : String)
  | unsupportedVersion (version : Nat)
  | indexOutOfRange (branch : Branch) (index limit : Nat)
  | persistence (detail : String)
  | cancelled
  | invalidParameter (detail : String)
deriving DecidableEq, Inhabited

namespace Failure

def message : Failure → String
  | unknownAddress address => "Address not found: " ++ address.text
  | noSlot path => "No entry at derivation path " ++ path
  | unknownReservation id => "Reservation not found: res-" ++ toString id
  | insufficientFunds available required shortfall =>
    "Insufficient funds: available " ++ toString available.toNat ++ ", required "
      ++ toString required.toNat ++ " (short by " ++ toString shortfall.toNat ++ ")"
  | amountOverflow => "Selected value exceeds the largest representable amount"
  | branchExhausted branch => "Address pool exhausted for " ++ branch.text ++ " addresses"
  | duplicateAddress address =>
    "Address " ++ address.text ++ " is present in more than one usage bucket"
  | inconsistent detail => "Inconsistent state: " ++ detail
  | invalidChildNumber number => "Invalid child number: " ++ toString number
  | derivation detail => "Derivation error: " ++ detail
  | watchOnly => "Key source has no spending authority"
  | source failure => "Balance source error: " ++ failure.message
  | queriesFailed failures =>
    "Balance refresh failed for " ++ toString failures.length ++ " address(es): "
      ++ String.intercalate ", " (failures.map AddressFailure.message)
  | serialization detail => "Serialization error: " ++ detail
  | unsupportedVersion version => "Unsupported snapshot version " ++ toString version
  | indexOutOfRange branch index limit =>
    "Snapshot references " ++ branch.text ++ " index " ++ toString index
      ++ ", above the limit of " ++ toString limit
  | persistence detail => "Persistence error: " ++ detail
  | cancelled => "Operation cancelled"
  | invalidParameter detail => "Invalid parameter: " ++ detail

inductive Family where
  | lookup
  | capacity
  | consistency
  | network
  | derivation
  | persistence
  | cancelled
  | parameter
deriving DecidableEq

def Family.text : Family → String
  | lookup => "lookup"
  | capacity => "capacity"
  | consistency => "consistency"
  | network => "network"
  | derivation => "derivation"
  | persistence => "persistence"
  | cancelled => "cancelled"
  | parameter => "parameter"

def family : Failure → Family
  | unknownAddress _ | noSlot _ | unknownReservation _ => .lookup
  | insufficientFunds .. | amountOverflow | branchExhausted _ => .capacity
  | duplicateAddress _ | inconsistent _ => .consistency
  | source _ | queriesFailed _ => .network
  | invalidChildNumber _ | derivation _ | watchOnly => .derivation
  | serialization _ | unsupportedVersion _ | indexOutOfRange .. | persistence _ => .persistence
  | cancelled => .cancelled
  | invalidParameter _ => .parameter

/-- Whether the failure shows a defect of the wallet itself and not a condition
that it met. -/
def isDefect (f : Failure) : Bool := f.family == .consistency

/-- The failure of an operation whose coin selection failed. -/
def ofSelection : SelectionFailure → Failure
  | .insufficient available required =>
    insufficientFunds available required (.saturate (required.toNat - available.toNat))
  | .overflow => amountOverflow

/-- The outcome of a batch of queries: it succeeds if none failed. -/
def ofBatch (failures : List AddressFailure) : Except Failure Unit :=
  if failures.isEmpty then .ok () else .error (queriesFailed failures)

end Failure

/-- A step on a state that may fail. The state reached is kept either way. -/
abbrev Step (σ α : Type) := EStateM Failure σ α

namespace Step

/-- A step on a part of the state. -/
def onPart {σ τ α : Type} (part : σ → τ) (put : τ → σ → σ) (step : Step τ α) : Step σ α := fun s =>
  match step (part s) with
  | .ok a t => .ok a (put t s)
  | .error e t => .error e (put t s)

/-- An answer that does not depend on any state, as a step that changes none. -/
def ofExcept {σ α : Type} (answer : Except Failure α) : Step σ α := fun s =>
  match answer with
  | .ok a => .ok a s
  | .error e => .error e s

/-- The state that a step leaves behind, whether it fails or not. -/
def stateAfter {σ α : Type} (step : Step σ α) (s : σ) : σ :=
  match step s with
  | .ok _ s => s
  | .error _ s => s

def answer {σ α : Type} (step : Step σ α) (s : σ) : Except Failure α :=
  match step s with
  | .ok a _ => .ok a
  | .error e _ => .error e

end Step

end HdWallet
