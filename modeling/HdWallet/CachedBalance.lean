import HdWallet.Amount

/-!
# Cached balances

What is known about the balance of an address, and for how long it counts.
Validity is decided when the balance is read, from the time of the last fetch
and the lifetime in force at that moment. A change of the lifetime therefore
touches no balance.
-/

namespace HdWallet

/-- What is known about the balance of an address. -/
inductive Reading where
  /-- The balance was never fetched. -/
  | unknown
  /-- The balance was fetched, and counts while it is young enough. -/
  | fresh (balance : Amount) (updatedAt : Timestamp)
  /-- The balance was invalidated. It is kept to be shown, and never counts. -/
  | stale (balance : Amount) (updatedAt : Timestamp)
deriving DecidableEq, Inhabited

namespace Reading

/-- The last balance fetched, valid or not. -/
def lastBalance : Reading → Option Amount
  | unknown => none
  | fresh balance _ | stale balance _ => some balance

def lastUpdated : Reading → Option Timestamp
  | unknown => none
  | fresh _ updatedAt | stale _ updatedAt => some updatedAt

end Reading

/-- A reading and the seconds for which a fetched balance stays valid. -/
structure CachedBalance where
  reading : Reading
  lifetime : UInt64
deriving DecidableEq, Inhabited

namespace CachedBalance

def unfilled (lifetime : UInt64) : CachedBalance := ⟨.unknown, lifetime⟩

/-- Whether the balance counts at the time `now`. -/
def isValid (c : CachedBalance) (now : Timestamp) : Bool :=
  match c.reading with
  | .fresh _ updatedAt => Timestamp.elapsed updatedAt now < c.lifetime.toNat
  | .unknown | .stale .. => false

def balance? (c : CachedBalance) (now : Timestamp) : Option Amount :=
  if c.isValid now then c.reading.lastBalance else none

def record (c : CachedBalance) (balance : Amount) (now : Timestamp) : CachedBalance :=
  { c with reading := .fresh balance now }

def invalidate (c : CachedBalance) : CachedBalance :=
  match c.reading with
  | .fresh balance updatedAt => { c with reading := .stale balance updatedAt }
  | .unknown | .stale .. => c

end CachedBalance

end HdWallet
