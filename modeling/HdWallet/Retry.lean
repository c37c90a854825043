import HdWallet.Failure

/-!
# Queries to try again

Queries that failed for a passing reason wait in a queue and are tried again in
passes: a pass takes all requests of one kind, tries each once, and puts back
those that may still succeed. A request counts its failed attempts, the first
one included, and is given up when they reach the limit.
-/

namespace HdWallet

inductive RetryKind where
  | balance
  | unspent
deriving DecidableEq, Inhabited

def RetryKind.text : RetryKind → String
  | balance => "balance"
  | unspent => "unspent"

structure RetryRequest where
  address : Address
  kind : RetryKind
  /-- When the query failed first. -/
  queuedAt : Timestamp
  /-- Failed attempts so far, the first one included. -/
  attempts : Nat
  lastFailure : SourceFailure
deriving DecidableEq, Inhabited

def RetryRequest.asks (r : RetryRequest) (address : Address) (kind : RetryKind) : Bool :=
  r.kind == kind && r.address == address

/-- Requests in the order in which they were queued. -/
structure RetryQueue where
  pending : List RetryRequest := []
  maxAttempts : Nat
deriving DecidableEq

namespace RetryQueue

/-- An empty queue. At least one attempt is allowed. -/
def ofLimit (attempts : Nat) : RetryQueue := { maxAttempts := max attempts 1 }

def contains (q : RetryQueue) (address : Address) (kind : RetryKind) : Bool :=
  q.pending.any (·.asks address kind)

/-- Note the failure of the first request that asks a kind of query about an address. -/
def noteFailure (address : Address) (kind : RetryKind) (failure : SourceFailure) :
    List RetryRequest → List RetryRequest
  | [] => []
  | r :: rest =>
    if r.asks address kind then { r with lastFailure := failure } :: rest
    else r :: noteFailure address kind failure rest

/-- Queue a query that failed for the first time. One that waits already only
gets the new failure; the answer says whether it was new. -/
def enqueue (q : RetryQueue) (address : Address) (kind : RetryKind) (failure : SourceFailure)
    (now : Timestamp) : RetryQueue × Bool :=
  if q.contains address kind then
    ({ q with pending := noteFailure address kind failure q.pending }, false)
  else
    let request := { address, kind, queuedAt := now, attempts := 1, lastFailure := failure }
    ({ q with pending := q.pending ++ [request] }, true)

def take (q : RetryQueue) (kind : RetryKind) : RetryQueue × List RetryRequest :=
  let (taken, pending) := q.pending.partition (·.kind == kind)
  ({ q with pending }, taken)

/-- Forget a query that has succeeded since. The answer says whether it waited. -/
def resolve (q : RetryQueue) (address : Address) (kind : RetryKind) : RetryQueue × Bool :=
  ({ q with pending := q.pending.filter (!·.asks address kind) }, q.contains address kind)

/-- Put back a request that was taken and not tried, unless the same waits again. -/
def restore (q : RetryQueue) (request : RetryRequest) : RetryQueue :=
  if q.contains request.address request.kind then q
  else { q with pending := q.pending ++ [request] }

/-- Put back a request that was tried and failed again. It is given up, and the
answer reports it, if the attempts have reached the limit or the failure will not
pass. -/
def requeue (q : RetryQueue) (request : RetryRequest) (failure : SourceFailure) :
    RetryQueue × Option AddressFailure :=
  let attempts := request.attempts + 1
  if q.maxAttempts ≤ attempts || !failure.isTransient then (q, some ⟨request.address, failure⟩)
  else
    ({ q with pending := q.pending ++ [{ request with attempts, lastFailure := failure }] }, none)

/-- The requests by the names of their kinds and then by address. Requests that agree in
both stand as they were queued. -/
def sorted (q : RetryQueue) : List RetryRequest :=
  q.pending.mergeSort fun r s =>
    ((compare r.kind.text s.kind.text).then (compare r.address s.address)).isLE

end RetryQueue

end HdWallet
