import HdWallet.Account.Basic

/-!
# A scripted balance source

The source answers what it was told to answer, after a delay in milliseconds of a
virtual timer. Answer, failure and delay are read when a query starts, so a query
under way is not changed by what is told later. The source counts its calls and how
many queries were under way at a time. A query that is given up before its answer
never leaves that count.
-/

namespace HdWallet.Scripted

structure Source where
  balances : Std.ExtTreeMap Address Amount := ∅
  unspent : Std.ExtTreeMap Address (List Coin) := ∅
  histories : Std.ExtTreeMap Address (List HistoryItem) := ∅
  failures : Std.ExtTreeMap Address SourceFailure := ∅
  /-- Milliseconds until an answer; it is there at once without any. -/
  delay : Nat := 0
  balanceCalls : Nat := 0
  unspentCalls : Nat := 0
  /-- The queries under way. -/
  running : Nat := 0
  /-- The most queries that were under way at a time. -/
  maxRunning : Nat := 0

namespace Source

/-- The answer to a query whose value was told. -/
def reply {α : Type} (s : Source) (address : Address) (value : α) : Reply α :=
  match s.failures[address]? with
  | some failure => .error failure
  | none => .ok value

def askBalance (address : Address) (s : Source) : Source × Reply Amount :=
  ({ s with balanceCalls := s.balanceCalls + 1 }, s.reply address (s.balances.getD address 0))

def askUnspent (address : Address) (s : Source) : Source × Reply (List Coin) :=
  ({ s with unspentCalls := s.unspentCalls + 1 }, s.reply address (s.unspent.getD address []))

def askHistory (address : Address) (s : Source) : Source × Reply (List HistoryItem) :=
  (s, s.reply address (s.histories.getD address []))

def enter (s : Source) : Source :=
  { s with running := s.running + 1, maxRunning := max s.maxRunning (s.running + 1) }

def leave (s : Source) : Source := { s with running := s.running - 1 }

end Source

/-- The most milliseconds that a virtual timer is set to, thirty years of 365 days. A
longer span is cut to them. -/
def longestTimer : Nat := 30 * 365 * 86400 * 1000

def timerEnd (now delay : Nat) : Nat := now + min delay longestTimer

structure Query (α : Type) where
  address : Address
  reply : Reply α
  /-- When the reply is there. -/
  endsAt : Nat
  /-- Whether the source answers; otherwise the query times out. -/
  answered : Bool

/-- How a source is asked for one kind of thing. -/
abbrev Ask (α : Type) := Address → Source → Source × Reply α

namespace Query

variable {α : Type}

/-- Start a query at the time `now`. It times out if the timer of the delay runs longer
than that of the timeout. -/
def start (ask : Ask α) (address : Address) (timeout now : Nat) (s : Source) : Source × Query α :=
  let answersAt := timerEnd now s.delay
  let givesUpAt := timerEnd now timeout
  let (s, reply) := ask address s
  if answersAt ≤ givesUpAt then (s.enter, ⟨address, reply, answersAt, true⟩)
  else (s.enter, ⟨address, .error .timeout, givesUpAt, false⟩)

def isOver (q : Query α) (now : Nat) : Bool := q.endsAt ≤ now

def finish (q : Query α) (s : Source) : Source := if q.answered then s.leave else s

end Query

/-- Queries of one kind about several addresses, so many at a time. -/
structure Batch (α : Type) where
  waiting : List Address
  running : List (Query α) := []
  /-- Replies that were not taken in yet. -/
  arrived : List (Address × Reply α) := []
  limit : Nat
  timeout : Nat
  /-- How many queries it starts, when it goes on, before it takes in replies. One that is
  not begun has no bound: it starts all that it may, and takes in nothing. -/
  share : Option Nat := none

namespace Batch

variable {α : Type}

/-- Milliseconds until a query times out. -/
def timeoutOf (config : Config) : Nat := 1000 * config.queryTimeout.toNat

/-- Queries about some addresses within the bounds that the settings give. -/
def ofAddresses (config : Config) (addresses : List Address) : Batch α where
  waiting := addresses
  limit := max config.concurrentQueries.toNat 1
  timeout := timeoutOf config

/-- Take the queries that are over off those under way. -/
def collect (b : Batch α) (now : Nat) (s : Source) : Batch α × Source :=
  let (ended, running) := b.running.partition (·.isOver now)
  ({ b with running, arrived := b.arrived ++ ended.map fun q => (q.address, q.reply) },
    ended.foldl (fun s q => q.finish s) s)

/-- Start queries about some addresses, at most so many and as far as the bound on their
number allows. A query that is over at once makes room for the next; its reply is put
before those that came earlier. -/
def launchAmong (ask : Ask α) (now : Nat) :
    (most : Nat) → List Address → List (Address × Reply α) → Batch α → Source →
      List (Address × Reply α) × Batch α × Source
  | most + 1, address :: rest, replies, b, s =>
    if b.running.length < b.limit then
      let (s, q) := Query.start ask address b.timeout now s
      if q.isOver now then
        launchAmong ask now most rest ((address, q.reply) :: replies) b (q.finish s)
      else launchAmong ask now most rest replies { b with running := b.running ++ [q] } s
    else (replies, { b with waiting := address :: rest }, s)
  | _, waiting, replies, b, s => (replies, { b with waiting }, s)

/-- Start queries. In front a batch starts all that it may, otherwise only as many as its
share allows. -/
def launch (ask : Ask α) (b : Batch α) (inFront : Bool) (now : Nat) (s : Source) :
    Batch α × Source :=
  let all := b.waiting.length
  let most := if inFront then all else b.share.getD all
  let (replies, b, s) := launchAmong ask now most b.waiting [] b s
  ({ b with arrived := b.arrived ++ replies.reverse }, s)

/-- Let queries end and start at the time `now`. -/
def pump (ask : Ask α) (b : Batch α) (inFront : Bool) (now : Nat) (s : Source) :
    Batch α × Source :=
  let (b, s) := b.collect now s
  b.launch ask inFront now s

def mayStart (b : Batch α) : Bool := !b.waiting.isEmpty && b.running.length < b.limit

def begun (b : Batch α) : Batch α := { b with share := some 1 }

/-- The batch whose replies were taken in. If it goes on at once, it starts what there is
room for, and one more when the first of those is over at once. If it waits, it starts one
query on hearing of a reply before it takes that in. -/
def taken (b : Batch α) : Batch α :=
  let share := if b.mayStart then b.limit - b.running.length + 1 else 1
  { b with arrived := [], share := some share }

def isDone (b : Batch α) : Bool := b.waiting.isEmpty && b.running.isEmpty && b.arrived.isEmpty

def isReady (b : Batch α) : Bool := b.mayStart || !b.arrived.isEmpty

def nextEnd? (b : Batch α) : Option Nat := (b.running.map (·.endsAt)).min?

end Batch

end HdWallet.Scripted
