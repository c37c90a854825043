import HdWallet.Account.Drain
import HdWallet.Account.Event
import HdWallet.Account.Refresh
import HdWallet.Account.Resync
import HdWallet.Account.Scan
import HdWallet.Scripted.Source

/-!
# Operations that wait for a source

An operation that asks a source is begun in one step and then goes on whenever a
reply is there. In between it is an activity, a value that holds what it has done
and the queries it waits for. Polling an activity lets its queries end and start,
takes in the replies that have arrived and goes as far as it can without more of
them. A cancelled activity ends at its next poll, before it takes in any reply.

An account can be replaced while operations on it are under way. They go on with the
account on which they were begun, beside those on the account that took its place.
-/

namespace HdWallet.Scripted

/-- An account, its clock, its source and the time of the virtual timer. -/
structure World where
  account : Account
  clock : Timestamp
  source : Source := {}
  time : Nat := 0
  /-- The accounts that were replaced, oldest first. -/
  earlier : List Account := []

namespace World

def step {α : Type} (w : World) (step : Step Account α) : World × Except Failure α :=
  match step w.account with
  | .ok a account => ({ w with account }, .ok a)
  | .error e account => ({ w with account }, .error e)

def replace (account : Account) (w : World) : World :=
  { w with account, earlier := w.earlier ++ [w.account] }

def generation (w : World) : Nat := w.earlier.length

/-- Act on the account of a generation: on one that was replaced, or on the present one. -/
def onGeneration {α : Type} (w : World) (generation : Nat) (act : World → World × α) : World × α :=
  match w.earlier[generation]? with
  | none => act w
  | some account =>
    let (acted, answer) := act { w with account }
    ({ acted with
        account := w.account
        earlier := w.earlier.set generation acted.account }, answer)

/-- The last generation is the present account. -/
theorem onGeneration_generation {α : Type} (w : World) (act : World → World × α) :
    w.onGeneration w.generation act = act w := by
  simp [onGeneration, generation]

/-- Acting on an account that was replaced leaves the present one alone. -/
theorem account_onGeneration {α : Type} (w : World) (act : World → World × α) {generation : Nat}
    (h : generation < w.generation) :
    (w.onGeneration generation act).1.account = w.account := by
  have h' : generation < w.earlier.length := h
  simp [onGeneration, List.getElem?_eq_getElem h']

end World

inductive Operation where
  | refresh (addresses : List Address)
  | refreshAll
  | resync
  | history (address : Address)
  | scan
  | drain
  | event (address : Address)
  /-- Handle notifications, which end at the last one if `closes` holds. -/
  | listen (addresses : List Address) (closes : Bool)
  /-- Let so many milliseconds pass. -/
  | wait (delay : Nat)

inductive Result where
  | refreshed (report : RefreshReport)
  | resynced (size : Nat)
  | history (items : List HistoryItem)
  | scanned (found : Nat)
  | drained (report : RetryReport)
  | handled
  | waited

structure Handling where
  address : Address
  ticket : Nat
  /-- The queries for balance and unspent outputs, once they are started. -/
  queries : Option (Query Amount × Query (List Coin)) := none

inductive Activity where
  | refresh (refresh : Refresh) (batch : Batch Amount)
  | resync (resync : Resync) (batch : Batch (List Coin))
  | history (address : Address) (query : Option (Query (List HistoryItem)))
  | scan (scan : Scan) (batch : Batch (List HistoryItem))
  | drainBalances (drain : Drain) (batch : Batch Amount)
  | drainUnspent (drain : Drain) (batch : Batch (List Coin))
  | event (handling : Handling)
  | listen (handling : Option Handling) (inbox : List Address) (closes : Bool)
  | wait (endsAt : Nat)

inductive Progress where
  /-- It waits for replies or for a notification. -/
  | waiting (activity : Activity)
  /-- It can go on at once. -/
  | ready (activity : Activity)
  | finished (result : Except Failure Result)

namespace Activity

def start (operation : Operation) (w : World) : World × Progress :=
  let config := w.account.config
  match operation with
  | .refresh addresses => refreshOf w addresses
  | .refreshAll => refreshOf w w.account.keychain.addresses
  | .resync => (w, .ready (resync {} (.ofAddresses config w.account.keychain.addresses)))
  | .history address =>
    match w.account.checkAddress address with
    | .error e => (w, .finished (.error e))
    | .ok () => (w, .ready (history address none))
  | .scan => (w, startScan w {})
  | .drain =>
    match w.step Drain.start with
    | (w, .error e) => (w, .finished (.error e))
    | (w, .ok none) => (w, .finished (.ok (.drained {})))
    | (w, .ok (some d)) => (w, .ready (drainBalances d (.ofAddresses config d.addresses)))
  | .event address =>
    match w.step (Account.startEvent address) with
    | (w, .error e) => (w, .finished (.error e))
    | (w, .ok none) => (w, .finished (.ok .handled))
    | (w, .ok (some ticket)) => (w, .ready (event { address, ticket }))
  | .listen addresses closes => (w, .ready (listen none addresses closes))
  | .wait delay => (w, .ready (wait (timerEnd w.time delay)))
where
  /-- Begin a refresh. -/
  refreshOf (w : World) (addresses : List Address) : World × Progress :=
    match w.step (Refresh.start addresses w.clock) with
    | (w, .error e) => (w, .finished (.error e))
    | (w, .ok (r, [])) => (w, .finished (r.close.map .refreshed))
    | (w, .ok (r, stale)) => (w, .ready (refresh r (.ofAddresses w.account.config stale)))
  /-- Begin a round of a scan. -/
  startScan (w : World) (s : Scan) : Progress :=
    match s.startRound w.account with
    | (s, []) => .finished (.ok (.scanned s.found))
    | (s, addresses) => .ready (scan s (.ofAddresses w.account.config addresses))

/-- Take in replies one after another, with a step that may fail. -/
def absorbAll {σ α : Type} (absorb : σ → Address → Reply α → Step Account σ) :
    σ → List (Address × Reply α) → Step Account σ
  | s, [] => pure s
  | s, (address, reply) :: rest => do absorbAll absorb (← absorb s address reply) rest

/-- A change of account and progress as a step. -/
def asStep {σ : Type} (change : Account → Account × σ) : Step Account σ := fun a =>
  let (a, s) := change a
  .ok s a

/-- Let queries of a batch end and start, and take in the replies that are there; a batch that
is not begun takes in none yet. A reply on which this fails keeps those queries from being
asked that were not started by then. -/
def serve {σ α : Type} (ask : Ask α) (absorb : σ → List (Address × Reply α) → Step Account σ)
    (inFront : Bool) (s : σ) (b : Batch α) (w : World) : World × Except Failure (σ × Batch α) :=
  let (b, source) := b.pump ask inFront w.time w.source
  let w := { w with source }
  if b.share.isNone then (w, .ok (s, b.begun))
  else
    let (w, s) := w.step (absorb s b.arrived)
    (w, s.map fun s => (s, b.taken))

def onward {α : Type} (b : Batch α) (activity : Activity) : Progress :=
  if b.isReady then .ready activity else .waiting activity

/-- Poll the handling of a notification. The answer is its result, once it has one. -/
def pollHandling (h : Handling) (w : World) : World × Handling × Option (Except Failure Unit) :=
  let (w, balance, unspent) :=
    match h.queries with
    | some (balance, unspent) =>
      let source := w.source
      let source := if balance.isOver w.time then balance.finish source else source
      let source := if unspent.isOver w.time then unspent.finish source else source
      ({ w with source }, balance, unspent)
    | none =>
      let timeout := Batch.timeoutOf w.account.config
      let (source, balance) := Query.start Source.askBalance h.address timeout w.time w.source
      let source := if balance.isOver w.time then balance.finish source else source
      let (source, unspent) := Query.start Source.askUnspent h.address timeout w.time source
      let source := if unspent.isOver w.time then unspent.finish source else source
      ({ w with source }, balance, unspent)
  let h := { h with queries := some (balance, unspent) }
  if balance.isOver w.time && unspent.isOver w.time then
    let (w, result) :=
      w.step (Account.closeEvent h.address h.ticket balance.reply unspent.reply w.clock)
    (w, h, some result)
  else (w, h, none)

/-- Go on after a notification was handled. Only a defect keeps from the next one. -/
def afterHandling (next : World → World × Progress) (w : World) :
    Except Failure Unit → World × Progress
  | .ok () => next w
  | .error e => if e.isDefect then (w, .finished (.error e)) else next w

/-- Handle the notifications of an inbox as far as that goes without waiting. -/
def handleInbox (closes : Bool) : List Address → World → World × Progress
  | [], w =>
    if closes then (w, .finished (.ok .handled)) else (w, .waiting (listen none [] closes))
  | address :: inbox, w =>
    match w.step (Account.startEvent address) with
    | (w, .ok (some ticket)) =>
      match pollHandling { address, ticket } w with
      | (w, h, none) => (w, .waiting (listen (some h) inbox closes))
      | (w, _, some result) => afterHandling (handleInbox closes inbox) w result
    | (w, _) => handleInbox closes inbox w

/-- Poll an activity that is not cancelled. -/
def resume (activity : Activity) (inFront : Bool) (w : World) : World × Progress :=
  match activity with
  | refresh r b =>
    let absorb (r : Refresh) address reply := asStep (r.absorb address reply w.clock)
    match serve Source.askBalance (absorbAll absorb) inFront r b w with
    | (w, .error e) => (w, .finished (.error e))
    | (w, .ok (r, b)) =>
      if b.isDone then (w, .finished (r.close.map .refreshed))
      else (w, onward b (refresh r b))
  | resync r b =>
    let absorb (r : Resync) replies := pure (r.absorb replies)
    match serve Source.askUnspent absorb inFront r b w with
    | (w, .error e) => (w, .finished (.error e))
    | (w, .ok (r, b)) =>
      if b.isDone then
        let (w, result) := w.step (r.close w.clock)
        (w, .finished (result.map .resynced))
      else (w, onward b (resync r b))
  | history address query =>
    let (w, query) :=
      match query with
      | some query => (w, query)
      | none =>
        let timeout := Batch.timeoutOf w.account.config
        let (source, query) := Query.start Source.askHistory address timeout w.time w.source
        ({ w with source }, query)
    if query.isOver w.time then
      let w := { w with source := query.finish w.source }
      let (w, result) := w.step (Account.noteHistory address query.reply)
      (w, .finished (result.map .history))
    else (w, .waiting (history address (some query)))
  | scan s b =>
    match serve Source.askHistory (absorbAll Scan.absorb) inFront s b w with
    | (w, .error e) => (w, .finished (.error e))
    | (w, .ok (s, b)) =>
      if b.isDone then
        match s.closeRound with
        | .error e => (w, .finished (.error e))
        | .ok () => (w, start.startScan w s)
      else (w, onward b (scan s b))
  | drainBalances d b =>
    let absorb (d : Drain) address reply := asStep (d.absorbBalance address reply w.clock)
    match serve Source.askBalance (absorbAll absorb) inFront d b w with
    | (w, .error e) => (w, .finished (.error e))
    | (w, .ok (d, b)) =>
      if b.isDone then
        let next := d.turn
        let b : Batch (List Coin) :=
          { waiting := next.addresses, limit := b.limit, timeout := b.timeout }
        (w, .ready (drainUnspent next b))
      else (w, onward b (drainBalances d b))
  | drainUnspent d b =>
    match serve Source.askUnspent (absorbAll Drain.absorbUnspent) inFront d b w with
    | (w, .error e) => (w, .finished (.error e))
    | (w, .ok (d, b)) =>
      if b.isDone then (w, .finished (.ok (.drained d.report)))
      else (w, onward b (drainUnspent d b))
  | event h =>
    match pollHandling h w with
    | (w, _, some result) => (w, .finished (result.map fun () => .handled))
    | (w, h, none) => (w, .waiting (event h))
  | listen (some h) inbox closes =>
    match pollHandling h w with
    | (w, h, none) => (w, .waiting (listen (some h) inbox closes))
    | (w, _, some result) => afterHandling (handleInbox closes inbox) w result
  | listen none inbox closes => handleInbox closes inbox w
  | wait endsAt =>
    if endsAt ≤ w.time then (w, .finished (.ok .waited)) else (w, .waiting (wait endsAt))

/-- Let those queries of a batch end that are over. The batch takes in their replies when
it is polled next. -/
def collect (activity : Activity) (w : World) : World × Activity :=
  match activity with
  | refresh r b => collected b (refresh r)
  | resync r b => collected b (resync r)
  | scan s b => collected b (scan s)
  | drainBalances d b => collected b (drainBalances d)
  | drainUnspent d b => collected b (drainUnspent d)
  | history .. | event _ | listen .. | wait _ => (w, activity)
where
  /-- Let queries of a batch end. -/
  collected {α : Type} (b : Batch α) (activity : Batch α → Activity) : World × Activity :=
    let (b, source) := b.collect w.time w.source
    ({ w with source }, activity b)

/-- End a cancelled activity. Its queries that are over still end, but their replies are
not taken in. A pass over queued requests puts back those that were not answered. -/
def cancel (activity : Activity) (w : World) : World :=
  let (w, activity) := activity.collect w
  match activity with
  | drainBalances d _ | drainUnspent d _ => { w with account := d.abandon w.account }
  | _ => w

/-- Whether an activity takes notice when it is cancelled. -/
def isCancellable : Activity → Bool
  | history .. | wait _ => false
  | _ => true

def poll (activity : Activity) (inFront cancelled : Bool) (w : World) : World × Progress :=
  if cancelled && activity.isCancellable then
    (activity.cancel w, .finished (.error .cancelled))
  else activity.resume inFront w

/-- Whether an activity sets its timers itself, those of its own queries or of a wait. It
then does so as soon as it goes on, and hears of their end at that moment, before a batch
hears of queries that end with them. -/
def isDirect : Activity → Bool
  | history .. | event _ | listen (some _) .. | wait _ => true
  | _ => false

/-- When the next query of an activity ends, or its wait. -/
def nextEnd? : Activity → Option Nat
  | refresh _ b => b.nextEnd?
  | resync _ b => b.nextEnd?
  | history _ query => query.map (·.endsAt)
  | scan _ b => b.nextEnd?
  | drainBalances _ b => b.nextEnd?
  | drainUnspent _ b => b.nextEnd?
  | event h => ends h
  | listen h _ _ => h.bind ends
  | wait endsAt => some endsAt
where
  /-- When the queries of a notification end. -/
  ends (h : Handling) : Option Nat := h.queries.map fun (b, u) => max b.endsAt u.endsAt

def isOver (activity : Activity) (now : Nat) : Bool :=
  activity.isDirect && activity.nextEnd?.any (· ≤ now)

/-- Whether an activity takes in what is there at a moment before it notices a
cancellation that falls due at that moment. One that set its timers itself does so; the
handling of several notifications does so only in front. Batches do not, since each of
their queries ends before the batch hears of it. -/
def precedesCancellation (activity : Activity) (inFront : Bool) (now : Nat) : Bool :=
  match activity with
  | listen .. => inFront && activity.isOver now
  | _ => activity.isOver now

end Activity

end HdWallet.Scripted
