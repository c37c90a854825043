import HdWallet.Account.Drain
import HdWallet.Account.Event
import HdWallet.Account.Refresh
import HdWallet.Account.Resync
import HdWallet.Account.Scan
import HdWallet.Proofs.Step

/-!
# Runs of an account

Everything that an account does, it does in steps that nothing interrupts. An action is
one such step with whatever its caller passes. A call that asks the balance source is
several actions, one for its beginning and one for every answer, and other calls may act
in between; nothing is assumed here about who passes what, so every order of steps that
callers and the source can bring about is a run.
-/

namespace HdWallet.Account

/-- One uninterrupted step on an account. -/
inductive Action where
  | nextUnused (branch : Branch)
  | markUsed (address : Address)
  | setGapLimit (branch : Branch) (limit : UInt32)
  | setCacheLifetime (lifetime : UInt64)
  | invalidate (address : Address)
  | addCoin (coin : Coin)
  | removeCoin (outpoint : OutPoint)
  | receive (tx : Transaction)
  | spend (tx : Transaction)
  | reserve (request : SpendRequest) (now : Timestamp)
  | release (id : Nat) (outcome : Reservation.Outcome)
  | expire (now : Timestamp)
  | applySnapshot (snapshot : Snapshot)
  | startRefresh (addresses : List Address) (now : Timestamp)
  | absorbRefresh (refresh : Refresh) (address : Address) (reply : Reply Amount) (now : Timestamp)
  | closeResync (resync : Resync) (now : Timestamp)
  | absorbScan (scan : Scan) (address : Address) (reply : Reply (List HistoryItem))
  | noteHistory (address : Address) (reply : Reply (List HistoryItem))
  | startEvent (address : Address)
  | closeEvent (address : Address) (ticket : Nat) (balance : Reply Amount)
      (unspent : Reply (List Coin)) (now : Timestamp)
  | startDrain
  | absorbDrainBalance (drain : Drain) (address : Address) (reply : Reply Amount)
      (now : Timestamp)
  | absorbDrainUnspent (drain : Drain) (address : Address) (reply : Reply (List Coin))
  | abandonDrain (drain : Drain)

namespace Action

def step : Action → Step Account Unit
  | .nextUnused branch => discard (Account.nextUnused branch)
  | .markUsed address => discard (Account.markUsed address)
  | .setGapLimit branch limit => discard (Account.setGapLimit branch limit)
  | .setCacheLifetime lifetime => modify (·.setCacheLifetime lifetime)
  | .invalidate address => Account.invalidate address
  | .addCoin coin => modify fun a => (a.addCoin coin).1
  | .removeCoin outpoint => modify fun a => (a.removeCoin outpoint).1
  | .receive tx => discard (Account.receive tx)
  | .spend tx => modify fun a => (a.spend tx).1
  | .reserve request now => discard (Account.reserve request now)
  | .release id outcome => discard (Account.release id outcome)
  | .expire now => discard (Account.expire now)
  | .applySnapshot snapshot => Account.applySnapshot snapshot
  | .startRefresh addresses now => discard (Refresh.start addresses now)
  | .absorbRefresh refresh address reply now =>
    modify fun a => (refresh.absorb address reply now a).1
  | .closeResync resync now => discard (resync.close now)
  | .absorbScan scan address reply => discard (scan.absorb address reply)
  | .noteHistory address reply => discard (Account.noteHistory address reply)
  | .startEvent address => discard (Account.startEvent address)
  | .closeEvent address ticket balance unspent now =>
    Account.closeEvent address ticket balance unspent now
  | .startDrain => discard Drain.start
  | .absorbDrainBalance drain address reply now =>
    modify fun a => (drain.absorbBalance address reply now a).1
  | .absorbDrainUnspent drain address reply => discard (drain.absorbUnspent address reply)
  | .abandonDrain drain => modify drain.abandon

/-- Whether an action may issue a ticket, change a cached balance or restore one. -/
def touchesBalances : Action → Bool
  | .invalidate _ | .receive _ | .spend _ | .applySnapshot _ | .startRefresh .. => true
  | .absorbRefresh .. | .startEvent _ | .closeEvent .. | .startDrain => true
  | .absorbDrainBalance .. => true
  | _ => false

def restores : Action → Bool
  | .applySnapshot _ => true
  | _ => false

/-- The account after an action, whether it succeeds or fails. -/
def perform (action : Action) (a : Account) : Account := action.step.stateAfter a

end Action

def run (a : Account) (actions : List Action) : Account :=
  actions.foldl (fun a action => action.perform a) a

theorem run_append (a : Account) (first rest : List Action) :
    a.run (first ++ rest) = (a.run first).run rest :=
  List.foldl_append

/-- Whether each action of a run is allowed in the state that it finds. -/
def throughout (allowed : Account → Action → Bool) (a : Account) : List Action → Bool
  | [] => true
  | action :: rest => allowed a action && throughout allowed (action.perform a) rest

/-- What each allowed action keeps, a run of allowed actions keeps. -/
theorem run_of_throughout {P : Account → Prop} {allowed : Account → Action → Bool}
    (keeps : ∀ {a action}, P a → allowed a action → P (action.perform a)) {a : Account}
    (ha : P a) {actions : List Action} (all : a.throughout allowed actions) :
    P (a.run actions) := by
  induction actions generalizing a with
  | nil => exact ha
  | cons action rest ih =>
      obtain ⟨here, later⟩ := Bool.and_eq_true_iff.mp all
      exact ih (keeps ha here) later

def succeeds (a : Account) (actions : List Action) : Bool :=
  a.throughout (fun a action => (action.step.answer a).isOk) actions

/-- An account just opened has a keychain and nothing else. -/
theorem ofConfig_eq_ok {config : Config} {source : KeySource} {a : Account}
    (opened : ofConfig config source = .ok a) :
    ∃ keychain, Keychain.ofConfig config source = .ok keychain ∧
      a = {
        config
        holdings := {
          keychain
          ledger := .empty
          reservations := { lifetime := config.reservationLifetime } }
        retries := .ofLimit config.retryAttempts.toNat } := by
  rw [ofConfig] at opened
  cases hkeys : Keychain.ofConfig config source with
  | error e =>
      rw [hkeys] at opened
      cases opened
  | ok keychain =>
      rw [hkeys] at opened
      cases opened
      exact ⟨keychain, rfl, rfl⟩

-- Actions are made of fewer operations than there are actions. A property that each of
-- these operations keeps is kept by every action.

/-- A property that every operation keeps on which neither a ticket, a cached balance nor a
spend that others report depends. Where such an operation fails it leaves `E` behind. -/
structure OwnInvariant (P : Account → Prop) (E : Account → Prop := P) : Prop where
  weaken : ∀ a, P a → E a := by exact fun _ ha => ha
  setRetries : ∀ {a} (retries : RetryQueue), P a → P { a with retries }
  setCacheLifetime : ∀ {a} (lifetime : UInt64), P a → P (a.setCacheLifetime lifetime)
  setGapLimit : ∀ (branch : Branch) (limit : UInt32), (setGapLimit branch limit).Keeps P E
  nextUnused : ∀ (branch : Branch) (excluded : Std.ExtTreeSet Nat),
    (onKeychain (Keychain.nextUnused branch excluded)).Keeps P E
  markUsed : ∀ address : Address, (markUsed address).Keeps P E
  addCoin : ∀ {a} (coin : Coin), P a → P (a.addCoin coin).1
  removeCoin : ∀ {a} (outpoint : OutPoint), P a → P (a.removeCoin outpoint).1
  receive : ∀ {a} (tx : Transaction), P a → P { a with holdings := (a.holdings.receive tx).1 }
  reserve : ∀ (request : SpendRequest) (selector : Selector) (now : Timestamp),
    (onHoldings (Holdings.reserve request selector now)).Keeps P E
  release : ∀ (id : Nat) (outcome : Reservation.Outcome), (release id outcome).Keeps P E

/-- What an action needs besides, to keep `P` from the account `a` on, if others tell it of
spends or of the coins that are left. -/
def Action.Learning (P E : Account → Prop) (a : Account) : Action → Prop
  | .spend tx => P { a with holdings := (a.holdings.spend tx).1 }
  | .closeResync resync _ => resync.failures = [] →
    (onHoldings (Holdings.replaceAll resync.reports)).wp (fun _ => P) (fun _ => E) a
  | .closeEvent address ticket balance unspent now => ∀ coins, unspent = .ok coins →
    P (noteEventBalance address ticket balance now a).1 →
    (onHoldings (Holdings.resync address coins)).wp (fun _ => P) (fun _ => E)
      (noteEventBalance address ticket balance now a).1
  | .absorbDrainUnspent drain address reply => ∀ coins, reply = .ok coins →
    drain.waiting.contains address →
    (onHoldings (Holdings.resync address coins)).wp (fun _ => P) (fun _ => E) a
  | _ => True

namespace OwnInvariant

variable {P E : Account → Prop} (inv : OwnInvariant P E) {a : Account}
include inv

theorem noteFailure (ha : P a) (kind : RetryKind) (f : AddressFailure) (now : Timestamp) :
    P (a.noteFailure kind f now) := by
  rw [Account.noteFailure]
  split
  next => exact inv.setRetries _ ha
  next => exact ha

theorem requeue (ha : P a) (drain : Drain) (request : RetryRequest) (failure : SourceFailure) :
    P (drain.requeue request failure a).1 := by
  rw [Drain.requeue]
  split <;> exact inv.setRetries _ ha

theorem keeps_cancelAll (ids : List Nat) : (onHoldings (Holdings.cancelAll ids)).Keeps P E := by
  induction ids with
  | nil => exact fun _ ha => ha
  | cons id rest ih =>
      intro a ha
      have released := (inv.release id .cancelled).discard.bind (fun _ => ih) a ha
      simpa only [Holdings.cancelAll, onHoldings, Account.release, Step.wp_bind, Step.wp_discard,
        Step.wp_onPart] using released

theorem keeps_expire (now : Timestamp) : (expire now).Keeps P E := by
  intro a ha
  let table := a.holdings.reservations
  have cancelled := inv.keeps_cancelAll
    ((table.reservations.filter (·.isExpired table.lifetime now)).map (·.id)) a ha
  simpa only [expire, Holdings.expire, onHoldings, Step.wp_bind, Step.wp_get, Step.wp_pure,
    Step.wp_onPart] using cancelled

theorem keeps_reserve (request : SpendRequest) (now : Timestamp) :
    (Account.reserve request now).Keeps P E :=
  (inv.keeps_expire now).discard.bind fun _ => Step.keeps_get.bind fun _ => inv.reserve _ _ _

theorem wp_close (ha : P a) {resync : Resync} {now : Timestamp}
    (learning : (Action.closeResync resync now).Learning P E a) :
    (resync.close now).wp (fun _ => P) (fun _ => E) a := by
  rw [Resync.close]
  split
  next answered => exact learning (List.isEmpty_iff.mp answered)
  next =>
      rw [Step.wp_bind, Step.wp_modify, Step.wp_throw]
      apply inv.weaken
      clear learning
      generalize resync.failures = failures
      induction failures generalizing a with
      | nil => exact ha
      | cons f rest ih => exact ih (inv.noteFailure ha .unspent f now)

theorem keeps_absorbScan (scan : Scan) (address : Address) (reply : Reply (List HistoryItem)) :
    (scan.absorb address reply).Keeps P E := by
  cases reply with
  | error failure => exact Step.keeps_pure _
  | ok items =>
      cases items with
      | nil => exact Step.keeps_pure _
      | cons item rest =>
          apply Step.keeps_get.bind
          intro a
          split
          next => exact Step.keeps_pure _
          next =>
              apply (inv.markUsed _).bind
              intro isNew
              cases isNew <;> exact Step.keeps_pure _

theorem keeps_noteHistory (address : Address) (reply : Reply (List HistoryItem)) :
    (noteHistory address reply).Keeps P E := by
  cases reply with
  | error failure => exact Step.keeps_throw _ inv.weaken
  | ok items =>
      simp only [noteHistory]
      split
      next => exact (inv.markUsed _).discard.bind fun _ => Step.keeps_pure _
      next => exact Step.keeps_pure _

theorem wp_absorbDrainUnspent (ha : P a) {drain : Drain} {address : Address}
    {reply : Reply (List Coin)}
    (learning : (Action.absorbDrainUnspent drain address reply).Learning P E a) :
    (drain.absorbUnspent address reply).wp (fun _ => P) (fun _ => E) a := by
  rw [Drain.absorbUnspent]
  split
  next => exact ha
  next request waiting =>
      cases reply with
      | ok coins =>
          have asked : drain.waiting.contains address := by
            rw [Std.ExtTreeMap.contains_eq_isSome_getElem?, waiting]
            rfl
          simpa only [Step.wp_bind, Step.wp_discard, Step.wp_pure] using learning coins rfl asked
      | error failure =>
          simp only [Step.wp_bind, Step.wp_get, Step.wp_set, Step.wp_pure]
          exact inv.requeue ha _ request failure

theorem wp_step (ha : P a) {action : Action} (untouched : action.touchesBalances = false)
    (learning : action.Learning P E a) : action.step.wp (fun _ => P) (fun _ => E) a := by
  cases action with
  | nextUnused branch => exact (Step.keeps_get.bind fun _ => inv.nextUnused _ _).discard a ha
  | markUsed address => exact (inv.markUsed address).discard a ha
  | setGapLimit branch limit => exact (inv.setGapLimit branch limit).discard a ha
  | setCacheLifetime lifetime => exact inv.setCacheLifetime lifetime ha
  | addCoin coin => exact inv.addCoin coin ha
  | removeCoin outpoint => exact inv.removeCoin outpoint ha
  | reserve request now => exact (inv.keeps_reserve request now).discard a ha
  | release id outcome => exact (inv.release id outcome).discard a ha
  | expire now => exact (inv.keeps_expire now).discard a ha
  | closeResync resync now => exact (Step.wp_discard _ a).mpr (inv.wp_close ha learning)
  | absorbScan scan address reply => exact (inv.keeps_absorbScan scan address reply).discard a ha
  | noteHistory address reply => exact (inv.keeps_noteHistory address reply).discard a ha
  | absorbDrainUnspent drain address reply =>
      exact (Step.wp_discard _ a).mpr (inv.wp_absorbDrainUnspent ha learning)
  | abandonDrain drain => exact inv.setRetries _ ha
  | invalidate | receive | spend | applySnapshot | startRefresh | absorbRefresh | startEvent
  | closeEvent | startDrain | absorbDrainBalance => cases untouched

end OwnInvariant

/-- A property that every operation keeps which neither issues a ticket nor changes a
cached balance. Where such an operation fails it leaves `E` behind. -/
structure HoldingsInvariant (P : Account → Prop) (E : Account → Prop := P) : Prop
    extends OwnInvariant P E where
  spend : ∀ {a} (tx : Transaction), P a → P { a with holdings := (a.holdings.spend tx).1 }
  resync : ∀ (address : Address) (reported : List Coin),
    (onHoldings (Holdings.resync address reported)).Keeps P E
  replaceAll : ∀ reports : List (Address × List Coin),
    (onHoldings (Holdings.replaceAll reports)).Keeps P E

namespace HoldingsInvariant

variable {P E : Account → Prop} (inv : HoldingsInvariant P E) {a : Account}
include inv

theorem learning (ha : P a) (action : Action) : action.Learning P E a := by
  cases action with
  | spend tx => exact inv.spend tx ha
  | closeResync resync now => exact fun _ => inv.replaceAll _ a ha
  | closeEvent address ticket balance unspent now =>
      exact fun coins _ noted => inv.resync address coins _ noted
  | absorbDrainUnspent drain address reply => exact fun coins _ _ => inv.resync address coins a ha
  | _ => trivial

theorem keeps_step {action : Action} (untouched : action.touchesBalances = false) :
    action.step.Keeps P E := fun _ ha =>
  inv.toOwnInvariant.wp_step ha untouched (inv.learning ha action)

end HoldingsInvariant

/-- A property that every operation keeps which neither restores a snapshot, nor tells of spends,
nor keeps a balance. Where such an operation fails it leaves `E` behind. -/
structure TicketInvariant (P : Account → Prop) (E : Account → Prop := P) : Prop
    extends OwnInvariant P E where
  issueTicket : ∀ {a}, P a → P { a with tickets := a.tickets + 1 }
  invalidateAddress : ∀ {a} (address : Address), P a → P (a.invalidateAddress address).1

/-- What an action needs besides, to keep `P` from the account `a` on, if it brings a balance that
may be kept. -/
def Action.Keeping (P : Account → Prop) (a : Account) : Action → Prop
  | .absorbRefresh refresh address reply now => ∀ balance, reply = .ok balance →
    P (a.recordBalance address balance refresh.ticket now).1
  | .closeEvent address ticket reply _ now => ∀ balance, reply = .ok balance →
    P (a.recordBalance address balance ticket now).1
  | .absorbDrainBalance drain address reply now => ∀ balance, reply = .ok balance →
    drain.waiting.contains address → P (a.recordBalance address balance drain.ticket now).1
  | _ => True

namespace TicketInvariant

variable {P E : Account → Prop} (inv : TicketInvariant P E) {a : Account}
include inv

theorem keeps_issueTicket : Account.issueTicket.Keeps P E := by
  intro a ha
  simp only [Account.issueTicket, Step.wp_bind, Step.wp_modify, Step.wp_get, Step.wp_pure]
  exact inv.issueTicket ha

theorem keeps_invalidate (address : Address) : (invalidate address).Keeps P E := by
  intro a ha
  simp only [invalidate, Step.wp_bind, Step.wp_get]
  split
  next => exact inv.invalidateAddress address ha
  next => exact inv.weaken a ha

theorem invalidateScript (ha : P a) (script : Script) : P (a.invalidateScript script) := by
  rw [Account.invalidateScript]
  split
  next => exact ha
  next => exact inv.invalidateAddress _ ha

theorem invalidateScripts (ha : P a) (scripts : List Script) :
    P (scripts.foldl Account.invalidateScript a) := by
  induction scripts generalizing a with
  | nil => exact ha
  | cons script rest ih => exact ih (inv.invalidateScript ha script)

theorem spendCoins {tx : Transaction} (spent : P { a with holdings := (a.holdings.spend tx).1 }) :
    P (a.spend tx).1 :=
  inv.invalidateScripts spent _

theorem keeps_noteReceived (coins : List Coin) : (noteReceived coins).Keeps P E := by
  induction coins with
  | nil => exact Step.keeps_pure _
  | cons coin rest ih =>
      apply Step.keeps_get.bind
      intro a
      have keeps_rest : (do
          modify (·.invalidateScript coin.script)
          noteReceived rest : Step Account Unit).Keeps P E :=
        (Step.keeps_modify fun _ ha => inv.invalidateScript ha _).bind fun _ => ih
      split
      next => exact (inv.markUsed _).discard.bind fun _ => keeps_rest
      next => exact keeps_rest

theorem keeps_receive (tx : Transaction) : (Account.receive tx).Keeps P E := by
  intro a ha
  simp only [Account.receive, Step.wp_bind, Step.wp_get, Step.wp_modify]
  exact inv.keeps_noteReceived _ _ (inv.receive tx ha)

theorem keeps_startRefresh (addresses : List Address) (now : Timestamp) :
    (Refresh.start addresses now).Keeps P E := by
  apply Step.keeps_get.bind
  intro a
  apply (Step.keeps_ofExcept _ inv.weaken).bind
  intro (stale, fresh)
  dsimp only
  split
  next => exact (Step.keeps_pure _).bind fun _ => Step.keeps_pure _
  next => exact inv.keeps_issueTicket.bind fun _ => Step.keeps_pure _

theorem absorbRefresh (ha : P a) {refresh : Refresh} {address : Address} {reply : Reply Amount}
    {now : Timestamp} (keeping : (Action.absorbRefresh refresh address reply now).Keeping P a) :
    P (refresh.absorb address reply now a).1 := by
  cases reply with
  | ok balance =>
      have recorded := keeping balance rfl
      simp only [Refresh.absorb]
      split
      next => exact inv.setRetries _ recorded
      next => exact recorded
  | error failure => exact inv.noteFailure ha .balance _ now

theorem keeps_startEvent (address : Address) : (startEvent address).Keeps P E := by
  intro a ha
  simp only [startEvent, Step.wp_bind, Step.wp_get]
  split
  next =>
      simp only [Step.wp_bind, Step.wp_set, Step.wp_map]
      exact inv.keeps_issueTicket _ (inv.invalidateAddress address ha)
  next => exact ha

theorem noteEventBalance (ha : P a) {address : Address} {ticket : Nat} {reply : Reply Amount}
    {now : Timestamp}
    (keeping : ∀ balance, reply = .ok balance → P (a.recordBalance address balance ticket now).1) :
    P (Account.noteEventBalance address ticket reply now a).1 := by
  cases reply with
  | ok balance => exact keeping balance rfl
  | error failure => exact inv.noteFailure ha .balance _ now

theorem wp_closeEvent (ha : P a) {address : Address} {ticket : Nat} {balance : Reply Amount}
    {unspent : Reply (List Coin)} {now : Timestamp}
    (learning : (Action.closeEvent address ticket balance unspent now).Learning P E a)
    (keeping : (Action.closeEvent address ticket balance unspent now).Keeping P a) :
    (closeEvent address ticket balance unspent now).wp (fun _ => P) (fun _ => E) a := by
  simp only [closeEvent, Step.wp_bind, Step.wp_get, Step.wp_set]
  have noted := inv.noteEventBalance ha keeping
  cases unspent with
  | ok coins =>
      simp only [Step.wp_bind, Step.wp_discard]
      exact (learning coins rfl noted).mono
        (fun _ t ht => Step.keeps_ofExcept _ inv.weaken t ht) fun _ _ ht => ht
  | error failure =>
      exact Step.keeps_ofExcept _ inv.weaken _ (inv.noteFailure noted .unspent _ now)

theorem keeps_startDrain : Drain.start.Keeps P E := by
  intro a ha
  simp only [Drain.start, Step.wp_bind, Step.wp_get, Step.wp_modify]
  apply (inv.keeps_issueTicket _ (inv.setRetries _ ha)).mono _ fun _ _ hb => hb
  intro ticket b hb
  split <;> exact hb

theorem absorbDrainBalance (ha : P a) {drain : Drain} {address : Address} {reply : Reply Amount}
    {now : Timestamp} (keeping : (Action.absorbDrainBalance drain address reply now).Keeping P a) :
    P (drain.absorbBalance address reply now a).1 := by
  rw [Drain.absorbBalance]
  split
  next => exact ha
  next request waiting =>
      cases reply with
      | ok balance =>
          have asked : drain.waiting.contains address := by
            rw [Std.ExtTreeMap.contains_eq_isSome_getElem?, waiting]
            rfl
          exact keeping balance rfl asked
      | error failure => exact inv.requeue ha _ request failure

theorem wp_step (ha : P a) {action : Action} (lives : action.restores = false)
    (learning : action.Learning P E a) (keeping : action.Keeping P a) :
    action.step.wp (fun _ => P) (fun _ => E) a := by
  cases action with
  | invalidate address => exact inv.keeps_invalidate address a ha
  | receive tx => exact (inv.keeps_receive tx).discard a ha
  | spend tx => exact inv.spendCoins learning
  | applySnapshot => cases lives
  | startRefresh addresses now => exact (inv.keeps_startRefresh addresses now).discard a ha
  | absorbRefresh refresh address reply now => exact inv.absorbRefresh ha keeping
  | startEvent address => exact (inv.keeps_startEvent address).discard a ha
  | closeEvent address ticket balance unspent now => exact inv.wp_closeEvent ha learning keeping
  | startDrain => exact inv.keeps_startDrain.discard a ha
  | absorbDrainBalance drain address reply now => exact inv.absorbDrainBalance ha keeping
  | nextUnused | markUsed | setGapLimit | setCacheLifetime | addCoin | removeCoin | reserve
  | release | expire | closeResync | absorbScan | noteHistory | absorbDrainUnspent
  | abandonDrain => exact inv.toOwnInvariant.wp_step ha rfl learning

end TicketInvariant

/-- A property that every operation keeps which neither restores a snapshot nor tells of
spends. Where such an operation fails it leaves `E` behind. -/
structure QueryInvariant (P : Account → Prop) (E : Account → Prop := P) : Prop
    extends OwnInvariant P E where
  issueTicket : ∀ {a}, P a → P { a with tickets := a.tickets + 1 }
  recordBalance : ∀ {a} (address : Address) (balance : Amount) (ticket : Nat) (now : Timestamp),
    P a → P (a.recordBalance address balance ticket now).1
  invalidateAddress : ∀ {a} (address : Address), P a → P (a.invalidateAddress address).1

namespace QueryInvariant

variable {P E : Account → Prop} (inv : QueryInvariant P E) {a : Account}
include inv

theorem ticketInvariant : TicketInvariant P E where
  toOwnInvariant := inv.toOwnInvariant
  issueTicket := inv.issueTicket
  invalidateAddress := inv.invalidateAddress

theorem spendCoins {tx : Transaction} (spent : P { a with holdings := (a.holdings.spend tx).1 }) :
    P (a.spend tx).1 :=
  inv.ticketInvariant.spendCoins spent

theorem keeping (ha : P a) (action : Action) : action.Keeping P a := by
  cases action with
  | absorbRefresh refresh address reply now =>
      exact fun balance _ => inv.recordBalance address balance refresh.ticket now ha
  | closeEvent address ticket reply unspent now =>
      exact fun balance _ => inv.recordBalance address balance ticket now ha
  | absorbDrainBalance drain address reply now =>
      exact fun balance _ _ => inv.recordBalance address balance drain.ticket now ha
  | _ => trivial

theorem wp_step (ha : P a) {action : Action} (lives : action.restores = false)
    (learning : action.Learning P E a) : action.step.wp (fun _ => P) (fun _ => E) a :=
  inv.ticketInvariant.wp_step ha lives learning (inv.keeping ha action)

end QueryInvariant

/-- A property that every operation keeps on which no spend that others report depends. Where
such an operation fails it leaves `E` behind. -/
structure BalanceInvariant (P : Account → Prop) (E : Account → Prop := P) : Prop
    extends QueryInvariant P E where
  applySnapshot : ∀ snapshot : Snapshot, (applySnapshot snapshot).Keeps P E

theorem BalanceInvariant.wp_step {P E : Account → Prop} (inv : BalanceInvariant P E) {a : Account}
    (ha : P a) {action : Action} (learning : action.Learning P E a) :
    action.step.wp (fun _ => P) (fun _ => E) a := by
  cases restores : action.restores with
  | false => exact inv.toQueryInvariant.wp_step ha restores learning
  | true =>
      cases action with
      | applySnapshot snapshot => exact inv.applySnapshot snapshot a ha
      | _ => cases restores

theorem keeps_onHoldings {α : Type} {P E : Holdings → Prop} {step : Step Holdings α}
    (h : step.Keeps P E) :
    (onHoldings step).Keeps (fun a => P a.holdings) fun a => E a.holdings :=
  Step.keeps_onPart fun a ha => h a.holdings ha

theorem keeps_onHoldings_retries {α : Type} (step : Step Holdings α) (queue : RetryQueue) :
    (onHoldings step).Keeps (·.retries = queue) :=
  Step.keeps_onPart_of_frame step fun _ _ same => same

/-- A property of the ledger and the reservations that every operation keeps but those that
tell of spends. -/
structure CoinInvariant (P : Holdings → Prop) : Prop where
  setKeychain : ∀ {h} (keychain : Keychain), P h → P { h with keychain }
  addCoin : ∀ {h} (coin : Coin), P h → P (h.addCoin coin).1
  removeCoin : ∀ {h} (outpoint : OutPoint),
    P h → P { h with ledger := (h.ledger.remove outpoint).1 }
  receive : ∀ {h} (tx : Transaction), P h → P (h.receive tx).1
  reserve : ∀ (request : SpendRequest) (selector : Selector) (now : Timestamp),
    (Holdings.reserve request selector now).Keeps P
  release : ∀ (id : Nat) (outcome : Reservation.Outcome), (Holdings.release id outcome).Keeps P
  applySnapshot : ∀ snapshot : Snapshot, snapshot.apply.Keeps P

theorem CoinInvariant.ownInvariant {P : Holdings → Prop} (inv : CoinInvariant P) :
    OwnInvariant fun a => P a.holdings := by
  have keeps_onKeychain {α : Type} (step : Step Keychain α) :
      (onKeychain step).Keeps fun a => P a.holdings :=
    keeps_onHoldings (Step.keeps_onPart_of_frame step fun _ _ hh => inv.setKeychain _ hh)
  refine {
    setRetries := fun _ ha => ha
    setCacheLifetime := fun _ ha => inv.setKeychain _ ha
    setGapLimit := fun branch limit => ?_
    nextUnused := fun _ _ => keeps_onKeychain _
    markUsed := fun _ => keeps_onKeychain _
    addCoin := inv.addCoin
    removeCoin := inv.removeCoin
    receive := inv.receive
    reserve := fun _ _ _ => keeps_onHoldings (inv.reserve _ _ _)
    release := fun _ _ => keeps_onHoldings (inv.release _ _) }
  refine (keeps_onKeychain _).bind fun _ => (Step.keeps_modify ?_).bind fun _ =>
    Step.keeps_pure _
  intro a ha
  cases branch <;> exact ha

theorem CoinInvariant.balanceInvariant {P : Holdings → Prop} (inv : CoinInvariant P) :
    BalanceInvariant fun a => P a.holdings where
  toOwnInvariant := inv.ownInvariant
  issueTicket := id
  recordBalance {a} address balance ticket now ha := by
    rw [Account.recordBalance]
    split
    next => exact ha
    next => exact inv.setKeychain _ ha
  invalidateAddress {a} address ha := by
    simp only [Account.invalidateAddress]
    split
    next => exact inv.setKeychain _ ha
    next => exact ha
  applySnapshot snapshot := keeps_onHoldings (inv.applySnapshot snapshot)

/-- A property that every operation on an account keeps but restoring a snapshot. -/
structure LiveInvariant (P : Account → Prop) : Prop
    extends HoldingsInvariant P, QueryInvariant P

/-- What every operation but restoring a snapshot keeps, a run keeps that restores none. -/
theorem LiveInvariant.run {P : Account → Prop} (inv : LiveInvariant P) {a : Account} (ha : P a)
    {actions : List Action} (live : ∀ action ∈ actions, ¬action.restores) : P (a.run actions) := by
  induction actions generalizing a with
  | nil => exact ha
  | cons action rest ih =>
      have here : action.restores = false := Bool.eq_false_iff.mpr
        (live action List.mem_cons_self)
      have kept : P (action.perform a) := Step.stateAfter_of_wp
        (inv.toQueryInvariant.wp_step ha here (inv.toHoldingsInvariant.learning ha action))
      exact ih kept fun action later => live action (List.mem_cons_of_mem _ later)

/-- A property that every operation on an account keeps. Where an operation fails it leaves
`E` behind. -/
structure Invariant (P : Account → Prop) (E : Account → Prop := P) : Prop
    extends HoldingsInvariant P E, BalanceInvariant P E

namespace Invariant

variable {P E : Account → Prop} {a : Account}

theorem keeps_step (inv : Invariant P E) (action : Action) : action.step.Keeps P E := fun _ ha =>
  inv.toBalanceInvariant.wp_step ha (inv.learning ha action)

/-- What every operation keeps, every run keeps. -/
theorem run (inv : Invariant P) (ha : P a) (actions : List Action) : P (a.run actions) := by
  induction actions generalizing a with
  | nil => exact ha
  | cons action rest ih => exact ih ((inv.keeps_step action).stateAfter ha)

/-- What every operation keeps that succeeds, a run keeps in which all do. -/
theorem run_of_succeeds (inv : Invariant P E) (ha : P a) {actions : List Action}
    (succeeds : a.succeeds actions) : P (a.run actions) := by
  apply run_of_throughout _ ha succeeds
  intro a action ha succeeded
  obtain ⟨t, ht⟩ := Step.eq_ok_of_isOk succeeded
  rw [Action.perform, Step.stateAfter_of_ok ht]
  exact (inv.keeps_step action a ha).of_ok ht

end Invariant

end HdWallet.Account
