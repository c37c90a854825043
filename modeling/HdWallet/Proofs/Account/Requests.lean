import HdWallet.Proofs.Account.Balances
import HdWallet.Proofs.Account.Pass

/-!
# Requests that have succeeded since

A query that failed waits in the queue until a pass tries it again. In the meantime the same may be
asked anew and answered. Of all that keeps such an answer only a refresh takes the request out of
the queue. The answers to a notification and those of a full resync leave it there, and so nothing
takes out a request for unspent outputs but the next pass, which asks again.
-/

namespace HdWallet

/-- A pass asks for the balance of an address, or for its unspent outputs. -/
def Drain.Asks (drain : Drain) (x : Address) : RetryKind → Prop
  | .balance => drain.waiting.contains x
  | .unspent => drain.turn.waiting.contains x

theorem Drain.contains_byAddress {requests : List RetryRequest} {x : Address} :
    (byAddress requests).contains x ↔ ∃ r ∈ requests, r.address = x := by
  simp [byAddress, Std.ExtTreeMap.contains_ofList]

namespace Account

variable {a b : Account} {action : Action} {address x : Address} {k : RetryKind}

/-- Whether an action takes a request out of the queue. A pass takes out all, and a refresh that
keeps a balance takes out the request for it. -/
def Action.clears (b : Account) (x : Address) (k : RetryKind) : Action → Bool
  | .startDrain => true
  | .absorbRefresh refresh address (.ok balance) now =>
    (b.recordBalance address balance refresh.ticket now).2 && address == x && .balance == k
  | _ => false

/-- An action queues a request for a query that has just failed, or puts one back. -/
def Action.Queues (b : Account) (x : Address) (k : RetryKind) : Action → Prop
  | .absorbRefresh _ address (.error failure) _ =>
    failure.isTransient ∧ (address, .balance) = (x, k)
  | .closeResync resync _ =>
    ∃ f ∈ resync.failures, f.failure.isTransient ∧ (f.address, .unspent) = (x, k)
  | .closeEvent address _ balance unspent _ =>
    (∃ failure, balance = .error failure ∧ failure.isTransient ∧ (address, .balance) = (x, k)) ∨
      ∃ failure, unspent = .error failure ∧ failure.isTransient ∧ (address, .unspent) = (x, k)
  | .absorbDrainBalance drain address (.error failure) _ =>
    ∃ request, drain.waiting[address]? = some request ∧ b.retries.Retains request failure ∧
      request.query = (x, k)
  | .absorbDrainUnspent drain address (.error failure) =>
    ∃ request, drain.waiting[address]? = some request ∧ b.retries.Retains request failure ∧
      request.query = (x, k)
  | .abandonDrain drain => ∃ r ∈ drain.waiting.values ++ drain.later, r.query = (x, k)
  | _ => False

theorem retries_invalidateAddress (a : Account) (address : Address) :
    (a.invalidateAddress address).1.retries = a.retries := by
  rw [invalidateAddress]
  dsimp only
  split <;> rfl

theorem retries_invalidateScript (a : Account) (script : Script) :
    (a.invalidateScript script).retries = a.retries := by
  rw [invalidateScript]
  split
  next => rfl
  next => exact retries_invalidateAddress a _

theorem keeps_noteReceived_retries (coins : List Coin) (q : RetryQueue) :
    (noteReceived coins).Keeps (·.retries = q) := by
  induction coins with
  | nil => exact Step.keeps_pure _
  | cons coin rest ih =>
      have next : (do
          modify (·.invalidateScript coin.script)
          noteReceived rest : Step Account Unit).Keeps (·.retries = q) :=
        (Step.keeps_modify fun a ha => (retries_invalidateScript a _).trans ha).bind fun _ => ih
      apply Step.keeps_get.bind
      intro a
      split
      next => exact (keeps_onHoldings_retries _ q).discard.bind fun _ => next
      next => exact next

theorem retries_invalidateScripts (scripts : List Script) (a : Account) :
    (scripts.foldl invalidateScript a).retries = a.retries := by
  induction scripts generalizing a with
  | nil => rfl
  | cons script rest ih => exact (ih _).trans (retries_invalidateScript a script)

theorem keeps_markUsed_retries (address : Address) (q : RetryQueue) :
    (Account.markUsed address).Keeps (·.retries = q) :=
  keeps_onHoldings_retries _ q

theorem keeps_issueTicket_retries (q : RetryQueue) : issueTicket.Keeps (·.retries = q) :=
  fun _ ha => ha

theorem keeps_absorbScan_retries (scan : Scan) (address : Address)
    (reply : Reply (List HistoryItem)) (q : RetryQueue) :
    (scan.absorb address reply).Keeps (·.retries = q) := by
  match reply with
  | .error _ | .ok [] => exact Step.keeps_pure _
  | .ok (_ :: _) =>
      apply Step.keeps_get.bind
      intro a
      split
      next => exact Step.keeps_pure _
      next =>
          apply (keeps_markUsed_retries address q).bind
          intro isNew
          cases isNew <;> exact Step.keeps_pure _

theorem keeps_noteHistory_retries (address : Address) (reply : Reply (List HistoryItem))
    (q : RetryQueue) : (noteHistory address reply).Keeps (·.retries = q) := by
  cases reply with
  | error failure => exact Step.keeps_throw _
  | ok items =>
      simp only [noteHistory]
      split
      next => exact (keeps_markUsed_retries address q).discard.bind fun _ => Step.keeps_pure _
      next => exact Step.keeps_pure _

theorem keeps_startRefresh_retries (addresses : List Address) (now : Timestamp) (q : RetryQueue) :
    (Refresh.start addresses now).Keeps (·.retries = q) := by
  apply Step.keeps_get.bind
  intro a
  apply (Step.keeps_ofExcept _).bind
  rintro ⟨stale, fresh⟩
  dsimp only
  split
  next => exact (Step.keeps_pure _).bind fun _ => Step.keeps_pure _
  next => exact (keeps_issueTicket_retries q).bind fun _ => Step.keeps_pure _

theorem keeps_startEvent_retries (address : Address) (q : RetryQueue) :
    (startEvent address).Keeps (·.retries = q) := by
  intro a ha
  simp only [startEvent, Step.wp_bind, Step.wp_get]
  split
  next =>
      simp only [Step.wp_bind, Step.wp_set, Step.wp_map]
      exact (retries_invalidateAddress a address).trans ha
  next => exact ha

/-- Whether an action has to do with the queue. -/
def Action.touchesQueue : Action → Bool
  | .absorbRefresh .. | .closeResync .. | .closeEvent .. | .startDrain => true
  | .absorbDrainBalance .. | .absorbDrainUnspent .. | .abandonDrain _ => true
  | _ => false

theorem keeps_step_retries (untouched : action.touchesQueue = false) (q : RetryQueue) :
    action.step.Keeps (·.retries = q) := by
  cases action with
  | nextUnused branch =>
      exact (Step.keeps_get.bind fun _ => keeps_onHoldings_retries _ q).discard
  | markUsed address => exact (keeps_markUsed_retries address q).discard
  | setGapLimit branch limit =>
      refine ((keeps_onHoldings_retries _ q).bind fun _ => (Step.keeps_modify ?_).bind fun _ =>
        Step.keeps_pure _).discard
      intro a ha
      cases branch <;> exact ha
  | setCacheLifetime lifetime => exact fun _ ha => ha
  | invalidate address =>
      intro a ha
      simp only [Action.step, invalidate, Step.wp_bind, Step.wp_get]
      split
      next => exact (retries_invalidateAddress a address).trans ha
      next => exact ha
  | addCoin coin => exact fun _ ha => ha
  | removeCoin outpoint => exact fun _ ha => ha
  | receive tx =>
      intro a ha
      simp only [Action.step, receive, Step.wp_discard, Step.wp_bind, Step.wp_get, Step.wp_modify,
        Step.wp_pure]
      exact keeps_noteReceived_retries _ q _ ha
  | spend tx => exact fun a ha => (retries_invalidateScripts _ _).trans ha
  | reserve request now =>
      exact ((keeps_onHoldings_retries _ q).discard.bind fun _ => Step.keeps_get.bind fun _ =>
        keeps_onHoldings_retries _ q).discard
  | release id outcome => exact (keeps_onHoldings_retries _ q).discard
  | expire now => exact (keeps_onHoldings_retries _ q).discard
  | applySnapshot snapshot => exact keeps_onHoldings_retries _ q
  | startRefresh addresses now => exact (keeps_startRefresh_retries addresses now q).discard
  | absorbScan scan address reply => exact (keeps_absorbScan_retries scan address reply q).discard
  | noteHistory address reply => exact (keeps_noteHistory_retries address reply q).discard
  | startEvent address => exact (keeps_startEvent_retries address q).discard
  | absorbRefresh | closeResync | closeEvent | startDrain | absorbDrainBalance
  | absorbDrainUnspent | abandonDrain => cases untouched

theorem contains_noteFailure (kind : RetryKind) (f : AddressFailure) (now : Timestamp) :
    (a.noteFailure kind f now).retries.contains x k ↔
      a.retries.contains x k ∨ f.failure.isTransient ∧ (f.address, kind) = (x, k) := by
  rw [noteFailure]
  split
  next passes =>
      rw [and_iff_right passes]
      exact RetryQueue.contains_enqueue f.failure now
  next lasts => exact (or_iff_left fun queued => lasts queued.1).symm

theorem contains_noteFailures (kind : RetryKind) (failures : List AddressFailure)
    (now : Timestamp) :
    (failures.foldl (fun a f => a.noteFailure kind f now) a).retries.contains x k ↔
      a.retries.contains x k ∨
        ∃ f ∈ failures, f.failure.isTransient ∧ (f.address, kind) = (x, k) := by
  induction failures generalizing a with
  | nil => simp
  | cons f rest ih =>
      rw [List.foldl_cons, ih, contains_noteFailure, List.exists_mem_cons_iff, or_assoc]

theorem contains_noteEventBalance (ticket : Nat) (balance : Reply Amount) (now : Timestamp) :
    (noteEventBalance address ticket balance now a).1.retries.contains x k ↔
      a.retries.contains x k ∨ ∃ failure, balance = .error failure ∧ failure.isTransient ∧
        (address, .balance) = (x, k) := by
  cases balance with
  | ok amount => simp [noteEventBalance, Pass.retries_recordBalance]
  | error failure =>
      simpa [noteEventBalance] using contains_noteFailure .balance ⟨address, failure⟩ now

theorem contains_absorbRefresh (refresh : Refresh) (address : Address) (reply : Reply Amount)
    (now : Timestamp) :
    let action : Action := .absorbRefresh refresh address reply now
    (refresh.absorb address reply now b).1.retries.contains x k ↔
      b.retries.contains x k ∧ ¬action.clears b x k ∨ action.Queues b x k := by
  intro action
  cases reply with
  | ok balance =>
      have queue := Pass.retries_recordBalance b address balance refresh.ticket now
      simp only [Refresh.absorb]
      split
      next kept =>
          have clears : action.clears b x k ↔ (address, RetryKind.balance) = (x, k) := by
            simp [action, Action.clears, kept]
          rw [clears, RetryQueue.contains_resolve, queue]
          exact (or_iff_left id).symm
      next discarded =>
          have clears : action.clears b x k = false := by simp [action, Action.clears, discarded]
          simp [clears, queue, action, Action.Queues]
  | error failure =>
      simpa [action, Action.clears, Action.Queues, Refresh.absorb] using
        contains_noteFailure .balance ⟨address, failure⟩ now

theorem wp_close_contains (resync : Resync) (now : Timestamp) :
    let after (c : Account) : Prop := c.retries.contains x k ↔ b.retries.contains x k ∨
      (Action.closeResync resync now).Queues b x k
    (resync.close now).wp (fun _ => after) (fun _ => after) b := by
  intro after
  rw [Resync.close]
  split
  next answered =>
      refine (keeps_onHoldings_retries _ b.retries b rfl).mono ?_ ?_ <;>
      · intro _ c same
        simp [after, same, Action.Queues, List.isEmpty_iff.mp answered]
  next =>
      rw [Step.wp_bind, Step.wp_modify, Step.wp_throw]
      exact contains_noteFailures .unspent resync.failures now

theorem wp_closeEvent_contains (address : Address) (ticket : Nat) (balance : Reply Amount)
    (unspent : Reply (List Coin)) (now : Timestamp) :
    let after (c : Account) : Prop := c.retries.contains x k ↔ b.retries.contains x k ∨
      (Action.closeEvent address ticket balance unspent now).Queues b x k
    (closeEvent address ticket balance unspent now).wp (fun _ => after) (fun _ => after) b := by
  intro after
  let noted := (noteEventBalance address ticket balance now b).1
  have first : noted.retries.contains x k ↔ _ := contains_noteEventBalance ticket balance now
  simp only [closeEvent, Step.wp_bind, Step.wp_get, Step.wp_set]
  cases unspent with
  | ok coins =>
      have taken (c : Account) (same : c.retries = noted.retries) : after c := by
        simp only [after, same, first, Action.Queues]
        simp
      simp only [Step.wp_bind, Step.wp_discard]
      apply (keeps_onHoldings_retries _ noted.retries noted rfl).mono
      · exact fun _ c same => (Step.wp_ofExcept _ _).mpr
          ⟨fun _ _ => taken c same, fun _ _ => taken c same⟩
      · exact fun _ c same => taken c same
  | error failure =>
      have queued : after (noted.noteFailure .unspent ⟨address, failure⟩ now) := by
        simp only [after, contains_noteFailure, first, Action.Queues, or_assoc]
        simp
      simp only [Step.wp_bind, Step.wp_modify]
      exact (Step.wp_ofExcept _ _).mpr ⟨fun _ _ => queued, fun _ _ => queued⟩

theorem contains_drainRequeue (drain : Drain) (request : RetryRequest) (failure : SourceFailure) :
    (drain.requeue request failure b).1.retries.contains x k ↔ b.retries.contains x k ∨
      b.retries.Retains request failure ∧ request.query = (x, k) := by
  rw [← RetryQueue.contains_requeue, Drain.requeue]
  split
  next given_up => rw [given_up]
  next queued => rw [queued]

theorem contains_absorbDrainBalance (drain : Drain) (address : Address) (reply : Reply Amount)
    (now : Timestamp) :
    (drain.absorbBalance address reply now b).1.retries.contains x k ↔ b.retries.contains x k ∨
      (Action.absorbDrainBalance drain address reply now).Queues b x k := by
  cases waits : drain.waiting[address]? with
  | none => cases reply <;> simp [Drain.absorbBalance, Action.Queues, waits]
  | some request =>
      cases reply with
      | ok balance => simp [Drain.absorbBalance, Action.Queues, waits, Pass.retries_recordBalance]
      | error failure =>
          simpa [Drain.absorbBalance, Action.Queues, waits] using
            contains_drainRequeue { drain with waiting := drain.waiting.erase address } request
              failure

theorem wp_absorbDrainUnspent_contains (drain : Drain) (address : Address)
    (reply : Reply (List Coin)) :
    let after (c : Account) : Prop := c.retries.contains x k ↔ b.retries.contains x k ∨
      (Action.absorbDrainUnspent drain address reply).Queues b x k
    (drain.absorbUnspent address reply).wp (fun _ => after) (fun _ => after) b := by
  intro after
  cases waits : drain.waiting[address]? with
  | none =>
      rw [Drain.absorbUnspent, waits]
      show after b
      cases reply <;> simp [after, Action.Queues, waits]
  | some request =>
      rw [Drain.absorbUnspent, waits]
      cases reply with
      | ok coins =>
          simp only [Step.wp_bind, Step.wp_discard, Step.wp_pure]
          refine (keeps_onHoldings_retries _ b.retries b rfl).mono ?_ ?_ <;>
          · intro _ c same
            simp [after, same, Action.Queues]
      | error failure =>
          simp only [Step.wp_bind, Step.wp_get, Step.wp_set, Step.wp_pure]
          simpa [after, Action.Queues, waits] using
            contains_drainRequeue { drain with waiting := drain.waiting.erase address } request
              failure

/-- What has nothing to do with the queue neither takes out a request nor queues one. -/
theorem idle_of_untouched (untouched : action.touchesQueue = false) :
    action.clears b x k = false ∧ ¬action.Queues b x k := by
  cases action with
  | absorbRefresh | closeResync | closeEvent | startDrain | absorbDrainBalance
  | absorbDrainUnspent | abandonDrain => cases untouched
  | _ => exact ⟨rfl, id⟩

/-- A request waits after an action just if it waited before and the action does not take it out,
or if the action queues it. -/
theorem contains_perform (b : Account) (action : Action) (x : Address) (k : RetryKind) :
    (action.perform b).retries.contains x k ↔
      b.retries.contains x k ∧ ¬action.clears b x k ∨ action.Queues b x k := by
  have of_wp {action : Action} (keeps : action.clears b x k = false)
      (spec : action.step.wp
        (fun _ c => c.retries.contains x k ↔ b.retries.contains x k ∨ action.Queues b x k)
        (fun _ c => c.retries.contains x k ↔ b.retries.contains x k ∨ action.Queues b x k) b) :
      (action.perform b).retries.contains x k ↔
        b.retries.contains x k ∧ ¬action.clears b x k ∨ action.Queues b x k := by
    rw [keeps, and_iff_left Bool.false_ne_true]
    exact Step.stateAfter_of_wp spec
  cases touched : action.touchesQueue with
  | false =>
      obtain ⟨keeps, nothing⟩ := idle_of_untouched (b := b) (x := x) (k := k) touched
      apply of_wp keeps
      apply (keeps_step_retries touched b.retries b rfl).mono <;>
      · intro _ c same
        rw [same, or_iff_left nothing]
  | true =>
      cases action with
      | absorbRefresh refresh address reply now =>
          exact contains_absorbRefresh refresh address reply now
      | closeResync resync now =>
          exact of_wp rfl ((Step.wp_discard _ b).mpr (wp_close_contains resync now))
      | closeEvent address ticket balance unspent now =>
          exact of_wp rfl (wp_closeEvent_contains address ticket balance unspent now)
      | startDrain =>
          have taken : (Action.startDrain.perform b).retries.pending = [] := by
            apply Step.stateAfter_of_wp (P := fun c : Account => c.retries.pending = [])
            rw [Action.step, Step.wp_discard, Step.wp, Pass.start_eq]
          simp [RetryQueue.contains, taken, Action.clears, Action.Queues]
      | absorbDrainBalance drain address reply now =>
          exact of_wp rfl (contains_absorbDrainBalance drain address reply now)
      | absorbDrainUnspent drain address reply =>
          exact of_wp rfl ((Step.wp_discard _ b).mpr
            (wp_absorbDrainUnspent_contains drain address reply))
      | abandonDrain drain => exact of_wp rfl (RetryQueue.contains_restoreAll _)
      | _ => cases touched

/-- An action keeps what was fetched about an address: a balance, or its unspent outputs. -/
def Action.Commits (b : Account) (x : Address) : RetryKind → Action → Prop
  | .balance, .absorbRefresh refresh address (.ok balance) now =>
    address = x ∧ (b.recordBalance address balance refresh.ticket now).2
  | .balance, .closeEvent address ticket (.ok balance) _ now =>
    address = x ∧ (b.recordBalance address balance ticket now).2
  | .balance, .absorbDrainBalance drain address (.ok balance) now =>
    address = x ∧ drain.waiting.contains x ∧ (b.recordBalance address balance drain.ticket now).2
  | .unspent, .closeEvent address _ _ (.ok _) _ => address = x ∧ (b.keychain.find? x).isSome
  | .unspent, .closeResync resync _ =>
    resync.failures = [] ∧ (∃ report ∈ resync.reports, report.1 = x) ∧ (b.keychain.find? x).isSome
  | .unspent, .absorbDrainUnspent drain address (.ok _) =>
    address = x ∧ drain.waiting.contains x ∧ (b.keychain.find? x).isSome
  | _, _ => False

def Action.answersRefresh : Action → Bool
  | .absorbRefresh .. => true
  | _ => false

/-- What is kept is not queued, and only a refresh takes out the request for it. -/
theorem Action.Commits.queue (commits : action.Commits b x k) :
    ¬action.Queues b x k ∧ action.clears b x k = action.answersRefresh := by
  cases action with
  | absorbRefresh refresh address reply now =>
      match k, reply, commits with
      | .balance, .ok balance, ⟨here, kept⟩ =>
          subst here
          exact ⟨id, by simp [clears, answersRefresh, kept]⟩
  | closeEvent address ticket balance unspent now =>
      refine ⟨?_, rfl⟩
      match k, balance, unspent, commits with
      | .balance, .ok _, _, _ => simp [Queues]
      | .unspent, _, .ok _, _ => simp [Queues]
  | closeResync resync now =>
      cases k with
      | balance => exact commits.elim
      | unspent => exact ⟨by simp [Queues, commits.1], rfl⟩
  | absorbDrainBalance drain address reply now =>
      cases k <;> cases reply <;> first | exact commits.elim | exact ⟨id, rfl⟩
  | absorbDrainUnspent drain address reply =>
      cases k <;> cases reply <;> first | exact commits.elim | exact ⟨id, rfl⟩
  | _ => cases k <;> exact commits.elim

/-- A request waits until an action takes it out. -/
theorem contains_run (waits : b.retries.contains x k) {later : List Action}
    (left : b.throughout (fun c action => !action.clears c x k) later) :
    (b.run later).retries.contains x k := by
  refine run_of_throughout (P := fun c => c.retries.contains x k) ?_ waits left
  intro c action waits kept
  rw [contains_perform]
  exact .inl ⟨waits, by simpa using kept⟩

/-- A request that waits is asked again by the next pass. -/
theorem start_asks (waits : b.retries.contains x k) :
    ∃ drain c, Drain.start b = .ok (some drain) c ∧ drain.Asks x k := by
  obtain ⟨r, pending, asks⟩ := List.any_eq_true.mp waits
  obtain ⟨rfl, rfl⟩ := Prod.mk.inj (RetryRequest.asks_iff.mp asks)
  rw [Pass.start_eq]
  have listed : r ∈ Pass.balanceRequests b.retries ++ Pass.unspentRequests b.retries :=
    (Pass.perm_requests b.retries).mem_iff.mpr pending
  split
  next empty =>
      obtain ⟨balances, unspent⟩ := Bool.and_eq_true_iff.mp empty
      rw [List.isEmpty_iff.mp balances, List.isEmpty_iff.mp unspent] at listed
      cases listed
  next =>
      refine ⟨_, _, rfl, ?_⟩
      cases kind : r.kind with
      | balance =>
          have taken : r ∈ Pass.balanceRequests b.retries :=
            List.mem_filter.mpr ⟨pending, by rw [kind]; rfl⟩
          exact Drain.contains_byAddress.mpr ⟨r, taken, rfl⟩
      | unspent =>
          have taken : r ∈ Pass.unspentRequests b.retries :=
            List.mem_filter.mpr ⟨pending, by rw [kind]; rfl⟩
          exact Drain.contains_byAddress.mpr ⟨r, taken, rfl⟩

/-- After an action that keeps what was fetched about an address, no request for it waits if the
action takes in an answer to a refresh. Otherwise the request waits if it did before, and it goes
on waiting until a pass begins, which asks again, or a refresh keeps a later balance. -/
theorem waits_after_commit (commits : action.Commits b x k) :
    ((action.perform b).retries.contains x k ↔
      b.retries.contains x k ∧ ¬action.answersRefresh) ∧
    (b.retries.contains x k → ¬action.answersRefresh → ∀ later,
      (action.perform b).throughout (fun c action => !action.clears c x k) later →
      let c := (action.perform b).run later
      c.retries.contains x k ∧ ∃ drain d, Drain.start c = .ok (some drain) d ∧ drain.Asks x k) := by
  obtain ⟨unqueued, clears⟩ := commits.queue
  have after : (action.perform b).retries.contains x k ↔
      b.retries.contains x k ∧ ¬action.answersRefresh := by
    rw [contains_perform, clears, or_iff_left unqueued]
  refine ⟨after, fun before other later left => ?_⟩
  have waits := contains_run (after.mpr ⟨before, other⟩) left
  exact ⟨waits, start_asks waits⟩

/-- The queries of a notification fail and those of the next one succeed. -/
theorem waits_after_second_notification :
    let config : Config := { receivingGapLimit := 1, changeGapLimit := 1 }
    let x : Address := ⟨"receiving-0"⟩
    let failed : List Action :=
      [.startEvent x, .closeEvent x 1 (.error .timeout) (.error .timeout) 0, .startEvent x]
    let succeeded : Action := .closeEvent x 2 (.ok 5) (.ok []) 0
    ∃ a, ofConfig config (.numbered ∅ true) = .ok a ∧
      succeeded.Commits (a.run failed) x .balance ∧
      succeeded.Commits (a.run failed) x .unspent ∧
      (succeeded.perform (a.run failed)).retries.contains x .balance ∧
      (succeeded.perform (a.run failed)).retries.contains x .unspent := by
  intro config x failed succeeded
  have answer : (ofConfig config (.numbered ∅ true)).toOption.any fun a =>
      ((a.run failed).recordBalance x 5 2 0).2 ∧ ((a.run failed).keychain.find? x).isSome ∧
        (a.run failed).retries.contains x .balance ∧
        (a.run failed).retries.contains x .unspent := by
    decide +kernel
  obtain ⟨a, opened, facts⟩ := Step.exists_ok_of_any answer
  obtain ⟨kept, tracked, balance, unspent⟩ := of_decide_eq_true facts
  have commits : succeeded.Commits (a.run failed) x .balance := ⟨rfl, kept⟩
  have commits' : succeeded.Commits (a.run failed) x .unspent := ⟨rfl, tracked⟩
  exact ⟨a, opened, commits, commits',
    (waits_after_commit commits).1.mpr ⟨balance, Bool.false_ne_true⟩,
    (waits_after_commit commits').1.mpr ⟨unspent, Bool.false_ne_true⟩⟩

/-- Both queries of a notification have failed. The answers to the next notification and those of
a full resync are taken in without a failure, and the requests are still in the queue. -/
theorem requests_left_waiting :
    let config : Config := { receivingGapLimit := 1, changeGapLimit := 1 }
    let x : Address := ⟨"receiving-0"⟩
    let failed : List Action :=
      [.startEvent x, .closeEvent x 1 (.error .timeout) (.error .timeout) 0, .startEvent x]
    let answered : Resync := { reports := [(x, []), (⟨"change-0"⟩, [])] }
    let waiting (a : Account) : List (Address × RetryKind) := a.retries.pending.map (·.query)
    ∃ a c d, ofConfig config (.numbered ∅ true) = .ok a ∧
      closeEvent x 2 (.ok 5) (.ok []) 0 (a.run failed) = .ok () c ∧
      (c.keychain.find? x).map (·.cache.reading) = some (.fresh 5 0) ∧
      waiting c = [(x, .balance), (x, .unspent)] ∧
      answered.close 0 (a.run failed) = .ok 0 d ∧
      waiting d = [(x, .balance), (x, .unspent)] := by
  intro config x failed answered waiting
  have answer : (ofConfig config (.numbered ∅ true)).toOption.any fun a =>
      match closeEvent x 2 (.ok 5) (.ok []) 0 (a.run failed), answered.close 0 (a.run failed) with
      | .ok _ c, .ok count d =>
        (c.keychain.find? x).map (·.cache.reading) = some (.fresh 5 0) ∧
          waiting c = [(x, .balance), (x, .unspent)] ∧ count = 0 ∧
          waiting d = [(x, .balance), (x, .unspent)]
      | _, _ => false := by
    decide +kernel
  obtain ⟨a, opened, facts⟩ := Step.exists_ok_of_any answer
  split at facts
  next c count d noted closed =>
      obtain ⟨fresh, left, rfl, left'⟩ := of_decide_eq_true facts
      exact ⟨a, c, d, opened, noted, fresh, left, closed, left'⟩
  next => cases facts

end Account

end HdWallet
