import HdWallet.KeySource.Scripted
import HdWallet.Proofs.Account.Run
import HdWallet.Proofs.Account.Waiting
import HdWallet.Proofs.Retry

/-!
# What becomes of the requests of a pass

A pass takes every request out of the queue and asks again, and in between anything may happen to
the account. It may end with a report, be cancelled, or end because an answer about unspent
outputs cannot be taken in. Each request that it took has one fate. Those that fail again and may
still succeed go back to the queue, and so do those that are not answered when the pass is
cancelled. But if an answer cannot be taken in, the requests that are not answered yet are lost,
and a request whose query breaks down is passed over: it goes nowhere and no report tells of it.
-/

namespace HdWallet

def RetryQueue.append (q : RetryQueue) (requests : List RetryRequest) : RetryQueue :=
  { q with pending := q.pending ++ requests }

theorem RetryQueue.append_nil (q : RetryQueue) : q.append [] = q := by
  rw [append, List.append_nil]

theorem RetryQueue.append_append (q : RetryQueue) (first rest : List RetryRequest) :
    (q.append first).append rest = q.append (first ++ rest) := by
  simp only [append, List.append_assoc]

/-- What becomes of a request that a pass took. -/
inductive Fate where
  /-- It was answered, and the answer was taken in. -/
  | answered
  /-- Its balance was answered, and the answer no longer counted. -/
  | discarded
  /-- It failed again and went back to the queue. -/
  | requeued (failure : SourceFailure)
  /-- It failed again and was given up. -/
  | dropped (failure : SourceFailure)
  /-- It was not answered and went back to the queue. -/
  | restored
  /-- Another request that asks the same stands for it. -/
  | represented
  /-- It was answered, and taking in the answer failed in the end. -/
  | severed (e : Failure)
  /-- It was not answered, and nothing is left of it. -/
  | lost
  /-- Its query broke down, and the pass went on without it. -/
  | skipped
deriving DecidableEq

namespace Fate

/-- Whether the request was tried and the outcome is what the report counts. -/
def isReported : Fate → Bool
  | answered | discarded | requeued _ | dropped _ => true
  | restored | represented | severed _ | lost | skipped => false

def isSuccess : Fate → Bool
  | answered | discarded => true
  | _ => false

def isRequeued : Fate → Bool
  | requeued _ => true
  | _ => false

/-- What the report says of a request that was given up. -/
def dropped? (address : Address) : Fate → Option AddressFailure
  | dropped failure => some ⟨address, failure⟩
  | _ => none

def returned? (r : RetryRequest) : Fate → Option RetryRequest
  | requeued failure => some (r.again failure)
  | restored => some r
  | _ => none

end Fate

/-- The report about requests with these fates. -/
def RetryReport.ofFates (fates : List (RetryRequest × Fate)) : RetryReport where
  succeeded := fates.countP (·.2.isSuccess)
  requeued := fates.countP (·.2.isRequeued)
  dropped := fates.filterMap fun (r, fate) => fate.dropped? r.address

/-- The requests among these that go back to the queue, as they go back. -/
def Fate.returned (fates : List (RetryRequest × Fate)) : List RetryRequest :=
  fates.filterMap fun (r, fate) => fate.returned? r

inductive Pass.Stage where
  /-- It waits for answers to the queries of one kind. Those about some addresses broke down: they
  ended without an answer. -/
  | asking (kind : RetryKind) (drain : Drain) (broken : List Address)
  /-- It has returned. -/
  | ended (result : Except Failure RetryReport)

/-- The requests that wait for their fates. -/
def Pass.Stage.outstanding : Stage → List RetryRequest
  | asking _ d _ => d.waiting.values ++ d.later
  | ended _ => []

/-- A pass over the queue of an account, with the fates of the requests so far. -/
structure Pass where
  account : Account
  stage : Pass.Stage
  fates : List (RetryRequest × Fate) := []

namespace Pass

inductive Move where
  /-- Anything else that is done to the account. -/
  | aside (action : Account.Action)
  | balance (address : Address) (reply : Reply Amount) (now : Timestamp)
  | unspent (address : Address) (reply : Reply (List Coin))
  /-- The query of a request breaks down. This is noted in the log and nowhere else. -/
  | breakDown (kind : RetryKind) (address : Address)
  /-- All queries of the present kind have ended. -/
  | proceed
  | cancel

/-- Whether a move is none of the pass itself. -/
def Move.isAside : Move → Bool
  | aside _ => true
  | balance .. | unspent .. | breakDown .. | proceed | cancel => false

/-- Requests that later ones about the same address stand for. -/
def standIns (requests : List RetryRequest) : List (RetryRequest × Fate) :=
  (Drain.overtaken ∅ requests).map (·, .represented)

/-- What becomes of requests that are put back untried. -/
def restoring (queue : RetryQueue) : List RetryRequest → List (RetryRequest × Fate)
  | [] => []
  | r :: rest =>
    (r, if queue.contains r.address r.kind then .represented else .restored) ::
      restoring (queue.restore r) rest

/-- What becomes of the requests that wait when the last query ends. -/
def passedOver (d : Drain) : List (RetryRequest × Fate) := d.waiting.values.map (·, .skipped)

def failing (queue : RetryQueue) (request : RetryRequest) (failure : SourceFailure) : Fate :=
  if queue.Retains request failure then .requeued failure else .dropped failure

def ofAccount (a : Account) : Pass :=
  match Drain.start a with
  | .error e a => ⟨a, .ended (.error e), []⟩
  | .ok none a => ⟨a, .ended (.ok {}), []⟩
  | .ok (some d) b => ⟨b, .asking .balance d [], standIns (a.retries.take .balance).2⟩

/-- Take in the answer to the balance query of a request that waits. -/
def absorbBalance (p : Pass) (d : Drain) (broken : List Address) (address : Address)
    (request : RetryRequest) (reply : Reply Amount) (now : Timestamp) : Pass :=
  let (account, drain) := d.absorbBalance address reply now p.account
  let fate : Fate :=
    match reply with
    | .ok balance =>
      if (p.account.recordBalance address balance d.ticket now).2 then .answered else .discarded
    | .error failure => failing p.account.retries request failure
  ⟨account, .asking .balance drain broken, p.fates ++ [(request, fate)]⟩

/-- Take in the answer to the query for unspent outputs of a request that waits. -/
def absorbUnspent (p : Pass) (d : Drain) (broken : List Address) (address : Address)
    (request : RetryRequest) (reply : Reply (List Coin)) : Pass :=
  match d.absorbUnspent address reply p.account with
  | .ok drain account =>
    let fate : Fate :=
      match reply with
      | .ok _ => .answered
      | .error failure => failing p.account.retries request failure
    ⟨account, .asking .unspent drain broken, p.fates ++ [(request, fate)]⟩
  | .error e account =>
    let unanswered := (d.waiting.erase address).values ++ d.later
    ⟨account, .ended (.error e),
      p.fates ++ (request, .severed e) :: unanswered.map (·, .lost)⟩

/-- What a move makes of a pass. A move that does not fit makes nothing. -/
def step (p : Pass) (move : Move) : Pass :=
  match move, p.stage with
  | .aside action, _ => { p with account := action.perform p.account }
  | .balance address reply now, .asking .balance d broken =>
    match d.waiting[address]? with
    | none => p
    | some request =>
      if address ∈ broken then p else p.absorbBalance d broken address request reply now
  | .unspent address reply, .asking .unspent d broken =>
    match d.waiting[address]? with
    | none => p
    | some request =>
      if address ∈ broken then p else p.absorbUnspent d broken address request reply
  | .breakDown kind address, .asking asked d broken =>
    if kind = asked ∧ d.waiting.contains address then
      { p with stage := .asking asked d (address :: broken) }
    else p
  -- The last query has ended. Whether requests still wait is not looked at.
  | .proceed, .asking .balance d broken =>
    if ∀ address ∈ d.addresses, address ∈ broken then
      { p with
        stage := .asking .unspent d.turn []
        fates := p.fates ++ (passedOver d ++ standIns d.later) }
    else p
  | .proceed, .asking .unspent d broken =>
    if ∀ address ∈ d.addresses, address ∈ broken then
      { p with stage := .ended (.ok d.report), fates := p.fates ++ passedOver d }
    else p
  | .cancel, .asking _ d _ =>
    ⟨d.abandon p.account, .ended (.error .cancelled),
      p.fates ++ restoring p.account.retries (d.waiting.values ++ d.later)⟩
  | _, _ => p

def run (p : Pass) (moves : List Move) : Pass := moves.foldl step p

section Reports

variable {fates : List (RetryRequest × Fate)}

theorem ofFates_append (first rest : List (RetryRequest × Fate)) :
    RetryReport.ofFates (first ++ rest) = {
      succeeded := (RetryReport.ofFates first).succeeded + (RetryReport.ofFates rest).succeeded
      requeued := (RetryReport.ofFates first).requeued + (RetryReport.ofFates rest).requeued
      dropped := (RetryReport.ofFates first).dropped ++ (RetryReport.ofFates rest).dropped } := by
  simp only [RetryReport.ofFates, List.countP_append, List.filterMap_append]

/-- A report says nothing of fates that it does not count. -/
theorem ofFates_map {fate : Fate} (uncounted : fate.isReported = false)
    (requests : List RetryRequest) : RetryReport.ofFates (requests.map (·, fate)) = {} := by
  induction requests with
  | nil => rfl
  | cons r rest ih =>
      rw [List.map_cons, ← List.singleton_append, ofFates_append, ih]
      cases fate with
      | answered | discarded | requeued | dropped => cases uncounted
      | restored | represented | severed | lost | skipped => rfl

theorem ofFates_standIns (requests : List RetryRequest) :
    RetryReport.ofFates (standIns requests) = {} := ofFates_map rfl _

theorem ofFates_passedOver (d : Drain) : RetryReport.ofFates (passedOver d) = {} :=
  ofFates_map rfl _

theorem ofFates_append_success (request : RetryRequest) {fate : Fate}
    (success : fate.isSuccess) :
    RetryReport.ofFates (fates ++ [(request, fate)]) =
      { RetryReport.ofFates fates with
        succeeded := (RetryReport.ofFates fates).succeeded + 1 } := by
  cases fate with
  | answered | discarded =>
      simp [RetryReport.ofFates, Fate.isSuccess, Fate.isRequeued, Fate.dropped?]
  | requeued | dropped | restored | represented | severed | lost | skipped => cases success

/-- A report counts every request once, unless another stood for it or its query broke down. -/
theorem total_ofFates
    (reported : ∀ f ∈ fates, f.2.isReported ∨ f.2 = .represented ∨ f.2 = .skipped) :
    let report := RetryReport.ofFates fates
    report.succeeded + report.requeued + report.dropped.length +
      fates.countP (·.2 = .represented) + fates.countP (·.2 = .skipped) = fates.length := by
  induction fates with
  | nil => rfl
  | cons f rest ih =>
      have later := ih fun g listed => reported g (List.mem_cons_of_mem _ listed)
      have here := reported f List.mem_cons_self
      obtain ⟨r, fate⟩ := f
      rw [← List.singleton_append, ofFates_append]
      simp only [RetryReport.ofFates, List.length_append, List.countP_append] at later ⊢
      cases fate with
      | answered | discarded | requeued | dropped | represented | skipped =>
          simp [Fate.isSuccess, Fate.isRequeued, Fate.dropped?] at later ⊢
          omega
      | restored | severed | lost => simp [Fate.isReported] at here

/-- A request that failed again is put back or given up as its fate says. -/
theorem requeue_eq (d : Drain) (request : RetryRequest) (failure : SourceFailure) (a : Account)
    (reported : d.report = RetryReport.ofFates fates) :
    let decided := [(request, failing a.retries request failure)]
    d.requeue request failure a =
      ({ a with retries := a.retries.append (Fate.returned decided) },
        { d with report := RetryReport.ofFates (fates ++ decided) }) := by
  intro decided
  rw [Drain.requeue, RetryQueue.requeue_eq, ofFates_append, ← reported]
  by_cases retained : a.retries.Retains request failure
  · have fate : decided = [(request, .requeued failure)] := by
      show [(request, failing a.retries request failure)] = _
      rw [failing, if_pos retained]
    rw [if_pos retained, fate]
    simp [RetryReport.ofFates, Fate.isSuccess, Fate.isRequeued, Fate.dropped?, Fate.returned,
      Fate.returned?, RetryQueue.append]
  · have fate : decided = [(request, .dropped failure)] := by
      show [(request, failing a.retries request failure)] = _
      rw [failing, if_neg retained]
    rw [if_neg retained, fate]
    simp [RetryReport.ofFates, Fate.isSuccess, Fate.isRequeued, Fate.dropped?, Fate.returned,
      Fate.returned?, RetryQueue.append]

theorem foldl_restore (queue : RetryQueue) (requests : List RetryRequest) :
    requests.foldl RetryQueue.restore queue =
      queue.append (Fate.returned (restoring queue requests)) := by
  induction requests generalizing queue with
  | nil => exact queue.append_nil.symm
  | cons r rest ih =>
      rw [List.foldl_cons, ih, restoring]
      by_cases waits : queue.contains r.address r.kind
      · simp [RetryQueue.restore, waits, Fate.returned, Fate.returned?]
      · have restored : queue.restore r = queue.append [r] := by
          rw [RetryQueue.restore, if_neg waits]
          rfl
        rw [restored, if_neg waits, RetryQueue.append_append]
        rfl

theorem map_restoring (queue : RetryQueue) (requests : List RetryRequest) :
    (restoring queue requests).map (·.1) = requests := by
  induction requests generalizing queue with
  | nil => rfl
  | cons r rest ih => rw [restoring, List.map_cons, ih]

theorem fate_of_mem_restoring {queue : RetryQueue} {requests : List RetryRequest}
    {f : RetryRequest × Fate} (listed : f ∈ restoring queue requests) :
    f.2 = .represented ∨ f.2 = .restored := by
  induction requests generalizing queue with
  | nil => cases listed
  | cons r rest ih =>
      obtain rfl | later := List.mem_cons.mp listed
      · dsimp only
        split
        next => exact .inl rfl
        next => exact .inr rfl
      · exact ih later

end Reports

/-- Some fates are decided by a move that is not made aside, and what they say goes back to the
queue is what the move puts there. -/
def Decides (p next : Pass) (decided : List (RetryRequest × Fate)) : Prop :=
  next.fates = p.fates ++ decided ∧
    next.account.retries = p.account.retries.append (Fate.returned decided)

theorem decides_nothing (p : Pass) : p.Decides p [] := by
  constructor
  · exact (List.append_nil _).symm
  · exact (RetryQueue.append_nil _).symm

/-- Requests do not go back if their fate does not send them back. -/
theorem returned_map {fate : Fate} (stays : ∀ r, fate.returned? r = none)
    (requests : List RetryRequest) : Fate.returned (requests.map (·, fate)) = [] := by
  rw [Fate.returned, List.filterMap_map]
  exact List.filterMap_eq_nil_iff.mpr fun r _ => stays r

theorem returned_append (first rest : List (RetryRequest × Fate)) :
    Fate.returned (first ++ rest) = Fate.returned first ++ Fate.returned rest :=
  List.filterMap_append

theorem retries_recordBalance (a : Account) (address : Address) (balance : Amount) (ticket : Nat)
    (now : Timestamp) : (a.recordBalance address balance ticket now).1.retries = a.retries := by
  rw [Account.recordBalance]
  split
  next => rfl
  next => rfl

theorem isReported_failing (queue : RetryQueue) (request : RetryRequest)
    (failure : SourceFailure) : (failing queue request failure).isReported := by
  rw [failing]
  split
  next => rfl
  next => rfl

theorem returned_of_success (request : RetryRequest) {fate : Fate} (success : fate.isSuccess) :
    Fate.returned [(request, fate)] = [] := by
  cases fate with
  | answered | discarded => rfl
  | requeued | dropped | restored | represented | severed | lost | skipped => cases success

/-- A request that waited for a balance gets its fate. -/
theorem absorbBalance_spec (p : Pass) {d : Drain} {address : Address} {request : RetryRequest}
    (waits : d.waiting[address]? = some request) (reported : d.report = .ofFates p.fates)
    (broken : List Address) (reply : Reply Amount) (now : Timestamp) :
    let next := p.absorbBalance d broken address request reply now
    ∃ fate : Fate, fate.isReported ∧ p.Decides next [(request, fate)] ∧
      next.stage = .asking .balance { d with
        waiting := d.waiting.erase address, report := .ofFates next.fates } broken := by
  cases reply with
  | ok balance =>
      simp only [absorbBalance, Drain.absorbBalance, waits]
      generalize hfate : (if (p.account.recordBalance address balance d.ticket now).2 = true
        then Fate.answered else .discarded) = fate
      have success : fate.isSuccess := by
        rw [← hfate]
        split <;> rfl
      refine ⟨fate, ?_, ⟨rfl, ?_⟩, ?_⟩
      · rw [← hfate]
        split <;> rfl
      · rw [returned_of_success request success, RetryQueue.append_nil]
        exact retries_recordBalance _ _ _ _ _
      · rw [ofFates_append_success request success, ← reported]
        rfl
  | error failure =>
      simp only [absorbBalance, Drain.absorbBalance, waits]
      have requeued := requeue_eq { d with waiting := d.waiting.erase address } request failure
        p.account reported
      rw [requeued]
      exact ⟨_, isReported_failing _ _ _, ⟨rfl, rfl⟩, rfl⟩

/-- A request that waited for unspent outputs gets its fate, or taking in the answer ends the
pass. -/
theorem absorbUnspent_spec (p : Pass) {d : Drain} {address : Address} {request : RetryRequest}
    (waits : d.waiting[address]? = some request) (reported : d.report = .ofFates p.fates)
    (broken : List Address) (reply : Reply (List Coin)) :
    let next := p.absorbUnspent d broken address request reply
    (∃ fate : Fate, fate.isReported ∧ p.Decides next [(request, fate)] ∧
      next.stage = .asking .unspent { d with
        waiting := d.waiting.erase address, report := .ofFates next.fates } broken) ∨
    ∃ e, p.Decides next ((request, .severed e) ::
      ((d.waiting.erase address).values ++ d.later).map (·, .lost)) ∧
      next.stage = .ended (.error e) := by
  intro next
  cases reply with
  | ok coins =>
      have spec : (d.absorbUnspent address (.ok coins)).wp
          (fun drain b => drain = Drain.succeed { d with waiting := d.waiting.erase address } ∧
            b.retries = p.account.retries)
          (fun _ b => b.retries = p.account.retries) p.account := by
        simp only [Drain.absorbUnspent, waits, Step.wp_bind, Step.wp_discard, Step.wp_pure]
        exact (Account.keeps_onHoldings_retries _ _ p.account rfl).mono
          (fun _ _ same => ⟨trivial, same⟩) fun _ _ same => same
      cases taken : d.absorbUnspent address (.ok coins) p.account with
      | ok drain b =>
          obtain ⟨rfl, same⟩ := spec.of_ok taken
          have hnext : next = ⟨b, .asking .unspent (Drain.succeed { d with
              waiting := d.waiting.erase address }) broken,
              p.fates ++ [(request, .answered)]⟩ := by
            show p.absorbUnspent d broken address request (.ok coins) = _
            rw [absorbUnspent, taken]
          rw [hnext]
          refine .inl ⟨.answered, rfl, ⟨rfl, ?_⟩, ?_⟩
          · rw [returned_of_success request rfl, RetryQueue.append_nil]
            exact same
          · rw [ofFates_append_success request rfl, ← reported]
            rfl
      | error e b =>
          have nothing : Fate.returned ((request, .severed e) ::
              ((d.waiting.erase address).values ++ d.later).map (·, .lost)) = [] := by
            exact (List.filterMap_cons_none rfl).trans (returned_map (fun _ => rfl) _)
          have hnext : next = ⟨b, .ended (.error e), p.fates ++ (request, .severed e) ::
              ((d.waiting.erase address).values ++ d.later).map (·, .lost)⟩ := by
            show p.absorbUnspent d broken address request (.ok coins) = _
            rw [absorbUnspent, taken]
          rw [hnext]
          refine .inr ⟨e, ⟨rfl, ?_⟩, rfl⟩
          rw [nothing, RetryQueue.append_nil]
          exact spec.of_error taken
  | error failure =>
      let rest : Drain := { d with waiting := d.waiting.erase address }
      have requeued := requeue_eq rest request failure p.account reported
      have taken : d.absorbUnspent address (.error failure) p.account =
          .ok (rest.requeue request failure p.account).2
            (rest.requeue request failure p.account).1 := by
        rw [Drain.absorbUnspent, waits]
        rfl
      have hnext : next = ⟨(rest.requeue request failure p.account).1,
          .asking .unspent (rest.requeue request failure p.account).2 broken,
          p.fates ++ [(request, failing p.account.retries request failure)]⟩ := by
        show p.absorbUnspent d broken address request (.error failure) = _
        rw [absorbUnspent, taken]
      rw [hnext, requeued]
      exact .inl ⟨_, isReported_failing _ _ _, ⟨rfl, rfl⟩, rfl⟩

/-- Every fate so far is one that the report counts, unless the queue held two requests that ask
the same or a query broke down. -/
def Settled (q : RetryQueue) (fates : List (RetryRequest × Fate)) : Prop :=
  ∀ f ∈ fates, f.2.isReported ∨ f.2 = .represented ∧ ¬q.Unique ∨ f.2 = .skipped

/-- What the fates of the requests of a queue say about the result of a pass over it. -/
def Explains (q : RetryQueue) (fates : List (RetryRequest × Fate)) :
    Except Failure RetryReport → Prop
  | .ok report => report = .ofFates fates ∧ Settled q fates
  | .error e =>
    e = .cancelled ∧
      (∀ f ∈ fates,
        f.2.isReported ∨ f.2 = .represented ∨ f.2 = .skipped ∨ f.2 = .restored) ∨
      ∃ before request, ∃ unanswered : List RetryRequest, Settled q before ∧
        fates = before ++ (request, .severed e) :: unanswered.map (·, .lost)

/-- What is known while a pass waits, and at its end. -/
def Stage.Explained (q : RetryQueue) (fates : List (RetryRequest × Fate)) : Stage → Prop
  | asking kind d _ =>
    d.report = .ofFates fates ∧ Settled q fates ∧
      d.later = if kind = .balance then q.pending.filter (·.kind == .unspent) else []
  | ended result => Explains q fates result

/-- Every request of a queue has one fate or waits for it. -/
structure Accounted (q : RetryQueue) (p : Pass) : Prop where
  perm : (p.fates.map (·.1) ++ p.stage.outstanding).Perm q.pending
  explained : p.stage.Explained q p.fates

theorem Settled.append {q : RetryQueue} {first rest : List (RetryRequest × Fate)}
    (hfirst : Settled q first) (hrest : Settled q rest) : Settled q (first ++ rest) := by
  intro f listed
  obtain listed | listed := List.mem_append.mp listed
  · exact hfirst f listed
  · exact hrest f listed

theorem settled_singleton {q : RetryQueue} (request : RetryRequest) {fate : Fate}
    (reported : fate.isReported) : Settled q [(request, fate)] := by
  intro f listed
  cases List.mem_singleton.mp listed
  exact .inl reported

theorem settled_passedOver (q : RetryQueue) (d : Drain) : Settled q (passedOver d) := by
  intro f listed
  obtain ⟨_, _, rfl⟩ := List.mem_map.mp listed
  exact .inr (.inr rfl)

/-- Requests of one kind that stand for others show that the queue held doubles. -/
theorem settled_standIns (q : RetryQueue) (kind : RetryKind) :
    Settled q (standIns (q.pending.filter (·.kind == kind))) := by
  intro f listed
  obtain ⟨request, overtaken, rfl⟩ := List.mem_map.mp listed
  refine .inr (.inl ⟨rfl, ?_⟩)
  intro unique
  let requests := q.pending.filter (·.kind == kind)
  have queries : requests.map (·.query) = requests.map fun r => (r.address, kind) := by
    apply List.map_congr_left
    intro r hr
    rw [RetryRequest.query, eq_of_beq (List.mem_filter.mp hr).2]
  have distinct : (requests.map (·.address)).Nodup := by
    have apart : (requests.map (·.query)).Nodup := unique.sublist (List.filter_sublist.map _)
    rw [queries] at apart
    exact List.Nodup.of_map (·, kind) (by rwa [List.map_map])
  have free (r : RetryRequest) : (∅ : Std.ExtTreeMap Address RetryRequest)[r.address]? = none :=
    Std.ExtTreeMap.getElem?_empty
  rw [Drain.overtaken_eq_nil distinct fun r _ => free r] at overtaken
  cases overtaken

def balanceRequests (q : RetryQueue) : List RetryRequest :=
  q.pending.filter (·.kind == .balance)

def unspentRequests (q : RetryQueue) : List RetryRequest :=
  q.pending.filter (·.kind == .unspent)

theorem perm_requests (q : RetryQueue) :
    (balanceRequests q ++ unspentRequests q).Perm q.pending := by
  have others : unspentRequests q = q.pending.filter (!·.kind == .balance) := by
    apply List.filter_congr
    intro r _
    cases r.kind <;> rfl
  rw [balanceRequests, others]
  exact List.filter_append_perm _ _

theorem take_balance (q : RetryQueue) : (q.take .balance).2 = balanceRequests q := by
  rw [RetryQueue.take, List.partition_eq_filter_filter]
  rfl

/-- A pass takes all requests, and the queue is empty at first. -/
theorem start_eq (a : Account) :
    Drain.start a = .ok
      (if (balanceRequests a.retries).isEmpty && (unspentRequests a.retries).isEmpty then none
        else some {
          ticket := a.tickets + 1
          waiting := Drain.byAddress (balanceRequests a.retries)
          later := unspentRequests a.retries })
      { a with retries := { a.retries with pending := [] }, tickets := a.tickets + 1 } := by
  have rest : (a.retries.take .balance).1.take .unspent =
      ({ a.retries with pending := [] }, unspentRequests a.retries) := by
    simp only [RetryQueue.take, List.partition_eq_filter_filter, List.filter_filter]
    congr 2
    · rw [List.filter_eq_nil_iff]
      intro r _
      cases kind : r.kind <;> simp [kind]
    · funext r
      cases kind : r.kind <;> simp [kind]
  rw [Step.eq_ok_iff]
  simp only [Drain.start, Account.issueTicket, Step.wp_bind, Step.wp_get, Step.wp_modify,
    Step.wp_pure, rest, take_balance]
  split
  next none_taken => exact ⟨rfl, rfl⟩
  next some_taken => exact ⟨rfl, rfl⟩

theorem map_standIns (requests : List RetryRequest) :
    (standIns requests).map (·.1) = Drain.overtaken ∅ requests := by
  rw [standIns, List.map_map]
  exact List.map_id _

theorem map_passedOver (d : Drain) : (passedOver d).map (·.1) = d.waiting.values := by
  rw [passedOver, List.map_map]
  exact List.map_id _

theorem accounted_ofAccount (a : Account) : (ofAccount a).Accounted a.retries := by
  have all := perm_requests a.retries
  rw [ofAccount, start_eq]
  cases empty : (balanceRequests a.retries).isEmpty && (unspentRequests a.retries).isEmpty with
  | true =>
      obtain ⟨balances, unspent⟩ := Bool.and_eq_true_iff.mp empty
      rw [List.isEmpty_iff.mp balances, List.isEmpty_iff.mp unspent] at all
      exact ⟨all, rfl, fun _ listed => absurd listed List.not_mem_nil⟩
  | false =>
      rw [if_neg Bool.false_ne_true, take_balance]
      constructor
      · show ((standIns _).map (·.1) ++ ((Drain.byAddress _).values ++ _)).Perm _
        rw [map_standIns, ← List.append_assoc]
        have grouped := Drain.perm_byAddress (balanceRequests a.retries)
        exact ((List.perm_append_comm.trans grouped).append_right _).trans all
      · exact ⟨(ofFates_standIns _).symm, settled_standIns _ _, rfl⟩

/-- A request that is decided no longer waits. -/
theorem perm_decided {waiting : Std.ExtTreeMap Address RetryRequest} {address : Address}
    {request : RetryRequest} (waits : waiting[address]? = some request)
    (fates : List (RetryRequest × Fate)) (fate : Fate) (later : List RetryRequest) :
    ((fates ++ [(request, fate)]).map (·.1) ++ ((waiting.erase address).values ++ later)).Perm
      (fates.map (·.1) ++ (waiting.values ++ later)) := by
  rw [List.map_append, List.append_assoc]
  apply List.Perm.append_left
  exact ((Drain.perm_values_erase waits).append_right later).symm

theorem Accounted.reported {q : RetryQueue} {p : Pass} (h : p.Accounted q) {kind : RetryKind}
    {d : Drain} {broken : List Address} (stage : p.stage = .asking kind d broken) :
    d.report = .ofFates p.fates := by
  have explained := h.explained
  rw [stage] at explained
  exact explained.1

theorem Accounted.absorbBalance {q : RetryQueue} {p : Pass} {d : Drain} {broken : List Address}
    (h : p.Accounted q) (stage : p.stage = .asking .balance d broken) {address : Address}
    {request : RetryRequest} (waits : d.waiting[address]? = some request) (reply : Reply Amount)
    (now : Timestamp) : (p.absorbBalance d broken address request reply now).Accounted q := by
  obtain ⟨perm, explained⟩ := h
  rw [stage] at perm explained
  obtain ⟨reported, settled, later⟩ := explained
  obtain ⟨fate, counted, ⟨fates, -⟩, next⟩ := p.absorbBalance_spec waits reported broken reply now
  constructor
  · rw [next, fates]
    exact (perm_decided waits _ _ _).trans perm
  · rw [next]
    refine ⟨rfl, ?_, later⟩
    rw [fates]
    exact settled.append (settled_singleton request counted)

theorem Accounted.absorbUnspent {q : RetryQueue} {p : Pass} {d : Drain} {broken : List Address}
    (h : p.Accounted q) (stage : p.stage = .asking .unspent d broken) {address : Address}
    {request : RetryRequest} (waits : d.waiting[address]? = some request)
    (reply : Reply (List Coin)) : (p.absorbUnspent d broken address request reply).Accounted q := by
  obtain ⟨perm, explained⟩ := h
  rw [stage] at perm explained
  obtain ⟨reported, settled, later⟩ := explained
  obtain ⟨fate, counted, ⟨fates, -⟩, next⟩ | ⟨e, ⟨fates, -⟩, next⟩ :=
    p.absorbUnspent_spec waits reported broken reply
  · constructor
    · rw [next, fates]
      exact (perm_decided waits _ _ _).trans perm
    · rw [next]
      refine ⟨rfl, ?_, later⟩
      rw [fates]
      exact settled.append (settled_singleton request counted)
  · constructor
    · rw [next, fates]
      have decided := (perm_decided waits p.fates (.severed e) d.later).trans perm
      simpa [Stage.outstanding, Function.comp_def] using decided
    · rw [next, fates]
      exact .inr ⟨p.fates, request, _, settled, rfl⟩

/-- The pass turns to unspent outputs, without the balance requests whose queries broke down. -/
theorem Accounted.turn {q : RetryQueue} {p : Pass} {d : Drain} {broken : List Address}
    (h : p.Accounted q) (stage : p.stage = .asking .balance d broken) :
    Accounted q { p with
      stage := .asking .unspent d.turn []
      fates := p.fates ++ (passedOver d ++ standIns d.later) } := by
  obtain ⟨perm, explained⟩ := h
  rw [stage] at perm explained
  obtain ⟨reported, settled, later⟩ := explained
  rw [if_pos rfl] at later
  constructor
  · show (List.map (fun f : RetryRequest × Fate => f.1)
      (p.fates ++ (passedOver d ++ standIns d.later)) ++
        ((Drain.byAddress d.later).values ++ [])).Perm _
    rw [List.map_append, List.map_append, map_passedOver, map_standIns, List.append_nil,
      List.append_assoc, List.append_assoc]
    have grouped := List.perm_append_comm.trans (Drain.perm_byAddress d.later)
    exact ((grouped.append_left _).append_left _).trans perm
  · refine ⟨?_, settled.append ((settled_passedOver q d).append ?_), rfl⟩
    · rw [ofFates_append, ofFates_append, ofFates_passedOver, ofFates_standIns, ← reported]
      simp [Drain.turn]
    · rw [later]
      exact settled_standIns q .unspent

/-- The pass returns its report, without the requests whose queries broke down. -/
theorem Accounted.finish {q : RetryQueue} {p : Pass} {d : Drain} {broken : List Address}
    (h : p.Accounted q) (stage : p.stage = .asking .unspent d broken) :
    Accounted q { p with
      stage := .ended (.ok d.report)
      fates := p.fates ++ passedOver d } := by
  obtain ⟨perm, explained⟩ := h
  rw [stage] at perm explained
  obtain ⟨reported, settled, later⟩ := explained
  rw [if_neg nofun] at later
  constructor
  · show (List.map (fun f : RetryRequest × Fate => f.1) (p.fates ++ passedOver d) ++ []).Perm _
    rw [Stage.outstanding, later, List.append_nil] at perm
    rwa [List.map_append, map_passedOver, List.append_nil]
  · refine ⟨?_, settled.append (settled_passedOver q d)⟩
    rw [ofFates_append, ofFates_passedOver, ← reported]
    simp

theorem Accounted.cancel {q : RetryQueue} {p : Pass} {kind : RetryKind} {d : Drain}
    {broken : List Address} (h : p.Accounted q) (stage : p.stage = .asking kind d broken) :
    Accounted q ⟨d.abandon p.account, .ended (.error .cancelled),
      p.fates ++ restoring p.account.retries (d.waiting.values ++ d.later)⟩ := by
  obtain ⟨perm, explained⟩ := h
  rw [stage] at perm explained
  obtain ⟨-, settled, -⟩ := explained
  constructor
  · show (List.map (fun f : RetryRequest × Fate => f.1) (p.fates ++ restoring _ _) ++ []).Perm _
    rw [List.map_append, map_restoring, List.append_nil]
    exact perm
  · refine .inl ⟨rfl, ?_⟩
    intro f listed
    obtain listed | listed := List.mem_append.mp listed
    · obtain counted | ⟨represented, -⟩ | skipped := settled f listed
      · exact .inl counted
      · exact .inr (.inl represented)
      · exact .inr (.inr (.inl skipped))
    · obtain represented | restored := fate_of_mem_restoring listed
      · exact .inr (.inl represented)
      · exact .inr (.inr (.inr restored))

/-- What a move can make of a pass. -/
inductive Makes (p : Pass) : Move → Pass → Prop where
  | nothing (move : Move) : Makes p move p
  | aside (action : Account.Action) :
    Makes p (.aside action) { p with account := action.perform p.account }
  | balance {d : Drain} {broken : List Address} {address : Address} {request : RetryRequest}
      (stage : p.stage = .asking .balance d broken) (waits : d.waiting[address]? = some request)
      (reply : Reply Amount) (now : Timestamp) :
    Makes p (.balance address reply now) (p.absorbBalance d broken address request reply now)
  | unspent {d : Drain} {broken : List Address} {address : Address} {request : RetryRequest}
      (stage : p.stage = .asking .unspent d broken) (waits : d.waiting[address]? = some request)
      (reply : Reply (List Coin)) :
    Makes p (.unspent address reply) (p.absorbUnspent d broken address request reply)
  | breakDown {kind : RetryKind} {d : Drain} {broken : List Address}
      (stage : p.stage = .asking kind d broken) (address : Address) :
    Makes p (.breakDown kind address) { p with stage := .asking kind d (address :: broken) }
  | turn {d : Drain} {broken : List Address} (stage : p.stage = .asking .balance d broken)
      (idle : ∀ address ∈ d.addresses, address ∈ broken) :
    Makes p .proceed { p with
      stage := .asking .unspent d.turn []
      fates := p.fates ++ (passedOver d ++ standIns d.later) }
  | finish {d : Drain} {broken : List Address} (stage : p.stage = .asking .unspent d broken)
      (idle : ∀ address ∈ d.addresses, address ∈ broken) :
    Makes p .proceed { p with
      stage := .ended (.ok d.report)
      fates := p.fates ++ passedOver d }
  | cancel {kind : RetryKind} {d : Drain} {broken : List Address}
      (stage : p.stage = .asking kind d broken) :
    Makes p .cancel ⟨d.abandon p.account, .ended (.error .cancelled),
      p.fates ++ restoring p.account.retries (d.waiting.values ++ d.later)⟩

theorem makes_step (p : Pass) (move : Move) : p.Makes move (p.step move) := by
  obtain ⟨account, stage, fates⟩ := p
  cases stage with
  | ended result =>
      cases move with
      | aside action => exact .aside action
      | balance | unspent | breakDown | proceed | cancel => exact .nothing _
  | asking kind d broken =>
      cases move with
      | aside action => exact .aside action
      | balance address reply now =>
          cases kind with
          | unspent => exact .nothing _
          | balance =>
              simp only [step]
              split
              next => exact .nothing _
              next request waits =>
                  split
                  next => exact .nothing _
                  next => exact .balance rfl waits reply now
      | unspent address reply =>
          cases kind with
          | balance => exact .nothing _
          | unspent =>
              simp only [step]
              split
              next => exact .nothing _
              next request waits =>
                  split
                  next => exact .nothing _
                  next => exact .unspent rfl waits reply
      | breakDown asked address =>
          simp only [step]
          split
          next fits =>
              obtain ⟨rfl, -⟩ := fits
              exact .breakDown rfl address
          next => exact .nothing _
      | proceed =>
          cases kind with
          | balance =>
              simp only [step]
              split
              next idle => exact .turn rfl idle
              next => exact .nothing _
          | unspent =>
              simp only [step]
              split
              next idle => exact .finish rfl idle
              next => exact .nothing _
      | cancel => exact .cancel rfl

theorem Accounted.step {q : RetryQueue} {p : Pass} (h : p.Accounted q) (move : Move) :
    (p.step move).Accounted q := by
  have made := p.makes_step move
  generalize p.step move = next at made ⊢
  cases made with
  | nothing => exact h
  | aside action => exact ⟨h.perm, h.explained⟩
  | balance stage waits reply now => exact h.absorbBalance stage waits reply now
  | unspent stage waits reply => exact h.absorbUnspent stage waits reply
  | breakDown stage address =>
      obtain ⟨perm, explained⟩ := h
      rw [stage] at perm explained
      exact ⟨perm, explained⟩
  | turn stage idle => exact h.turn stage
  | finish stage idle => exact h.finish stage
  | cancel stage => exact h.cancel stage

theorem accounted_run (a : Account) (moves : List Move) :
    ((ofAccount a).run moves).Accounted a.retries := by
  have keeps {p : Pass} (h : p.Accounted a.retries) : (p.run moves).Accounted a.retries := by
    induction moves generalizing p with
    | nil => exact h
    | cons move rest ih => exact ih (h.step move)
  exact keeps (accounted_ofAccount a)

/-- What a move of the pass puts into the queue are the requests that it sends back. -/
theorem Accounted.decides_step {q : RetryQueue} {p : Pass} (h : p.Accounted q) {move : Move}
    (own : ¬move.isAside) : ∃ decided, p.Decides (p.step move) decided := by
  have made := p.makes_step move
  generalize p.step move = next at made ⊢
  cases made with
  | nothing => exact ⟨[], p.decides_nothing⟩
  | aside action => exact absurd rfl own
  | balance stage waits reply now =>
      obtain ⟨fate, -, decided, -⟩ :=
        p.absorbBalance_spec waits (h.reported stage) _ reply now
      exact ⟨_, decided⟩
  | unspent stage waits reply =>
      obtain ⟨fate, -, decided, -⟩ | ⟨e, decided, -⟩ :=
        p.absorbUnspent_spec waits (h.reported stage) _ reply
      · exact ⟨_, decided⟩
      · exact ⟨_, decided⟩
  | breakDown stage address => exact ⟨[], p.decides_nothing⟩
  | turn stage idle =>
      refine ⟨_, rfl, ?_⟩
      rw [returned_append, passedOver, standIns, returned_map fun _ => rfl,
        returned_map fun _ => rfl, List.append_nil, RetryQueue.append_nil]
  | finish stage idle =>
      refine ⟨_, rfl, ?_⟩
      rw [passedOver, returned_map fun _ => rfl, RetryQueue.append_nil]
  | cancel stage => exact ⟨_, rfl, foldl_restore _ _⟩

/-- A pass that some moves led to passes over requests whose queries they broke down, and no
others. -/
structure Traced (moves : List Move) (p : Pass) : Prop where
  skipped {r : RetryRequest} : (r, Fate.skipped) ∈ p.fates → .breakDown r.kind r.address ∈ moves
  broken {kind : RetryKind} {d : Drain} {broken : List Address} :
    p.stage = .asking kind d broken → ∀ address ∈ broken, .breakDown kind address ∈ moves
  filed {kind : RetryKind} {d : Drain} {broken : List Address} :
    p.stage = .asking kind d broken → ∀ (address : Address) (r : RetryRequest),
      d.waiting[address]? = some r → r.address = address ∧ r.kind = kind

/-- Requests of one kind wait under their own addresses. -/
theorem filed_byAddress (q : RetryQueue) (kind : RetryKind) (address : Address)
    (r : RetryRequest) :
    (Drain.byAddress (q.pending.filter (·.kind == kind)))[address]? = some r →
      r.address = address ∧ r.kind = kind :=
  Drain.forall_byAddress (P := fun address r => r.address = address ∧ r.kind = kind)
    fun _ listed => ⟨rfl, eq_of_beq (List.mem_filter.mp listed).2⟩

theorem skipped_notMem_standIns (requests : List RetryRequest) {r : RetryRequest} :
    (r, Fate.skipped) ∉ standIns requests := by
  intro listed
  obtain ⟨_, _, same⟩ := List.mem_map.mp listed
  cases same

/-- Nothing waits in a pass that has ended. -/
theorem Traced.of_ended {moves : List Move} {p : Pass} {result : Except Failure RetryReport}
    (stage : p.stage = .ended result)
    (skipped : ∀ r, (r, Fate.skipped) ∈ p.fates → .breakDown r.kind r.address ∈ moves) :
    p.Traced moves where
  skipped := skipped _
  broken asking := by
    rw [stage] at asking
    cases asking
  filed asking := by
    rw [stage] at asking
    cases asking

theorem traced_ofAccount (a : Account) : (ofAccount a).Traced [] := by
  rw [ofAccount, start_eq]
  split
  next failed => cases failed
  next none_taken =>
      split at none_taken
      next =>
          cases none_taken
          exact .of_ended rfl fun _ listed => absurd listed List.not_mem_nil
      next => cases none_taken
  next d b some_taken =>
      split at some_taken
      next => cases some_taken
      next =>
          cases some_taken
          constructor
          case skipped => exact fun listed => absurd listed (skipped_notMem_standIns _)
          case broken => rintro _ _ _ ⟨⟩ _ ⟨⟩
          case filed =>
              rintro _ _ _ ⟨⟩
              exact filed_byAddress a.retries .balance

namespace Traced

variable {q : RetryQueue} {p next : Pass} {moves : List Move}

theorem mono (h : p.Traced moves) (move : Move) : p.Traced (moves ++ [move]) where
  skipped listed := List.mem_append_left _ (h.skipped listed)
  broken stage address listed := List.mem_append_left _ (h.broken stage address listed)
  filed := h.filed

/-- A request that gets a fate of its own is not passed over. -/
theorem absorbed (h : p.Traced moves) {kind : RetryKind} {d : Drain} {broken : List Address}
    (stage : p.stage = .asking kind d broken) {request : RetryRequest} {fate : Fate}
    (counted : fate.isReported) (decides : p.Decides next [(request, fate)]) {address : Address}
    {report : RetryReport} (after : next.stage =
      .asking kind { d with waiting := d.waiting.erase address, report } broken) :
    next.Traced moves where
  skipped listed := by
    rw [decides.1, List.mem_append, List.mem_singleton] at listed
    obtain before | here := listed
    · exact h.skipped before
    · cases here
      cases counted
  broken stage' := by
    rw [after] at stage'
    cases stage'
    exact h.broken stage
  filed stage' := by
    rw [after] at stage'
    cases stage'
    intro other r waits
    rw [Drain.getElem?_erase] at waits
    split at waits
    next => cases waits
    next => exact h.filed stage other r waits

/-- A pass that passes over requests does so after their queries broke down. -/
theorem breakDown_of_passedOver (h : p.Traced moves) {kind : RetryKind} {d : Drain}
    {broken : List Address} (stage : p.stage = .asking kind d broken)
    (idle : ∀ address ∈ d.addresses, address ∈ broken) {r : RetryRequest}
    (listed : (r, Fate.skipped) ∈ passedOver d) : .breakDown r.kind r.address ∈ moves := by
  obtain ⟨_, waiting, ⟨⟩⟩ := List.mem_map.mp listed
  obtain ⟨address, waits⟩ := Drain.mem_values.mp waiting
  obtain ⟨rfl, rfl⟩ := h.filed stage address r waits
  have asked : r.address ∈ d.addresses := by
    rw [Drain.addresses, Std.ExtTreeMap.mem_keys, Std.ExtTreeMap.mem_iff_isSome_getElem?, waits]
    rfl
  exact h.broken stage r.address (idle _ asked)

theorem turn (h : p.Traced moves) (accounted : p.Accounted q) {d : Drain} {broken : List Address}
    (stage : p.stage = .asking .balance d broken)
    (idle : ∀ address ∈ d.addresses, address ∈ broken) :
    Traced moves { p with
      stage := .asking .unspent d.turn []
      fates := p.fates ++ (passedOver d ++ standIns d.later) } := by
  have explained := accounted.explained
  rw [stage] at explained
  constructor
  case skipped =>
      intro r listed
      obtain before | listed := List.mem_append.mp listed
      · exact h.skipped before
      · obtain here | stands := List.mem_append.mp listed
        · exact h.breakDown_of_passedOver stage idle here
        · exact absurd stands (skipped_notMem_standIns _)
  case broken => rintro _ _ _ ⟨⟩ _ ⟨⟩
  case filed =>
      rintro _ _ _ ⟨⟩
      rw [Drain.turn, explained.2.2]
      exact filed_byAddress q .unspent

theorem step (h : p.Traced moves) (accounted : p.Accounted q) (move : Move) :
    (p.step move).Traced (moves ++ [move]) := by
  have made := p.makes_step move
  have later := h.mono move
  generalize p.step move = next at made ⊢
  cases made with
  | nothing => exact later
  | aside action => exact ⟨later.skipped, later.broken, later.filed⟩
  | balance stage waits reply now =>
      obtain ⟨fate, counted, decides, after⟩ :=
        p.absorbBalance_spec waits (accounted.reported stage) _ reply now
      exact later.absorbed stage counted decides after
  | unspent stage waits reply =>
      obtain ⟨fate, counted, decides, after⟩ | ⟨e, ⟨fates, -⟩, after⟩ :=
        p.absorbUnspent_spec waits (accounted.reported stage) _ reply
      · exact later.absorbed stage counted decides after
      · apply of_ended after
        intro r listed
        rw [fates] at listed
        obtain before | here := List.mem_append.mp listed
        · exact later.skipped before
        · simp at here
  | @breakDown kind d broken stage address =>
      constructor
      case skipped => exact later.skipped
      case broken =>
          rintro _ _ _ ⟨⟩ other listed
          obtain rfl | before := List.mem_cons.mp listed
          · exact List.mem_append_right _ List.mem_cons_self
          · exact later.broken stage other before
      case filed =>
          rintro _ _ _ ⟨⟩
          exact h.filed stage
  | turn stage idle => exact later.turn accounted stage idle
  | finish stage idle =>
      apply of_ended rfl
      intro r listed
      obtain before | here := List.mem_append.mp listed
      · exact later.skipped before
      · exact later.breakDown_of_passedOver stage idle here
  | cancel stage =>
      apply of_ended rfl
      intro r listed
      obtain before | here := List.mem_append.mp listed
      · exact later.skipped before
      · obtain represented | restored := fate_of_mem_restoring here
        · cases represented
        · cases restored

end Traced

theorem traced_run (a : Account) (moves : List Move) : ((ofAccount a).run moves).Traced moves := by
  induction moves using List.reverseRecOn with
  | nil => exact traced_ofAccount a
  | append_singleton moves move ih =>
      rw [run, List.foldl_append]
      exact ih.step (accounted_run a moves) move

/-- Whatever the source answers, whichever queries break down, whatever else happens to the account
and wherever the pass is cancelled: each request that the pass took waits or has one fate, and at
the end each has one. A report counts all of them, where no two requests asked the same, except
those whose queries broke down. A pass without a report was cancelled, and then put back what was
not answered, or an answer about unspent outputs could not be taken in, and then the requests that
were not answered are lost. What the pass puts into the queue are the requests that it sends
back. -/
theorem requests_of_pass (a : Account) (moves : List Move) :
    let p := (ofAccount a).run moves
    (p.fates.map (·.1) ++ p.stage.outstanding).Perm a.retries.pending ∧
    (∀ result, p.stage = .ended result →
      (p.fates.map (·.1)).Perm a.retries.pending ∧ Explains a.retries p.fates result) ∧
    (∀ report, p.stage = .ended (.ok report) →
      report.succeeded + report.requeued + report.dropped.length +
        p.fates.countP (·.2 = .represented) + p.fates.countP (·.2 = .skipped) =
          a.retries.pending.length ∧
      (a.retries.Unique → p.fates.countP (·.2 = .represented) = 0)) ∧
    (∀ r, (r, Fate.skipped) ∈ p.fates → .breakDown r.kind r.address ∈ moves) ∧
    ∀ move, ¬move.isAside → ∃ decided, p.Decides (p.step move) decided := by
  intro p
  have accounted : p.Accounted a.retries := accounted_run a moves
  have ending (result : Except Failure RetryReport) (ended : p.stage = .ended result) :
      (p.fates.map (·.1)).Perm a.retries.pending ∧ Explains a.retries p.fates result := by
    obtain ⟨perm, explained⟩ := accounted
    rw [ended] at perm explained
    rw [Stage.outstanding, List.append_nil] at perm
    exact ⟨perm, explained⟩
  refine ⟨accounted.perm, ending, ?_, fun _ => (traced_run a moves).skipped,
    fun _ own => accounted.decides_step own⟩
  intro report ended
  obtain ⟨perm, rfl, settled⟩ := ending _ ended
  constructor
  · rw [total_ofFates fun f listed => (settled f listed).imp_right (Or.imp_left And.left),
      ← perm.length_eq, List.length_map]
  · intro unique
    rw [List.countP_eq_zero]
    intro f listed represented
    have fate := of_decide_eq_true represented
    obtain reported | ⟨-, doubled⟩ | skipped := settled f listed
    · rw [fate] at reported
      cases reported
    · exact doubled unique
    · rw [fate] at skipped
      cases skipped

/-- A query for a balance breaks down, and the pass reports nothing and leaves the queue empty. -/
example :
    let config : Config := { receivingGapLimit := 1, changeGapLimit := 1 }
    let address : Address := ⟨"receiving-0"⟩
    let request : RetryRequest := ⟨address, .balance, 0, 1, .timeout⟩
    (Account.ofConfig config (.numbered ∅ true)).toOption.any fun a =>
      let p := (ofAccount { a with retries := { a.retries with pending := [request] } }).run
        [.breakDown .balance address, .proceed, .proceed]
      p.stage.outstanding = [] ∧ p.account.retries.pending = [] ∧
        p.fates = [(request, .skipped)] ∧ RetryReport.ofFates p.fates = {} := by
  decide +kernel

/-- An answer marks its address used, the receiving addresses cannot be continued, and the pass
ends with this failure. The other request was not answered, and the queue is empty. -/
theorem lost_after_failed_answer :
    let config : Config := { receivingGapLimit := 3, changeGapLimit := 1 }
    let fails : KeySource.Override := { failure := some "no key" }
    let source := KeySource.numbered (.ofList [("receiving/3", fails)]) true
    let first : Address := ⟨"receiving-0"⟩
    let other : Address := ⟨"receiving-1"⟩
    let coin : Coin := ⟨default, ⟨100000, .payToKeyHash (List.replicate 20 0)⟩⟩
    let request (address : Address) : RetryRequest := ⟨address, .unspent, 0, 1, .timeout⟩
    let before : List Account.Action := [.markUsed ⟨"receiving-2"⟩,
      .closeResync { failures := [⟨first, .timeout⟩, ⟨other, .timeout⟩] } 0]
    ∃ a, Account.ofConfig config source = .ok a ∧
      (a.run before).retries.pending = [request first, request other] ∧
      let p := (ofAccount (a.run before)).run [.proceed, .unspent first (.ok [coin])]
      p.stage.outstanding = [] ∧ p.account.retries.pending = [] ∧
        p.fates = [(request first, .severed (.derivation "no key")), (request other, .lost)] := by
  intro config fails source first other coin request before
  have answer : (Account.ofConfig config source).toOption.any fun a =>
      (a.run before).retries.pending = [request first, request other] ∧
        let p := (ofAccount (a.run before)).run [.proceed, .unspent first (.ok [coin])]
        p.stage.outstanding = [] ∧ p.account.retries.pending = [] ∧
          p.fates =
            [(request first, .severed (.derivation "no key")), (request other, .lost)] := by
    decide +kernel
  obtain ⟨a, opened, facts⟩ := Step.exists_ok_of_any answer
  exact ⟨a, opened, of_decide_eq_true facts⟩

end Pass

end HdWallet
