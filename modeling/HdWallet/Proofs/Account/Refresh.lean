import HdWallet.Proofs.Account.Addresses
import HdWallet.Proofs.Account.Tickets
import HdWallet.Proofs.Keychain.Caches
import HdWallet.Proofs.Retry
import HdWallet.Proofs.Scripted.Course
import Mathlib.Data.List.Dedup

/-!
# A refresh that nothing interrupts

Where the source has one answer for each address and nothing else acts on the account, the answers
of a refresh may arrive in any order, also several for one address. What they leave depends on
which addresses were asked about and not on the order: each balance that was fetched is kept once,
each failure is reported, and each address whose failure may pass waits once in the queue. A
description of the account in these terms is kept by every answer, so it holds after the last one.
A refresh that runs comes to that when it is polled without interruption.
-/

namespace HdWallet

/-- A request without the failure that is noted of it. -/
def RetryRequest.essence (r : RetryRequest) : Address × RetryKind × Timestamp × Nat :=
  (r.address, r.kind, r.queuedAt, r.attempts)

namespace RetryQueue

variable {q : RetryQueue}

theorem contains_iff_essence {address : Address} {kind : RetryKind} :
    q.contains address kind ↔
      ∃ e ∈ q.pending.map (·.essence), e.1 = address ∧ e.2.1 = kind := by
  simp [contains, RetryRequest.asks, RetryRequest.essence, and_comm]

/-- Queueing a failure adds a request, unless the same waits already. -/
theorem map_essence_enqueue (address : Address) (kind : RetryKind) (failure : SourceFailure)
    (now : Timestamp) :
    (q.enqueue address kind failure now).1.pending.map (·.essence) =
      q.pending.map (·.essence) ++
        if q.contains address kind then [] else [(address, kind, now, 1)] := by
  rw [enqueue]
  split
  next => rw [map_noteFailure (f := RetryRequest.essence) fun _ _ => rfl, List.append_nil]
  next => simp [RetryRequest.essence]

theorem map_essence_resolve (address : Address) (kind : RetryKind) :
    (q.resolve address kind).1.pending.map (·.essence) =
      (q.pending.map (·.essence)).filter fun e => !(e.2.1 == kind && e.1 == address) := by
  rw [List.filter_map]
  rfl

end RetryQueue

namespace Account

def counts (a : Account) (now : Timestamp) (address : Address) : Bool :=
  (a.keychain.find? address).any (·.cache.isValid now)

/-- A refresh begins just if it knows all the addresses, and it asks about those whose balance does
not count. -/
theorem staleAmong_eq (a : Account) (now : Timestamp) (addresses : List Address) :
    Refresh.staleAmong a now addresses =
      match addresses.find? fun address => (a.keychain.find? address).isNone with
      | some unknown => .error (.unknownAddress unknown)
      | none => .ok (addresses.filter (!a.counts now ·), addresses.countP (a.counts now)) := by
  induction addresses with
  | nil => rfl
  | cons address rest ih =>
      rw [Refresh.staleAmong, List.find?_cons]
      cases found : a.keychain.find? address with
      | none => rfl
      | some slot =>
          have here : a.counts now address = slot.cache.isValid now := by
            rw [counts, found, Option.any_some]
          simp only [Option.isNone_some, ih]
          cases rest.find? fun address => (a.keychain.find? address).isNone with
          | some unknown => rfl
          | none =>
              rw [List.filter_cons, List.countP_cons, here]
              cases slot.cache.isValid now <;> rfl

def mayPass : Reply Amount → Bool
  | .ok _ => false
  | .error failure => failure.isTransient

/-- What an answer reports of its address, if it is a failure. -/
def reported? (answer : Address → Reply Amount) (address : Address) : Option AddressFailure :=
  match answer address with
  | .ok _ => none
  | .error failure => some ⟨address, failure⟩

/-- What is cached of a slot once some addresses were asked about. -/
def fetched (answer : Address → Reply Amount) (now : Timestamp) (asked : List Address)
    (slot : Slot) : CachedBalance :=
  match answer slot.address with
  | .ok balance =>
    if slot.address ∈ asked then { slot.cache with reading := .fresh balance now }
    else slot.cache
  | .error _ => slot.cache

def settles (answer : Address → Reply Amount) (asked : List Address) (r : RetryRequest) : Bool :=
  r.kind == .balance && (decide (r.address ∈ asked) && (answer r.address).isOk)

/-- The addresses that are queued anew once some addresses were asked about. -/
def queuedAnew (answer : Address → Reply Amount) (asked : List Address) (q : RetryQueue) :
    List Address :=
  (asked.filter fun x => mayPass (answer x) && !q.contains x .balance).dedup

/-- The requests that wait once some addresses were asked about: those that did before, without
the balance requests of addresses whose balance was fetched, and one for each other address whose
failure may pass. -/
def waitingAfter (answer : Address → Reply Amount) (now : Timestamp) (asked : List Address)
    (q : RetryQueue) : List (Address × RetryKind × Timestamp × Nat) :=
  (q.pending.filter (!settles answer asked ·)).map (·.essence) ++
    (queuedAnew answer asked q).map fun x => (x, .balance, now, 1)

section Waiting

variable {answer : Address → Reply Amount} {asked : List Address} {q : RetryQueue} {x : Address}

theorem mem_queuedAnew {y : Address} :
    y ∈ queuedAnew answer asked q ↔
      y ∈ asked ∧ mayPass (answer y) ∧ q.contains y .balance = false := by
  simp [queuedAnew]

theorem nodup_queuedAnew : (queuedAnew answer asked q).Nodup := List.nodup_dedup _

theorem isOk_of_mayPass {reply : Reply Amount} (passing : mayPass reply) : reply.isOk = false := by
  cases reply with
  | ok balance => cases passing
  | error failure => rfl

theorem settles_cons_of_failed (failed : (answer x).isOk = false) :
    settles answer (x :: asked) = settles answer asked := by
  funext r
  by_cases same : r.address = x
  · simp [settles, same, failed]
  · simp [settles, same]

theorem queuedAnew_cons_of_not (lasting : mayPass (answer x) = false) :
    queuedAnew answer (x :: asked) q = queuedAnew answer asked q := by
  rw [queuedAnew, List.filter_cons, lasting]
  rfl

/-- An answer with a balance takes the requests for it away. -/
theorem waitingAfter_cons_of_ok {balance : Amount} (answered : answer x = .ok balance)
    (first : x ∉ asked) (now : Timestamp) :
    waitingAfter answer now (x :: asked) q =
      (waitingAfter answer now asked q).filter fun e => !(e.2.1 == .balance && e.1 == x) := by
  have lasting : mayPass (answer x) = false := by rw [answered]; rfl
  rw [waitingAfter, waitingAfter, List.filter_append, List.filter_map, List.filter_filter,
    queuedAnew_cons_of_not lasting]
  congr 2
  · apply List.filter_congr
    intro r _
    by_cases same : r.address = x
    · simp [settles, RetryRequest.essence, same, answered, Except.isOk, Except.toBool]
      exact .inl
    · simp [settles, RetryRequest.essence, same]
  · symm
    rw [List.filter_eq_self]
    simp only [List.mem_map]
    rintro _ ⟨y, hy, rfl⟩
    have other : y ≠ x := by
      rintro rfl
      exact first (mem_queuedAnew.mp hy).1
    simp [other]

/-- After a failure that may pass, the balance waits to be asked for again. -/
theorem contains_of_waiting {t : RetryQueue} {now : Timestamp} (passing : mayPass (answer x))
    (waiting : (t.pending.map (·.essence)).Perm (waitingAfter answer now asked q)) :
    t.contains x .balance ↔ q.contains x .balance ∨ x ∈ asked := by
  have unsettled {r : RetryRequest} (same : r.address = x) : settles answer asked r = false := by
    simp [settles, same, isOk_of_mayPass passing]
  rw [RetryQueue.contains_iff_essence]
  simp only [waiting.mem_iff, waitingAfter, List.mem_append, List.mem_map, List.mem_filter,
    mem_queuedAnew]
  constructor
  · rintro ⟨_, ⟨r, ⟨hr, -⟩, rfl⟩ | ⟨y, ⟨hy, -⟩, rfl⟩, rfl, hkind⟩
    · exact .inl (RetryQueue.contains_iff_essence.mpr ⟨_, List.mem_map_of_mem hr, rfl, hkind⟩)
    · exact .inr hy
  · intro h
    cases contained : q.contains x .balance with
    | true =>
        obtain ⟨_, he, same, hkind⟩ := RetryQueue.contains_iff_essence.mp contained
        obtain ⟨r, hr, rfl⟩ := List.mem_map.mp he
        exact ⟨_, .inl ⟨r, ⟨hr, by rw [unsettled same]; rfl⟩, rfl⟩, same, hkind⟩
    | false =>
        rw [contained] at h
        exact ⟨_, .inr ⟨x, ⟨h.resolve_left Bool.false_ne_true, passing, contained⟩, rfl⟩, rfl, rfl⟩

/-- What waits after one more failure that may pass. -/
theorem waitingAfter_cons_of_passing (passing : mayPass (answer x)) (now : Timestamp) :
    (waitingAfter answer now (x :: asked) q).Perm (waitingAfter answer now asked q ++
      if q.contains x .balance ∨ x ∈ asked then [] else [(x, .balance, now, 1)]) := by
  rw [waitingAfter, waitingAfter, settles_cons_of_failed (isOk_of_mayPass passing),
    List.append_assoc]
  apply List.Perm.append_left
  by_cases contained : q.contains x .balance
  · have same : queuedAnew answer (x :: asked) q = queuedAnew answer asked q := by
      rw [queuedAnew, List.filter_cons_of_neg (by simp [contained]), queuedAnew]
    rw [if_pos (.inl contained), List.append_nil, same]
  · have kept : queuedAnew answer (x :: asked) q =
        (x :: asked.filter fun x => mayPass (answer x) && !q.contains x .balance).dedup := by
      rw [queuedAnew, List.filter_cons_of_pos (by simp [contained, passing])]
    by_cases again : x ∈ asked
    · rw [if_pos (.inr again), List.append_nil, kept, List.dedup_cons_of_mem, queuedAnew]
      simp [again, passing, contained]
    · rw [if_neg (by simp [contained, again]), kept, List.dedup_cons_of_notMem, ← queuedAnew]
      · exact (List.perm_append_singleton _ _).symm
      · simp [again]

end Waiting

/-- What comes of the account `b` when a refresh has had the answers about some addresses. -/
structure Refreshed (b : Account) (answer : Address → Reply Amount) (now : Timestamp)
    (asked : List Address) (t : Account) : Prop where
  config_eq : t.config = b.config
  keychain_eq : t.keychain = b.keychain.mapCache (fetched answer now asked)
  ledger_eq : t.ledger = b.ledger
  reservations_eq : t.reservations = b.reservations
  floor_eq : ∀ x, t.floor x = if x ∈ asked ∧ (answer x).isOk then b.tickets + 1 else b.floor x
  maxAttempts_eq : t.retries.maxAttempts = b.retries.maxAttempts
  waiting_perm : (t.retries.pending.map (·.essence)).Perm (waitingAfter answer now asked b.retries)

namespace Refreshed

variable {b t : Account} {answer : Address → Reply Amount} {now : Timestamp}
  {asked : List Address}

/-- Nobody was asked yet, whatever tickets were issued. -/
theorem start (tickets : Nat) : Refreshed b answer now [] { b with tickets } where
  config_eq := rfl
  keychain_eq := by
    have same : fetched answer now [] = fun slot => slot.cache := by
      funext slot
      rw [fetched]
      cases answer slot.address with
      | ok balance => exact if_neg List.not_mem_nil
      | error failure => rfl
    rw [same, Keychain.mapCache_cache]
    rfl
  ledger_eq := rfl
  reservations_eq := rfl
  floor_eq x := (if_neg fun h => List.not_mem_nil h.1).symm
  maxAttempts_eq := rfl
  waiting_perm := by simp [waitingAfter, queuedAnew, settles]

/-- It matters which addresses were asked about, and not in which order or how often. -/
theorem congr (h : Refreshed b answer now asked t) {others : List Address}
    (same : ∀ x, x ∈ others ↔ x ∈ asked) : Refreshed b answer now others t where
  config_eq := h.config_eq
  keychain_eq := by
    rw [h.keychain_eq]
    congr 1
    funext slot
    simp only [fetched, same]
  ledger_eq := h.ledger_eq
  reservations_eq := h.reservations_eq
  floor_eq x := by
    rw [h.floor_eq]
    simp only [same]
  maxAttempts_eq := h.maxAttempts_eq
  waiting_perm := by
    refine h.waiting_perm.trans ?_
    simp only [waitingAfter, settles, same]
    refine List.Perm.append_left _ (List.Perm.map _ ?_)
    rw [List.perm_ext_iff_of_nodup nodup_queuedAnew nodup_queuedAnew]
    intro x
    simp only [mem_queuedAnew, same]

/-- A balance that was fetched counts from now on, until its lifetime is over. -/
theorem find?_of_fetched (h : Refreshed b answer now asked t) (sound : b.keychain.Sound)
    {x : Address} {slot : Slot} (known : b.keychain.find? x = some slot) (asks : x ∈ asked)
    {balance : Amount} (answered : answer x = .ok balance) :
    t.keychain.find? x =
        some { slot with cache := { slot.cache with reading := .fresh balance now } } ∧
      ∀ later, t.cachedBalance x later =
        .ok (if Timestamp.elapsed now later < slot.cache.lifetime.toNat then some balance
          else none) := by
  have found : t.keychain.find? x =
      some { slot with cache := { slot.cache with reading := .fresh balance now } } := by
    obtain ⟨-, rfl⟩ := sound.find?_iff.mp known
    rw [h.keychain_eq, Keychain.find?_mapCache, known, Option.map_some]
    simp only [fetched, answered, if_pos asks]
  refine ⟨found, fun later => ?_⟩
  simp [cachedBalance, found, CachedBalance.balance?, CachedBalance.isValid, Reading.lastBalance]

/-- What is known of any other address stays. -/
theorem find?_of_unfetched (h : Refreshed b answer now asked t) (sound : b.keychain.Sound)
    {x : Address} (unfetched : x ∉ asked ∨ (answer x).isOk = false) :
    t.keychain.find? x = b.keychain.find? x := by
  rw [h.keychain_eq, Keychain.find?_mapCache]
  cases known : b.keychain.find? x with
  | none => rfl
  | some slot =>
      obtain ⟨-, rfl⟩ := sound.find?_iff.mp known
      have kept : fetched answer now asked slot = slot.cache := by
        rw [fetched]
        cases answered : answer slot.address with
        | error failure => rfl
        | ok balance =>
            rw [answered] at unfetched
            exact if_neg (unfetched.resolve_right nofun)
      rw [Option.map_some, kept]

/-- The first answer about an address is kept if it holds a balance. -/
theorem recordBalance_first (h : Refreshed b answer now asked t) (sound : b.keychain.Sound)
    (current : b.Current) {x : Address} {slot : Slot} (known : b.keychain.find? x = some slot)
    (first : x ∉ asked) (balance : Amount) :
    t.recordBalance x balance (b.tickets + 1) now =
      ({ t.setKeychain (b.keychain.mapCache fun slot =>
            if slot.address = x then (fetched answer now asked slot).record balance now
            else fetched answer now asked slot) with
          floors := t.floors.insert x (b.tickets + 1) }, true) := by
  have cached := sound.modifyCache_mapCache known (fetched answer now asked) (·.record balance now)
  have below : ¬b.tickets + 1 ≤ t.floor x := by
    rw [h.floor_eq, if_neg fun asks => first asks.1]
    exact Nat.not_le_of_lt (Nat.lt_succ_of_le (current x))
  rw [← h.keychain_eq] at cached
  obtain ⟨config, ⟨keychain, ledger, reservations⟩, retries, tickets, floors⟩ := t
  rw [Account.recordBalance, if_neg below]
  have cached : keychain.modifyCache x (·.record balance now) = _ := cached
  simp only [cached, if_true]
  rfl

/-- Any further answer about an address is refused. -/
theorem recordBalance_again (h : Refreshed b answer now asked t) {x : Address} (again : x ∈ asked)
    (answered : (answer x).isOk) (balance : Amount) :
    t.recordBalance x balance (b.tickets + 1) now = (t, false) := by
  rw [Account.recordBalance, if_pos]
  rw [h.floor_eq, if_pos ⟨again, answered⟩]

/-- A failure changes no balance. -/
theorem of_failed (h : Refreshed b answer now asked t) {x : Address} {failure : SourceFailure}
    (failed : answer x = .error failure) {retries : RetryQueue}
    (maxAttempts : retries.maxAttempts = t.retries.maxAttempts)
    (waiting : (retries.pending.map (·.essence)).Perm
      (waitingAfter answer now (x :: asked) b.retries)) :
    Refreshed b answer now (x :: asked) { t with retries } where
  config_eq := h.config_eq
  keychain_eq := by
    refine h.keychain_eq.trans (congrArg (b.keychain.mapCache ·) ?_)
    funext slot
    by_cases same : slot.address = x
    · rw [fetched, fetched, same, failed]
    · simp only [fetched, List.mem_cons, same, false_or]
  ledger_eq := h.ledger_eq
  reservations_eq := h.reservations_eq
  floor_eq y := by
    refine (h.floor_eq y).trans ?_
    by_cases same : y = x
    · simp [same, failed, Except.isOk, Except.toBool]
    · simp only [List.mem_cons, same, false_or]
  maxAttempts_eq := maxAttempts.trans h.maxAttempts_eq
  waiting_perm := waiting

theorem noteFailure (h : Refreshed b answer now asked t) {x : Address} {failure : SourceFailure}
    (failed : answer x = .error failure) :
    Refreshed b answer now (x :: asked) (t.noteFailure .balance ⟨x, failure⟩ now) := by
  have passes : mayPass (answer x) = failure.isTransient := by rw [failed, mayPass]
  rw [Account.noteFailure]
  split
  next passing =>
      have passing : mayPass (answer x) := passes.trans passing
      have waits := contains_of_waiting passing h.waiting_perm
      apply h.of_failed failed
      · rw [RetryQueue.enqueue]
        split <;> rfl
      · rw [RetryQueue.map_essence_enqueue]
        refine .trans ?_ (waitingAfter_cons_of_passing passing now).symm
        simp only [waits]
        exact h.waiting_perm.append_right _
  next lasting =>
      have lasting : mayPass (answer x) = false :=
        passes.trans (Bool.eq_false_of_not_eq_true lasting)
      apply h.of_failed failed rfl
      rw [waitingAfter, queuedAnew_cons_of_not lasting, settles_cons_of_failed]
      · exact h.waiting_perm
      · rw [failed]; rfl

/-- The first balance of an address. -/
theorem keep (h : Refreshed b answer now asked t) {x : Address} {balance : Amount}
    (answered : answer x = .ok balance) (first : x ∉ asked) :
    Refreshed b answer now (x :: asked)
      { t.setKeychain (b.keychain.mapCache fun slot =>
          if slot.address = x then (fetched answer now asked slot).record balance now
          else fetched answer now asked slot) with
        floors := t.floors.insert x (b.tickets + 1)
        retries := (t.retries.resolve x .balance).1 } where
  config_eq := h.config_eq
  keychain_eq := by
    refine congrArg (b.keychain.mapCache ·) ?_
    funext slot
    by_cases same : slot.address = x
    · rw [if_pos same, fetched, fetched, same, answered]
      simp [first, CachedBalance.record]
    · simp only [fetched, List.mem_cons, same, false_or, if_false]
  ledger_eq := h.ledger_eq
  reservations_eq := h.reservations_eq
  floor_eq y := by
    rw [Account.floor, floor_insert]
    by_cases same : x = y
    · simp [← same, answered, Except.isOk, Except.toBool]
    · rw [if_neg same, h.floor_eq]
      simp [Ne.symm same]
  maxAttempts_eq := h.maxAttempts_eq
  waiting_perm := by
    rw [RetryQueue.map_essence_resolve, waitingAfter_cons_of_ok answered first]
    exact h.waiting_perm.filter _

end Refreshed

/-- What a refresh has noted when it has had the answers about some addresses. -/
structure Noted (answer : Address → Reply Amount) (fresh : Nat) (asked : List Address)
    (r : Refresh) : Prop where
  skippedFresh_eq : r.report.skippedFresh = fresh
  refreshed_eq : r.report.refreshed = (asked.filter fun x => (answer x).isOk).dedup.length
  answered_eq : r.report.refreshed + r.report.discarded = asked.countP fun x => (answer x).isOk
  failures_perm : r.failures.Perm (asked.filterMap (reported? answer))

namespace Noted

variable {answer : Address → Reply Amount} {fresh : Nat} {asked : List Address} {r : Refresh}

theorem start (answer : Address → Reply Amount) (fresh ticket : Nat) :
    Noted answer fresh [] { ticket, report := { skippedFresh := fresh } } where
  skippedFresh_eq := rfl
  refreshed_eq := rfl
  answered_eq := rfl
  failures_perm := .refl _

theorem perm (h : Noted answer fresh asked r) {others : List Address}
    (perm : asked.Perm others) : Noted answer fresh others r where
  skippedFresh_eq := h.skippedFresh_eq
  refreshed_eq := h.refreshed_eq.trans (perm.filter _).dedup.length_eq
  answered_eq := h.answered_eq.trans (perm.countP_eq _)
  failures_perm := h.failures_perm.trans (perm.filterMap _)

theorem fail (h : Noted answer fresh asked r) {x : Address} {failure : SourceFailure}
    (failed : answer x = .error failure) :
    Noted answer fresh (x :: asked) { r with failures := r.failures ++ [⟨x, failure⟩] } where
  skippedFresh_eq := h.skippedFresh_eq
  refreshed_eq := by
    rw [h.refreshed_eq, List.filter_cons, failed]
    rfl
  answered_eq := by
    rw [h.answered_eq, List.countP_cons, failed]
    rfl
  failures_perm := by
    have reported : reported? answer x = some ⟨x, failure⟩ := by rw [reported?, failed]
    rw [List.filterMap_cons_some reported]
    exact (List.perm_append_singleton _ _).trans (h.failures_perm.cons _)

/-- A balance that arrives is counted, as kept or as discarded. -/
theorem count (h : Noted answer fresh asked r) {x : Address} {balance : Amount}
    (answered : answer x = .ok balance) {report : RefreshReport}
    (skipped : report.skippedFresh = r.report.skippedFresh)
    (refreshed : report.refreshed = (x :: asked.filter fun y => (answer y).isOk).dedup.length)
    (counted : report.refreshed + report.discarded =
      r.report.refreshed + r.report.discarded + 1) :
    Noted answer fresh (x :: asked) { r with report } := by
  have fetches : (answer x).isOk := by rw [answered]; rfl
  constructor
  case skippedFresh_eq => exact skipped.trans h.skippedFresh_eq
  case refreshed_eq => rw [List.filter_cons, if_pos fetches, refreshed]
  case answered_eq => rw [List.countP_cons, if_pos fetches, ← h.answered_eq, counted]
  case failures_perm =>
      have unreported : reported? answer x = none := by rw [reported?, answered]
      rw [List.filterMap_cons_none unreported]
      exact h.failures_perm

/-- The first balance of an address is kept. -/
theorem keep (h : Noted answer fresh asked r) {x : Address} {balance : Amount}
    (answered : answer x = .ok balance) (first : x ∉ asked) :
    Noted answer fresh (x :: asked)
      { r with report := { r.report with refreshed := r.report.refreshed + 1 } } := by
  apply h.count answered
  case skipped => rfl
  case refreshed =>
      rw [List.dedup_cons_of_notMem, List.length_cons, h.refreshed_eq]
      exact fun again => first (List.mem_of_mem_filter again)
  case counted => exact Nat.add_right_comm _ _ _

/-- Any further balance of an address is discarded. -/
theorem discard (h : Noted answer fresh asked r) {x : Address} {balance : Amount}
    (answered : answer x = .ok balance) (again : x ∈ asked) :
    Noted answer fresh (x :: asked)
      { r with report := { r.report with discarded := r.report.discarded + 1 } } := by
  apply h.count answered
  case skipped => rfl
  case refreshed =>
      rw [List.dedup_cons_of_mem, h.refreshed_eq]
      exact List.mem_filter.mpr ⟨again, by rw [answered]; rfl⟩
  case counted => rfl

theorem reported?_eq_none {x : Address} : reported? answer x = none ↔ (answer x).isOk := by
  rw [reported?]
  cases answer x with
  | ok balance => exact iff_of_true rfl rfl
  | error failure => exact iff_of_false nofun nofun

theorem close_of_answered (h : Noted answer fresh asked r)
    (answered : ∀ x ∈ asked, (answer x).isOk) :
    r.close = .ok r.report ∧ r.report.refreshed = asked.dedup.length ∧
      r.report.refreshed + r.report.discarded = asked.length := by
  refine ⟨?_, ?_, ?_⟩
  · have silent : asked.filterMap (reported? answer) = [] :=
      List.filterMap_eq_nil_iff.mpr fun x hx => reported?_eq_none.mpr (answered x hx)
    have none_failed : r.failures = [] := (silent ▸ h.failures_perm).eq_nil
    rw [Refresh.close, Failure.ofBatch, none_failed]
    rfl
  · rw [h.refreshed_eq, List.filter_eq_self.mpr answered]
  · rw [h.answered_eq, List.countP_eq_length.mpr answered]

theorem close_of_failed (h : Noted answer fresh asked r) {x : Address} (hx : x ∈ asked)
    (failed : (answer x).isOk = false) : r.close = .error (.queriesFailed r.failures) := by
  have some_failed : r.failures ≠ [] := by
    intro none_failed
    have silent := (none_failed ▸ h.failures_perm).symm.eq_nil
    have answered := reported?_eq_none.mp (List.filterMap_eq_nil_iff.mp silent x hx)
    rw [failed] at answered
    cases answered
  rw [Refresh.close, Failure.ofBatch, if_neg (by simpa using some_failed)]
  rfl

end Noted

section Uninterrupted

variable {b t : Account} {answer : Address → Reply Amount} {now : Timestamp}
  {asked : List Address} {fresh : Nat} {r : Refresh}

/-- A refresh of known addresses begins with a new ticket if it has to ask about any. -/
theorem start_spec (answer : Address → Reply Amount) {addresses stale : List Address}
    (known : Refresh.staleAmong b now addresses = .ok (stale, fresh)) :
    ∃ r t, Refresh.start addresses now b = .ok (r, stale) t ∧ Refreshed b answer now [] t ∧
      Noted answer fresh [] r ∧ (stale ≠ [] → r.ticket = b.tickets + 1) := by
  cases stale with
  | nil =>
      refine ⟨_, b, ?_, .start b.tickets, .start answer fresh b.tickets,
        fun some => (some rfl).elim⟩
      simp [Refresh.start, known, Step.eq_ok_iff]
  | cons x rest =>
      refine ⟨_, _, ?_, .start (b.tickets + 1), .start answer fresh (b.tickets + 1), fun _ => rfl⟩
      simp [Refresh.start, known, Step.eq_ok_iff, issueTicket]

/-- One more answer. -/
theorem absorb_spec (sound : b.keychain.Sound) (current : b.Current)
    (h : Refreshed b answer now asked t) (noted : Noted answer fresh asked r)
    (ticket : r.ticket = b.tickets + 1) {x : Address} (known : (b.keychain.find? x).isSome) :
    let (t', r') := r.absorb x (answer x) now t
    Refreshed b answer now (x :: asked) t' ∧ Noted answer fresh (x :: asked) r' ∧
      r'.ticket = r.ticket := by
  obtain ⟨slot, known⟩ := Option.isSome_iff_exists.mp known
  cases answered : answer x with
  | error failure => exact ⟨h.noteFailure answered, noted.fail answered, rfl⟩
  | ok balance =>
      have fetches : (answer x).isOk := by rw [answered]; rfl
      obtain ⟨number, report, failures⟩ := r
      obtain rfl : number = b.tickets + 1 := ticket
      rw [Refresh.absorb]
      by_cases first : x ∈ asked
      · rw [h.recordBalance_again first fetches]
        exact ⟨h.congr (by simp [first]), noted.discard answered first, rfl⟩
      · rw [h.recordBalance_first sound current known first]
        exact ⟨h.keep answered first, noted.keep answered first, rfl⟩

/-- All the answers of a refresh, in any order. -/
theorem absorbAll_spec (sound : b.keychain.Sound) (current : b.Current)
    (h : Refreshed b answer now asked t) (noted : Noted answer fresh asked r)
    {order : List Address} (ticket : order ≠ [] → r.ticket = b.tickets + 1)
    (known : ∀ x ∈ order, (b.keychain.find? x).isSome) :
    ∃ r' t', Scripted.Activity.absorbAll
        (fun r address reply => Scripted.Activity.asStep (r.absorb address reply now)) r
        (order.map fun x => (x, answer x)) t = .ok r' t' ∧
      Refreshed b answer now (order.reverse ++ asked) t' ∧
      Noted answer fresh (order.reverse ++ asked) r' := by
  induction order generalizing t r asked with
  | nil => exact ⟨r, t, rfl, h, noted⟩
  | cons x rest ih =>
      have issued := ticket (List.cons_ne_nil x rest)
      obtain ⟨refreshed, noted, same⟩ :=
        absorb_spec sound current h noted issued (known x List.mem_cons_self)
      obtain ⟨r', t', absorbed, refreshed, noted⟩ := ih refreshed noted
        (fun _ => same.trans issued) fun y hy => known y (List.mem_cons_of_mem x hy)
      rw [List.reverse_cons, List.append_assoc]
      exact ⟨r', t', absorbed, refreshed, noted⟩

end Uninterrupted

/-- A refresh that nothing interrupts. The answers come in any order of the addresses that it asks
about. -/
def refresh (addresses : List Address) (now : Timestamp) (answer : Address → Reply Amount)
    (arrange : List Address → List Address) : Step Account RefreshReport := do
  let (r, stale) ← Refresh.start addresses now
  let r ← Scripted.Activity.absorbAll
    (fun r address reply => Scripted.Activity.asStep (r.absorb address reply now)) r
    ((arrange stale).map fun x => (x, answer x))
  Step.ofExcept r.close

section Running

open Scripted (Activity Batch Source World)

/-- A world at one moment, whose source has one answer for each address. -/
def Lasts (config : Config) (now : Timestamp) (answer : Address → Reply Amount) (w : World) :
    Prop :=
  w.clock = now ∧ w.source.answer Source.askBalance (Batch.timeoutOf config) = answer

theorem serves_refresh (config : Config) (now : Timestamp) (answer : Address → Reply Amount) :
    Activity.Serves (Lasts config now answer) Source.askBalance
      (fun r address reply => Activity.asStep (r.absorb address reply now))
      (fun r w => (w, .finished (r.close.map .refreshed))) Activity.refresh where
  resume_eq := by
    rintro r b inFront w ⟨rfl, -⟩
    rw [Activity.resume]
    generalize Activity.serve _ _ inFront r b w = served
    obtain ⟨w', e | ⟨r', b'⟩⟩ := served <;> rfl
  collect_eq _ _ _ := rfl

theorem wp_close {r : Refresh} {result : Except Failure Scripted.Result} {a c : Account}
    (closed : result = r.close.map .refreshed ∧ c = a) :
    (Step.ofExcept r.close).wp (fun report d => result = .ok (.refreshed report) ∧ c = d)
      (fun e d => result = .error e ∧ c = d) a := by
  obtain ⟨rfl, rfl⟩ := closed
  cases r.close with
  | ok report => exact ⟨rfl, rfl⟩
  | error e => exact ⟨rfl, rfl⟩

/-- A refresh that is begun on an account and runs without interruption ends as one whose answers
come in some order. -/
theorem refresh_of_settles {addresses : List Address} {answer : Address → Reply Amount} {w : World}
    {result : Except Failure Scripted.Result} {c : Account}
    (settles : let (v, progress) := Activity.start (.refresh addresses) w
      Activity.Settles (Lasts v.account.config w.clock answer) progress v.account result c) :
    ∃ arrange, (∀ stale, (arrange stale).Perm stale) ∧
      (refresh addresses w.clock answer arrange).wp
        (fun report d => result = .ok (.refreshed report) ∧ c = d)
        (fun e d => result = .error e ∧ c = d) w.account := by
  simp only [refresh, Step.wp_bind]
  simp only [Activity.start, Activity.start.refreshOf, World.step] at settles
  cases started : Refresh.start addresses w.clock w.account with
  | error e b =>
      rw [started] at settles
      refine ⟨id, List.Perm.refl, ?_⟩
      rw [Step.wp, started]
      exact settles.eq_of_finished
  | ok begun b =>
      obtain ⟨r, stale⟩ := begun
      rw [started] at settles
      cases stale with
      | nil =>
          refine ⟨id, List.Perm.refl, ?_⟩
          rw [Step.wp, started]
          exact wp_close settles.eq_of_finished
      | cons x rest =>
          obtain ⟨order, perm, outcome⟩ := settles.batch (serves_refresh ..)
            Source.steady_askBalance (fun _ lasts => lasts.2) rfl
            (.ofAddresses answer b.config (x :: rest))
          refine ⟨Scripted.rearrange (x :: rest) order, Scripted.perm_rearrange perm, ?_⟩
          rw [Step.wp, started]
          dsimp only
          rw [Scripted.rearrange_self]
          apply outcome.mono _ fun _ _ failed => failed
          rintro r' d ⟨v, rfl, settles⟩
          exact wp_close settles.eq_of_finished

end Running

variable {config : Config} {source : KeySource} {a : Account}

/-- A refresh that nothing interrupts says which address it does not know, and changes nothing
then. Otherwise it leaves the same whatever order the answers come in: each balance that it fetched
counts from now on, and what is known of the other addresses stays. It succeeds just if none of the
answers is a failure. -/
theorem refresh_run (opened : ofConfig config source = .ok a) {actions : List Action}
    (issued : a.throughout Action.isIssued actions) (addresses : List Address) (now : Timestamp)
    (answer : Address → Reply Amount) {arrange : List Address → List Address}
    (perm : ∀ stale, (arrange stale).Perm stale) :
    let b := a.run actions
    let asked := addresses.filter (!b.counts now ·)
    (∀ x, addresses.find? (fun x => (b.keychain.find? x).isNone) = some x →
      refresh addresses now answer arrange b = .error (.unknownAddress x) b) ∧
    ((∀ x ∈ addresses, (b.keychain.find? x).isSome) →
      ∃ t, Refreshed b answer now asked t ∧
        (∀ x ∈ asked, ∀ balance, answer x = .ok balance → ∃ slot,
          b.keychain.find? x = some slot ∧
          t.keychain.find? x =
            some { slot with cache := { slot.cache with reading := .fresh balance now } } ∧
          ∀ later, t.cachedBalance x later =
            .ok (if Timestamp.elapsed now later < slot.cache.lifetime.toNat then some balance
              else none)) ∧
        (∀ x, x ∉ asked ∨ (answer x).isOk = false →
          t.keychain.find? x = b.keychain.find? x) ∧
        ((∀ x ∈ asked, (answer x).isOk) →
          ∃ report, refresh addresses now answer arrange b = .ok report t ∧
            report.skippedFresh = addresses.countP (b.counts now) ∧
            report.refreshed = asked.dedup.length ∧
            report.refreshed + report.skippedFresh + report.discarded = addresses.length) ∧
        ((∃ x ∈ asked, (answer x).isOk = false) →
          ∃ failures, refresh addresses now answer arrange b = .error (.queriesFailed failures) t ∧
            failures.Perm (asked.filterMap (reported? answer)))) := by
  intro b asked
  have sound : b.keychain.Sound := sound_run opened actions
  have current : b.Current := current_run opened issued
  constructor
  · intro x unknown
    have refused : Refresh.staleAmong b now addresses = .error (.unknownAddress x) := by
      rw [staleAmong_eq, unknown]
    simp [Step.eq_error_iff, refresh, Refresh.start, refused]
  · intro known
    have none_unknown : addresses.find? (fun x => (b.keychain.find? x).isNone) = none := by
      rw [List.find?_eq_none]
      intro x hx
      simpa [Option.isSome_iff_ne_none] using known x hx
    have stale : Refresh.staleAmong b now addresses =
        .ok (asked, addresses.countP (b.counts now)) := by
      rw [staleAmong_eq, none_unknown]
    obtain ⟨r, t, started, refreshed, noted, ticket⟩ := start_spec answer stale
    have same := perm asked
    have begun (some : arrange asked ≠ []) : r.ticket = b.tickets + 1 :=
      ticket fun none => some (same.trans (.of_eq none)).eq_nil
    obtain ⟨r, t, absorbed, refreshed, noted⟩ := absorbAll_spec sound current refreshed noted begun
      fun x hx => known x (List.mem_of_mem_filter (same.mem_iff.mp hx))
    have same : ((arrange asked).reverse ++ []).Perm asked := by
      rw [List.append_nil]
      exact (List.reverse_perm _).trans same
    have noted := noted.perm same
    have closed : refresh addresses now answer arrange b = Step.ofExcept r.close t := by
      simp only [refresh, bind, EStateM.bind, started, absorbed]
    have refreshed := refreshed.congr fun x => (same.mem_iff (a := x)).symm
    refine ⟨t, refreshed, ?_, fun x => refreshed.find?_of_unfetched sound, ?_, ?_⟩
    · intro x asks balance answered
      obtain ⟨slot, known⟩ := Option.isSome_iff_exists.mp (known x (List.mem_of_mem_filter asks))
      exact ⟨slot, known, refreshed.find?_of_fetched sound known asks answered⟩
    · intro answered
      obtain ⟨succeeds, kept, total⟩ := noted.close_of_answered answered
      refine ⟨r.report, by rw [closed, succeeds]; rfl, noted.skippedFresh_eq, kept, ?_⟩
      have parts : asked.length + addresses.countP (b.counts now) = addresses.length := by
        rw [Nat.add_comm, List.countP_eq_length_filter]
        exact (List.length_eq_length_filter_add _).symm
      rw [noted.skippedFresh_eq]
      omega
    · rintro ⟨x, hx, failed⟩
      exact ⟨r.failures, by rw [closed, noted.close_of_failed hx failed]; rfl, noted.failures_perm⟩

/-- Two answers about an address whose balance was invalidated, and one about an address that the
source is too slow for, last one first. -/
theorem refresh_of_slow_source :
    let config : Config := { receivingGapLimit := 2, changeGapLimit := 1 }
    let first : Address := ⟨"receiving-0"⟩
    let second : Address := ⟨"receiving-1"⟩
    let actions : List Action := [.startRefresh [first] 1,
      .absorbRefresh { ticket := 1, report := {} } first (.ok 5) 1, .invalidate first]
    let answer (x : Address) : Reply Amount := if x = first then .ok 7 else .error .timeout
    ∃ a t failures, ofConfig config (.numbered ∅ true) = .ok a ∧
      a.throughout Action.isIssued actions ∧
      refresh [first, second, first] 9 answer List.reverse (a.run actions) =
        .error (.queriesFailed failures) t ∧
      failures.Perm [⟨second, .timeout⟩] ∧
      Refreshed (a.run actions) answer 9 [first, second, first] t ∧
      (t.keychain.find? first).map (·.cache.reading) = some (.fresh 7 9) ∧
      t.cachedBalance first 608 = .ok (some 7) ∧ t.cachedBalance first 609 = .ok none ∧
      t.keychain.find? second = (a.run actions).keychain.find? second := by
  intro config first second actions answer
  have checked : (ofConfig config (.numbered ∅ true)).toOption.any fun a =>
      a.throughout Action.isIssued actions ∧
        [first, second, first].filter (!(a.run actions).counts 9 ·) = [first, second, first] ∧
        (∀ x ∈ [first, second, first], ((a.run actions).keychain.find? x).isSome) ∧
        ((a.run actions).keychain.find? first).all (·.cache.lifetime = 600) := by
    decide +kernel
  obtain ⟨a, opened, facts⟩ := Step.exists_ok_of_any checked
  obtain ⟨issued, stale, known, lifetime⟩ := of_decide_eq_true facts
  obtain ⟨-, settled⟩ :=
    refresh_run opened issued [first, second, first] 9 answer List.reverse_perm
  obtain ⟨t, refreshed, counts, stays, -, fails⟩ := settled known
  rw [stale] at refreshed counts stays fails
  obtain ⟨failures, failed, reported⟩ := fails ⟨second, by decide, rfl⟩
  obtain ⟨slot, before, after, balance⟩ := counts first List.mem_cons_self 7 rfl
  rw [before, Option.all_some, decide_eq_true_iff] at lifetime
  refine ⟨a, t, failures, opened, issued, failed, reported, refreshed, ?_, ?_, ?_,
    stays second (.inr rfl)⟩
  · rw [after, Option.map_some]
  · rw [balance, lifetime]
    rfl
  · rw [balance, lifetime]
    rfl

end Account

end HdWallet
