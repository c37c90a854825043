import HdWallet.Retry
import Mathlib.Data.List.Induction
import Mathlib.Data.List.Nodup

/-!
# Requests out of the queue

A request that is tried again is out of the queue from `take` until it is put back, and in
between the same query may fail anew and be queued once more. Queueing a failure and restoring a
request look for one that asks the same; putting a request back after another failed attempt
does not. So this is the only call after which two requests may ask the same, and it leaves two
just when the same was queued in the meantime.
-/

namespace HdWallet

def RetryRequest.query (r : RetryRequest) : Address × RetryKind := (r.address, r.kind)

theorem RetryRequest.asks_iff {r : RetryRequest} {address : Address} {kind : RetryKind} :
    r.asks address kind ↔ r.query = (address, kind) := by
  simp [asks, query, and_comm]

def RetryRequest.again (r : RetryRequest) (failure : SourceFailure) : RetryRequest :=
  { r with attempts := r.attempts + 1, lastFailure := failure }

namespace RetryQueue

def queries (q : RetryQueue) : List (Address × RetryKind) := q.pending.map (·.query)

/-- No two pending requests ask the same. -/
def Unique (q : RetryQueue) : Prop := q.queries.Nodup

instance (q : RetryQueue) : Decidable q.Unique := inferInstanceAs (Decidable (List.Nodup _))

variable {q : RetryQueue}

theorem contains_iff {address : Address} {kind : RetryKind} :
    q.contains address kind ↔ (address, kind) ∈ q.queries := by
  simp [contains, queries, RetryRequest.asks_iff]

/-- Nothing but the failure of a request changes when a failure is noted. -/
theorem map_noteFailure {α : Type} {f : RetryRequest → α}
    (blind : ∀ r failure, f { r with lastFailure := failure } = f r) (address : Address)
    (kind : RetryKind) (failure : SourceFailure) (requests : List RetryRequest) :
    (noteFailure address kind failure requests).map f = requests.map f := by
  induction requests with
  | nil => rfl
  | cons r rest ih =>
      rw [noteFailure]
      split
      next => rw [List.map_cons, blind, List.map_cons]
      next => rw [List.map_cons, ih, List.map_cons]

theorem queries_noteFailure (address : Address) (kind : RetryKind) (failure : SourceFailure)
    (requests : List RetryRequest) :
    (noteFailure address kind failure requests).map (·.query) = requests.map (·.query) :=
  map_noteFailure (fun _ _ => rfl) address kind failure requests

theorem queries_append (requests : List RetryRequest) :
    queries { q with pending := q.pending ++ requests } = q.queries ++ requests.map (·.query) :=
  List.map_append

/-- A request at the end of the queue keeps it unique just if nothing there asks the same. -/
theorem unique_append_iff (unique : q.Unique) (request : RetryRequest) :
    Unique { q with pending := q.pending ++ [request] } ↔
      ¬q.contains request.address request.kind := by
  rw [Unique, queries_append, List.map_singleton, contains_iff]
  constructor
  · intro apart waits
    exact (List.nodup_append'.mp apart).2.2 waits (List.mem_singleton_self _)
  · intro absent
    refine List.nodup_append'.mpr ⟨unique, List.nodup_singleton _, ?_⟩
    intro query waits same
    rw [List.mem_singleton.mp same] at waits
    exact absent waits

theorem unique_of_sublist {requests : List RetryRequest} (unique : q.Unique)
    (fewer : requests.Sublist q.pending) : Unique { q with pending := requests } :=
  List.Nodup.sublist (fewer.map _) unique

theorem unique_ofLimit (limit : Nat) : (ofLimit limit).Unique := List.nodup_nil

theorem unique_enqueue (unique : q.Unique) (address : Address) (kind : RetryKind)
    (failure : SourceFailure) (now : Timestamp) :
    (q.enqueue address kind failure now).1.Unique := by
  rw [enqueue]
  split
  next =>
      rw [Unique, queries, queries_noteFailure]
      exact unique
  next absent => exact (unique_append_iff unique _).mpr absent

theorem unique_take (unique : q.Unique) (kind : RetryKind) : (q.take kind).1.Unique := by
  rw [take, List.partition_eq_filter_filter]
  exact unique_of_sublist unique List.filter_sublist

theorem unique_resolve (unique : q.Unique) (address : Address) (kind : RetryKind) :
    (q.resolve address kind).1.Unique :=
  unique_of_sublist unique List.filter_sublist

theorem unique_restore (unique : q.Unique) (request : RetryRequest) :
    (q.restore request).Unique := by
  rw [restore]
  split
  next => exact unique
  next absent => exact (unique_append_iff unique request).mpr absent

/-- Whether a request that failed again may still succeed later: attempts are left, and the
failure may pass. -/
def Retains (q : RetryQueue) (request : RetryRequest) (failure : SourceFailure) : Prop :=
  request.attempts + 1 < q.maxAttempts ∧ failure.isTransient

instance (q : RetryQueue) (request : RetryRequest) (failure : SourceFailure) :
    Decidable (q.Retains request failure) :=
  inferInstanceAs (Decidable (_ ∧ _))

/-- A request that failed again goes to the end of the queue with one more attempt, or it is
given up and reported. -/
theorem requeue_eq (q : RetryQueue) (request : RetryRequest) (failure : SourceFailure) :
    q.requeue request failure =
      if q.Retains request failure then
        ({ q with pending := q.pending ++ [request.again failure] }, none)
      else (q, some ⟨request.address, failure⟩) := by
  have givesUp : (q.maxAttempts ≤ request.attempts + 1 || !failure.isTransient) ↔
      ¬q.Retains request failure := by
    rw [Retains, not_and_or, Nat.not_lt, Bool.or_eq_true, decide_eq_true_iff, Bool.not_eq_true,
      Bool.not_eq_true']
  rw [requeue]
  by_cases retained : q.Retains request failure
  · rw [if_pos retained, if_neg (givesUp.not_left.mpr retained)]
    rfl
  · rw [if_neg retained, if_pos (givesUp.mpr retained)]

/-- Putting a request back keeps the queue unique unless the same waits there. -/
theorem unique_requeue_iff (unique : q.Unique) (request : RetryRequest)
    (failure : SourceFailure) :
    (q.requeue request failure).1.Unique ↔
      ¬(q.Retains request failure ∧ q.contains request.address request.kind) := by
  rw [requeue_eq]
  split
  next retained =>
      rw [unique_append_iff unique, not_and]
      exact ⟨fun absent _ => absent, fun absent => absent retained⟩
  next givenUp => exact iff_of_true unique fun doubled => givenUp doubled.1

variable {address x : Address} {kind k : RetryKind}

theorem contains_append_singleton (request : RetryRequest) :
    contains { q with pending := q.pending ++ [request] } x k ↔
      q.contains x k ∨ request.query = (x, k) := by
  rw [contains_iff, queries_append, List.mem_append, contains_iff, List.map_singleton,
    List.mem_singleton, eq_comm (a := (x, k))]

theorem contains_enqueue (failure : SourceFailure) (now : Timestamp) :
    (q.enqueue address kind failure now).1.contains x k ↔
      q.contains x k ∨ (address, kind) = (x, k) := by
  rw [enqueue]
  split
  next waits =>
      have same : contains { q with pending := noteFailure address kind failure q.pending } x k ↔
          q.contains x k := by
        rw [contains_iff, queries, queries_noteFailure, contains_iff, queries]
      rw [same, or_iff_left_of_imp]
      rintro ⟨⟩
      exact waits
  next => exact contains_append_singleton _

theorem contains_resolve :
    (q.resolve address kind).1.contains x k ↔ q.contains x k ∧ (address, kind) ≠ (x, k) := by
  have other {r : RetryRequest} : (!r.asks address kind) = true ↔ r.query ≠ (address, kind) := by
    rw [Bool.not_eq_true', ← Bool.not_eq_true, RetryRequest.asks_iff]
  simp only [contains_iff, queries, resolve, List.mem_map, List.mem_filter, other]
  constructor
  · rintro ⟨r, ⟨waits, apart⟩, here⟩
    exact ⟨⟨r, waits, here⟩, fun same => apart (here.trans same.symm)⟩
  · rintro ⟨⟨r, waits, here⟩, apart⟩
    exact ⟨r, ⟨waits, fun same => apart (same.symm.trans here)⟩, here⟩

theorem contains_requeue (request : RetryRequest) (failure : SourceFailure) :
    (q.requeue request failure).1.contains x k ↔
      q.contains x k ∨ q.Retains request failure ∧ request.query = (x, k) := by
  rw [requeue_eq]
  split
  next retained =>
      rw [and_iff_right retained]
      exact contains_append_singleton (request.again failure)
  next givenUp => exact (or_iff_left fun retained => givenUp retained.1).symm

theorem contains_restore (request : RetryRequest) :
    (q.restore request).contains x k ↔ q.contains x k ∨ request.query = (x, k) := by
  rw [restore]
  split
  next waits =>
      rw [or_iff_left_of_imp]
      rintro ⟨⟩
      exact waits
  next => exact contains_append_singleton request

theorem contains_restoreAll (requests : List RetryRequest) :
    (requests.foldl restore q).contains x k ↔
      q.contains x k ∨ ∃ r ∈ requests, r.query = (x, k) := by
  induction requests generalizing q with
  | nil => simp
  | cons request rest ih =>
      rw [List.foldl_cons, ih, contains_restore, List.exists_mem_cons_iff, or_assoc]

end RetryQueue

/-- A queue, and the requests that were taken out of it and not put back yet. -/
structure Circulation where
  queue : RetryQueue
  held : List RetryRequest := []

namespace Circulation

/-- A call on the queue. Requests are put back by their place among those that are out, so that
each goes back once at most. -/
inductive Call where
  | enqueue (address : Address) (kind : RetryKind) (failure : SourceFailure) (now : Timestamp)
  | take (kind : RetryKind)
  | resolve (address : Address) (kind : RetryKind)
  | restore (place : Nat)
  | requeue (place : Nat) (failure : SourceFailure)

/-- What a call makes of the queue and of the requests that are out. -/
def perform (c : Circulation) : Call → Circulation
  | .enqueue address kind failure now =>
    { c with queue := (c.queue.enqueue address kind failure now).1 }
  | .take kind =>
    let (queue, taken) := c.queue.take kind
    { queue, held := c.held ++ taken }
  | .resolve address kind => { c with queue := (c.queue.resolve address kind).1 }
  | .restore place =>
    match c.held[place]? with
    | none => c
    | some request => { queue := c.queue.restore request, held := c.held.eraseIdx place }
  | .requeue place failure =>
    match c.held[place]? with
    | none => c
    | some request =>
      { queue := (c.queue.requeue request failure).1, held := c.held.eraseIdx place }

def run (c : Circulation) (calls : List Call) : Circulation := calls.foldl perform c

/-- Whether a call puts a request back after another failed attempt while the same waits. -/
def Doubles (c : Circulation) : Call → Prop
  | .requeue place failure => ∃ request ∈ c.held[place]?,
    c.queue.Retains request failure ∧ c.queue.contains request.address request.kind
  | _ => False

/-- One call keeps the queue unique just if it does not double a request. -/
theorem unique_perform_iff {c : Circulation} (unique : c.queue.Unique) (call : Call) :
    (c.perform call).queue.Unique ↔ ¬c.Doubles call := by
  cases call with
  | enqueue address kind failure now =>
      exact iff_of_true (RetryQueue.unique_enqueue unique _ _ _ _) not_false
  | take kind => exact iff_of_true (RetryQueue.unique_take unique kind) not_false
  | resolve address kind => exact iff_of_true (RetryQueue.unique_resolve unique _ _) not_false
  | restore place =>
      rw [perform]
      split
      next => exact iff_of_true unique not_false
      next => exact iff_of_true (RetryQueue.unique_restore unique _) not_false
  | requeue place failure =>
      rw [perform, Doubles]
      split
      next missing => simp [missing, unique]
      next request out =>
          simp only [out, Option.mem_some_iff, exists_eq_left']
          exact RetryQueue.unique_requeue_iff unique request failure

/-- From an empty queue on, no two pending requests ask the same at any time just if no call
of the run puts back a request while the same waits. -/
theorem unique_throughout_iff (limit : Nat) (calls : List Call) :
    let start : Circulation := { queue := .ofLimit limit }
    (∀ done, done <+: calls → (start.run done).queue.Unique) ↔
      ∀ done call, done ++ [call] <+: calls → ¬(start.run done).Doubles call := by
  intro start
  have next (done : List Call) (call : Call) :
      start.run (done ++ [call]) = (start.run done).perform call := by
    rw [run, List.foldl_concat, run]
  constructor
  · intro unique done call within
    have before := unique done ((List.prefix_append _ _).trans within)
    have after := unique (done ++ [call]) within
    rw [next] at after
    exact (unique_perform_iff before call).mp after
  · intro apart done within
    induction done using List.reverseRecOn with
    | nil => exact RetryQueue.unique_ofLimit limit
    | append_singleton done call ih =>
        have before := ih ((List.prefix_append _ _).trans within)
        rw [next]
        exact (unique_perform_iff before call).mpr (apart done call within)

/-- A query fails, is taken to be tried again, fails anew in the meantime, and is put back:
it then waits twice. -/
theorem doubled_in_the_meantime :
    let address : Address := ⟨"a"⟩
    let start : Circulation := { queue := .ofLimit 5 }
    let c := start.run [.enqueue address .balance .timeout 0, .take .balance,
      .enqueue address .balance .timeout 0, .requeue 0 .timeout]
    ¬c.queue.Unique := by
  decide

end Circulation

end HdWallet
