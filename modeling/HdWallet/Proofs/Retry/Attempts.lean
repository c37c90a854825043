import HdWallet.Proofs.Retry
import Mathlib.Data.List.Perm.Subperm

/-!
# How often a request is tried

A request is tried when its query fails first, which brings it into the queue, and then once for
each time it is taken, unless it is put back untried. The record below gives every request that
enters a number of its own and notes each try under it. Whatever the calls, the attempts that a
request counts are the tries noted for it, and they stay below the limit as long as it is queued
or out of the queue.

The count starts at one and is held against the limit after a further try only. So a limit of one
works as a limit of two.
-/

namespace HdWallet

namespace Circulation

inductive Event where
  /-- A call on the queue. A request that `requeue` puts back has been tried and has failed. -/
  | call (call : Call)
  /-- A request that is out of the queue is tried and answered. -/
  | answered (place : Nat)

/-- What an event makes of the queue and of the requests that are out. -/
def proceed (c : Circulation) : Event → Circulation
  | .call call => c.perform call
  | .answered place => { c with held := c.held.eraseIdx place }

/-- The numbers of those requests that satisfy a test. -/
def numbersOf (test : RetryRequest → Bool) (numbers : List Nat) (requests : List RetryRequest) :
    List Nat :=
  ((numbers.zip requests).filter (test ·.2)).map (·.1)

/-- A queue in use, with a number for each request and a record of the tries. -/
structure Record where
  circulation : Circulation
  /-- The numbers of the pending requests, in their order. -/
  waiting : List Nat := []
  /-- The numbers of the requests that are out, in their order. -/
  out : List Nat := []
  /-- For each try the number of the request, the latest first. -/
  tried : List Nat := []
  /-- The number of the next request to enter. -/
  fresh : Nat := 0

namespace Record

def proceed (r : Record) (event : Event) : Record :=
  let queue := r.circulation.queue
  let held := r.circulation.held
  let after := { r with circulation := r.circulation.proceed event }
  match event with
  | .call (.enqueue address kind _ _) =>
    if queue.contains address kind then after
    else { after with
      waiting := r.waiting ++ [r.fresh], tried := r.fresh :: r.tried, fresh := r.fresh + 1 }
  | .call (.take kind) => { after with
      waiting := numbersOf (!·.kind == kind) r.waiting queue.pending
      out := r.out ++ numbersOf (·.kind == kind) r.waiting queue.pending }
  | .call (.resolve address kind) => { after with
      waiting := numbersOf (!·.asks address kind) r.waiting queue.pending }
  | .call (.restore place) =>
    match r.out[place]?, held[place]? with
    | some number, some request => { after with
        waiting :=
          if queue.contains request.address request.kind then r.waiting
          else r.waiting ++ [number]
        out := r.out.eraseIdx place }
    | _, _ => after
  | .call (.requeue place failure) =>
    match r.out[place]?, held[place]? with
    | some number, some request => { after with
        waiting :=
          if (queue.requeue request failure).2.isSome then r.waiting else r.waiting ++ [number]
        out := r.out.eraseIdx place
        tried := number :: r.tried }
    | _, _ => after
  | .answered place =>
    match r.out[place]? with
    | some number => { after with out := r.out.eraseIdx place, tried := number :: r.tried }
    | none => after

def run (r : Record) (events : List Event) : Record := events.foldl proceed r

end Record

/-- The attempts that each request counts, under its number. -/
def tally (numbers : List Nat) (requests : List RetryRequest) : List (Nat × Nat) :=
  numbers.zip (requests.map (·.attempts))

section Tally

variable {numbers : List Nat} {requests : List RetryRequest}

theorem tally_append (paired : numbers.length = requests.length) (others : List Nat)
    (more : List RetryRequest) :
    tally (numbers ++ others) (requests ++ more) = tally numbers requests ++ tally others more := by
  rw [tally, List.map_append, List.zip_append (by rw [List.length_map, paired])]
  rfl

theorem tally_noteFailure (address : Address) (kind : RetryKind) (failure : SourceFailure) :
    tally numbers (RetryQueue.noteFailure address kind failure requests) =
      tally numbers requests := by
  have same : (RetryQueue.noteFailure address kind failure requests).map (·.attempts) =
      requests.map (·.attempts) :=
    RetryQueue.map_noteFailure (fun _ _ => rfl) address kind failure requests
  rw [tally, same, tally]

theorem tally_eq_map : tally numbers requests =
    (numbers.zip requests).map (Prod.map id (·.attempts)) :=
  List.zip_map_right

theorem map_fst_tally (paired : numbers.length = requests.length) :
    (tally numbers requests).map Prod.fst = numbers :=
  List.map_fst_zip (by simp [paired])

theorem map_snd_tally (paired : numbers.length = requests.length) :
    (tally numbers requests).map Prod.snd = requests.map (·.attempts) :=
  List.map_snd_zip (by simp [paired])

theorem filter_eq_map_zip (paired : numbers.length = requests.length)
    (test : RetryRequest → Bool) :
    requests.filter test = ((numbers.zip requests).filter (test ·.2)).map Prod.snd := by
  conv_lhs => rw [← List.map_snd_zip (Nat.le_of_eq paired.symm), List.filter_map]
  rfl

/-- Numbers and requests that pass a test go together. -/
theorem zip_numbersOf (paired : numbers.length = requests.length) (test : RetryRequest → Bool) :
    (numbersOf test numbers requests).zip (requests.filter test) =
      (numbers.zip requests).filter (test ·.2) :=
  (List.zip_of_prod rfl (filter_eq_map_zip paired test).symm).symm

theorem length_numbersOf (paired : numbers.length = requests.length)
    (test : RetryRequest → Bool) :
    (numbersOf test numbers requests).length = (requests.filter test).length := by
  rw [filter_eq_map_zip paired, numbersOf, List.length_map, List.length_map]

theorem tally_numbersOf (paired : numbers.length = requests.length)
    (test : RetryRequest → Bool) :
    tally (numbersOf test numbers requests) (requests.filter test) =
      ((numbers.zip requests).filter (test ·.2)).map (Prod.map id (·.attempts)) := by
  rw [tally_eq_map, zip_numbersOf paired]

/-- The request at a place, and the others. -/
theorem tally_perm_eraseIdx (paired : numbers.length = requests.length) {place number : Nat}
    {request : RetryRequest} (hnumber : numbers[place]? = some number)
    (hrequest : requests[place]? = some request) :
    (tally numbers requests).Perm
      ((number, request.attempts) :: tally (numbers.eraseIdx place) (requests.eraseIdx place)) := by
  induction numbers generalizing requests place with
  | nil => simp at hnumber
  | cons n numbers ih =>
      cases requests with
      | nil => simp at paired
      | cons r requests =>
          cases place with
          | zero =>
              cases hnumber
              cases hrequest
              exact .refl _
          | succ place =>
              have rest := ih (Nat.succ.inj paired) hnumber hrequest
              exact (rest.cons (n, r.attempts)).trans (.swap _ _ _)

end Tally

/-- The tries noted for requests in circulation, under their numbers, are the attempts they count.
They are below the limit, and no request reaches more tries than that. -/
structure Noted (limit : Nat) (live : List (Nat × Nat)) (tried : List Nat) (fresh : Nat) :
    Prop where
  distinct : (live.map Prod.fst).Nodup
  counted : ∀ entry ∈ live, tried.count entry.1 = entry.2
  below : ∀ entry ∈ live, entry.2 < limit
  bounded : ∀ number, tried.count number ≤ limit
  known : ∀ number ∈ tried, number < fresh
  entered : ∀ entry ∈ live, entry.1 < fresh

namespace Noted

variable {limit number attempts fresh : Nat} {live more : List (Nat × Nat)} {tried : List Nat}

theorem of_subperm (noted : Noted limit more tried fresh) (fewer : live.Subperm more) :
    Noted limit live tried fresh := by
  obtain ⟨kept, perm, sublist⟩ := fewer
  have subset : live ⊆ more := fun entry here => sublist.subset (perm.mem_iff.mpr here)
  constructor
  case distinct =>
    exact (perm.map Prod.fst).nodup_iff.mp (noted.distinct.sublist (sublist.map Prod.fst))
  case counted => exact fun entry here => noted.counted entry (subset here)
  case below => exact fun entry here => noted.below entry (subset here)
  case bounded => exact noted.bounded
  case known => exact noted.known
  case entered => exact fun entry here => noted.entered entry (subset here)

/-- A request enters after its first try. -/
theorem enter (noted : Noted limit live tried fresh) (large : 1 < limit) :
    Noted limit ((fresh, 1) :: live) (fresh :: tried) (fresh + 1) := by
  have unknown : fresh ∉ tried := fun here => Nat.lt_irrefl _ (noted.known fresh here)
  have apart : ∀ entry ∈ live, fresh ≠ entry.1 :=
    fun entry here => (Nat.ne_of_lt (noted.entered entry here)).symm
  constructor
  case distinct =>
    refine List.nodup_cons.mpr ⟨?_, noted.distinct⟩
    rw [List.mem_map]
    rintro ⟨entry, here, same⟩
    exact apart entry here same.symm
  case counted =>
    refine List.forall_mem_cons.mpr ⟨?_, ?_⟩
    · rw [List.count_cons_self, List.count_eq_zero_of_not_mem unknown]
    · intro entry here
      rw [List.count_cons_of_ne (apart entry here)]
      exact noted.counted entry here
  case below => exact List.forall_mem_cons.mpr ⟨large, noted.below⟩
  case bounded =>
    intro number
    by_cases same : fresh = number
    · rw [← same, List.count_cons_self, List.count_eq_zero_of_not_mem unknown]
      omega
    · rw [List.count_cons_of_ne same]
      exact noted.bounded number
  case known =>
    refine List.forall_mem_cons.mpr ⟨Nat.lt_succ_self _, ?_⟩
    exact fun number here => Nat.lt_succ_of_lt (noted.known number here)
  case entered =>
    refine List.forall_mem_cons.mpr ⟨Nat.lt_succ_self _, ?_⟩
    exact fun entry here => Nat.lt_succ_of_lt (noted.entered entry here)

/-- A request leaves after a further try. -/
theorem leave (noted : Noted limit ((number, attempts) :: live) tried fresh) :
    Noted limit live (number :: tried) fresh := by
  obtain ⟨absent, distinct⟩ := List.nodup_cons.mp noted.distinct
  have count : tried.count number = attempts := noted.counted _ List.mem_cons_self
  constructor
  case distinct => exact distinct
  case counted =>
    intro entry here
    have apart : number ≠ entry.1 := fun same =>
      absent (List.mem_map.mpr ⟨entry, here, same.symm⟩)
    rw [List.count_cons_of_ne apart]
    exact noted.counted entry (List.mem_cons_of_mem _ here)
  case below => exact fun entry here => noted.below entry (List.mem_cons_of_mem _ here)
  case bounded =>
    intro other
    by_cases same : number = other
    · have small : attempts < limit := noted.below _ List.mem_cons_self
      rw [← same, List.count_cons_self, count]
      exact small
    · rw [List.count_cons_of_ne same]
      exact noted.bounded other
  case known =>
    exact List.forall_mem_cons.mpr ⟨noted.entered _ List.mem_cons_self, noted.known⟩
  case entered => exact fun entry here => noted.entered entry (List.mem_cons_of_mem _ here)

/-- A request goes back after a further try. -/
theorem again (noted : Noted limit ((number, attempts) :: live) tried fresh)
    (left : attempts + 1 < limit) :
    Noted limit ((number, attempts + 1) :: live) (number :: tried) fresh := by
  obtain ⟨count, -⟩ := List.forall_mem_cons.mp noted.counted
  obtain ⟨entered, -⟩ := List.forall_mem_cons.mp noted.entered
  constructor
  case distinct => exact noted.distinct
  case counted =>
    refine List.forall_mem_cons.mpr ⟨?_, noted.leave.counted⟩
    rw [List.count_cons_self, count]
  case below => exact List.forall_mem_cons.mpr ⟨left, noted.leave.below⟩
  case bounded => exact noted.leave.bounded
  case known => exact noted.leave.known
  case entered => exact List.forall_mem_cons.mpr ⟨entered, noted.leave.entered⟩

end Noted

namespace Record

def live (r : Record) : List (Nat × Nat) :=
  tally r.waiting r.circulation.queue.pending ++ tally r.out r.circulation.held

/-- Every request in circulation has its number, and the attempts agree with the tries noted. -/
structure Kept (limit : Nat) (r : Record) : Prop where
  maxAttempts : r.circulation.queue.maxAttempts = max limit 1
  waiting : r.waiting.length = r.circulation.queue.pending.length
  out : r.out.length = r.circulation.held.length
  noted : Noted (max limit 2) r.live r.tried r.fresh

namespace Kept

variable {limit : Nat} {r : Record}

theorem start : Kept limit { circulation := { queue := .ofLimit limit } } where
  maxAttempts := rfl
  waiting := rfl
  out := rfl
  noted := by constructor <;> simp [live, tally]

theorem enqueue (kept : r.Kept limit) (address : Address) (kind : RetryKind)
    (failure : SourceFailure) (now : Timestamp) :
    (r.proceed (.call (.enqueue address kind failure now))).Kept limit := by
  simp only [proceed, Circulation.proceed, perform, RetryQueue.enqueue]
  by_cases waits : r.circulation.queue.contains address kind
  · rw [if_pos waits, if_pos waits]
    constructor
    case maxAttempts => exact kept.maxAttempts
    case waiting =>
      have same := congrArg List.length
        (RetryQueue.queries_noteFailure address kind failure r.circulation.queue.pending)
      rw [List.length_map, List.length_map] at same
      exact kept.waiting.trans same.symm
    case out => exact kept.out
    case noted =>
      rw [live, tally_noteFailure]
      exact kept.noted
  · rw [if_neg waits, if_neg waits]
    constructor
    case maxAttempts => exact kept.maxAttempts
    case waiting => simp [kept.waiting]
    case out => exact kept.out
    case noted =>
      rw [live, tally_append kept.waiting, List.append_assoc]
      exact (kept.noted.enter (by omega)).of_subperm List.perm_middle.subperm

theorem take (kept : r.Kept limit) (kind : RetryKind) :
    (r.proceed (.call (.take kind))).Kept limit := by
  simp only [proceed, Circulation.proceed, perform, RetryQueue.take,
    List.partition_eq_filter_filter]
  constructor
  case maxAttempts => exact kept.maxAttempts
  case waiting => exact length_numbersOf kept.waiting (!·.kind == kind)
  case out =>
    simp only [List.length_append, kept.out]
    rw [length_numbersOf kept.waiting]
  case noted =>
    refine kept.noted.of_subperm (List.Perm.subperm ?_)
    -- What is taken and what stays are together what was pending.
    have split := (List.filter_append_perm (·.2.kind == kind)
      (r.waiting.zip r.circulation.queue.pending)).map (Prod.map id (·.attempts))
    rw [List.map_append, ← tally_numbersOf kept.waiting (·.kind == kind),
      ← tally_numbersOf kept.waiting (!·.kind == kind), ← tally_eq_map] at split
    simp only [live]
    rw [tally_append kept.out]
    refine List.perm_append_comm.trans ?_
    rw [List.append_assoc]
    exact (split.append_left _).trans List.perm_append_comm

theorem resolve (kept : r.Kept limit) (address : Address) (kind : RetryKind) :
    (r.proceed (.call (.resolve address kind))).Kept limit := by
  simp only [proceed, Circulation.proceed, perform, RetryQueue.resolve]
  constructor
  case maxAttempts => exact kept.maxAttempts
  case waiting => exact length_numbersOf kept.waiting (!·.asks address kind)
  case out => exact kept.out
  case noted =>
    refine kept.noted.of_subperm (List.Sublist.subperm (List.Sublist.append_right ?_ _))
    simp only
    rw [tally_numbersOf kept.waiting, tally_eq_map]
    exact List.filter_sublist.map _

/-- A request that is out is one of those in circulation. -/
theorem noted_held (kept : r.Kept limit) {place number : Nat} {request : RetryRequest}
    (hnumber : r.out[place]? = some number) (hrequest : r.circulation.held[place]? = some request) :
    Noted (max limit 2)
      ((number, request.attempts) :: (tally r.waiting r.circulation.queue.pending ++
        tally (r.out.eraseIdx place) (r.circulation.held.eraseIdx place))) r.tried r.fresh := by
  refine kept.noted.of_subperm (List.Perm.subperm ?_)
  have single := tally_perm_eraseIdx kept.out hnumber hrequest
  exact List.perm_middle.symm.trans (single.symm.append_left _)

theorem length_eraseIdx (kept : r.Kept limit) (place : Nat) :
    (r.out.eraseIdx place).length = (r.circulation.held.eraseIdx place).length := by
  rw [List.length_eraseIdx, List.length_eraseIdx, kept.out]

theorem getElem?_cases (kept : r.Kept limit) (place : Nat) :
    (∃ number request, r.out[place]? = some number ∧
      r.circulation.held[place]? = some request) ∨
      r.out[place]? = none ∧ r.circulation.held[place]? = none := by
  by_cases bound : place < r.circulation.held.length
  · have bound' : place < r.out.length := kept.out ▸ bound
    exact .inl ⟨r.out[place], r.circulation.held[place], List.getElem?_eq_getElem bound',
      List.getElem?_eq_getElem bound⟩
  · rw [List.getElem?_eq_none_iff, List.getElem?_eq_none_iff, kept.out]
    exact .inr ⟨Nat.le_of_not_lt bound, Nat.le_of_not_lt bound⟩

theorem restore (kept : r.Kept limit) (place : Nat) :
    (r.proceed (.call (.restore place))).Kept limit := by
  rcases kept.getElem?_cases place with ⟨number, request, hnumber, hrequest⟩ | ⟨hnumber, hrequest⟩
  · simp only [proceed, Circulation.proceed, perform, hnumber, hrequest, RetryQueue.restore]
    have noted := kept.noted_held hnumber hrequest
    by_cases waits : r.circulation.queue.contains request.address request.kind
    · rw [if_pos waits, if_pos waits]
      exact ⟨kept.maxAttempts, kept.waiting, kept.length_eraseIdx place,
        noted.of_subperm (List.sublist_cons_self _ _).subperm⟩
    · rw [if_neg waits, if_neg waits]
      refine ⟨kept.maxAttempts, by simp [kept.waiting], kept.length_eraseIdx place, ?_⟩
      rw [live, tally_append kept.waiting, List.append_assoc]
      exact noted.of_subperm List.perm_middle.subperm
  · simp only [proceed, Circulation.proceed, perform, hnumber, hrequest]
    exact kept

theorem requeue (kept : r.Kept limit) (place : Nat) (failure : SourceFailure) :
    (r.proceed (.call (.requeue place failure))).Kept limit := by
  rcases kept.getElem?_cases place with ⟨number, request, hnumber, hrequest⟩ | ⟨hnumber, hrequest⟩
  · simp only [proceed, Circulation.proceed, perform, hnumber, hrequest, RetryQueue.requeue_eq]
    have noted := kept.noted_held hnumber hrequest
    by_cases retained : r.circulation.queue.Retains request failure
    · rw [if_pos retained]
      have left : request.attempts + 1 < max limit 2 := by
        have := retained.1
        rw [kept.maxAttempts] at this
        omega
      refine ⟨kept.maxAttempts, by simp [kept.waiting], kept.length_eraseIdx place, ?_⟩
      simp only [live, Option.isSome_none, Bool.false_eq_true, if_false]
      rw [tally_append kept.waiting, List.append_assoc]
      exact (noted.again left).of_subperm List.perm_middle.subperm
    · rw [if_neg retained]
      exact ⟨kept.maxAttempts, kept.waiting, kept.length_eraseIdx place, noted.leave⟩
  · simp only [proceed, Circulation.proceed, perform, hnumber, hrequest]
    exact kept

theorem answered (kept : r.Kept limit) (place : Nat) :
    (r.proceed (.answered place)).Kept limit := by
  rcases kept.getElem?_cases place with ⟨number, request, hnumber, hrequest⟩ | ⟨hnumber, hrequest⟩
  · simp only [proceed, Circulation.proceed, hnumber]
    exact ⟨kept.maxAttempts, kept.waiting, kept.length_eraseIdx place,
      (kept.noted_held hnumber hrequest).leave⟩
  · simp only [proceed, Circulation.proceed, hnumber]
    rw [List.eraseIdx_of_length_le (List.getElem?_eq_none_iff.mp hrequest)]
    exact kept

theorem proceed (kept : r.Kept limit) (event : Event) : (r.proceed event).Kept limit := by
  cases event with
  | call call =>
      cases call with
      | enqueue address kind failure now => exact kept.enqueue address kind failure now
      | take kind => exact kept.take kind
      | resolve address kind => exact kept.resolve address kind
      | restore place => exact kept.restore place
      | requeue place failure => exact kept.requeue place failure
  | answered place => exact kept.answered place

theorem run (kept : r.Kept limit) (events : List Event) : (r.run events).Kept limit := by
  induction events generalizing r with
  | nil => exact kept
  | cons event events ih => exact ih (kept.proceed event)

theorem nodup (kept : r.Kept limit) : (r.waiting ++ r.out).Nodup := by
  have distinct := kept.noted.distinct
  rw [live, List.map_append, map_fst_tally kept.waiting, map_fst_tally kept.out] at distinct
  exact distinct

theorem counted (kept : r.Kept limit) :
    ∀ entry ∈ r.waiting.zip r.circulation.queue.pending ++ r.out.zip r.circulation.held,
      r.tried.count entry.1 = entry.2.attempts := by
  have counted := kept.noted.counted
  rw [live, tally_eq_map, tally_eq_map, ← List.map_append] at counted
  exact List.forall_mem_map.mp counted

theorem below (kept : r.Kept limit) :
    ∀ request ∈ r.circulation.queue.pending ++ r.circulation.held,
      request.attempts < max limit 2 := by
  have below : ∀ attempts ∈ r.live.map Prod.snd, attempts < max limit 2 :=
    List.forall_mem_map.mpr kept.noted.below
  rw [live, List.map_append, map_snd_tally kept.waiting, map_snd_tally kept.out,
    ← List.map_append] at below
  exact List.forall_mem_map.mp below

end Kept

theorem circulation_proceed (r : Record) (event : Event) :
    (r.proceed event).circulation = r.circulation.proceed event := by
  cases event with
  | call call =>
      cases call with
      | enqueue => simp only [proceed]; split <;> rfl
      | take => rfl
      | resolve => rfl
      | restore => simp only [proceed]; split <;> rfl
      | requeue => simp only [proceed]; split <;> rfl
  | answered => simp only [proceed]; split <;> rfl

theorem circulation_run (r : Record) (events : List Event) :
    (r.run events).circulation = events.foldl Circulation.proceed r.circulation := by
  induction events generalizing r with
  | nil => rfl
  | cons event events ih => rw [List.foldl_cons, ← circulation_proceed, ← ih]; rfl

/-- In a queue with a limit, whatever is done with it, a request counts the tries it has had, and
while it waits or is out these are below the limit; no request is tried more often than the limit
says. A limit of one, or none, works as a limit of two. A request that failed again is given up
and reported just if the attempts reach the limit or the failure will not pass. -/
theorem tries_within_limit (limit : Nat) (events : List Event) :
    let r := run { circulation := { queue := .ofLimit limit } } events
    let queue := r.circulation.queue
    let held := r.circulation.held
    r.circulation = events.foldl Circulation.proceed { queue := .ofLimit limit } ∧
      (r.waiting.length = queue.pending.length ∧ r.out.length = held.length ∧
        (r.waiting ++ r.out).Nodup) ∧
      (∀ entry ∈ r.waiting.zip queue.pending ++ r.out.zip held,
        r.tried.count entry.1 = entry.2.attempts) ∧
      (∀ request ∈ queue.pending ++ held, request.attempts < max limit 2) ∧
      (∀ number, r.tried.count number ≤ max limit 2) ∧
      ∀ request failure, queue.requeue request failure =
        if max limit 1 ≤ request.attempts + 1 ∨ ¬failure.isTransient then
          (queue, some ⟨request.address, failure⟩)
        else ({ queue with pending := queue.pending ++ [request.again failure] }, none) := by
  intro r queue held
  have kept : r.Kept limit := Kept.start.run events
  refine ⟨circulation_run _ events, ⟨kept.waiting, kept.out, kept.nodup⟩, kept.counted,
    kept.below, kept.noted.bounded, ?_⟩
  intro request failure
  have givesUp : (max limit 1 ≤ request.attempts + 1 ∨ ¬failure.isTransient) ↔
      ¬queue.Retains request failure := by
    rw [RetryQueue.Retains, kept.maxAttempts, not_and_or, Nat.not_lt]
  rw [RetryQueue.requeue_eq]
  by_cases retained : queue.Retains request failure
  · rw [if_pos retained, if_neg (givesUp.not_left.mpr retained)]
  · rw [if_neg retained, if_pos (givesUp.mpr retained)]

/-- With a limit of one a query that has failed once is queued, and tried a second time. -/
theorem tried_again_at_limit_one :
    let first := run { circulation := { queue := .ofLimit 1 } }
      [.call (.enqueue ⟨"a"⟩ .balance .timeout 0)]
    let second := first.run [.call (.take .balance), .call (.requeue 0 .timeout)]
    ¬(∀ request ∈ first.circulation.queue.pending, request.attempts < 1) ∧
      ¬second.tried.count 0 ≤ 1 := by
  decide

end Record

end Circulation

end HdWallet
