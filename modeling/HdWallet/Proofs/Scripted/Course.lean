import HdWallet.Proofs.Step
import HdWallet.Scripted.Activity

/-!
# Activities that nothing interrupts

A batch starts its queries, lets them end and takes in their replies over many polls, as its bound
and the timing of the source have it. Whatever the timing, it takes in one reply for each of its
addresses. So an activity that is polled until it ends, while nobody else changes the account, does
to the account what taking in those replies one after another does, in the order in which they
arrived.
-/

namespace HdWallet.Scripted

variable {α : Type} {ask : Ask α} {timeout : Nat}

/-- What a query about an address ends with that is started as the source is now. -/
def Source.answer (ask : Ask α) (timeout : Nat) (s : Source) (address : Address) : Reply α :=
  if timerEnd 0 s.delay ≤ timerEnd 0 timeout then (ask address s).2 else .error .timeout

/-- Asking and counting queries changes no answer. -/
structure Ask.Steady (ask : Ask α) : Prop where
  delay_eq : ∀ x s, (ask x s).1.delay = s.delay
  reply_eq : ∀ x y s, (ask y (ask x s).1).2 = (ask y s).2
  reply_enter : ∀ x s, (ask x s.enter).2 = (ask x s).2
  reply_leave : ∀ x s, (ask x s.leave).2 = (ask x s).2

theorem Source.steady_askBalance : Ask.Steady askBalance where
  delay_eq _ _ := rfl
  reply_eq _ _ _ := rfl
  reply_enter _ _ := rfl
  reply_leave _ _ := rfl

theorem Source.steady_askHistory : Ask.Steady askHistory where
  delay_eq _ _ := rfl
  reply_eq _ _ _ := rfl
  reply_enter _ _ := rfl
  reply_leave _ _ := rfl

namespace Ask.Steady

theorem answer_ask (steady : ask.Steady) (x : Address) (s : Source) :
    (ask x s).1.answer ask timeout = s.answer ask timeout := by
  funext y
  rw [Source.answer, Source.answer, steady.delay_eq, steady.reply_eq]

theorem answer_enter (steady : ask.Steady) (s : Source) :
    s.enter.answer ask timeout = s.answer ask timeout := by
  funext y
  rw [Source.answer, Source.answer, steady.reply_enter]
  rfl

theorem answer_finish (steady : ask.Steady) (q : Query α) (s : Source) :
    (q.finish s).answer ask timeout = s.answer ask timeout := by
  funext y
  rw [Query.finish]
  split
  next =>
      rw [Source.answer, Source.answer, steady.reply_leave]
      rfl
  next => rfl

theorem answer_foldl_finish (steady : ask.Steady) (ended : List (Query α)) (s : Source) :
    (ended.foldl (fun s q => q.finish s) s).answer ask timeout = s.answer ask timeout := by
  induction ended generalizing s with
  | nil => rfl
  | cons q rest ih => rw [List.foldl_cons, ih, steady.answer_finish]

/-- A query that is started ends with the answer as it is then, and no answer changes. -/
theorem start_spec (steady : ask.Steady) (timeout : Nat) (x : Address) (now : Nat) (s : Source) :
    let (s', q) := Query.start ask x timeout now s
    s'.answer ask timeout = s.answer ask timeout ∧ q.address = x ∧
      q.reply = s.answer ask timeout x := by
  have same : timerEnd now s.delay ≤ timerEnd now timeout ↔
      timerEnd 0 s.delay ≤ timerEnd 0 timeout := by
    simp only [timerEnd]
    omega
  rw [Query.start]
  dsimp only
  simp only [same]
  split
  next intime =>
      refine ⟨(steady.answer_enter _).trans (steady.answer_ask x s), rfl, ?_⟩
      rw [Source.answer, if_pos intime]
  next late =>
      refine ⟨(steady.answer_enter _).trans (steady.answer_ask x s), rfl, ?_⟩
      rw [Source.answer, if_neg late]

end Ask.Steady

namespace Batch

variable {answer : Address → Reply α} {addresses : List Address} {b : Batch α}

/-- The addresses whose replies a batch has still to take in. -/
def outstanding (b : Batch α) : List Address :=
  b.waiting ++ (b.running.map (·.address) ++ b.arrived.map (·.1))

/-- The batch has still to take in one reply for each of some addresses, and those that were started
end with the given answers. -/
structure Owes (answer : Address → Reply α) (timeout : Nat) (addresses : List Address)
    (b : Batch α) : Prop where
  outstanding_perm : b.outstanding.Perm addresses
  running_eq : ∀ q ∈ b.running, q.reply = answer q.address
  arrived_eq : ∀ p ∈ b.arrived, p.2 = answer p.1
  timeout_eq : b.timeout = timeout

namespace Owes

theorem ofAddresses (answer : Address → Reply α) (config : Config) (addresses : List Address) :
    (ofAddresses config addresses).Owes answer (timeoutOf config) addresses where
  outstanding_perm := by simp [outstanding, Batch.ofAddresses]
  running_eq := nofun
  arrived_eq := nofun
  timeout_eq := rfl

theorem eq_nil (h : b.Owes answer timeout addresses) (done : b.isDone) : addresses = [] := by
  simp only [isDone, Bool.and_eq_true, List.isEmpty_iff] at done
  obtain ⟨⟨waiting, running⟩, arrived⟩ := done
  have perm := h.outstanding_perm
  rw [outstanding, waiting, running, arrived] at perm
  exact perm.symm.eq_nil

theorem begun (h : b.Owes answer timeout addresses) : b.begun.Owes answer timeout addresses where
  outstanding_perm := h.outstanding_perm
  running_eq := h.running_eq
  arrived_eq := h.arrived_eq
  timeout_eq := h.timeout_eq

/-- The replies at hand are taken in. -/
theorem taken (h : b.Owes answer timeout addresses) :
    ∃ order rest, b.arrived = order.map (fun x => (x, answer x)) ∧
      (order ++ rest).Perm addresses ∧ b.taken.Owes answer timeout rest := by
  refine ⟨b.arrived.map (·.1), b.taken.outstanding, ?_, ?_, ?_⟩
  · calc
      b.arrived = b.arrived.map id := (List.map_id _).symm
      _ = b.arrived.map fun p => (p.1, answer p.1) :=
        List.map_congr_left fun p hp => Prod.ext rfl (h.arrived_eq p hp)
      _ = (b.arrived.map (·.1)).map fun x => (x, answer x) := by
        rw [List.map_map]
        rfl
  · refine .trans ?_ h.outstanding_perm
    rw [List.perm_iff_count]
    intro x
    simp only [outstanding, Batch.taken, List.map_nil, List.count_append, List.count_nil]
    omega
  · exact ⟨.refl _, h.running_eq, nofun, h.timeout_eq⟩

/-- Queries that are over leave their replies. -/
theorem collect (h : b.Owes answer timeout addresses) (now : Nat) (s : Source) :
    (b.collect now s).1.Owes answer timeout addresses := by
  rw [Batch.collect, List.partition_eq_filter_filter]
  constructor
  case outstanding_perm =>
      refine .trans ?_ h.outstanding_perm
      have queries := (List.filter_append_perm (·.isOver now) b.running).map (·.address)
      rw [List.perm_iff_count] at queries ⊢
      intro x
      have here := queries x
      simp only [outstanding, List.map_append, List.map_map, List.count_append] at here ⊢
      simp only [Function.comp_def] at here ⊢
      omega
  case running_eq => exact fun q hq => h.running_eq q (List.mem_filter.mp hq).1
  case arrived_eq =>
      intro p hp
      obtain before | ended := List.mem_append.mp hp
      · exact h.arrived_eq p before
      · obtain ⟨q, hq, rfl⟩ := List.mem_map.mp ended
        exact h.running_eq q (List.mem_filter.mp hq).1
  case timeout_eq => exact h.timeout_eq

/-- A query that is over as soon as it is started. -/
theorem arrive {x : Address} {waiting : List Address} {arrived : List (Address × Reply α)}
    {reply : Reply α}
    (h : { b with waiting := x :: waiting, arrived }.Owes answer timeout addresses)
    (answered : reply = answer x) :
    { b with waiting, arrived := arrived ++ [(x, reply)] }.Owes answer timeout addresses where
  outstanding_perm := by
    refine .trans ?_ h.outstanding_perm
    simp only [outstanding, List.map_append, ← List.append_assoc]
    exact List.perm_append_singleton x _
  running_eq := h.running_eq
  arrived_eq := by
    intro p hp
    obtain before | here := List.mem_append.mp hp
    · exact h.arrived_eq p before
    · rw [List.mem_singleton.mp here, answered]
  timeout_eq := h.timeout_eq

/-- A query that is under way. -/
theorem enter {q : Query α} {waiting : List Address} {arrived : List (Address × Reply α)}
    (h : { b with waiting := q.address :: waiting, arrived }.Owes answer timeout addresses)
    (answered : q.reply = answer q.address) :
    { b with waiting, running := b.running ++ [q], arrived }.Owes answer timeout addresses where
  outstanding_perm := by
    refine .trans ?_ h.outstanding_perm
    simp only [outstanding, List.map_append, List.append_assoc, List.cons_append]
    rw [← List.append_assoc waiting, ← List.append_assoc waiting]
    exact List.perm_middle
  running_eq := by
    intro p hp
    obtain before | here := List.mem_append.mp hp
    · exact h.running_eq p before
    · rw [List.mem_singleton.mp here, answered]
  arrived_eq := h.arrived_eq
  timeout_eq := h.timeout_eq

theorem launchAmong (steady : ask.Steady) (now most : Nat) {waiting : List Address}
    {replies : List (Address × Reply α)} {s : Source} (gives : s.answer ask timeout = answer)
    (h : { b with waiting, arrived := b.arrived ++ replies.reverse }.Owes answer timeout
      addresses) :
    let (replies', b', _) := Batch.launchAmong ask now most waiting replies b s
    { b' with arrived := b'.arrived ++ replies'.reverse }.Owes answer timeout addresses := by
  induction most generalizing waiting replies b s with
  | zero => cases waiting <;> exact h
  | succ most ih =>
      cases waiting with
      | nil => exact h
      | cons x rest =>
          have started := steady.start_spec b.timeout x now s
          rw [Batch.launchAmong]
          generalize Query.start ask x b.timeout now s = begun at started ⊢
          obtain ⟨s', q⟩ := begun
          obtain ⟨same, rfl, answered⟩ := started
          rw [show b.timeout = timeout from h.timeout_eq, gives] at same answered
          dsimp only
          split
          next =>
              split
              next =>
                  refine ih ((steady.answer_finish q s').trans same) ?_
                  rw [List.reverse_cons, ← List.append_assoc]
                  exact h.arrive answered
              next => exact ih same (h.enter answered)
          next => exact h

theorem launch (h : b.Owes answer timeout addresses) (steady : ask.Steady) (inFront : Bool)
    (now : Nat) {s : Source} (gives : s.answer ask timeout = answer) :
    (b.launch ask inFront now s).1.Owes answer timeout addresses := by
  have begun : { b with arrived := b.arrived ++ ([] : List (Address × Reply α)).reverse }.Owes
      answer timeout addresses := by
    rwa [List.reverse_nil, List.append_nil]
  exact launchAmong steady now _ gives begun

theorem pump (h : b.Owes answer timeout addresses) (steady : ask.Steady) (inFront : Bool)
    (now : Nat) {s : Source} (gives : s.answer ask timeout = answer) :
    (b.pump ask inFront now s).1.Owes answer timeout addresses := by
  apply (h.collect now s).launch steady inFront now
  exact (steady.answer_foldl_finish _ s).trans gives

end Owes

end Batch

def Progress.activity? : Progress → Option Activity
  | waiting activity | ready activity => some activity
  | finished _ => none

namespace Activity

theorem activity?_onward (b : Batch α) (activity : Activity) :
    (onward b activity).activity? = some activity := by
  rw [onward]
  split <;> rfl

section Serve

variable {σ : Type} {absorb : σ → Address → Reply α → Step Account σ}
  {answer : Address → Reply α} {addresses : List Address} {b : Batch α}

theorem absorbAll_append (s : σ) (first rest : List (Address × Reply α)) :
    absorbAll absorb s (first ++ rest) =
      absorbAll absorb s first >>= (absorbAll absorb · rest) := by
  induction first generalizing s with
  | nil => rw [List.nil_append, absorbAll, pure_bind]
  | cons p first ih => simp only [List.cons_append, absorbAll, ih, bind_assoc]

/-- What is taken in first and what is taken in then. -/
theorem absorbAll_append_of_ok {s s' : σ} {a a' : Account} {order : List Address}
    (absorbed : absorbAll absorb s (order.map fun x => (x, answer x)) a = .ok s' a')
    (rest : List Address) : absorbAll absorb s ((order ++ rest).map fun x => (x, answer x)) a =
      absorbAll absorb s' (rest.map fun x => (x, answer x)) a' := by
  rw [List.map_append, absorbAll_append]
  simp only [bind, EStateM.bind, absorbed]

theorem absorbAll_append_of_error {s : σ} {a a' : Account} {e : Failure} {order : List Address}
    (absorbed : absorbAll absorb s (order.map fun x => (x, answer x)) a = .error e a')
    (rest : List Address) :
    absorbAll absorb s ((order ++ rest).map fun x => (x, answer x)) a = .error e a' := by
  rw [List.map_append, absorbAll_append]
  simp only [bind, EStateM.bind, absorbed]

/-- A batch that is served takes in some of the replies that it owes. If that fails, the others
make no difference. -/
theorem serve_spec (absorb : σ → Address → Reply α → Step Account σ) (steady : ask.Steady)
    (inFront : Bool) (s : σ) {w : World} (owes : b.Owes answer timeout addresses)
    (gives : w.source.answer ask timeout = answer) :
    match serve ask (absorbAll absorb) inFront s b w with
    | (w', .ok (s', b')) => ∃ order rest : List Address, (order ++ rest).Perm addresses ∧
        b'.Owes answer timeout rest ∧
        absorbAll absorb s (order.map fun x => (x, answer x)) w.account = .ok s' w'.account
    | (w', .error e) => ∃ order : List Address, order.Perm addresses ∧
        absorbAll absorb s (order.map fun x => (x, answer x)) w.account = .error e w'.account := by
  have pumped := owes.pump steady inFront w.time gives
  rw [serve]
  generalize b.pump ask inFront w.time w.source = result at pumped ⊢
  obtain ⟨b', source⟩ := result
  dsimp only at pumped ⊢
  cases begun : b'.share.isNone with
  | true => exact ⟨[], addresses, .refl _, pumped.begun, rfl⟩
  | false =>
      obtain ⟨order, rest, arrived, perm, taken⟩ := pumped.taken
      simp only [Bool.false_eq_true, if_false, World.step]
      rw [arrived]
      cases absorbed : absorbAll absorb s (order.map fun x => (x, answer x)) w.account with
      | ok s' a => exact ⟨order, rest, perm, taken, absorbed⟩
      | error e a => exact ⟨order ++ rest, perm, absorbAll_append_of_error absorbed rest⟩

end Serve

/-- How an activity ends that is polled until it does so. It may be polled whenever `steady` holds,
in front or not, and queries that are over may be collected in between. Time passes as it likes, but
nobody else touches the account. -/
inductive Settles (steady : World → Prop) :
    Progress → Account → Except Failure Result → Account → Prop
  | finished {result : Except Failure Result} {a : Account} :
      Settles steady (.finished result) a result a
  | poll {progress next : Progress} {activity : Activity} {inFront : Bool} {w v : World}
      {result : Except Failure Result} {c : Account} (on : progress.activity? = some activity)
      (suits : steady w) (polled : activity.resume inFront w = (v, next))
      (rest : Settles steady next v.account result c) : Settles steady progress w.account result c
  | collect {progress : Progress} {activity next : Activity} {w v : World}
      {result : Except Failure Result} {c : Account} (on : progress.activity? = some activity)
      (collected : activity.collect w = (v, next))
      (rest : Settles steady (.waiting next) v.account result c) :
      Settles steady progress w.account result c

/-- The activity serves a batch and goes on with `close` when that is done. -/
structure Serves {σ : Type} (steady : World → Prop) (ask : Ask α)
    (absorb : σ → Address → Reply α → Step Account σ) (close : σ → World → World × Progress)
    (activity : σ → Batch α → Activity) : Prop where
  resume_eq : ∀ s b inFront w, steady w → (activity s b).resume inFront w =
    match serve ask (absorbAll absorb) inFront s b w with
    | (w, .error e) => (w, .finished (.error e))
    | (w, .ok (s, b)) => if b.isDone then close s w else (w, onward b (activity s b))
  collect_eq : ∀ s b w, (activity s b).collect w = collect.collected w b (activity s)

namespace Settles

variable {steady : World → Prop} {result : Except Failure Result} {a c : Account}

theorem eq_of_finished {ended : Except Failure Result}
    (settles : Settles steady (.finished ended) a result c) : result = ended ∧ c = a := by
  cases settles with
  | finished => exact ⟨rfl, rfl⟩
  | poll on => cases on
  | collect on => cases on

/-- A batch that settles has taken in all the replies that it owes, in some order. -/
theorem batch {σ : Type} {absorb : σ → Address → Reply α → Step Account σ}
    {close : σ → World → World × Progress} {activity : σ → Batch α → Activity}
    (serves : Serves steady ask absorb close activity) (asks : ask.Steady)
    {answer : Address → Reply α} (gives : ∀ w, steady w → w.source.answer ask timeout = answer)
    {progress : Progress} (settles : Settles steady progress a result c) {s : σ} {b : Batch α}
    (on : progress.activity? = some (activity s b)) {addresses : List Address}
    (owes : b.Owes answer timeout addresses) :
    ∃ order : List Address, order.Perm addresses ∧
      (absorbAll absorb s (order.map fun x => (x, answer x))).wp
        (fun s' d => ∃ v : World, v.account = d ∧
          Settles steady (close s' v).2 (close s' v).1.account result c)
        (fun e d => result = .error e ∧ c = d) a := by
  induction settles generalizing s b addresses with
  | finished => cases on
  | @poll _ next _ inFront w v _ _ on' suits polled rest ih =>
      obtain rfl := Option.some_inj.mp (on'.symm.trans on)
      rw [serves.resume_eq s b inFront w suits] at polled
      have served := serve_spec absorb asks inFront s owes (gives w suits)
      generalize serve ask (absorbAll absorb) inFront s b w = taken at served polled
      obtain ⟨w', e | ⟨s', b'⟩⟩ := taken
      · obtain ⟨rfl, rfl⟩ := Prod.mk.inj polled
        obtain ⟨order, perm, failed⟩ := served
        refine ⟨order, perm, ?_⟩
        rw [Step.wp, failed]
        exact rest.eq_of_finished
      · obtain ⟨order, others, perm, owes, absorbed⟩ := served
        dsimp only at polled
        split at polled
        next done =>
            obtain rfl := owes.eq_nil done
            refine ⟨order, by rwa [List.append_nil] at perm, ?_⟩
            rw [Step.wp, absorbed]
            refine ⟨w', rfl, ?_⟩
            rw [polled]
            exact rest
        next =>
            obtain ⟨rfl, rfl⟩ := Prod.mk.inj polled
            obtain ⟨later, perm', outcome⟩ := ih (activity?_onward _ _) owes
            refine ⟨order ++ later, (perm'.append_left order).trans perm, ?_⟩
            rw [Step.wp, absorbAll_append_of_ok absorbed]
            exact outcome
  | @collect _ _ next w v _ _ on' collected rest ih =>
      obtain rfl := Option.some_inj.mp (on'.symm.trans on)
      rw [serves.collect_eq] at collected
      obtain ⟨rfl, rfl⟩ := Prod.mk.inj collected
      exact ih rfl (owes.collect w.time w.source)

end Settles

end Activity

def rearrange (addresses order l : List Address) : List Address :=
  if l = addresses then order else l

theorem rearrange_self (addresses order : List Address) :
    rearrange addresses order addresses = order :=
  if_pos rfl

theorem perm_rearrange {addresses order : List Address} (perm : order.Perm addresses)
    (l : List Address) : (rearrange addresses order l).Perm l := by
  rw [rearrange]
  split
  next same => exact same ▸ perm
  next => exact .refl l

end HdWallet.Scripted
