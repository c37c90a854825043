import HdWallet.Scripted.Activity

/-!
# Sessions

A session is a world in which operations run side by side. Each of them is a task. The
virtual timer stands still while some task can go on, and then jumps to the next moment
at which a query ends or a cancellation is due. An operation that is not begun as a task
of its own, the one in front, is run until it answers, and the tasks go on beside it.
They go on only while the one in front waits: a step that answers at once gives them no
turn, and neither does a wait of no time.

At each moment the tasks are polled in the order in which they were begun: first those
that wait for timers of their own, and then the batches, which hear of a query only after
it ended. The one in front comes before all if its own timers run out at that moment, and
otherwise once the tasks have gone as far as they can.

Answers are asked for by name. A name that is given again belongs to what was begun last;
what had it before goes on without it.
-/

namespace HdWallet.Scripted

inductive Cancellation where
  | never
  /-- Before it is begun. -/
  | before
  /-- So many milliseconds after it is begun. -/
  | after (delay : Nat)
deriving DecidableEq

structure Task where
  /-- The name under which its answer is asked for, if it has one. -/
  name : Option String
  /-- Whether it is run until it answers, while others go on beside it. -/
  inFront : Bool := false
  progress : Progress
  cancelled : Bool
  /-- When it will be cancelled. -/
  cancelAt : Option Nat
  /-- The generation of the account on which it was begun. -/
  generation : Nat

namespace Task

/-- Begin an operation on the present account. One that was cancelled before gets no
further, and one that sets its timers itself sets them at once. -/
def start (name : Option String) (operation : Operation) (cancellation : Cancellation)
    (w : World) : World × Task :=
  let inFront := name.isNone
  let cancelled := cancellation == .before
  let (world, progress) :=
    match Activity.start operation w with
    | (world, .ready a) =>
      if cancelled || a.isDirect then a.poll inFront cancelled world else (world, .ready a)
    | begun => begun
  let cancelAt :=
    match cancellation with
    | .after delay => some (timerEnd w.time delay)
    | .never | .before => none
  (world, { name, inFront, progress, cancelled, cancelAt, generation := w.generation })

/-- The activity of a task that has no answer yet. -/
def activity? (t : Task) : Option Activity :=
  match t.progress with
  | .waiting a | .ready a => some a
  | .finished _ => none

def answer? (t : Task) : Option (Except Failure Result) :=
  match t.progress with
  | .finished result => some result
  | .waiting _ | .ready _ => none

def isReady (t : Task) : Bool :=
  match t.progress with
  | .ready _ => true
  | .waiting _ | .finished _ => false

def isDirect (t : Task) : Bool := t.activity?.any Activity.isDirect

def isOver (t : Task) (now : Nat) : Bool := t.activity?.any (·.isOver now)

/-- Poll a task, after cancelling it if that is due. -/
def poll (t : Task) (w : World) : World × Task :=
  match t.activity? with
  | none => (w, t)
  | some a =>
    let isDue := t.cancelAt.any (· ≤ w.time) && !a.precedesCancellation t.inFront w.time
    let cancelled := t.cancelled || isDue
    let (w, progress) := w.onGeneration t.generation (a.poll t.inFront cancelled)
    (w, { t with progress, cancelled })

/-- Let those queries of a task end that are over. -/
def collect (t : Task) (w : World) : World × Task :=
  match t.progress with
  | .waiting a =>
    let (w, a) := a.collect w
    (w, { t with progress := .waiting a })
  | .ready _ | .finished _ => (w, t)

/-- When a timer of a task runs out or the task is cancelled, whichever comes first. -/
def nextMoment? (t : Task) : Option Nat :=
  t.activity?.bind fun a =>
    let due := if t.cancelled then none else t.cancelAt
    (a.nextEnd?.toList ++ due.toList).min?

end Task

/-- A world, its tasks, and the snapshot that was saved last. Beside operations a session
names answers of type `α`, of steps that do not wait. -/
structure Session (α : Type) where
  world : World
  tasks : List Task := []
  saved : Option Snapshot := none
  /-- Answers that were given at once and are still to be asked for. -/
  answers : List (String × α) := []

namespace Session

variable {α : Type}

def step {β : Type} (s : Session α) (step : Step Account β) : Session α × Except Failure β :=
  let (world, answer) := s.world.step step
  ({ s with world }, answer)

/-- Let tasks act one after another. -/
def actAll (act : Task → World → World × Task) : List Task → World → World × List Task
  | [], w => (w, [])
  | t :: rest, w =>
    let (w, t) := act t w
    let (w, rest) := actAll act rest w
    (w, t :: rest)

def each (s : Session α) (act : Task → World → World × Task) : Session α :=
  let (world, tasks) := actAll act s.tasks s.world
  { s with world, tasks }

def turn (s : Session α) (chosen : Task → Bool) : Session α :=
  s.each fun t w => if chosen t then t.poll w else (w, t)

/-- Poll once every task that is not in front. -/
def round (s : Session α) : Session α :=
  (s.turn fun t => t.isDirect && !t.inFront).turn fun t => !t.isDirect && !t.inFront

/-- Let the tasks go on as far as they can without time passing, the one in front whenever
the others wait. At most so many rounds are run. -/
def settle : (rounds : Nat) → Session α → Session α
  | 0, s => s
  | rounds + 1, s =>
    let s := s.round
    if s.tasks.any fun t => t.isReady && !t.inFront then settle rounds s
    else
      let s := s.turn (·.inFront)
      if s.tasks.any Task.isReady then settle rounds s else s

/-- More rounds than any session runs. -/
def rounds : Nat := 0x4000000000000000

def nextMoment? (s : Session α) : Option Nat := (s.tasks.filterMap Task.nextMoment?).min?

def jump (s : Session α) (time : Nat) : Session α := { s with world := { s.world with time } }

/-- Let tasks go on and time pass until `stop` holds or nothing happens any more. At most
so many moments are passed. -/
def runUntil (stop : Session α → Bool) : (moments : Nat) → Session α → Session α
  | 0, s => s
  | moments + 1, s =>
    if stop s then s
    else
      let s := s.turn fun t => t.inFront && t.isOver s.world.time
      if stop s then s
      else
        let s := s.settle rounds
        if stop s then s
        else
          match s.nextMoment? with
          | some moment => runUntil stop moments (s.jump moment)
          | none => s

/-- Let time pass until a task has its answer, and take the task out. -/
def await (s : Session α) (isWanted : Task → Bool) :
    Session α × Option (Except Failure Result) :=
  let answerOf (s : Session α) := (s.tasks.find? isWanted).bind Task.answer?
  let s := s.runUntil (fun s => (answerOf s).isSome) rounds
  ({ s with tasks := s.tasks.filter (!isWanted ·) }, answerOf s)

def run (s : Session α) (operation : Operation) (cancellation : Cancellation) :
    Session α × Option (Except Failure Result) :=
  let (world, task) := Task.start none operation cancellation s.world
  match task.answer? with
  | some result => ({ s with world }, some result)
  | none => { s with world, tasks := s.tasks ++ [task] }.await Task.inFront

def release (s : Session α) (name : String) : Session α :=
  let tasks := s.tasks.map fun t => if t.name == some name then { t with name := none } else t
  { s with tasks, answers := s.answers.filter (·.1 != name) }

/-- Let go ahead what falls due at this moment before anything that is begun now. Queries
end, but the batches are yet to hear of them. -/
def makeWay (s : Session α) : Session α :=
  (s.turn fun t => t.cancelled || t.isDirect).each Task.collect

/-- Begin an operation as a task of its own. It gets as far as waiting. -/
def start (s : Session α) (name : String) (operation : Operation) (cancellation : Cancellation) :
    Session α :=
  let s := (s.release name).makeWay
  let (world, task) := Task.start (some name) operation cancellation s.world
  { s with world, tasks := s.tasks ++ [task] }.settle rounds

/-- Name an answer that was given at once. -/
def keep (s : Session α) (name : String) (answer : α) : Session α :=
  let s := s.release name
  { s with answers := (name, answer) :: s.answers }.settle rounds

/-- The answer of a name, which is free afterwards. Time passes until it is there. -/
def finish (s : Session α) (name : String) : Session α × Option (α ⊕ Except Failure Result) :=
  match s.answers.lookup name with
  | some answer => (s.release name, some (.inl answer))
  | none =>
    let (s, result) := s.await (·.name == some name)
    (s, result.map .inr)

/-- Cancel a task. It takes notice when it is polled next. -/
def cancel (s : Session α) (name : String) : Session α :=
  { s with tasks := s.tasks.map fun t =>
    if t.name == some name then { t with cancelled := true } else t }

/-- Put another account in the place of the present one. Tasks stay with the account on
which they were begun. -/
def replace (s : Session α) (account : Account) : Session α :=
  { s with world := s.world.replace account }

def save (s : Session α) : Session α := { s with saved := some s.world.account.snapshot }

/-- Lay the snapshot that was saved last over the account. The answer says whether
there is one. -/
def load (s : Session α) : Session α × Except Failure Bool :=
  match s.saved with
  | none => (s, .ok false)
  | some snapshot =>
    let (s, result) := s.step (Account.applySnapshot snapshot)
    (s, result.map fun () => true)

end Session

end HdWallet.Scripted
