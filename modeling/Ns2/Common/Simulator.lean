import Ns2.Common.Requests

/-!
# The simulator and its timers

`Scheduler::run` of `common/scheduler.cc` takes events from the queue, sets the clock and calls
their handlers; the handlers, and the main program while nothing runs, schedule further events.
The handlers here are the timers of `common/timer-handler.cc` and the handler of the events made
by the commands `at` and `at-now`.  What a handler does is up to it: it calls whatever it likes.

An event is a value, as in the schedulers; `handler_` gives the handler of the event with a
number.  A call that reaches `abort()` is `none`.

* `Simulator.schedule`, `dispatch` — of `Scheduler`.
* `Simulator.sched`, `resched`, `cancel`, `force_cancel`, `handle`, `handled` — of `TimerHandler`.
* `Simulator.atCommand`, `atNow` — the commands.
* `Simulator.step` — one call, or one turn of the loop of `run`.

The queue is that of any scheduler, given by what it does for a request.
-/

namespace Ns2.Common

/-- `TimerHandler::TimerStatus`. -/
inductive TimerStatus where
  /-- `TIMER_IDLE`. -/
  | idle
  /-- `TIMER_PENDING`. -/
  | pending
  /-- `TIMER_HANDLING`. -/
  | handling
  deriving DecidableEq, Repr

/-- What handles an event. -/
inductive Handler (ι : Type*) where
  /-- A timer. -/
  | timer (i : ι)
  /-- `at_handler`. -/
  | atHandler
  deriving DecidableEq, Repr

/-- Where the program is. -/
inductive Control (ι : Type*) where
  /-- In the main program. -/
  | main
  /-- At the head of the loop of `run`. -/
  | loop
  /-- In the handler of an event. -/
  | handler (h : Handler ι)
  deriving DecidableEq, Repr

/-- A scheduler with the timers `ι`, whose queue is a `γ`. -/
structure Simulator (ι γ : Type*) where
  /-- Virtual time. -/
  clock_ : ℚ
  /-- Whether `run` is to return. -/
  halted_ : Bool
  /-- The counter `uid_` and the queue. -/
  sched : Numbered γ
  /-- `handler_` of the event with a number. -/
  handler_ : ℤ → Option (Handler ι)
  /-- `event_` of a timer. -/
  event_ : ι → Event
  /-- `status_` of a timer. -/
  status_ : ι → TimerStatus
  /-- Where the program is. -/
  control : Control ι

/-- What is waiting for its time: a timer, or the event of an `at`, by its number. -/
inductive Job (ι : Type*) where
  /-- A timer. -/
  | timer (i : ι)
  /-- An event of `at` or `at-now`. -/
  | atEvent (uid_ : ℤ)
  deriving DecidableEq, Repr

/-- What a step has done. -/
inductive Notice (ι : Type*) where
  /-- Nothing to an event. -/
  | quiet
  /-- The clock has been set to `SCHED_START`. -/
  | restarted
  /-- "can't schedule command in past". -/
  | refused
  /-- A job has been scheduled, for a time. -/
  | scheduled (j : Job ι) (time_ : ℚ)
  /-- A timer is not pending any more. -/
  | cancelled (i : ι)
  /-- The handler of a job has been called, at a time. -/
  | dispatched (j : Job ι) (time_ : ℚ)
  deriving DecidableEq, Repr

/-- What the main program and the handlers call. -/
inductive Call (ι : Type*) where
  /-- `sched(delay)`. -/
  | sched (i : ι) (delay : ℚ)
  /-- `resched(delay)`. -/
  | resched (i : ι) (delay : ℚ)
  /-- `cancel()`. -/
  | cancel (i : ι)
  /-- `force_cancel()`. -/
  | forceCancel (i : ι)
  /-- The command `at t`. -/
  | atCommand (t : ℚ)
  /-- The command `at-now`. -/
  | atNow
  /-- The command `halt`. -/
  | halt

/-- What happens next. -/
inductive Input (ι : Type*) where
  /-- A call, by the main program or by the handler that runs. -/
  | call (c : Call ι)
  /-- The command `run`. -/
  | run
  /-- The command `resume`. -/
  | resume
  /-- The test of the loop of `run`, with what follows up to the body of a handler. -/
  | iterate
  /-- The handler returns. -/
  | return

variable {ι γ : Type*} [DecidableEq ι]

/-- The job of the event with a number. -/
def Handler.job (uid_ : ℤ) : Handler ι → Job ι
  | .timer i => .timer i
  | .atHandler => .atEvent uid_

namespace Simulator

/-- One request to the queue. -/
abbrev Serve (γ : Type*) := Numbered γ → Request → Option (Numbered γ × Option Event)

variable (serve : Serve γ) (s : Simulator ι γ)

/-- `schedule(h, e, delay)`; with the state comes the event. -/
def schedule (h : Handler ι) (e : Event) (delay : ℚ) : Option (Simulator ι γ × Event) :=
  if e.uid_ > 0 then none
  else if s.sched.uid_ < 0 then none
  else
    (serve s.sched (.schedule (s.clock_ + delay))).map fun r =>
      ({ s with
          sched := r.1
          handler_ := Function.update s.handler_ s.sched.uid_ (some h) },
        ⟨s.sched.uid_, s.clock_ + delay⟩)

/-! ## Timers -/

/-- Assign to `status_`. -/
def setStatus (i : ι) (status : TimerStatus) : Simulator ι γ :=
  { s with status_ := Function.update s.status_ i status }

/-- `_sched(delay)`. -/
def schedEvent (i : ι) (delay : ℚ) : Option (Simulator ι γ) :=
  (s.schedule serve (.timer i) (s.event_ i) delay).map fun r =>
    { r.1 with event_ := Function.update r.1.event_ i r.2 }

/-- `_cancel()`. -/
def cancelEvent (i : ι) : Option (Simulator ι γ) :=
  (serve s.sched (.cancel (s.event_ i))).map fun r =>
    { s with
      sched := r.1
      event_ := Function.update s.event_ i (r.2.getD (s.event_ i)) }

/-- `sched(delay)`. -/
def schedTimer (i : ι) (delay : ℚ) : Option (Simulator ι γ) :=
  if s.status_ i ≠ .idle then none
  else (s.schedEvent serve i delay).map (·.setStatus i .pending)

/-- `resched(delay)`. -/
def reschedTimer (i : ι) (delay : ℚ) : Option (Simulator ι γ) :=
  (if s.status_ i = .pending then s.cancelEvent serve i else some s).bind fun s' =>
    (s'.schedEvent serve i delay).map (·.setStatus i .pending)

/-- `cancel()`. -/
def cancelTimer (i : ι) : Option (Simulator ι γ) :=
  if s.status_ i ≠ .pending then none
  else (s.cancelEvent serve i).map (·.setStatus i .idle)

/-- `force_cancel()`. -/
def forceCancel (i : ι) : Option (Simulator ι γ) :=
  if s.status_ i = .pending then (s.cancelEvent serve i).map (·.setStatus i .idle) else some s

/-- `handle(e)` of a timer, up to the call of `expire`. -/
def handle (i : ι) : Option (Simulator ι γ) :=
  if s.status_ i ≠ .pending then none else some (s.setStatus i .handling)

/-- `handle(e)` of a timer, after `expire` has returned. -/
def handled (i : ι) : Simulator ι γ :=
  if s.status_ i = .handling then s.setStatus i .idle else s

/-! ## Commands and the loop of `run` -/

/-- An `AtEvent` is scheduled. -/
def scheduleAt (delay : ℚ) : Option (Simulator ι γ × Notice ι) :=
  (s.schedule serve .atHandler ⟨0, 0⟩ delay).map fun r =>
    (r.1, .scheduled (.atEvent r.2.uid_) r.2.time_)

/-- The command `at t`; a negative `t` is relative. -/
def atCommand (t : ℚ) : Option (Simulator ι γ × Notice ι) :=
  let delay := if t < 0 then -t else t - s.clock_
  if delay < 0 then some (s, .refused) else s.scheduleAt serve delay

/-- The body of the handler of an event begins. -/
def enter (e : Event) : Handler ι → Option (Simulator ι γ)
  | .timer i =>
    { s with
      event_ := Function.update s.event_ i { e with uid_ := -e.uid_ }
      control := .handler (.timer i) }.handle i
  | .atHandler => some { s with control := .handler .atHandler }

/-- `dispatch(p, t)`. -/
def dispatch (e : Event) : Option (Simulator ι γ × Notice ι) :=
  if e.time_ < s.clock_ then none
  else (s.handler_ e.uid_).bind fun h =>
    ({ s with clock_ := e.time_ }.enter e h).map fun s' => (s', .dispatched (h.job e.uid_) e.time_)

/-- `while (!halted_ && (p = deque())) dispatch(p, p->time_)`: one test, and the call. -/
def iterate : Option (Simulator ι γ × Notice ι) :=
  if s.halted_ then some ({ s with control := .main }, .quiet)
  else (serve s.sched .deque).bind fun r =>
    match r.2 with
    | none => some ({ s with sched := r.1, control := .main }, .quiet)
    | some e => { s with sched := r.1 }.dispatch e

/-- One call. -/
def call : Call ι → Option (Simulator ι γ × Notice ι)
  | .sched i delay => (s.schedTimer serve i delay).map (·, .scheduled (.timer i) (s.clock_ + delay))
  | .resched i delay =>
    (s.reschedTimer serve i delay).map (·, .scheduled (.timer i) (s.clock_ + delay))
  | .cancel i => (s.cancelTimer serve i).map (·, .cancelled i)
  | .forceCancel i => (s.forceCancel serve i).map (·, .cancelled i)
  | .atCommand t => s.atCommand serve t
  | .atNow => s.scheduleAt serve 0
  | .halt => some ({ s with halted_ := true }, .quiet)

/-- The handler that runs returns to the loop. -/
def leave : Handler ι → Simulator ι γ
  | .timer i => { s.handled i with control := .loop }
  | .atHandler => { s with control := .loop }

/-- One step.  An input that is not possible where the program is changes nothing. -/
def step : Input ι → Option (Simulator ι γ × Notice ι)
  | .call c => if s.control = .loop then some (s, .quiet) else s.call serve c
  | .run => if s.control = .main then some ({ s with clock_ := 0, control := .loop }, .restarted)
    else some (s, .quiet)
  | .resume => if s.control = .main then some ({ s with halted_ := false, control := .loop }, .quiet)
    else some (s, .quiet)
  | .iterate => if s.control = .loop then s.iterate serve else some (s, .quiet)
  | .return =>
    match s.control with
    | .handler h => some (s.leave h, .quiet)
    | _ => some (s, .quiet)

omit [DecidableEq ι] in
/-- A new scheduler with a queue, and new timers. -/
def new (queue : γ) : Simulator ι γ where
  clock_ := 0
  halted_ := false
  sched := ⟨1, queue⟩
  handler_ := fun _ => none
  event_ := fun _ => ⟨0, 0⟩
  status_ := fun _ => .idle
  control := .main

end Simulator

end Ns2.Common
