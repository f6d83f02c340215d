import Mathlib
import Ns2.Lib.Stable

/-!
# Links

A link of `ns` is a queue followed by a `LinkDelay`: `queue/queue.cc` holds the packets while one
is being transmitted, `link/delay.cc` has the scheduler call the next node when the packet has
arrived, and the queue when the transmission is over.  Times are exact rationals.

The queue is that of any discipline.  The scheduler is the list of `common/scheduler.cc`, with the
events of the link only; what else happens in the simulation is an `advance` of the clock.  A call
that reaches `abort()`, or fails an `assert`, is `none`.

* `SimpleLink.delayRecv`, `delayHandle`, `delayReset` — `recv`, `handle` and `reset` of `LinkDelay`.
* `SimpleLink.recv`, `resume` — of `Queue`.
* `SimpleLink.step` — a packet arrives, an event is dispatched, or a setting changes.
-/

namespace Ns2.Link

open Stable

/-- A queue discipline; `enque` also gives the packets it drops. -/
structure Discipline (δ π : Type*) where
  enque : δ → π → δ × List π
  deque : δ → δ × Option π

/-- An event of the link in the scheduler. -/
structure Due (π : Type*) where
  /-- `time_`. -/
  time_ : ℚ
  /-- The packet that arrives; no packet for `intr_`. -/
  packet : Option π
  deriving DecidableEq, Repr

/-- What does not change. -/
structure Config (δ π : Type*) where
  /-- `enque` and `deque` of the queue. -/
  discipline : Discipline δ π
  /-- Size of a packet in bytes. -/
  size : π → ℕ
  /-- Whether `resume` of an empty queue unblocks it. -/
  unblock_on_resume_ : Bool
  /-- Whether the link may go down. -/
  dynamic_ : Bool
  /-- Whether packets are kept in order when the settings change. -/
  avoidReordering_ : Bool

/-- A queue and its link. -/
structure SimpleLink (δ π : Type*) where
  /-- `clock()` of the scheduler. -/
  clock_ : ℚ
  /-- The events of the link in the scheduler. -/
  events : List (Due π)
  /-- The packets in the queue. -/
  queue : δ
  /-- Whether the queue waits for the link. -/
  blocked_ : Bool
  /-- Bandwidth of underlying link (bits/sec). -/
  bandwidth_ : ℚ
  /-- Line latency. -/
  delay_ : ℚ
  /-- Latest scheduled packet time, for use with `avoidReordering_`. -/
  latest_time_ : ℚ
  /-- Packets in transit with their `time_`, if the link is dynamic. -/
  itq_ : List (π × ℚ)

/-- What a step has done. -/
structure Report (π : Type*) where
  /-- The packets it dropped. -/
  dropped : List π := []
  /-- The packet that left the queue. -/
  started : Option π := none
  /-- The packet that arrived at the next node. -/
  delivered : Option π := none
  deriving DecidableEq, Repr

variable {δ π : Type*} [DecidableEq π]

namespace SimpleLink

variable (c : Config δ π) (s : SimpleLink δ π)

/-- `schedule(h, e, delay)`: an event that is in the queue already may not be scheduled. -/
def schedule (packet : Option π) (delay : ℚ) : Option (SimpleLink δ π) :=
  if packet ∈ s.events.map Due.packet then none
  else some { s with events := insertLast Due.time_ ⟨s.clock_ + delay, packet⟩ s.events }

omit [DecidableEq π] in
/-- `txtime(p)`. -/
def txtime (p : π) : ℚ := 8 * c.size p / s.bandwidth_

/-- `LinkDelay::recv` up to the scheduling of `intr_`. -/
def scheduleArrival (p : π) : Option (SimpleLink δ π) :=
  let txt := s.txtime c p
  if c.dynamic_ then
    { s with itq_ := s.itq_ ++ [(p, s.clock_ + (txt + s.delay_))] }.schedule (some p) (txt + s.delay_)
  else if c.avoidReordering_ then
    if txt + s.delay_ < s.latest_time_ - s.clock_ ∧ s.latest_time_ > 0 then
      { s with latest_time_ := s.latest_time_ + txt }.schedule (some p)
        (s.latest_time_ + txt - s.clock_)
    else
      { s with latest_time_ := s.clock_ + txt + s.delay_ }.schedule (some p) (txt + s.delay_)
  else s.schedule (some p) (txt + s.delay_)

/-- `LinkDelay::recv(p, h)`; `h` is the handler of the queue. -/
def delayRecv (p : π) : Option (SimpleLink δ π) :=
  (s.scheduleArrival c p).bind fun s' => s'.schedule none (s.txtime c p)

/-- `LinkDelay::handle(e)`, with the packet that is sent. -/
def delayHandle (e : Due π) : Option (SimpleLink δ π × π) :=
  match s.itq_ with
  | [] => none
  | p :: itq_ => if p.2 = e.time_ then some ({ s with itq_ := itq_ }, p.1) else none

/-- `LinkDelay::reset`: the packets in transit are cancelled and dropped. -/
def delayReset : SimpleLink δ π × Report π :=
  ({ s with
      events := s.events.filter fun e => e.packet ∉ s.itq_.map fun p => some p.1
      itq_ := [] }, { dropped := s.itq_.map Prod.fst })

/-- A packet leaves the queue for the link, if there is one. -/
def send (p : π) (dropped : List π) : Option (SimpleLink δ π × Report π) :=
  (s.delayRecv c p).map (·, { dropped := dropped, started := some p })

/-- `Queue::recv(p)`. -/
def recv (p : π) : Option (SimpleLink δ π × Report π) :=
  let q := c.discipline.enque s.queue p
  if s.blocked_ then some ({ s with queue := q.1 }, { dropped := q.2 })
  else
    match c.discipline.deque q.1 with
    | (q', some p') => { s with queue := q', blocked_ := true }.send c p' q.2
    | (q', none) => some ({ s with queue := q' }, { dropped := q.2 })

/-- `Queue::resume`. -/
def resume : Option (SimpleLink δ π × Report π) :=
  match c.discipline.deque s.queue with
  | (q', some p) => { s with queue := q' }.send c p []
  | (q', none) => some ({ s with queue := q', blocked_ := !c.unblock_on_resume_ }, {})

/-- The handler of an event: that of the queue, or of the packet. -/
def handle (e : Due π) : Option (SimpleLink δ π × Report π) :=
  match e.packet with
  | none => s.resume c
  | some p =>
    if c.dynamic_ then (s.delayHandle e).map fun r => (r.1, { delivered := some r.2 })
    else some (s, { delivered := some p })

/-- The scheduler dispatches the next event of the link. -/
def dispatch : Option (SimpleLink δ π × Report π) :=
  match s.events with
  | [] => some (s, {})
  | e :: events =>
    if e.time_ < s.clock_ then none
    else { s with clock_ := e.time_, events := events }.handle c e

end SimpleLink

/-- What happens next. -/
inductive Input (π : Type*) where
  /-- A packet arrives at the queue. -/
  | recv (p : π)
  /-- The next event of the link is dispatched. -/
  | dispatch
  /-- The clock goes on to the time of another event. -/
  | advance (t : ℚ)
  /-- `bandwidth_` is set. -/
  | setBandwidth (bandwidth_ : ℚ)
  /-- `delay_` is set. -/
  | setDelay (delay_ : ℚ)
  /-- `reset` of the `LinkDelay`. -/
  | reset

namespace SimpleLink

/-- One step.  The clock does not pass the next event. -/
def step (c : Config δ π) (s : SimpleLink δ π) : Input π → Option (SimpleLink δ π × Report π)
  | .recv p => s.recv c p
  | .dispatch => s.dispatch c
  | .advance t =>
    if s.clock_ ≤ t ∧ ∀ e ∈ s.events, t ≤ e.time_ then some ({ s with clock_ := t }, {})
    else some (s, {})
  | .setBandwidth bandwidth_ => some ({ s with bandwidth_ := bandwidth_ }, {})
  | .setDelay delay_ => some ({ s with delay_ := delay_ }, {})
  | .reset => some s.delayReset

omit [DecidableEq π] in
/-- A new link. -/
def new (queue : δ) (bandwidth_ delay_ : ℚ) : SimpleLink δ π where
  clock_ := 0
  events := []
  queue := queue
  blocked_ := false
  bandwidth_ := bandwidth_
  delay_ := delay_
  latest_time_ := 0
  itq_ := []

end SimpleLink

end Ns2.Link
