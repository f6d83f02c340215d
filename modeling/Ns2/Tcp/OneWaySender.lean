import Ns2.Tcp.TcpSender

/-!
# The one-way TCP sender

`TcpAgent` of `tcp/tcp.cc` itself, the base class of the one-way agents, which counts in
packets: `maxseq_` is the highest packet sent.  `double`s are exact rationals.  What the
clock and the timers decide is given from outside, and the timers themselves are left out;
a call that reaches `abort()` is `none`.

* `output`, `sendMuch`, `sendOne` — what is sent.
* `newack`, `recvNewackHelper`, `recvFrtoHelper`, `spuriousTimeout`, `dupackAction`, `recv` —
  an ACK.
* `timeout` — the retransmission timer.
* `OneWayEvent`, `OneWaySender.step` — what happens to a sender.
-/

namespace Ns2.Tcp

open Ns2.Common (toInt)

/-- The sender.  `initial_window()` is a function here, not the field. -/
structure OneWaySender extends TcpSender where
  /-- Last acknowledgment received. -/
  last_ack_ : ℤ
  /-- `highest_ack_` before the last ACK of new data. -/
  prev_highest_ack_ : ℤ
  /-- Packets the application has to send. -/
  curseq_ : ℤ
  /-- Duplicate ACKs for a fast retransmit. -/
  numdupacks_ : ℤ
  /-- No fast retransmit. -/
  noFastRetrans_ : Bool
  /-- A duplicate ACK may send a packet. -/
  singledup_ : Bool
  /-- Old ACKs call `send_much` as well. -/
  aggressive_maxburst_ : Bool
  /-- Fast retransmit of the first packet. -/
  bugfix_ss_ : Bool
  /-- Kind of initial window. -/
  wnd_init_option_ : ℤ
  /-- The window starts again after an idle period. -/
  slow_start_restart_ : Bool
  /-- Weight of the averaged window. -/
  wnd_th_ : ℚ
  /-- The window does not grow if the application limits the connection. -/
  control_increase_ : Bool
  /-- Only the first of a burst of marks keeps the window from growing. -/
  old_ecn_ : Bool
  /-- The first window is set after the `SYN`. -/
  delay_growth_ : Bool
  /-- The first packet is a `SYN`. -/
  syn_ : Bool
  /-- `SYN`s sent. -/
  syn_connects_ : ℤ
  /-- Bound of the `SYN`s; not positive for none. -/
  max_connects_ : ℤ
  /-- A retransmission may tell of a cut. -/
  SetCWRonRetransmit_ : Bool
  /-- Timestamps are used. -/
  ts_option_ : Bool
  /-- A timestamp ends the backoff. -/
  ts_resetRTO_ : Bool
  /-- All is acknowledged. -/
  closed_ : Bool
  /-- F-RTO is used. -/
  frto_enabled_ : Bool
  /-- F-RTO with SACK is used. -/
  sfrto_enabled_ : Bool
  /-- Window before the last timeout. -/
  pipe_prev_ : ℤ
  /-- What is done after a spurious timeout. -/
  spurious_response_ : ℤ
  /-- Idle periods reduce the window. -/
  QOption_ : Bool
  /-- Quick-Start is used. -/
  qs_enabled_ : Bool
  /-- A request is out. -/
  qs_requested_ : Bool
  /-- A request was granted. -/
  qs_approved_ : Bool
  /-- Window of a request granted. -/
  qs_cwnd_ : ℤ
  /-- Last packet of the Quick-Start window. -/
  qs_window_ : ℤ
  /-- A loss in the Quick-Start window starts again. -/
  tcp_qs_recovery_ : Bool
  /-- Explicit loss notification is used. -/
  eln_ : Bool
  /-- Duplicate ACKs for a retransmission after a notification. -/
  eln_rxmit_thresh_ : ℤ
  /-- Last packet retransmitted so. -/
  eln_last_rxmit_ : ℤ

/-- What the clock decides when a packet is sent. -/
structure OneWayTurn where
  /-- A Quick-Start request goes with the `SYN`. -/
  request : Bool
  /-- The sender was idle, for that many timeouts. -/
  idle : Option ℕ
  /-- The application limits the sender. -/
  limited : Bool
  deriving DecidableEq, Repr

/-- A packet that arrives. -/
structure OneWayAck where
  /-- `seqno()`, the packet acknowledged. -/
  seqno : ℤ
  /-- `ecnecho()`. -/
  ecnecho : Bool
  /-- `cong_action()`. -/
  cong_action : Bool
  /-- `no_ts_`. -/
  no_ts_ : Bool
  /-- `eln_`. -/
  eln_ : Bool
  deriving DecidableEq, Repr

/-- What the clock and the timers decide while an ACK is processed. -/
structure OneWayContext where
  /-- The packet is from a connection before the last reset. -/
  stale : Bool
  /-- Window that a Quick-Start response grants. -/
  app_rate : Option ℤ
  /-- Age of the timestamp, in ticks. -/
  ts_rtt : ℤ
  /-- The packet being timed is acknowledged; its round trip, in ticks. -/
  timed : Option ℤ
  /-- The one packet that `send_one`, `tcp_eln` or `lossQuickStart` may send. -/
  one : OneWayTurn
  /-- The turns of the loop of `send_much`, until a timer stops it. -/
  turns : List OneWayTurn

namespace OneWaySender

/-! ## The window -/

/-- `slowdown(how)`. -/
def slowdown (a : OneWaySender) (how : ℕ) : OneWaySender :=
  { a with toTcpSender := a.toTcpSender.slowdown how }

/-- `opencwnd`. -/
def opencwnd (a : OneWaySender) : Option OneWaySender :=
  a.toTcpSender.opencwnd.map fun b => { a with toTcpSender := b }

/-- `rtt_update`, for a round trip of `ticks`. -/
def rttUpdate (a : OneWaySender) (ticks : ℤ) : OneWaySender :=
  { a with toTcpSender := a.toTcpSender.rttUpdate ticks }

/-- `rtt_backoff`. -/
def rttBackoff (a : OneWaySender) : OneWaySender :=
  { a with toTcpSender := a.toTcpSender.rttBackoff }

/-- `ecn(seqno)`. -/
def ecn (a : OneWaySender) (seqno : ℤ) : OneWaySender :=
  { a with toTcpSender := a.toTcpSender.ecn seqno }

/-- `initial_window()`. -/
def initialWindow (a : OneWaySender) : Option ℚ :=
  if a.qs_cwnd_ ≠ 0 then some a.qs_cwnd_
  else if a.wnd_init_option_ = 1 then some a.wnd_init_
  else if a.wnd_init_option_ = 2 then
    some (if a.size_ ≤ 1095 then 4 else if a.size_ < 2190 then 3 else 2)
  else none

/-- `network_limited()`. -/
def networkLimited (a : OneWaySender) : Bool := a.t_seqno_ > a.prev_highest_ack_ + a.window

/-- `reset_rtx_timer(mild, backoff)`. -/
def resetRtxTimer (a : OneWaySender) (mild backoff : Bool) : OneWaySender :=
  let a₁ := if backoff then a.rttBackoff else a
  if mild then a₁ else { a₁ with t_seqno_ := a₁.highest_ack_ + 1 }

/-! ## Sending -/

/-- `output(seqno)`.  An application that is told of the last packet sends more in a later
event. -/
def output (a : OneWaySender) (seqno : ℤ) (t : OneWayTurn) : OneWaySender :=
  let is_retransmit := seqno < a.maxseq_
  let a :=
    if a.cong_action_ ∧ (¬ is_retransmit ∨ a.SetCWRonRetransmit_) then { a with cong_action_ := false }
    else a
  let a :=
    if seqno = 0 ∧ a.syn_ then
      { a with
        curseq_ := if a.maxseq_ = -1 then a.curseq_ + 1 else a.curseq_
        syn_connects_ := a.syn_connects_ + 1 }
    else a
  if seqno = 0 ∧ a.syn_ ∧ a.max_connects_ > 0 ∧ a.syn_connects_ > a.max_connects_ then
    -- the connection is given up
    { a with curseq_ := 0 }
  else
    { a with
      qs_requested_ := a.qs_requested_ || (seqno = 0 ∧ a.qs_enabled_ ∧ t.request)
      maxseq_ := if seqno > a.maxseq_ then seqno else a.maxseq_ }

/-- The turns of the loop of `process_qoption_after_send` after an idle period. -/
def halve (a : OneWaySender) : ℕ → OneWaySender
  | 0 => a
  | n + 1 => (a.slowdown (cwndHalfWithMin ||| tcpIdle)).halve n

/-- The sender was idle: the window is reduced. -/
def idleCut (a : OneWaySender) (t : OneWayTurn) : OneWaySender :=
  match t.idle with
  | some n => { (a.slowdown (threeQuarterSsthresh ||| tcpIdle)).halve n with W_used := 0 }
  | none => a

/-- The window used lately. -/
def countUsed (a : OneWaySender) : OneWaySender :=
  let tmp := a.t_seqno_ - a.highest_ack_
  if tmp > a.W_used then { a with W_used := tmp } else a

/-- The application limits the sender: the window is reduced to what was used. -/
def limitedCut (a : OneWaySender) (t : OneWayTurn) : OneWaySender :=
  if t.limited then
    { (a.slowdown (threeQuarterSsthresh ||| tcpIdle)).slowdown (closeCwndHalfWay ||| tcpIdle) with
      W_used := 0 }
  else a

/-- `process_qoption_after_send`, with `rtt_counting`, which differs only in how it counts the
time. -/
def processQoptionAfterSend (a : OneWaySender) (t : OneWayTurn) : OneWaySender :=
  let a₁ := a.idleCut t
  if a₁.t_seqno_ = a₁.highest_ack_ + a₁.window then { a₁ with W_used := 0 }
  else if a₁.t_seqno_ = a₁.curseq_ - 1 then a₁.countUsed.limitedCut t
  else a₁

/-- One packet of `send_much` or `send_one`. -/
def sendNext (a : OneWaySender) (t : OneWayTurn) : OneWaySender :=
  let a₁ := a.output a.t_seqno_ t
  let a₂ := if a₁.QOption_ then a₁.processQoptionAfterSend t else a₁
  { a₂ with t_seqno_ := a₂.t_seqno_ + 1 }

/-- `send_much`; a granted Quick-Start request sends the packets one by one. -/
def sendMuch (a : OneWaySender) : List OneWayTurn → OneWaySender
  | [] => a
  | t :: turns =>
    if a.t_seqno_ ≤ a.highest_ack_ + a.window ∧ a.t_seqno_ < a.curseq_ then
      let a₁ := a.sendNext t
      if a₁.qs_approved_ then a₁ else a₁.sendMuch turns
    else a

/-- `send_one`. -/
def sendOne (a : OneWaySender) (t : OneWayTurn) : OneWaySender :=
  if a.t_seqno_ ≤ a.highest_ack_ + a.wnd_ ∧ a.t_seqno_ < a.curseq_ ∧
      a.t_seqno_ ≤ a.highest_ack_ + a.cwnd_ + a.dupacks_ then
    a.sendNext t
  else a

/-! ## Quick-Start -/

/-- `endQuickStart`. -/
def endQuickStart (a : OneWaySender) : Option OneWaySender :=
  let a := { a with qs_approved_ := false, qs_cwnd_ := 0, qs_window_ := a.maxseq_ }
  let new_cwnd : ℤ := a.maxseq_ - a.last_ack_
  if new_cwnd > 1 ∧ (new_cwnd : ℚ) < a.cwnd_ then
    a.initialWindow.map fun w => { a with cwnd_ := if (new_cwnd : ℚ) < w then w else new_cwnd }
  else some a

/-- `processQuickStart(pkt)`. -/
def processQuickStart (a : OneWaySender) (app_rate : Option ℤ) : Option OneWaySender :=
  let a := { a with qs_requested_ := false, qs_approved_ := false }
  match app_rate with
  | none => some a
  | some r =>
    a.initialWindow.map fun w => if (r : ℚ) > w then { a with qs_cwnd_ := r, qs_approved_ := true } else a

/-- `lossQuickStart()`, with what it returns. -/
def lossQuickStart (a : OneWaySender) (t : OneWayTurn) : OneWaySender × Bool :=
  if a.qs_window_ ≠ 0 ∧ a.tcp_qs_recovery_ then
    (({ a.slowdown closeCwndInit with qs_window_ := 0 } : OneWaySender).output (a.last_ack_ + 1) t, true)
  else (a, false)

/-! ## ACKs -/

/-- The backoff ends unless the ACK is marked and the timer was backed off for marks. -/
def endBackoff (a : OneWaySender) (p : OneWayAck) : OneWaySender :=
  if ¬ a.ect_ ∨ ¬ a.ecn_backoff_ ∨ ¬ p.ecnecho then { a with t_backoff_ := 1, ecn_backoff_ := false }
  else a

/-- The part of `newack` about the round-trip time. -/
def newackRtt (a : OneWaySender) (p : OneWayAck) (w : OneWayContext) : OneWaySender :=
  if p.no_ts_ then a
  else
    let a₁ :=
      if a.ts_option_ then
        let b := a.rttUpdate w.ts_rtt
        if b.ts_resetRTO_ then b.endBackoff p else b
      else a
    match w.timed with
    | none => a₁
    | some ticks =>
      let b := a₁.endBackoff p
      if ¬ b.ts_option_ then b.rttUpdate ticks else b

/-- `newack(pkt)`. -/
def newack (a : OneWaySender) (p : OneWayAck) (w : OneWayContext) : OneWaySender :=
  let a₁ :=
    ({ a with
      dupacks_ := 0
      last_ack_ := p.seqno
      prev_highest_ack_ := a.highest_ack_
      highest_ack_ := p.seqno
      t_seqno_ := if a.t_seqno_ < p.seqno + 1 then p.seqno + 1 else a.t_seqno_ } :
        OneWaySender).newackRtt p w
  { a₁ with awnd_ := a₁.awnd_ * (1 - a₁.wnd_th_) + a₁.wnd_th_ * a₁.cwnd_ }

/-- `spurious_timeout()`. -/
def spuriousTimeout (a : OneWaySender) : OneWaySender :=
  { a with
    frto_ := 0
    cwnd_ :=
      if a.spurious_response_ = 2 then a.ssthresh_
      else if a.spurious_response_ = 3 then 1
      else a.t_seqno_ - a.prev_highest_ack_
    ssthresh_ := a.pipe_prev_
    recover_ := a.highest_ack_ - 1 }

/-- The end of `recv_newack_helper`: a new ACK after a timeout, with F-RTO. -/
def frtoStep (a : OneWaySender) : OneWaySender :=
  if a.frto_ = 1 then
    if (a.recover_ + 1 : ℚ) ≥ a.highest_ack_ + a.wnd_ ∨ a.recover_ + 1 ≥ a.curseq_ then
      { a with frto_ := 0 }
    else if a.highest_ack_ = a.recover_ then { a with frto_ := 0 }
    else { a with t_seqno_ := a.recover_ + 1, frto_ := 2 }
  else if a.frto_ = 2 then a.spuriousTimeout
  else a

/-- Bursts of marks. -/
def burstStep (a : OneWaySender) (p : OneWayAck) : OneWaySender :=
  if a.ect_ then
    { a with
      ecn_backoff_ := if ¬ p.ecnecho then false else a.ecn_backoff_
      ecn_burst_ :=
        if ¬ a.ecn_burst_ ∧ p.ecnecho then true
        else if a.ecn_burst_ ∧ ¬ p.ecnecho then false
        else a.ecn_burst_ }
  else a

/-- The peer agrees on ECN. -/
def ectStep (a : OneWaySender) (p : OneWayAck) : OneWaySender :=
  if ¬ a.ect_ ∧ p.ecnecho ∧ ¬ p.cong_action then { a with ect_ := true } else a

/-- The connection is done. -/
def closeStep (a : OneWaySender) : OneWaySender :=
  if a.highest_ack_ ≥ a.curseq_ - 1 ∧ ¬ a.closed_ then { a with closed_ := true } else a

/-- `recv_newack_helper(pkt)`. -/
def recvNewackHelper (a : OneWaySender) (p : OneWayAck) (w : OneWayContext) : Option OneWaySender :=
  let a₁ := a.newack p w
  let a₂ :=
    if a₁.qs_window_ ≠ 0 ∧ a₁.highest_ack_ ≥ a₁.qs_window_ then { a₁ with qs_window_ := 0 } else a₁
  (if (¬ a₂.ect_ ∨ ¬ p.ecnecho ∨ (a₂.old_ecn_ ∧ a₂.ecn_burst_)) ∧
      (¬ a₂.control_increase_ ∨ a₂.networkLimited) then a₂.opencwnd
    else some a₂).map fun a₃ =>
      ((a₃.burstStep p).ectStep p).closeStep.frtoStep

/-- `recv_frto_helper(pkt)`. -/
def recvFrtoHelper (a : OneWaySender) (p : OneWayAck) : OneWaySender :=
  if p.seqno = a.last_ack_ ∧ a.frto_ ≠ 0 then
    { a with t_seqno_ := a.highest_ack_ + 1, cwnd_ := a.frto_, frto_ := 0, dupacks_ := -1 }
  else a

/-- `tahoe_action` of `dupack_action`. -/
def tahoeAction (a : OneWaySender) (t : OneWayTurn) : OneWaySender :=
  let r := ({ a with recover_ := a.maxseq_ } : OneWaySender).lossQuickStart t
  (if r.2 then r.1
    else ({ r.1 with last_cwnd_action_ := .dupack } : OneWaySender).slowdown
      (closeSsthreshHalf ||| closeCwndOne)).resetRtxTimer false false

/-- `dupack_action()`. -/
def dupackAction (a : OneWaySender) (t : OneWayTurn) : OneWaySender :=
  let recovered := a.highest_ack_ > a.recover_
  if recovered ∨ (¬ a.bug_fix_ ∧ ¬ a.ecn_) ∨ (a.bugfix_ss_ ∧ a.highest_ack_ = 0) then a.tahoeAction t
  else if a.ecn_ ∧ a.last_cwnd_action_ = .ecn then
    (({ a with last_cwnd_action_ := .dupack } : OneWaySender).slowdown closeCwndOne).resetRtxTimer
      false false
  else if a.bug_fix_ then a
  else a.tahoeAction t

/-- `tcp_eln(pkt)`. -/
def tcpEln (a : OneWaySender) (p : OneWayAck) (w : OneWayContext) : OneWaySender :=
  let a := { a with dupacks_ := a.dupacks_ + 1 }
  if a.dupacks_ = a.eln_rxmit_thresh_ ∧ p.seqno > a.eln_last_rxmit_ then
    { a.output (a.last_ack_ + 1) w.one with eln_last_rxmit_ := a.last_ack_ + 1 }
  else a.sendMuch w.turns

/-- The part of `recv` before the helper functions. -/
def recvStart (a : OneWaySender) (p : OneWayAck) (w : OneWayContext) : Option OneWaySender :=
  (if a.qs_approved_ ∧ p.seqno > a.last_ack_ then a.endQuickStart else some a).bind fun a₁ =>
    if a₁.qs_requested_ then a₁.processQuickStart w.app_rate else some a₁

/-- The part of `recv` for an ACK of new data. -/
def recvNew (a : OneWaySender) (p : OneWayAck) (w : OneWayContext) : Option OneWaySender :=
  (a.recvNewackHelper p w).bind fun a₁ =>
    (if a₁.last_ack_ = 0 ∧ a₁.delay_growth_ then
      a₁.initialWindow.map fun cwnd => { a₁ with cwnd_ := cwnd }
    else some a₁).map fun a₂ => a₂.sendMuch w.turns

/-- The part of `recv` for a duplicate ACK. -/
def recvDup (a : OneWaySender) (p : OneWayAck) (w : OneWayContext) : OneWaySender :=
  if p.eln_ ∧ a.eln_ then a.tcpEln p w
  else
    let a := { a with dupacks_ := a.dupacks_ + 1 }
    (if a.dupacks_ = a.numdupacks_ ∧ ¬ a.noFastRetrans_ then a.dupackAction w.one
      else if a.dupacks_ < a.numdupacks_ ∧ a.singledup_ then a.sendOne w.one
      else a).sendMuch w.turns

/-- `recv(pkt)`. -/
def recv (a : OneWaySender) (p : OneWayAck) (w : OneWayContext) : Option OneWaySender :=
  (a.recvStart p w).bind fun a₁ =>
    if w.stale then some a₁
    else
      let a₂ := if p.ecnecho ∧ a₁.ecn_ then a₁.ecn p.seqno else a₁
      let a₃ := a₂.recvFrtoHelper p
      if p.seqno > a₃.last_ack_ then a₃.recvNew p w
      else if p.seqno = a₃.last_ack_ then some (a₃.recvDup p w)
      else some (if a₃.aggressive_maxburst_ then a₃.sendMuch w.turns else a₃)

/-! ## Timeouts -/

/-- The first packet was lost: the next initial window is smaller. -/
def firstLost (a : OneWaySender) : OneWaySender :=
  if a.highest_ack_ = -1 ∧ a.wnd_init_option_ = 2 then { a with wnd_init_option_ := 1 }
  else if a.highest_ack_ = -1 ∧ a.wnd_init_option_ = 1 ∧ a.wnd_init_ > 1 ∧ a.bugfix_ss_ then
    { a with wnd_init_ := 1 }
  else a

/-- F-RTO begins. -/
def beginFrto (a : OneWaySender) : OneWaySender :=
  if a.frto_enabled_ ∨ a.sfrto_enabled_ then { a with frto_ := 1 } else a

/-- The cut of the window by `timeout`. -/
def timeoutCut (a : OneWaySender) : OneWaySender :=
  let a₁ := ({ a with recover_ := a.maxseq_ } : OneWaySender).firstLost
  if a₁.highest_ack_ = a₁.maxseq_ ∧ a₁.restart_bugfix_ then
    a₁.slowdown (closeCwndOne ||| noOutstandingData)
  else if a₁.highest_ack_ < a₁.recover_ ∧ a₁.last_cwnd_action_ = .ecn then
    (a₁.slowdown closeCwndOne).beginFrto
  else
    (({ a₁ with last_cwnd_action_ := .timeout } : OneWaySender).slowdown
      (closeSsthreshHalf ||| closeCwndRestart)).beginFrto

/-- The beginning of `timeout`. -/
def timeoutStart (a : OneWaySender) : OneWaySender :=
  let a₁ := { a with frto_ := 0 }
  { a₁ with
    pipe_prev_ := if a₁.window > a₁.ssthresh_ then a₁.window else a₁.ssthresh_
    cwnd_ := if a₁.cwnd_ < 1 then 1 else a₁.cwnd_
    qs_approved_ := false }

/-- `timeout`, of the retransmission timer. -/
def timeout (a : OneWaySender) (turns : List OneWayTurn) : OneWaySender :=
  let a₁ := a.timeoutStart
  let a₂ := if a₁.highest_ack_ = a₁.maxseq_ ∧ ¬ a₁.slow_start_restart_ then a₁ else a₁.timeoutCut
  let a₃ := a₂.resetRtxTimer false (¬ (a₂.highest_ack_ = a₂.maxseq_ ∧ a₂.restart_bugfix_))
  ({ a₃ with last_cwnd_action_ := .timeout, cuts := a₃.cuts ++ [.timeout] } :
    OneWaySender).sendMuch turns

/-! ## Commands -/

/-- `advanceby(delta)`. -/
def advanceby (a : OneWaySender) (delta : ℤ) (turns : List OneWayTurn) : OneWaySender :=
  ({ a with curseq_ := a.curseq_ + delta, closed_ := if delta > 0 then false else a.closed_ } :
    OneWaySender).sendMuch turns

/-- `TCP_MAXSEQ`. -/
def tcpMaxseq : ℤ := 1073741824

/-- `sendmsg(nbytes)`. -/
def sendmsg (a : OneWaySender) (nbytes : ℤ) (turns : List OneWayTurn) : OneWaySender :=
  ({ a with
    curseq_ :=
      if nbytes = -1 ∧ a.curseq_ ≤ tcpMaxseq then tcpMaxseq
      else a.curseq_ + (nbytes.tdiv a.size_ + if nbytes.tmod a.size_ ≠ 0 then 1 else 0) } :
    OneWaySender).sendMuch turns

/-- The command `persist`, which takes the values of another agent. -/
def persist (a other : OneWaySender) : OneWaySender :=
  { a with
    cwnd_ := other.cwnd_
    awnd_ := other.awnd_
    ssthresh_ := other.ssthresh_
    t_rtt_ := other.t_rtt_
    t_srtt_ := other.t_srtt_
    t_rttvar_ := other.t_rttvar_
    t_backoff_ := other.t_backoff_ }

/-! ## Runs -/

/-- The constructor and `reset`, with the values of the bound variables and of those that are
not set from `a`. -/
def start (a : OneWaySender) : Option OneWaySender :=
  let a := { a with toTcpSender := a.toTcpSender.rttInit, qs_cwnd_ := 0 }
  (if a.syn_ ∧ a.delay_growth_ then some 1 else a.initialWindow).map fun cwnd =>
    { a with
      cwnd_ := cwnd
      ssthresh_ :=
        if 0 < a.max_ssthresh_ ∧ a.max_ssthresh_ < toInt a.wnd_ then a.max_ssthresh_
        else toInt a.wnd_
      frto_ := 0
      first_decrease_ := true
      last_cwnd_action_ := .none
      wnd_restart_ := 1
      W_used := 0
      cong_action_ := false
      ncwndcuts_ := 0
      ncwndcuts1_ := 0
      fcnt_ := 0
      count_ := 0
      ecn_backoff_ := false
      necnresponses_ := 0
      highest_ack_ := -1
      maxseq_ := -1
      t_seqno_ := 0
      recover_ := 0
      fastrecov_ := false
      dupacks_ := 0
      awnd_ := a.wnd_init_ / 2
      ect_ := false
      ecn_burst_ := false
      last_ack_ := -1
      prev_highest_ack_ := if a.control_increase_ then -1 else a.prev_highest_ack_
      curseq_ := 0
      syn_connects_ := 0
      closed_ := false
      qs_requested_ := false
      qs_approved_ := false
      qs_window_ := 0
      cuts := [] }

/-- A sender with ECN and F-RTO, and otherwise with the values of `ns-default.tcl`. -/
def default : OneWaySender :=
  { DctcpSender.tenSegments with
    wnd_option_ := 1
    wnd_init_ := 2
    dctcp_ := false
    increase_param := fun cwnd => 1 / cwnd
    k_parameter_ := 0
    wnd_const_ := 4
    awnd_ := 0
    increase_num_ := 1
    maxcwnd_ := 0
    max_ssthresh_ := 0
    initial_window := 2
    tcp_tick_ := 1 / 100
    srtt_init_ := 0
    rttvar_init_ := 12
    rtxcur_init_ := 3
    T_SRTT_BITS := 3
    T_RTTVAR_BITS := 2
    rttvar_exp_ := 2
    t_rtt_ := 0
    t_srtt_ := 0
    t_rttvar_ := 0
    t_rtxcur_ := 0
    t_backoff_ := 0
    minrto_ := 1 / 5
    maxrto_ := 60
    rfc2988_ := true
    use_rtt_ := false
    ecn_ := true
    ect_ := false
    ecn_burst_ := false
    bug_fix_ := true
    restart_bugfix_ := true
    cuts := []
    last_ack_ := -1
    prev_highest_ack_ := -1
    curseq_ := 0
    numdupacks_ := 3
    noFastRetrans_ := false
    singledup_ := true
    aggressive_maxburst_ := true
    bugfix_ss_ := true
    wnd_init_option_ := 1
    slow_start_restart_ := true
    wnd_th_ := 1 / 500
    control_increase_ := false
    old_ecn_ := false
    delay_growth_ := true
    syn_ := true
    syn_connects_ := 0
    max_connects_ := -1
    SetCWRonRetransmit_ := true
    ts_option_ := false
    ts_resetRTO_ := false
    closed_ := false
    frto_enabled_ := true
    sfrto_enabled_ := false
    pipe_prev_ := 0
    spurious_response_ := 1
    QOption_ := false
    qs_enabled_ := false
    qs_requested_ := false
    qs_approved_ := false
    qs_cwnd_ := 0
    qs_window_ := 0
    tcp_qs_recovery_ := true
    eln_ := false
    eln_rxmit_thresh_ := 1
    eln_last_rxmit_ := 0 }

end OneWaySender

/-- What happens to a sender. -/
inductive OneWayEvent where
  /-- An ACK arrives. -/
  | recv (p : OneWayAck) (w : OneWayContext)
  /-- The retransmission timer goes off. -/
  | timeout (turns : List OneWayTurn)
  /-- Another timer calls `send_much`. -/
  | timeoutNonrtx (turns : List OneWayTurn)
  /-- The application has more packets. -/
  | advanceby (delta : ℤ) (turns : List OneWayTurn)
  /-- The application has more bytes. -/
  | sendmsg (nbytes : ℤ) (turns : List OneWayTurn)
  /-- The values of another agent are taken. -/
  | persist (other : OneWaySender)

/-- One event. -/
def OneWaySender.step (a : OneWaySender) : OneWayEvent → Option OneWaySender
  | .recv p w => a.recv p w
  | .timeout turns => some (a.timeout turns)
  | .timeoutNonrtx turns => some (a.sendMuch turns)
  | .advanceby delta turns => some (a.advanceby delta turns)
  | .sendmsg nbytes turns => some (a.sendmsg nbytes turns)
  | .persist other => some (a.persist other)

end Ns2.Tcp
