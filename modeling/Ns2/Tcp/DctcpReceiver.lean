import Ns2.Lib.Echo
import Ns2.Tcp.SendPacket

/-!
# The DCTCP receiver

`FullTcpAgent::recv` of `tcp/tcp-full.cc` from the state `SYN_RECEIVED` on, with what it
calls, and the other functions that send.  Congestion control, SACK and the timers decide
when to send and what comes next; what they decide comes with the events below.  The
events end with the connection: a second connection is not modelled.

* `needSend`, `foutput`, `sendMuch` — output.
* `ecnBlock`, `echoTransition` — the CE bits: `recv` has both of them twice.
* `predictOk`, `predict`, `slowPath`, `recv` — input.
* `step` — what happens to a receiver.
-/

namespace Ns2.Tcp

/-- `PF_TIMEOUT`. -/
def pfTimeout : ℕ := 0x04

/-- `TCP_MAXSEQ`. -/
def tcpMaxseq : ℤ := 1073741824

/-- `TCP_PAWS_IDLE`. -/
def tcpPawsIdle : ℚ := 24 * 24 * 60 * 60

/-- The test `state_ <= TCPS_ESTABLISHED && state_ != TCPS_CLOSED`: the connection may be
closed with the next segment. -/
def TcpState.mayClose (s : TcpState) : Bool :=
  s = .listen ∨ s = .synSent ∨ s = .synReceived ∨ s = .established

namespace TcpPacket

/-- A flag of the TCP header is set. -/
def has (p : TcpPacket) (flag : TcpFlag) : Bool := p.tcph.tcp_flags_ &&& flag ≠ 0

/-- Bytes of payload. -/
def datalen (p : TcpPacket) : ℤ := p.size_ - p.tcph.hlen_

end TcpPacket

/-- What congestion control and SACK keep. -/
structure SenderState where
  /-- Congestion window, in segments. -/
  cwnd_ : ℚ
  /-- The sender is in fast recovery. -/
  fastrecov_ : Bool
  /-- Fast recovery ends when this is acknowledged. -/
  recover_ : ℤ
  /-- The peer is to be told about a cut of the window. -/
  cong_action_ : Bool

/-- A call of `foutput`: what it is given, and what it finds. -/
structure OutputCall where
  /-- The argument `seqno`. -/
  seqno : ℤ
  /-- `window()`. -/
  window : ℤ
  /-- `pipectrl_`. -/
  pipectrl_ : Bool

/-- The calls of `foutput` that `send_much` makes: the first one if it has to, and the
ones after it. -/
structure OutputCalls where
  /-- The call that `force` asks for. -/
  first : OutputCall
  /-- The calls that are allowed. -/
  more : List OutputCall

/-- A `FullTcpAgent`. -/
structure DctcpReceiver extends FullTcpAgent where
  /-- The agent is a `NewRenoFullTcpAgent`. -/
  newreno : Bool
  /-- There is no header prediction. -/
  nopredict_ : Bool
  /-- The connection may be half closed. -/
  halfclose_ : Bool
  /-- Duplicate segments are no duplicate ACKs. -/
  dupseg_fix_ : Bool
  /-- Data may go with the `SYN`. -/
  data_on_syn_ : Bool
  /-- The Nagle algorithm is disabled. -/
  nodelay_ : Bool
  /-- CWR is set on retransmissions. -/
  SetCWRonRetransmit_ : Bool
  /-- What to do when a `SYN`/`ACK` was marked. -/
  ecn_syn_wait_ : ℕ
  /-- Initial send sequence number. -/
  iss_ : ℤ
  /-- Segment size for a `maxseg_` that is not set. -/
  size_ : ℤ
  /-- Segments received before an ACK has to be sent. -/
  segs_per_ack_ : ℤ
  /-- As long as fewer bytes than this were received, every segment is ACKed. -/
  spa_thresh_ : ℤ
  /-- Upper bound of the window, in segments. -/
  wnd_ : ℚ
  /-- Segment size. -/
  maxseg_ : ℤ
  /-- State of the connection. -/
  state_ : TcpState
  /-- Initial sequence number of the peer. -/
  irs_ : ℤ
  /-- Time `recent_` was set. -/
  recent_age_ : ℚ
  /-- There is always something to send. -/
  infinite_send_ : Bool
  /-- The connection is closed once the buffer is empty. -/
  close_on_empty_ : Bool
  /-- Last byte provided by the application. -/
  curseq_ : ℤ
  /-- Highest acknowledgment received. -/
  highest_ack_ : ℤ
  /-- Largest sequence number sent, plus one. -/
  maxseq_ : ℤ
  /-- Sequence number to send next. -/
  t_seqno_ : ℤ
  /-- Congestion control and SACK. -/
  sender : SenderState
  /-- `TF_ACKNOW`: an ACK is owed. -/
  acknow : Bool
  /-- `TF_DELACK`: an ACK is owed, but may wait. -/
  delack : Bool
  /-- `TF_NEEDFIN`: a `FIN` is to be sent. -/
  needfin : Bool
  /-- `TF_NEEDCLOSE`: a `FIN` is to go with the next segment. -/
  needclose : Bool
  /-- The CE bit changed with the last segment. -/
  ce_transition : Bool
  /-- History: the data received, with the CE bits of their segments. -/
  received : List (Echo.Segment ℤ Bool)
  /-- History: the packets handed to `send`, in order. -/
  sent : List TcpPacket

namespace DctcpReceiver

/-- `rcv_nxt_`: the sequence number expected next. -/
def rcv_nxt_ (a : DctcpReceiver) : ℤ := a.rq_.rcv_nxt_

/-- Assign `rcv_nxt_`. -/
def setRcvNxt (a : DctcpReceiver) (n : ℤ) : DctcpReceiver :=
  { a with rq_ := { a.rq_ with rcv_nxt_ := n } }

/-! ## Output -/

/-- `sendpacket`. -/
def send (a : DctcpReceiver) (now : ℚ) (seqno ackno : ℤ) (pflags : TcpFlag) (datalen : ℤ)
    (reason : ℕ) : DctcpReceiver :=
  let r := a.toFullTcpAgent.sendpacket now seqno ackno pflags datalen reason none
  { a with toFullTcpAgent := r.1, sent := a.sent ++ [r.2] }

/-- `need_send`. -/
def needSend (a : DctcpReceiver) : Bool :=
  a.acknow ∨
    let spa := if 0 < a.spa_thresh_ ∧ a.rcv_nxt_ - a.irs_ < a.spa_thresh_ then 1 else a.segs_per_ack_
    a.rcv_nxt_ - a.last_ack_sent_ ≥ spa * a.maxseg_

/-- `datalen` of `foutput`: the bytes there are to send. -/
def outputLen (a : DctcpReceiver) (c : OutputCall) : ℤ :=
  let buffered_bytes :=
    if a.infinite_send_ then tcpMaxseq
    else if a.highest_ack_ < 0 then a.curseq_ - a.iss_ else a.curseq_ - a.highest_ack_ + 1
  let off := if a.highest_ack_ < 0 then c.seqno - a.iss_ else c.seqno - a.highest_ack_
  let datalen :=
    if c.seqno = a.iss_ ∧ ¬ a.data_on_syn_ then 0
    else if c.pipectrl_ then buffered_bytes - off
    else min buffered_bytes (c.window * a.maxseg_) - off
  if datalen < 0 then 0 else if datalen > a.maxseg_ then a.maxseg_ else datalen

/-- `emptying_buffer` of `foutput`. -/
def emptiesBuffer (a : DctcpReceiver) (c : OutputCall) : Bool :=
  ¬ a.infinite_send_ ∧
    (c.seqno + a.outputLen c > a.curseq_ ∨ (c.seqno = a.iss_ ∧ a.outputLen c = 0))

/-- `TF_NEEDCLOSE`, when `foutput` is about to send. -/
def closes (a : DctcpReceiver) (c : OutputCall) : Bool :=
  a.needclose ∨
    (a.emptiesBuffer c ∧ c.seqno ≠ a.iss_ ∧ a.close_on_empty_ ∧ a.highest_ack_ = a.maxseq_)

/-- `pflags` of `foutput`: a `FIN` goes with the last byte only. -/
def outputFlags (a : DctcpReceiver) (c : OutputCall) : TcpFlag :=
  if a.emptiesBuffer c then a.state_.outflags ||| thPush
  else
    let pflags :=
      if a.state_.outflags &&& thFin ≠ 0 then a.state_.outflags - thFin else a.state_.outflags
    if a.infinite_send_ ∧ c.seqno = a.iss_ ∧ a.outputLen c = 0 then pflags ||| thPush else pflags

/-- The tests of `foutput` before the label `send`. -/
def outputNow (a : DctcpReceiver) (c : OutputCall) : Bool :=
  let datalen := a.outputLen c
  let quiet : Bool := a.highest_ack_ = a.maxseq_
  (0 < datalen ∧ (datalen = a.maxseg_ ∨ ((quiet ∨ a.nodelay_) ∧ a.emptiesBuffer c) ∨
    c.seqno < a.maxseq_ ∨ (datalen : ℚ) ≥ a.wnd_ * a.maxseg_ / 2)) ∨
  a.needSend ∨ a.acknow ∨ a.closes c ∨ a.outputFlags c &&& (thSyn ||| thFin) ≠ 0

/-- CWR and ECE of `foutput`; the second component is `cong_action_`. -/
def ecnFlags (a : DctcpReceiver) (pflags : TcpFlag) (datalen : ℤ) (is_retransmit : Bool) :
    TcpFlag × Bool :=
  let r : TcpFlag × Bool :=
    if a.ecn_ ∧ pflags &&& thSyn ≠ 0 ∧ pflags &&& thAck = 0 then
      (pflags ||| thEce ||| thCwr, a.sender.cong_action_)
    else if a.ecn_ ∧ pflags &&& thSyn ≠ 0 ∧ pflags &&& thAck ≠ 0 then
      (if pflags &&& thCwr ≠ 0 then (pflags ||| thEce) - thCwr else pflags ||| thEce,
        a.sender.cong_action_)
    else if a.ecn_ ∧ a.ect_ ∧ a.sender.cong_action_ ∧ (¬ is_retransmit ∨ a.SetCWRonRetransmit_)
    then (pflags ||| thCwr, false)
    else (pflags, a.sender.cong_action_)
  let f := if datalen > 0 ∧ r.2 ∧ ¬ is_retransmit then r.1 ||| thCwr else r.1
  (if a.ecn_ ∧ a.ect_ ∧ a.recent_ce_ then f ||| thEce else f, r.2)

/-- `foutput` from the label `send` on.  The second component is what it returns. -/
def output (a : DctcpReceiver) (now : ℚ) (c : OutputCall) (reason : ℕ) : DctcpReceiver × ℤ :=
  let datalen := a.outputLen c
  let is_retransmit : Bool := c.seqno < a.maxseq_
  let pflags := a.outputFlags c
  let r := a.ecnFlags pflags datalen is_retransmit
  let fin : Bool := a.closes c ∧ a.state_.mayClose
  let b := { a with
    needclose := false
    state_ := if fin then .finWait1 else a.state_ }
  let s := b.send now c.seqno b.rcv_nxt_ (if fin then r.1 ||| thFin else r.1) datalen reason
  let reliable := datalen + (if pflags &&& thSyn ≠ 0 then 1 else 0) +
    (if fin ∨ pflags &&& thFin ≠ 0 then 1 else 0)
  ({ s with
      acknow := false
      delack := false
      sender := { s.sender with cong_action_ := r.2 && !(0 < reliable ∧ ¬ is_retransmit) }
      maxseq_ := max s.maxseq_ (c.seqno + reliable) }, reliable)

/-- The start of `foutput`: `maxseg_` is set, if it was not. -/
def fillMaxseg (a : DctcpReceiver) : DctcpReceiver :=
  { a with maxseg_ := if a.maxseg_ = 0 then a.size_ else a.maxseg_ }

/-- `foutput`. -/
def foutput (a : DctcpReceiver) (now : ℚ) (c : OutputCall) (reason : ℕ) : DctcpReceiver × ℤ :=
  if a.fillMaxseg.outputNow c then a.fillMaxseg.output now c reason else (a.fillMaxseg, 0)

/-- The loop of `send_much`. -/
def sendLoop (now : ℚ) (reason : ℕ) : DctcpReceiver → List OutputCall → DctcpReceiver
  | a, [] => a
  | a, c :: cs =>
    let r := a.foutput now c reason
    if r.2 ≤ 0 ∨ r.1.state_.outflags &&& (thSyn ||| thFin) ≠ 0 then r.1
    else sendLoop now reason r.1 cs

/-- `send_much`. -/
def sendMuch (a : DctcpReceiver) (now : ℚ) (force : Bool) (reason : ℕ) (calls : OutputCalls) :
    DctcpReceiver :=
  sendLoop now reason a (if force then calls.first :: calls.more else calls.more)

/-! ## The user's side and the timers -/

/-- `usrclosed`. -/
def usrclosed (a : DctcpReceiver) (now : ℚ) (calls : OutputCalls) : DctcpReceiver :=
  let a := { a with curseq_ := a.maxseq_ - 1, infinite_send_ := false }
  match a.state_ with
  | .closed | .listen => { a with state_ := .closed }
  | .synSent =>
    ({ a with state_ := .closed, needfin := true }).sendMuch now true reasonNormal calls
  | .lastAck => ({ a with needfin := true }).sendMuch now true reasonNormal calls
  | .synReceived | .established =>
    ({ a with state_ := .finWait1, needfin := true }).sendMuch now true reasonNormal calls
  | .closeWait =>
    ({ a with state_ := .lastAck, needfin := true }).sendMuch now true reasonNormal calls
  | _ => a

/-- `advance_bytes`, in a connection. -/
def advanceBytes (a : DctcpReceiver) (now : ℚ) (nb : ℤ) (calls : OutputCalls) : DctcpReceiver :=
  match a.state_ with
  | .established =>
    ({ a with curseq_ := (if a.curseq_ < a.iss_ then a.iss_ else a.curseq_) + nb }).sendMuch
      now false reasonNormal calls
  | .synSent | .synReceived =>
    { a with curseq_ := (if a.curseq_ < a.iss_ then a.iss_ else a.curseq_) + nb }
  | _ => a

/-- `timeout`, for the retransmission timer and the timer for delayed sends. -/
def timeoutRtx (a : DctcpReceiver) (now : ℚ) (s : SenderState) (calls : OutputCalls) :
    DctcpReceiver :=
  if a.state_ = .listen then a
  else ({ a with sender := s }).sendMuch now true pfTimeout calls

/-- `timeout`, for the timer for delayed ACKs. -/
def timeoutDelack (a : DctcpReceiver) (now : ℚ) (calls : OutputCalls) : DctcpReceiver :=
  if a.state_ = .listen then a
  else if a.delack then
    ({ a with delack := false, acknow := true }).sendMuch now true reasonNormal calls
  else a

/-- `reset`. -/
def reset (a : DctcpReceiver) : DctcpReceiver :=
  { a with
    rq_ := { (a.rq_.clear).getD a.rq_ with rcv_nxt_ := -1 }
    last_ack_sent_ := -1
    acknow := false
    delack := false
    needfin := false
    needclose := false
    curseq_ := 0
    highest_ack_ := -1
    maxseq_ := -1
    t_seqno_ := a.iss_
    irs_ := -1
    recent_ := if a.ts_option_ then 0 else -1
    recent_age_ := if a.ts_option_ then 0 else -1
    close_on_empty_ := false
    ecn_syn_next_ := a.ecn_syn_
    sender := { a.sender with fastrecov_ := false } }

/-! ## Input -/

/-- What congestion control, SACK and the timers make of a segment. -/
structure RecvWork where
  /-- Congestion control after the ACK. -/
  sender : SenderState
  /-- For a duplicate ACK at or above the threshold: what is sent for it. -/
  dupack : Option (List OutputCall)
  /-- `window()` for the retransmission on a partial ACK. -/
  window : ℤ
  /-- `pipectrl_` for it. -/
  pipectrl_ : Bool
  /-- The immediate ACK. -/
  immediate : OutputCalls
  /-- What is sent at the end. -/
  output : OutputCalls
  /-- What is sent when the connection is closed. -/
  close : OutputCalls

/-- `predict_ok`. -/
def predictOk (a : DctcpReceiver) (p : TcpPacket) : Bool :=
  a.state_ = .established ∧ p.tcph.tcp_flags_ &&& (thSyn ||| thFin ||| thAck) = thAck ∧
    ¬ a.needfin ∧ (¬ a.ts_option_ ∨ p.fh.no_ts_ ∨ p.tcph.ts_ ≥ a.recent_) ∧
    p.tcph.seqno_ = a.rcv_nxt_ ∧ a.t_seqno_ = a.maxseq_ ∧ (¬ a.ecn_ ∨ ¬ p.fh.ecnecho) ∧
    p.tcph.sa_length_ = 0

/-- The timestamp of a segment that starts at or below the last ACK. -/
def noteTs (a : DctcpReceiver) (now : ℚ) (seqno : ℤ) (p : TcpPacket) : DctcpReceiver :=
  if a.ts_option_ ∧ ¬ p.fh.no_ts_ ∧ seqno ≤ a.last_ack_sent_ then
    { a with recent_age_ := now, recent_ := p.tcph.ts_ }
  else a

/-- The CE bit of a segment, with and without DCTCP. -/
def ecnBlock (a : DctcpReceiver) (p : TcpPacket) (datalen : ℤ) : DctcpReceiver :=
  if a.ecn_ then
    if a.dctcp_ then
      if p.fh.ce ∧ p.fh.ect then
        if a.recent_ce_ = false then { a with ce_transition := true, recent_ce_ := true }
        else { a with ce_transition := false }
      else if datalen > 0 ∧ ¬ p.fh.ce ∧ p.fh.ect then
        if a.recent_ce_ = true then { a with ce_transition := true, recent_ce_ := false }
        else { a with ce_transition := false }
      else a
    else if p.fh.ce ∧ p.fh.ect then { a with recent_ce_ := true }
    else if p.fh.cong_action then { a with recent_ce_ := false }
    else a
  else a

/-- `recent_ce_ = !recent_ce_`. -/
def flipCe (a : DctcpReceiver) : DctcpReceiver := { a with recent_ce_ := !a.recent_ce_ }

/-- The test of the DCTCP state machine. -/
def fires (a : DctcpReceiver) : Bool :=
  a.dctcp_ ∧ a.ce_transition ∧ a.rcv_nxt_ - a.last_ack_sent_ > 0

/-- The DCTCP state machine: "Must send an immediate ACK with with previous ECN state before
transitioning to new state". -/
def echoTransition (a : DctcpReceiver) (now : ℚ) (calls : OutputCalls) : DctcpReceiver :=
  if a.fires then
    (({ a with acknow := true }).flipCe.sendMuch now true reasonNormal calls).flipCe
  else a

/-- Take data that is in order. -/
def takeData (a : DctcpReceiver) (p : TcpPacket) (datalen : ℤ) : DctcpReceiver :=
  { a.setRcvNxt (a.rcv_nxt_ + datalen) with
    delack := true
    received := a.received ++ [⟨a.rcv_nxt_, a.rcv_nxt_ + datalen, p.fh.ce⟩] }

/-- `newack`. -/
def newack (a : DctcpReceiver) (now : ℚ) (p : TcpPacket) (s : SenderState) : DctcpReceiver :=
  { a with
    highest_ack_ := max a.highest_ack_ p.tcph.ackno_
    recent_age_ := if ¬ p.fh.no_ts_ ∧ a.ts_option_ then now else a.recent_age_
    recent_ := if ¬ p.fh.no_ts_ ∧ a.ts_option_ then p.tcph.ts_ else a.recent_
    sender := s }

/-- The header prediction of `recv`, after the CE bit was looked at.  The flag says that
`recv` returns. -/
def takePredicted (a : DctcpReceiver) (now : ℚ) (p : TcpPacket) (w : RecvWork) :
    DctcpReceiver × Bool :=
  if p.datalen = 0 then
    if p.tcph.ackno_ > a.highest_ack_ ∧ p.tcph.ackno_ < a.maxseq_ ∧ a.sender.cwnd_ ≥ a.wnd_ ∧
        ¬ a.sender.fastrecov_ then
      ((a.newack now p w.sender).sendMuch now false reasonNormal w.output, true)
    else (a, false)
  else if p.tcph.ackno_ = a.highest_ack_ ∧ a.rq_.empty then
    let a := (a.echoTransition now w.immediate).takeData p p.datalen
    (if a.needSend then a.sendMuch now true reasonNormal w.output else a, true)
  else (a, false)

/-- The header prediction of `recv`. -/
def predict (a : DctcpReceiver) (now : ℚ) (p : TcpPacket) (w : RecvWork) : DctcpReceiver × Bool :=
  if a.nopredict_ ∨ ¬ a.predictOk p then (a, false)
  else ((a.noteTs now p.tcph.seqno_ p).ecnBlock p p.datalen).takePredicted now p w

/-- `dropafterack`. -/
def dropAfterAck (a : DctcpReceiver) (now : ℚ) (w : RecvWork) : DctcpReceiver :=
  ({ a with acknow := true }).sendMuch now true reasonNormal w.output

/-- `dropwithreset`. -/
def dropWithReset (a : DctcpReceiver) (now : ℚ) (p : TcpPacket) (seqno datalen : ℤ)
    (tiflags : TcpFlag) : DctcpReceiver :=
  if tiflags &&& thAck ≠ 0 then a.send now p.tcph.ackno_ 0 0 0 reasonNormal
  else
    let ack := seqno + datalen
    a.send now 0 (if tiflags &&& thSyn ≠ 0 then ack - 1 else ack) thAck 0 reasonNormal

/-- What is left of a segment after `recv` has trimmed it. -/
structure Trim where
  /-- First sequence number. -/
  seqno : ℤ
  /-- Bytes of payload. -/
  datalen : ℤ
  /-- Bytes of payload by the size of the packet. -/
  size : ℤ
  /-- Flags. -/
  tiflags : TcpFlag
  /-- Nothing is left of the payload; an ACK is owed. -/
  dupseg : Bool

/-- The part of `recv` that drops what was received before.  A `SYN` counts as one. -/
def trim (a : DctcpReceiver) (p : TcpPacket) : Trim :=
  let todrop := a.rcv_nxt_ - p.tcph.seqno_
  if 0 < todrop ∧ (p.has thSyn ∨ 0 < p.datalen) then
    let syn := if p.has thSyn then 1 else 0
    let tiflags := if p.has thSyn then p.tcph.tcp_flags_ - thSyn else p.tcph.tcp_flags_
    if todrop - syn > p.datalen ∨ (todrop - syn = p.datalen ∧ p.has thFin = false) then
      { seqno := p.tcph.seqno_ + syn + p.datalen
        datalen := 0
        size := -syn
        tiflags := if p.has thFin then tiflags - thFin else tiflags
        dupseg := true }
    else
      { seqno := p.tcph.seqno_ + todrop
        datalen := p.datalen - (todrop - syn)
        size := p.datalen - todrop
        tiflags := tiflags
        dupseg := false }
  else
    { seqno := p.tcph.seqno_
      datalen := p.datalen
      size := p.datalen
      tiflags := p.tcph.tcp_flags_
      dupseg := false }

/-- The part of `recv` after `step6`, for data: the flags left, and whether output is
needed. -/
def acceptData (a : DctcpReceiver) (now : ℚ) (p : TcpPacket) (g : Trim) (needoutput : Bool)
    (w : RecvWork) : DctcpReceiver × TcpFlag × Bool :=
  if (0 < g.datalen ∨ g.tiflags &&& thFin ≠ 0) ∧ a.state_.haveRcvdFin = false then
    if g.seqno = a.rcv_nxt_ ∧ a.rq_.empty then
      let a := (a.echoTransition now w.immediate).takeData p g.datalen
      (a, p.tcph.tcp_flags_ &&& thFin, a.needSend)
    else
      let r := (a.rq_.reass a.state_ g.seqno (g.seqno + g.size) p.tcph.tcp_flags_).getD (a.rq_, 0)
      let a := { a with rq_ := r.1, acknow := true }
      (a, r.2, if r.2 &&& thPush ≠ 0 then a.needSend else needoutput)
  else (a, if g.tiflags &&& thFin ≠ 0 then g.tiflags - thFin else g.tiflags, needoutput)

/-- The part of `recv` that deals with a `FIN`. -/
def processFin (a : DctcpReceiver) (tiflags : TcpFlag) : DctcpReceiver :=
  if tiflags &&& thFin ≠ 0 then
    let b :=
      if a.state_.haveRcvdFin then a else { a.setRcvNxt (a.rcv_nxt_ + 1) with acknow := true }
    match a.state_ with
    | .synReceived | .established => { b with state_ := .closeWait }
    | .finWait1 => { b with state_ := .closing }
    | .finWait2 => { b with state_ := .closed }
    | _ => b
  else a

/-- The output that `recv` ends with. -/
def finalOutput (a : DctcpReceiver) (now : ℚ) (needoutput : Bool) (w : RecvWork) :
    DctcpReceiver :=
  if needoutput ∨ a.acknow then a.sendMuch now true reasonNormal w.output
  else if a.curseq_ ≥ a.highest_ack_ ∨ a.infinite_send_ then
    a.sendMuch now false reasonNormal w.output
  else a

/-- A connection that both sides have closed is over. -/
def closeIfDone (a : DctcpReceiver) (now : ℚ) (w : RecvWork) : DctcpReceiver :=
  if ¬ a.halfclose_ ∧ a.state_ = .closeWait ∧ a.highest_ack_ = a.maxseq_ then
    a.usrclosed now w.close
  else a

/-- `recv` from `step6` on. -/
def step6 (a : DctcpReceiver) (now : ℚ) (p : TcpPacket) (g : Trim) (needoutput : Bool)
    (w : RecvWork) : DctcpReceiver :=
  let r := a.acceptData now p g needoutput w
  ((r.1.processFin r.2.1).finalOutput now r.2.2 w).closeIfDone now w

/-- The retransmission of a `NewRenoFullTcpAgent` on a partial ACK. -/
def packAction (a : DctcpReceiver) (now : ℚ) (w : RecvWork) : DctcpReceiver :=
  if a.newreno then
    (a.foutput now ⟨a.highest_ack_, w.window, w.pipectrl_⟩ reasonDupack).1
  else a

/-- `pack`, after `newack`: the ACK is a partial one. -/
def pack (a : DctcpReceiver) (p : TcpPacket) : Bool :=
  a.sender.fastrecov_ ∧ p.tcph.ackno_ < a.sender.recover_

/-- `recv` from `process_ACK` on. -/
def processAck (a : DctcpReceiver) (now : ℚ) (p : TcpPacket) (g : Trim) (w : RecvWork) :
    DctcpReceiver :=
  if p.tcph.ackno_ > a.maxseq_ then a.dropAfterAck now w
  else
    let b := a.newack now p w.sender
    let b := if a.pack p then b.packAction now w else b
    let needoutput : Bool := p.tcph.ackno_ = b.maxseq_
    -- `ourfinisacked`
    if b.state_.geFinWait1 ∧ p.tcph.ackno_ = b.maxseq_ then
      match b.state_ with
      | .finWait1 => ({ b with state_ := .finWait2 }).step6 now p g false w
      | .closing => ({ b with state_ := .closed }).step6 now p g needoutput w
      | .lastAck => ({ b with state_ := .closed }).reset
      | _ => b.step6 now p g needoutput w
    else b.step6 now p g needoutput w

/-- `recv` from the ACK processing on, in the states from `ESTABLISHED` on. -/
def recvAck (a : DctcpReceiver) (now : ℚ) (p : TcpPacket) (g : Trim) (w : RecvWork) :
    DctcpReceiver :=
  let a := a.ecnBlock p g.datalen
  if p.tcph.ackno_ ≤ a.highest_ack_ then
    if g.datalen = 0 ∧ (¬ a.dupseg_fix_ ∨ ¬ g.dupseg) then
      match w.dupack with
      | some calls => sendLoop now reasonDupack { a with sender := w.sender } calls
      | none => ({ a with sender := w.sender }).step6 now p g false w
    else ({ a with sender := w.sender }).step6 now p g false w
  else a.processAck now p g w

/-- A segment whose timestamp is too old. -/
def oldTs (a : DctcpReceiver) (p : TcpPacket) : Bool :=
  a.ts_option_ ∧ ¬ p.fh.no_ts_ ∧ a.recent_ ≠ 0 ∧ p.tcph.ts_ < a.recent_

/-- `recent_` is not valid any more, if the timestamp is too old. -/
def forgetTs (a : DctcpReceiver) (p : TcpPacket) : DctcpReceiver :=
  if a.oldTs p then { a with recent_ := 0 } else a

/-- `TF_ACKNOW`, if nothing is left of the payload. -/
def owe (a : DctcpReceiver) (dupseg : Bool) : DctcpReceiver :=
  { a with acknow := a.acknow || dupseg }

/-- The segment is dropped for its timestamp. -/
def dropsTs (a : DctcpReceiver) (now : ℚ) (p : TcpPacket) : Bool :=
  a.oldTs p ∧ now - a.recent_age_ ≤ tcpPawsIdle

/-- `recv` after the trimming. -/
def recvTrimmed (a : DctcpReceiver) (now : ℚ) (p : TcpPacket) (g : Trim) (w : RecvWork) :
    DctcpReceiver :=
  if g.tiflags &&& thSyn ≠ 0 then a.dropWithReset now p g.seqno g.datalen g.tiflags
  else if g.tiflags &&& thAck = 0 then a
  else if a.state_ = .synReceived then
    if p.tcph.ackno_ < a.highest_ack_ ∨ p.tcph.ackno_ > a.maxseq_ then
      a.dropWithReset now p g.seqno g.datalen g.tiflags
    else if a.ecn_ ∧ a.ect_ ∧ a.ecn_syn_ ∧ p.fh.ecnecho ∧ a.ecn_syn_wait_ = 2 then
      -- the `SYN`/`ACK` was marked: send another one
      (({ a with ecn_syn_next_ := false }).foutput now
        ⟨a.iss_, w.window, w.pipectrl_⟩ reasonNormal).1
    else
      ({ a with
          state_ := if a.needfin then .finWait1 else .established
          needfin := false }).recvAck now p g w
  else a.recvAck now p g w

/-- `recv` after the header prediction. -/
def slowPath (a : DctcpReceiver) (now : ℚ) (p : TcpPacket) (w : RecvWork) : DctcpReceiver :=
  if a.state_ = .lastAck ∧ p.has thFin then a
  else if a.dropsTs now p then a.dropAfterAck now w
  else
    let a := a.forgetTs p
    let g := a.trim p
    ((a.owe g.dupseg).noteTs now g.seqno p).recvTrimmed now p g w

/-- `recv`, in the states from `SYN_RECEIVED` on. -/
def recv (a : DctcpReceiver) (now : ℚ) (p : TcpPacket) (w : RecvWork) : DctcpReceiver :=
  match a.state_ with
  | .closed => if p.has thFin then a.dropAfterAck now w else a
  | _ =>
    let r := a.predict now p w
    if r.2 then r.1 else r.1.slowPath now p w

/-! ## Events -/

/-- What happens to a receiver. -/
inductive Action where
  /-- A segment arrives. -/
  | recv (p : TcpPacket) (w : RecvWork)
  /-- The application has bytes to send. -/
  | advanceBytes (nb : ℤ) (calls : OutputCalls)
  /-- The application closes the connection. -/
  | usrclosed (calls : OutputCalls)
  /-- The retransmission timer or the timer for delayed sends expires. -/
  | timeoutRtx (s : SenderState) (calls : OutputCalls)
  /-- The timer for delayed ACKs expires. -/
  | timeoutDelack (calls : OutputCalls)

/-- An event. -/
structure Event where
  /-- The time. -/
  now : ℚ
  /-- What happens. -/
  action : Action
  /-- The sequence number to send next, after it. -/
  t_seqno_ : ℤ

/-- What an action does. -/
def act (a : DctcpReceiver) (now : ℚ) : Action → DctcpReceiver
  | .recv p w => a.recv now p w
  | .advanceBytes nb calls => a.advanceBytes now nb calls
  | .usrclosed calls => a.usrclosed now calls
  | .timeoutRtx s calls => a.timeoutRtx now s calls
  | .timeoutDelack calls => a.timeoutDelack now calls

/-- A step of the receiver. -/
def step (a : DctcpReceiver) (e : Event) : DctcpReceiver :=
  { a.act e.now e.action with t_seqno_ := e.t_seqno_ }

end DctcpReceiver

end Ns2.Tcp
