import Ns2.Common.Scheduler
import Ns2.Mptcp.DataAck
import Ns2.Mptcp.Mapping
import Ns2.Tcp.Reass

/-!
# A subflow of an MPTCP connection

`MpFullTcpAgent` is a `SackFullTcpAgent` that keeps the two vectors of mappings, and
whose `sendpacket` puts MPTCP options on the packets.  The model has what the sequence
numbers, the mappings and the state of the connection depend on.  Congestion control,
SACK and the timers decide when to send and what comes next; what they decide is a
`Congestion`, and the functions below take it as it is.  `SYN`s and `FIN`s are there,
timestamps and ECN are not.  A call that reaches `abort()` is `none`.

* `sendpacket`, `foutput` — output.
* `advance`, `advanceBytes`, `reset`, `usrclosed`, `listen` — the user's side.
* `recv` — input, up to the call of `send_much`; `processAck`, `acceptData` and
  `processFin` are parts of it.
-/

namespace Ns2.Mptcp

open Ns2.Tcp
open Ns2.Common (toInt)

/-- A packet between two subflows.  An MPTCP option that is not there is zero. -/
structure Packet where
  /-- Sequence number. -/
  seqno : ℤ
  /-- Acknowledgment number. -/
  ackno : ℤ
  /-- Flags of the TCP header. -/
  flags : TcpFlag
  /-- Bytes of payload. -/
  datalen : ℤ
  /-- Data-level acknowledgment. -/
  mp_ack : ℤ := 0
  /-- Mapping: first number in the data stream. -/
  mp_dsn : ℤ := 0
  /-- Mapping: first number on the subflow. -/
  mp_subseq : ℤ := 0
  /-- Mapping: number of bytes. -/
  mp_dsnlen : ℤ := 0
  deriving DecidableEq, Repr

namespace Packet

/-- A flag of the header is set. -/
def has (p : Packet) (flag : TcpFlag) : Bool := p.flags &&& flag ≠ 0

/-- The bytes of the subflow the packet carries. -/
def payload (p : Packet) : Set ℤ := Set.Ico p.seqno (p.seqno + p.datalen)

/-- The mapping on the packet. -/
def mapping (p : Packet) : DsnMapping := DsnMapping.new p.mp_dsn p.mp_subseq p.mp_dsnlen

/-- Put a mapping on the packet. -/
def withMapping (p : Packet) : Option DsnMapping → Packet
  | none => p
  | some m => { p with mp_dsn := m.dseqnum, mp_subseq := m.sseqnum, mp_dsnlen := m.length }

variable (p : Packet) (m? : Option DsnMapping)

@[simp] theorem withMapping_seqno : (p.withMapping m?).seqno = p.seqno := by cases m? <;> rfl

@[simp] theorem withMapping_ackno : (p.withMapping m?).ackno = p.ackno := by cases m? <;> rfl

@[simp] theorem withMapping_flags : (p.withMapping m?).flags = p.flags := by cases m? <;> rfl

@[simp] theorem withMapping_datalen : (p.withMapping m?).datalen = p.datalen := by
  cases m? <;> rfl

theorem withMapping_same (m : DsnMapping) : (p.withMapping (some m)).mapping.Same m :=
  ⟨rfl, rfl, rfl⟩

end Packet

/-- The data-level acknowledgment of the agent, and the ranges it was told so far. -/
structure Core where
  /-- `mackno_` and `dackmap_`. -/
  dataack : DataAck
  /-- History: the calls of `set_dataack`. -/
  reported : List DackMapping

namespace Core

/-- `mptcp_core_->set_dataack`. -/
def setDataack (c : Core) (ackno length : ℤ) : Core :=
  ⟨c.dataack.setDataack ackno length, c.reported ++ [⟨ackno, length⟩]⟩

/-- `mptcp_core_->get_dataack`. -/
def getDataack (c : Core) : ℤ := c.dataack.getDataack

end Core

/-- What congestion control, SACK and the timers keep for themselves. -/
structure Congestion where
  /-- Congestion window, in segments. -/
  cwnd_ : ℚ
  /-- Slow start threshold, in segments. -/
  ssthresh_ : ℤ
  /-- Number of duplicate ACKs. -/
  dupacks_ : ℤ
  /-- Backoff of the retransmission timer. -/
  t_backoff_ : ℤ
  /-- The subflow is in fast recovery. -/
  fastrecov_ : Bool
  /-- Output is controlled by the pipe estimate, not by the window. -/
  pipectrl_ : Bool
  /-- Sequence number to send next. -/
  t_seqno_ : ℤ

/-- What is bound to Tcl variables. -/
structure Config where
  /-- Initial send sequence number. -/
  iss_ : ℤ
  /-- Segment size; `size()` as well. -/
  maxseg_ : ℕ
  /-- Data may go with the `SYN`. -/
  data_on_syn_ : Bool
  /-- The Nagle algorithm is disabled. -/
  nodelay_ : Bool
  /-- Segments received before an ACK has to be sent. -/
  segs_per_ack_ : ℤ
  /-- As long as fewer bytes than this were received, every segment is ACKed. -/
  spa_thresh_ : ℤ
  /-- Upper bound of the window, in segments. -/
  wnd_ : ℚ
  /-- Bound of the slow start threshold after a reset; zero for none. -/
  max_ssthresh_ : ℤ
  /-- The window `set_initial_window` sets. -/
  initial_window : ℚ

/-- The values of `ns-default.tcl`. -/
def Config.default : Config where
  iss_ := 0
  maxseg_ := 536
  data_on_syn_ := false
  nodelay_ := false
  segs_per_ack_ := 1
  spa_thresh_ := 0
  wnd_ := 20
  max_ssthresh_ := 0
  initial_window := 1

/-- A subflow. -/
structure MpFullTcpAgent extends Config where
  /-- State of the connection. -/
  state_ : TcpState
  /-- Last byte provided by the application. -/
  curseq_ : ℤ
  /-- Highest acknowledgment received. -/
  highest_ack_ : ℤ
  /-- Largest sequence number sent, plus one. -/
  maxseq_ : ℤ
  /-- Congestion control. -/
  cong : Congestion
  /-- `TF_ACKNOW`: an ACK is owed. -/
  acknow : Bool
  /-- `TF_NEEDFIN`: a `FIN` is to be sent. -/
  needfin : Bool
  /-- Reassembly queue, with `rcv_nxt_`. -/
  rq_ : ReassemblyQueue
  /-- Initial sequence number of the peer. -/
  irs_ : ℤ
  /-- ACK number of the last packet sent. -/
  last_ack_sent_ : ℤ
  /-- Mappings of what is sent. -/
  mptcp_dsnmap_ : List DsnMapping
  /-- Mappings of what is received. -/
  mptcp_recv_dsnmap_ : List DsnMapping
  /-- History: the packets handed to `send`, in order. -/
  sent : List Packet

namespace MpFullTcpAgent

/-- The slow start threshold after a reset. -/
def initialSsthresh (c : Config) : ℤ :=
  if 0 < c.max_ssthresh_ ∧ c.max_ssthresh_ < toInt c.wnd_ then c.max_ssthresh_ else toInt c.wnd_

/-- The constructor, and the `reset` when the variables are bound. -/
def new (c : Config) : MpFullTcpAgent :=
  { c with
    state_ := .closed
    curseq_ := 0
    highest_ack_ := -1
    maxseq_ := -1
    cong :=
      { cwnd_ := c.initial_window
        ssthresh_ := initialSsthresh c
        dupacks_ := 0
        t_backoff_ := 1
        fastrecov_ := false
        pipectrl_ := false
        t_seqno_ := c.iss_ }
    acknow := false
    needfin := false
    rq_ := ReassemblyQueue.new (-1)
    irs_ := -1
    last_ack_sent_ := -1
    mptcp_dsnmap_ := []
    mptcp_recv_dsnmap_ := []
    sent := [] }

/-- `rcv_nxt_`: the sequence number expected next. -/
def rcv_nxt_ (t : MpFullTcpAgent) : ℤ := t.rq_.rcv_nxt_

/-- Assign `rcv_nxt_`. -/
def setRcvNxt (t : MpFullTcpAgent) (n : ℤ) : MpFullTcpAgent :=
  { t with rq_ := { t.rq_ with rcv_nxt_ := n } }

/-! ## Mappings -/

/-- `mptcp_add_mapping`. -/
def mptcpAddMapping (t : MpFullTcpAgent) (dseqnum length : ℤ) : MpFullTcpAgent :=
  { t with mptcp_dsnmap_ := t.mptcp_dsnmap_ ++ [DsnMapping.new dseqnum (t.curseq_ + 1) length] }

/-- `mptcp_recv_add_mapping`. -/
def mptcpRecvAddMapping (t : MpFullTcpAgent) (dseqnum sseqnum length : ℤ) : MpFullTcpAgent :=
  { t with mptcp_recv_dsnmap_ := t.mptcp_recv_dsnmap_ ++ [DsnMapping.new dseqnum sseqnum length] }

/-- `mptcp_remove_mapping`. -/
def mptcpRemoveMapping (t : MpFullTcpAgent) (seqnum : ℤ) : MpFullTcpAgent :=
  { t with mptcp_dsnmap_ := removeFirst seqnum t.mptcp_dsnmap_ }

/-- `mptcp_recv_getack`; the third component is the value it returns. -/
def mptcpRecvGetack (t : MpFullTcpAgent) (core : Core) (ackno : ℤ) :
    Option (MpFullTcpAgent × Core × ℤ) :=
  if ackno = 1 then some (t, core, 0)
  else (scan ackno t.mptcp_recv_dsnmap_).map fun r =>
    let core' := core.setDataack r.2.dseqnum (ackno - r.2.sseqnum)
    ({ t with mptcp_recv_dsnmap_ := r.1 }, core', core'.getDataack)

/-- `mptcp_get_cwnd`. -/
def mptcpGetCwnd (t : MpFullTcpAgent) : ℚ :=
  if t.cong.fastrecov_ then t.cong.ssthresh_ else t.cong.cwnd_

/-! ## Output -/

/-- The mapping part of `sendpacket`, for a packet with data. -/
def attachMapping (t : MpFullTcpAgent) (p : Packet) : MpFullTcpAgent × Packet :=
  if p.datalen = 0 then (t, p)
  else
    ({ t with mptcp_dsnmap_ := (attach p.seqno t.mptcp_dsnmap_).1 },
      p.withMapping (attach p.seqno t.mptcp_dsnmap_).2)

/-- The end of `sendpacket`. -/
def send (t : MpFullTcpAgent) (p : Packet) : MpFullTcpAgent :=
  { t with last_ack_sent_ := p.ackno, sent := t.sent ++ [p] }

/-- `sendpacket`. -/
def sendpacket (t : MpFullTcpAgent) (core : Core) (seqno ackno : ℤ) (pflags : TcpFlag)
    (datalen : ℤ) : Option (MpFullTcpAgent × Core) :=
  (if pflags &&& thSyn ≠ 0 then some (t, core, 0) else t.mptcpRecvGetack core ackno).map fun r =>
    let s := r.1.attachMapping { seqno, ackno, flags := pflags, datalen, mp_ack := r.2.2 }
    (s.1.send s.2, r.2.1)

/-- `window`. -/
def window (t : MpFullTcpAgent) : ℤ :=
  if t.cong.cwnd_ < t.wnd_ then toInt t.cong.cwnd_ else toInt t.wnd_

/-- `need_send`. -/
def needSend (t : MpFullTcpAgent) : Bool :=
  t.acknow ∨
    let spa := if 0 < t.spa_thresh_ ∧ t.rcv_nxt_ - t.irs_ < t.spa_thresh_ then 1 else t.segs_per_ack_
    t.rcv_nxt_ - t.last_ack_sent_ ≥ spa * t.maxseg_

/-- `datalen` of `foutput`: the bytes there are to send from `seqno` on. -/
def outputLen (t : MpFullTcpAgent) (seqno : ℤ) : ℤ :=
  -- before any ACK has come in, `highest_ack_` is negative
  let buffered_bytes :=
    if t.highest_ack_ < 0 then t.curseq_ - t.iss_ else t.curseq_ - t.highest_ack_ + 1
  let off := if t.highest_ack_ < 0 then seqno - t.iss_ else seqno - t.highest_ack_
  let datalen :=
    if seqno = t.iss_ ∧ ¬ t.data_on_syn_ then 0
    else if t.cong.pipectrl_ then buffered_bytes - off
    else min buffered_bytes (t.window * t.maxseg_) - off
  if datalen < 0 then 0 else if datalen > t.maxseg_ then t.maxseg_ else datalen

/-- `emptying_buffer` of `foutput`. -/
def emptiesBuffer (t : MpFullTcpAgent) (seqno : ℤ) : Bool :=
  seqno + t.outputLen seqno > t.curseq_ ∨ (seqno = t.iss_ ∧ t.outputLen seqno = 0)

/-- `pflags` of `foutput`: a `FIN` goes with the last byte only. -/
def outputFlags (t : MpFullTcpAgent) (seqno : ℤ) : TcpFlag :=
  if t.emptiesBuffer seqno then t.state_.outflags ||| thPush
  else if t.state_.outflags &&& thFin ≠ 0 then t.state_.outflags - thFin
  else t.state_.outflags

/-- The tests of `foutput` before the label `send`. -/
def outputNow (t : MpFullTcpAgent) (seqno : ℤ) : Bool :=
  let datalen := t.outputLen seqno
  let quiet : Bool := t.highest_ack_ = t.maxseq_
  (0 < datalen ∧ (datalen = t.maxseg_ ∨ ((quiet ∨ t.nodelay_) ∧ t.emptiesBuffer seqno) ∨
    seqno < t.maxseq_ ∨ (datalen : ℚ) ≥ t.wnd_ * t.maxseg_ / 2)) ∨
  t.needSend ∨ t.acknow ∨ t.outputFlags seqno &&& (thSyn ||| thFin) ≠ 0

/-- `foutput`. -/
def foutput (t : MpFullTcpAgent) (core : Core) (seqno : ℤ) : Option (MpFullTcpAgent × Core) :=
  if t.outputNow seqno then
    let datalen := t.outputLen seqno
    let pflags := t.outputFlags seqno
    (t.sendpacket core seqno t.rcv_nxt_ pflags datalen).map fun r =>
      let syn := if pflags &&& thSyn ≠ 0 then 1 else 0
      let fin := if pflags &&& thFin ≠ 0 then 1 else 0
      ({ r.1 with acknow := false, maxseq_ := max r.1.maxseq_ (seqno + (datalen + syn + fin)) }, r.2)
  else some (t, core)

/-- The output of `send_much`, for the sequence numbers `nxt_tseq` gives. -/
def sendMuch (t : MpFullTcpAgent) (core : Core) (seqs : List ℤ) : Option (MpFullTcpAgent × Core) :=
  seqs.foldlM (fun r seqno => r.1.foutput r.2 seqno) (t, core)

/-! ## The user's side -/

/-- `reset`.  The vectors of mappings are not cleared. -/
def reset (t : MpFullTcpAgent) : Option MpFullTcpAgent :=
  t.rq_.clear.map fun q =>
    { t with
      rq_ := { q with rcv_nxt_ := -1 }
      curseq_ := 0
      highest_ack_ := -1
      maxseq_ := -1
      cong :=
        { cwnd_ := t.initial_window
          ssthresh_ := initialSsthresh t.toConfig
          dupacks_ := 0
          t_backoff_ := 1
          fastrecov_ := false
          pipectrl_ := t.cong.pipectrl_
          t_seqno_ := t.iss_ }
      acknow := false
      needfin := false
      irs_ := -1
      last_ack_sent_ := -1 }

/-- `advance_bytes`, up to the output it makes. -/
def advance (t : MpFullTcpAgent) (nb : ℤ) : Option MpFullTcpAgent :=
  match t.state_ with
  | .closed | .listen =>
    -- `connect()`
    t.reset.map fun r => { r with curseq_ := r.iss_ + nb, state_ := .synSent }
  | .established | .synSent | .synReceived =>
    some { t with curseq_ := (if t.curseq_ < t.iss_ then t.iss_ else t.curseq_) + nb }
  | _ => some t

/-- `advance_bytes`, with the sequence numbers of `send_much`. -/
def advanceBytes (t : MpFullTcpAgent) (core : Core) (nb : ℤ) (seqs : List ℤ) :
    Option (MpFullTcpAgent × Core) :=
  (t.advance nb).bind fun r =>
    if t.state_ = .closed ∨ t.state_ = .listen then r.foutput core r.iss_
    else if r.state_ = .established then r.sendMuch core seqs
    else some (r, core)

/-- `sendmsg`, for a number of bytes; `send_control` does not pass `-1`. -/
def sendmsg (t : MpFullTcpAgent) (core : Core) (nbytes : ℤ) (seqs : List ℤ) :
    Option (MpFullTcpAgent × Core) :=
  t.advanceBytes core nbytes seqs

/-- `listen`. -/
def listen (t : MpFullTcpAgent) : MpFullTcpAgent := { t with state_ := .listen }

/-- `usrclosed`, up to the output it makes. -/
def usrclosed (t : MpFullTcpAgent) : MpFullTcpAgent :=
  let r := { t with curseq_ := t.maxseq_ - 1 }
  match t.state_ with
  | .closed | .listen => { r with state_ := .closed }
  | .synSent => { r with state_ := .closed, needfin := true }
  | .lastAck => { r with needfin := true }
  | .synReceived | .established => { r with state_ := .finWait1, needfin := true }
  | .closeWait => { r with state_ := .lastAck, needfin := true }
  | _ => r

/-! ## Input -/

/-- The part of `recv` after `process_ACK`.  The flag says that the rest of `recv` is
skipped. -/
def processAck (t : MpFullTcpAgent) (ackno : ℤ) : Option (MpFullTcpAgent × Bool) :=
  if ackno > t.maxseq_ then some ({ t with acknow := true }, true)
  else
    let r := { t with highest_ack_ := max t.highest_ack_ ackno }
    -- `ourfinisacked`
    if t.state_.geFinWait1 ∧ ackno = t.maxseq_ then
      match t.state_ with
      | .finWait1 => some ({ r with state_ := .finWait2 }, false)
      | .closing => some ({ r with state_ := .closed }, false)
      | .lastAck => ({ r with state_ := .closed }).reset.map (·, true)
      | _ => some (r, false)
    else some (r, false)

/-- The part of `recv` after `step6`, for data that starts at `seqno`; `tiflags` are the
flags left after trimming, `hflags` those of the header, and `size` is the length the
packet has by its size.  The flags left are returned. -/
def acceptData (t : MpFullTcpAgent) (seqno datalen size : ℤ) (tiflags hflags : TcpFlag) :
    Option (MpFullTcpAgent × TcpFlag) :=
  if (0 < datalen ∨ tiflags &&& thFin ≠ 0) ∧ t.state_.haveRcvdFin = false then
    if seqno = t.rcv_nxt_ ∧ t.rq_.empty then
      some (t.setRcvNxt (t.rcv_nxt_ + datalen), hflags &&& thFin)
    else
      (t.rq_.reass t.state_ seqno (seqno + size) hflags).map fun r =>
        ({ t with rq_ := r.1, acknow := true }, r.2)
  else some (t, if tiflags &&& thFin ≠ 0 then tiflags - thFin else tiflags)

/-- The part of `recv` that deals with a `FIN`. -/
def processFin (t : MpFullTcpAgent) (tiflags : TcpFlag) : MpFullTcpAgent :=
  if tiflags &&& thFin ≠ 0 then
    let r :=
      if t.state_.haveRcvdFin then t else { t.setRcvNxt (t.rcv_nxt_ + 1) with acknow := true }
    match t.state_ with
    | .synReceived | .established => { r with state_ := .closeWait }
    | .finWait1 => { r with state_ := .closing }
    | .finWait2 => { r with state_ := .closed }
    | _ => r
  else t

/-- The part of `recv` from `step6` on. -/
def step6 (t : MpFullTcpAgent) (core : Core) (seqno datalen size : ℤ) (tiflags hflags : TcpFlag) :
    Option (MpFullTcpAgent × Core) :=
  (t.acceptData seqno datalen size tiflags hflags).map fun r => (r.1.processFin r.2, core)

/-- `process_ACK`, and `step6` unless the segment is dropped. -/
def ackThenStep6 (t : MpFullTcpAgent) (core : Core) (ackno seqno datalen size : ℤ)
    (tiflags hflags : TcpFlag) : Option (MpFullTcpAgent × Core) :=
  (t.processAck ackno).bind fun r =>
    if r.2 then some (r.1, core) else r.1.step6 core seqno datalen size tiflags hflags

/-- `dropwithreset`. -/
def dropWithReset (t : MpFullTcpAgent) (core : Core) (p : Packet) (seqno datalen : ℤ)
    (tiflags : TcpFlag) : Option (MpFullTcpAgent × Core) :=
  if tiflags &&& thAck ≠ 0 then t.sendpacket core p.ackno 0 0 0
  else
    let ack := seqno + datalen
    t.sendpacket core 0 (if tiflags &&& thSyn ≠ 0 then ack - 1 else ack) thAck 0

/-- What is left of a segment after `recv` has trimmed it. -/
structure Trimmed where
  /-- First sequence number. -/
  seqno : ℤ
  /-- Bytes of payload. -/
  datalen : ℤ
  /-- Bytes of payload by the size of the packet. -/
  size : ℤ
  /-- Flags. -/
  tiflags : TcpFlag
  /-- Nothing is left of the payload; an ACK is owed. -/
  dupseg : Bool

/-- The part of `recv` that drops what was received before.  A `SYN` counts as one. -/
def trim (t : MpFullTcpAgent) (p : Packet) : Trimmed :=
  let todrop := t.rcv_nxt_ - p.seqno
  if 0 < todrop ∧ (p.has thSyn ∨ 0 < p.datalen) then
    let syn := if p.has thSyn then 1 else 0
    let tiflags := if p.has thSyn then p.flags - thSyn else p.flags
    if todrop - syn > p.datalen ∨ (todrop - syn = p.datalen ∧ p.has thFin = false) then
      { seqno := p.seqno + syn + p.datalen
        datalen := 0
        size := -syn
        tiflags := if p.has thFin then tiflags - thFin else tiflags
        dupseg := true }
    else
      { seqno := p.seqno + todrop
        datalen := p.datalen - (todrop - syn)
        size := p.datalen - todrop
        tiflags := tiflags
        dupseg := false }
  else
    { seqno := p.seqno, datalen := p.datalen, size := p.datalen, tiflags := p.flags, dupseg := false }

/-- `recv` in the state `LISTEN`. -/
def recvListen (t : MpFullTcpAgent) (core : Core) (p : Packet) : Option (MpFullTcpAgent × Core) :=
  if p.has thAck then t.dropWithReset core p p.seqno p.datalen p.flags
  else if p.has thSyn = false then some (t, core)
  else
    let r := { t.setRcvNxt (p.seqno + p.datalen + 1) with
      irs_ := p.seqno, cong := { t.cong with t_seqno_ := t.iss_ }, acknow := true
      state_ := .synReceived }
    r.step6 core (p.seqno + 1) p.datalen p.datalen p.flags p.flags

/-- `recv` in the state `SYN_SENT`. -/
def recvSynSent (t : MpFullTcpAgent) (core : Core) (p : Packet) : Option (MpFullTcpAgent × Core) :=
  if p.has thAck ∧ (p.ackno ≤ t.iss_ ∨ p.ackno > t.maxseq_) then
    t.dropWithReset core p p.seqno p.datalen p.flags
  else if p.has thSyn = false then some (t, core)
  else
    let r := { t.setRcvNxt (p.seqno + p.datalen + 1) with irs_ := p.seqno }
    if p.has thAck then
      let r := { r with highest_ack_ := p.ackno, acknow := r.acknow || ¬ 0 < p.datalen
                        state_ := if r.needfin then .finWait1 else .established, needfin := false }
      let tiflags := if t.needfin then p.flags - thSyn else p.flags
      -- the ACK that completes the handshake has no data
      (r.sendpacket core r.cong.t_seqno_ r.rcv_nxt_ thAck 0).bind fun s =>
        s.1.ackThenStep6 s.2 p.ackno (p.seqno + 1) p.datalen p.datalen tiflags p.flags
    else
      let r := { r with acknow := true, state_ := .synReceived
                        cong := { r.cong with t_seqno_ := r.cong.t_seqno_ - 1 } }
      r.step6 core (p.seqno + 1) p.datalen p.datalen p.flags p.flags

/-- `recv` after the trimming, for a segment with an ACK. -/
def recvAck (t : MpFullTcpAgent) (core : Core) (p : Packet) (g : Trimmed) (dupack : Bool) :
    Option (MpFullTcpAgent × Core) :=
  if p.ackno ≤ t.highest_ack_ then
    if dupack ∧ g.datalen = 0 then some (t, core)
    else t.step6 core g.seqno g.datalen g.size g.tiflags p.flags
  else t.ackThenStep6 core p.ackno g.seqno g.datalen g.size g.tiflags p.flags

/-- `recv` in the states from `SYN_RECEIVED` on. -/
def recvSynchronized (t : MpFullTcpAgent) (core : Core) (p : Packet) (dupack : Bool) :
    Option (MpFullTcpAgent × Core) :=
  let g := t.trim p
  let r := { t with acknow := t.acknow || g.dupseg }
  if t.state_ = .lastAck ∧ p.has thFin then some (t, core)
  else if g.tiflags &&& thSyn ≠ 0 then r.dropWithReset core p g.seqno g.datalen g.tiflags
  else if p.has thAck = false then some (r, core)
  else if t.state_ = .synReceived then
    if p.ackno < r.highest_ack_ ∨ p.ackno > r.maxseq_ then
      r.dropWithReset core p g.seqno g.datalen g.tiflags
    else
      ({ r with state_ := if r.needfin then .finWait1 else .established, needfin := false }).recvAck
        core p g dupack
  else r.recvAck core p g dupack

/-- `recv`, up to the call of `send_much`.  What congestion control makes of the segment
is `cong`; `dupack` says that the segment is counted as a duplicate ACK at or above the
threshold. -/
def recv (t : MpFullTcpAgent) (core : Core) (p : Packet) (cong : Congestion) (dupack : Bool) :
    Option (MpFullTcpAgent × Core) :=
  let t := { t with cong := cong }
  match t.state_ with
  | .closed => some (if p.has thFin then { t with acknow := true } else t, core)
  | .listen => t.recvListen core p
  | .synSent => t.recvSynSent core p
  | _ => t.recvSynchronized core p dupack

end MpFullTcpAgent

end Ns2.Mptcp
