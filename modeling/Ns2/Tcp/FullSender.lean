import Ns2.Tcp.ReassemblyRun
import Ns2.Tcp.TcpSender

/-!
# The sender of a two-way TCP connection

`FullTcpAgent` and its subclasses of `tcp/tcp-full.cc` as senders, with what they use of
`TcpAgent`.  `double`s are exact rationals.  When a timer goes off, how long a round trip
took and how much `foutput` found to send is given from outside; what is done with it is
what the source does.  A call that reaches `abort()` or does not return is `none`.

* `nexthole`, `nxtTseq`, `sendMuch` — what is sent next.
* `packAction`, `ackAction`, `dupackAction`, `timeoutAction` — the virtual functions, for
  the class the agent is of.
* `recvAck`, `afterAck` — the ACK processing, before and after a virtual function is called.
* `FullSenderEvent`, `FullTcpSender.step` — what happens to a sender.
-/

namespace Ns2.Tcp

open Ns2.Common (toInt)

/-- The class of the agent. -/
inductive FullTcpKind where
  /-- `FullTcpAgent`. -/
  | reno
  /-- `TahoeFullTcpAgent`. -/
  | tahoe
  /-- `NewRenoFullTcpAgent`. -/
  | newreno
  /-- `SackFullTcpAgent`. -/
  | sack
  deriving DecidableEq, Repr

/-- The sender of a two-way connection. -/
structure FullTcpSender extends TcpSender where
  /-- The class. -/
  kind : FullTcpKind
  /-- Segment size. -/
  maxseg_ : ℤ
  /-- Duplicate ACKs for a fast retransmit. -/
  tcprexmtthresh_ : ℤ
  /-- The window is inflated in fast recovery. -/
  reno_fastrecov_ : Bool
  /-- A partial ACK opens the window. -/
  open_cwnd_on_pack_ : Bool
  /-- Segments with data among the duplicate ACKs end fast recovery. -/
  dupack_reset_ : Bool
  /-- Segments received twice are not duplicate ACKs. -/
  dupseg_fix_ : Bool
  /-- Estimate of what is in the network. -/
  pipe_ : ℤ
  /-- Bytes retransmitted in this recovery. -/
  rtxbytes_ : ℤ
  /-- Output is controlled by `pipe_`. -/
  pipectrl_ : Bool
  /-- What the peer has reported; its `rcv_nxt_` is `sack_min_`. -/
  sq_ : ReassemblyQueue
  /-- Next sequence number to fill a hole. -/
  h_seqno_ : ℤ
  /-- A timeout clears `sq_`. -/
  clear_on_timeout_ : Bool
  /-- SACK blocks in a segment. -/
  max_sack_blocks_ : ℤ
  /-- Blocks after a hole before it is filled. -/
  sack_rtx_cthresh_ : ℤ
  /-- Bytes after a hole before it is filled. -/
  sack_rtx_bthresh_ : ℤ
  /-- Which of the two thresholds count. -/
  sack_rtx_threshmode_ : ℤ

/-- What a call of `foutput` that sends something did. -/
structure Output where
  /-- Sequence numbers sent. -/
  reliable : ℤ
  /-- A `FIN` is among them. -/
  fin : Bool
  /-- The connection was idle: the window starts again. -/
  restart : Bool
  deriving DecidableEq, Repr

/-- A segment with an ACK, as the sender sees it. -/
structure AckSegment where
  /-- ACK number. -/
  ackno : ℤ
  /-- Bytes of data. -/
  datalen : ℤ
  /-- ECN echo bit. -/
  ecnecho : Bool
  /-- `TH_SYN`. -/
  syn : Bool
  /-- `TH_FIN`. -/
  fin : Bool
  /-- No timestamp. -/
  no_ts_ : Bool
  /-- SACK blocks. -/
  sack : List (ℤ × ℤ)
  deriving DecidableEq, Repr

/-- What the clock, the timers and the receiving side decide while an ACK is processed. -/
structure AckContext where
  /-- The header prediction of a pure ACK. -/
  predicted : Bool
  /-- The retransmission timer is pending. -/
  rtx_pending : Bool
  /-- The segment was received before. -/
  dupseg : Bool
  /-- The round trip that was timed, in ticks. -/
  rtt : Option ℤ
  /-- The window may grow: the connection is established, and growth is not delayed. -/
  grow : Bool
  /-- What `fast_retransmit` sends. -/
  rtx : Option Output
  /-- The turns of the loop of `send_much` after a fast retransmit; `none` if nothing is
  sent. -/
  fill : List (Option Output)
  /-- The turns of the loop of `send_much` at the end. -/
  turns : List (Option Output)

/-- The virtual function that `recv` calls next. -/
inductive AckCall where
  /-- None. -/
  | none
  /-- `dupack_action`. -/
  | dupack
  /-- `opencwnd`. -/
  | opencwnd
  deriving DecidableEq, Repr

namespace ReassemblyQueue

/-- `cnts(p, blkcnt, bytecnt)`: the number of blocks from `p` on, and of bytes in them. -/
def cnts (q : ReassemblyQueue) : ℕ → Option Ptr → ℤ → ℤ → Option (ℤ × ℤ)
  | 0, _, _, _ => none
  | _ + 1, none, blks, bytes => some (blks, bytes)
  | fuel + 1, some p, blks, bytes =>
    cnts q fuel (q.next_ p) (blks + 1) (bytes + (q.endseq_ p - q.startseq_ p))

/-- The loop of `nexthole`; the result is the hole, `nxtcnt` and `nxtbytes`. -/
def nextholeLoop (q : ReassemblyQueue) (seq : ℤ) : ℕ → Option Ptr → Option (ℤ × ℤ × ℤ)
  | 0, _ => none
  | _ + 1, none => some (-1, -1, -1)
  | fuel + 1, some p =>
    if q.startseq_ p > seq then (q.cnts q.bound (some p) 0 0).map fun c => (seq, c)
    else if q.startseq_ p ≤ seq ∧ q.endseq_ p ≥ seq then
      match q.next_ p with
      | none => some (q.endseq_ p, -1, -1)
      | some n => (q.cnts q.bound (some n) 0 0).map fun c => (q.endseq_ p, c)
    else nextholeLoop q seq fuel (q.next_ p)

/-- `nexthole(seq, nxtcnt, nxtbytes)`. -/
def nexthole (q : ReassemblyQueue) (seq : ℤ) : Option (ℤ × ℤ × ℤ) :=
  q.nextholeLoop seq q.bound q.head_

/-- The end of the last block. -/
def maxend (q : ReassemblyQueue) : ℤ := q.tail_.elim 0 q.endseq_

end ReassemblyQueue

namespace FullTcpSender

/-! ## What all the agents share -/

/-- `slowdown(how)`. -/
def slowdown (a : FullTcpSender) (how : ℕ) : FullTcpSender :=
  { a with toTcpSender := a.toTcpSender.slowdown how }

/-- The bound at the end of `opencwnd`. -/
def capped (a : FullTcpSender) : FullTcpSender :=
  { a with toTcpSender := a.toTcpSender.capped }

/-- `opencwnd`. -/
def opencwnd (a : FullTcpSender) : Option FullTcpSender :=
  a.toTcpSender.opencwnd.map fun b => { a with toTcpSender := b }

/-- `rtt_init`. -/
def rttInit (a : FullTcpSender) : FullTcpSender :=
  { a with toTcpSender := a.toTcpSender.rttInit }

/-- `rtt_update`, for a round trip of `ticks`. -/
def rttUpdate (a : FullTcpSender) (ticks : ℤ) : FullTcpSender :=
  { a with toTcpSender := a.toTcpSender.rttUpdate ticks }

/-- `rtt_backoff`. -/
def rttBackoff (a : FullTcpSender) : FullTcpSender :=
  { a with toTcpSender := a.toTcpSender.rttBackoff }

/-- `ecn(seqno)`. -/
def ecn (a : FullTcpSender) (seqno : ℤ) : FullTcpSender :=
  { a with toTcpSender := a.toTcpSender.ecn seqno }

/-! ## Output -/

/-- The counts after a hole are large enough for it to be filled. -/
def threshMet (a : FullTcpSender) (fcnt fbytes : ℤ) : Bool :=
  a.sack_rtx_threshmode_ = 0 ∨
  (a.sack_rtx_threshmode_ = 1 ∧ fcnt ≥ a.sack_rtx_cthresh_) ∨
  (a.sack_rtx_threshmode_ = 2 ∧ fbytes ≥ a.sack_rtx_bthresh_) ∨
  (a.sack_rtx_threshmode_ = 3 ∧ (fcnt ≥ a.sack_rtx_cthresh_ ∨ fbytes ≥ a.sack_rtx_bthresh_)) ∨
  (a.sack_rtx_threshmode_ = 4 ∧ (fcnt ≥ a.sack_rtx_cthresh_ ∧ fbytes ≥ a.sack_rtx_bthresh_))

/-- The loop of `nxt_tseq`: the hole to be filled, if there is one. -/
def holeLoop (a : FullTcpSender) : ℕ → ℤ → Option (Option ℤ)
  | 0, _ => none
  | fuel + 1, seq =>
    (a.sq_.nexthole seq).bind fun r =>
      if r.1 ≤ 0 then some none
      else if a.threshMet r.2.1 r.2.2 then some (some r.1)
      else if r.2.1 ≤ 0 then some none
      else holeLoop a fuel (r.1 + a.maxseg_)

/-- The search of `nxt_tseq` from `h_seqno_` on.  Every turn but the last two moves on to a
place before the end of the last block. -/
def holeToFill (a : FullTcpSender) : Option (Option ℤ) :=
  a.holeLoop ((a.sq_.maxend - a.h_seqno_).toNat + 2) a.h_seqno_

/-- `nxt_tseq`, with the change it makes to `h_seqno_`. -/
def nxtTseq (a : FullTcpSender) : Option (FullTcpSender × ℤ) :=
  if a.kind = .sack ∧ a.highest_ack_ < a.recover_ then
    a.holeToFill.map fun
      | some seq =>
        ({ a with
          sq_ := { a.sq_ with hint_ := a.sq_.head_ }
          h_seqno_ := if seq > a.h_seqno_ then seq else a.h_seqno_ }, seq)
      | none => ({ a with sq_ := { a.sq_ with hint_ := a.sq_.head_ } }, a.t_seqno_)
  else some (a, a.t_seqno_)

/-- `foutput(seqno)`, when it sends something. -/
def foutput (a : FullTcpSender) (seqno : ℤ) (o : Output) : FullTcpSender :=
  let a₁ := if o.restart then a.slowdown closeCwndInit else a
  { a₁ with toDctcpSender := a₁.toDctcpSender.sent seqno o.reliable }

/-- `sent(seq, amt)`. -/
def sent (a : FullTcpSender) (seq amt : ℤ) : FullTcpSender :=
  { a with
    h_seqno_ := if a.kind = .sack ∧ seq = a.h_seqno_ then a.h_seqno_ + amt else a.h_seqno_
    t_seqno_ := if seq = a.t_seqno_ then a.t_seqno_ + amt else a.t_seqno_
    pipe_ := a.pipe_ + amt
    rtxbytes_ := if seq < a.maxseq_ then a.rtxbytes_ + amt else a.rtxbytes_ }

/-- `send_much`, with what its calls of `foutput` come to. -/
def sendMuch (a : FullTcpSender) : List (Option Output) → Option FullTcpSender
  | [] => some a
  | o? :: turns =>
    a.nxtTseq.bind fun r =>
      match o? with
      | none => some r.1
      | some o =>
        let a₁ := r.1.foutput r.2 o
        if o.reliable ≤ 0 then some a₁
        else sendMuch (a₁.sent r.2 (if o.fin then o.reliable - 1 else o.reliable)) turns

/-- `fast_retransmit(highest_ack_)`. -/
def fastRetransmit (a : FullTcpSender) (o? : Option Output) : FullTcpSender :=
  let a₁ := { a with recover_ := a.maxseq_, last_cwnd_action_ := .dupack }
  match o? with
  | none => a₁
  | some o => a₁.foutput a.highest_ack_ o

/-- What `fast_retransmit` returns. -/
def amount (o? : Option Output) : ℤ := o?.elim 0 Output.reliable

/-! ## ACKs -/

/-- `newack(pkt)`. -/
def newack (a : FullTcpSender) (p : AckSegment) (rtt : Option ℤ) : FullTcpSender :=
  let a₁ := { a with toDctcpSender := a.toDctcpSender.newack p.ackno }
  if p.no_ts_ then a₁
  else
    let a₂ := rtt.elim a₁ a₁.rttUpdate
    if ¬ a₂.ect_ ∨ ¬ a₂.ecn_backoff_ ∨ ¬ p.ecnecho then
      { a₂ with t_backoff_ := 1, ecn_backoff_ := false }
    else a₂

/-- `pack(pkt)`: is the ACK a partial one? -/
def pack (a : FullTcpSender) (p : AckSegment) : Bool :=
  a.fastrecov_ ∧ p.ackno ≥ a.highest_ack_ ∧ p.ackno < a.recover_

/-- `if (!sq_.empty() && sack_min_ < highest_ack_)`, and what comes after it. -/
def clearSacked (a : FullTcpSender) : Option FullTcpSender :=
  if ¬ a.sq_.empty ∧ a.sq_.rcv_nxt_ < a.highest_ack_ then
    ({ a.sq_ with rcv_nxt_ := a.highest_ack_ }.cleartonxt).map fun r : ReassemblyQueue × TcpFlag =>
      { a with sq_ := r.1 }
  else some a

/-- `if (h_seqno_ < highest_ack_)`, and what comes after it. -/
def raiseHole (a : FullTcpSender) : FullTcpSender :=
  { a with h_seqno_ := if a.h_seqno_ < a.highest_ack_ then a.highest_ack_ else a.h_seqno_ }

/-- `FullTcpAgent::pack_action`, and its `ack_action`. -/
def deflate (a : FullTcpSender) : FullTcpSender :=
  { a with
    cwnd_ := if a.reno_fastrecov_ ∧ a.fastrecov_ ∧ a.cwnd_ > a.ssthresh_ then a.ssthresh_ else a.cwnd_
    fastrecov_ := false
    dupacks_ := 0 }

/-- `pack_action`; `rtx` is what `fast_retransmit` sends. -/
def packAction (a : FullTcpSender) (rtx : Option Output) : Option FullTcpSender :=
  match a.kind with
  | .reno | .tahoe => some a.deflate
  | .newreno =>
    let a₁ := a.fastRetransmit rtx
    some { a₁ with cwnd_ := a₁.ssthresh_ }
  | .sack =>
    a.clearSacked.map fun a₁ => { a₁ with pipe_ := a₁.pipe_ - a₁.maxseg_ : FullTcpSender }.raiseHole

/-- `ack_action`. -/
def ackAction (a : FullTcpSender) : Option FullTcpSender :=
  match a.kind with
  | .reno | .tahoe | .newreno => some a.deflate
  | .sack =>
    ({ a with fastrecov_ := false, pipectrl_ := false } : FullTcpSender).clearSacked.map fun a₁ =>
      { a₁ with dupacks_ := 0 : FullTcpSender }.raiseHole

/-- `FullTcpAgent::dupack_action`. -/
def renoDupackAction (a : FullTcpSender) (rtx : Option Output) : FullTcpSender :=
  let recovered := a.highest_ack_ > a.recover_
  let a := { a with fastrecov_ := true, rtxbytes_ := 0 }
  let full :=
    let a₁ := a.slowdown (closeSsthreshHalf ||| closeCwndHalf)
    let a₂ := { a₁ with recover_ := a₁.maxseq_ }.fastRetransmit rtx
    { a₂ with cwnd_ := a₂.ssthresh_ + a₂.dupacks_ }
  if recovered ∨ (¬ a.bug_fix_ ∧ ¬ a.ecn_) ∨ a.last_cwnd_action_ = .dupack ∨ a.highest_ack_ = 0 then
    full
  else if a.ecn_ ∧ a.last_cwnd_action_ = .ecn then (a.slowdown closeCwndHalf).fastRetransmit rtx
  else if a.bug_fix_ then a
  else full

/-- `TahoeFullTcpAgent::dupack_action`. -/
def tahoeDupackAction (a : FullTcpSender) (turns : List (Option Output)) : Option FullTcpSender :=
  let recovered := a.highest_ack_ > a.recover_
  let a := { a with fastrecov_ := true, rtxbytes_ := 0 }
  let full :=
    let a₁ := { a with recover_ := a.maxseq_, last_cwnd_action_ := .dupack }.slowdown
      (closeSsthreshHalf ||| closeCwndOne)
    { a₁ with t_seqno_ := a₁.highest_ack_ }.sendMuch turns
  if recovered ∨ (¬ a.bug_fix_ ∧ ¬ a.ecn_) ∨ a.highest_ack_ = 0 then full
  else if a.ecn_ ∧ a.last_cwnd_action_ = .ecn then
    let a₁ := { a with last_cwnd_action_ := .dupack }.slowdown closeCwndOne
    some { a₁ with t_seqno_ := a₁.highest_ack_ }
  else if a.bug_fix_ then some a
  else full

/-- `SackFullTcpAgent::dupack_action`. -/
def sackDupackAction (a : FullTcpSender) (rtx : Option Output) (turns : List (Option Output)) :
    Option FullTcpSender :=
  let recovered := a.highest_ack_ > a.recover_
  let a :=
    { a with
      fastrecov_ := true
      rtxbytes_ := 0
      pipe_ := a.maxseq_ - a.highest_ack_ - a.sq_.total_ }
  let full :=
    let a₁ := a.slowdown (closeSsthreshHalf ||| closeCwndHalf)
    let a₂ := { a₁ with pipectrl_ := true, recover_ := a₁.maxseq_ }.fastRetransmit rtx
    { a₂ with h_seqno_ := a₂.highest_ack_ + amount rtx }.sendMuch turns
  if recovered ∨ (¬ a.bug_fix_ ∧ ¬ a.ecn_) then full
  else if a.ecn_ ∧ a.last_cwnd_action_ = .ecn then
    let a₁ := { a with last_cwnd_action_ := .dupack }
    let a₂ := if a₁.dctcp_ then a₁.slowdown (closeSsthreshHalf ||| closeCwndHalf) else a₁
    let a₃ := a₂.fastRetransmit rtx
    { a₃ with pipectrl_ := true, h_seqno_ := a₃.highest_ack_ + amount rtx }.sendMuch turns
  else if a.bug_fix_ then some a
  else full

/-- `dupack_action`. -/
def dupackAction (a : FullTcpSender) (rtx : Option Output) (turns : List (Option Output)) :
    Option FullTcpSender :=
  match a.kind with
  | .reno | .newreno => some (a.renoDupackAction rtx)
  | .tahoe => a.tahoeDupackAction turns
  | .sack => a.sackDupackAction rtx turns

/-- `FullTcpAgent::timeout_action`. -/
def renoTimeoutAction (a : FullTcpSender) : FullTcpSender :=
  let a₁ :=
    { a with toDctcpSender := a.toDctcpSender.timeoutAction, cuts := a.cuts ++ [.timeout] }
  if ¬ (a.highest_ack_ = a.maxseq_ ∧ a.restart_bugfix_) then a₁.rttBackoff else a₁

/-- `timeout_action`. -/
def timeoutAction (a : FullTcpSender) : Option FullTcpSender :=
  let a₁ := a.renoTimeoutAction
  if a.kind = .sack ∧ a.clear_on_timeout_ then
    (a₁.sq_.init a₁.highest_ack_).map fun q => { a₁ with sq_ := q }
  else some a₁

/-- `timeout`, of the retransmission timer. -/
def timeout (a : FullTcpSender) (turns : List (Option Output)) : Option FullTcpSender :=
  a.timeoutAction.bind fun a₁ => a₁.sendMuch turns

/-- `process_sack`. -/
def processSack (a : FullTcpSender) (p : AckSegment) : Option FullTcpSender :=
  if a.kind ≠ .sack ∨ a.max_sack_blocks_ ≤ 0 then some a
  else
    (p.sack.foldlM (fun q b =>
      if ¬ p.fin ∧ b.1 ≥ b.2 then some q else (q.add b.1 b.2 0 0).map Prod.fst) a.sq_).map
      fun q => { a with sq_ := q }

/-- The ACK processing of `recv` for an ACK that is not of new data, up to the call of
`dupack_action`. -/
def recvOld (a : FullTcpSender) (p : AckSegment) (w : AckContext) : FullTcpSender × AckCall :=
  if p.datalen = 0 ∧ (¬ a.dupseg_fix_ ∨ ¬ w.dupseg) then
    if ¬ w.rtx_pending ∨ p.ackno < a.highest_ack_ then ({ a with dupacks_ := 0 }, .none)
    else
      let a₁ := { a with dupacks_ := a.dupacks_ + 1 }
      if a₁.dupacks_ = a₁.tcprexmtthresh_ then (a₁, .dupack)
      else if a₁.dupacks_ > a₁.tcprexmtthresh_ ∧ a₁.reno_fastrecov_ then
        ({ a₁ with cwnd_ := a₁.cwnd_ + 1 }, .none)
      else (a₁, .none)
  else if a.dupack_reset_ then ({ a with dupacks_ := 0, fastrecov_ := false }, .none)
  else (a, .none)

/-- The ACK processing of `recv` for an ACK of new data, up to the call of `opencwnd`.  Bursts
of marks are looked for after that call in the source; it does not depend on them. -/
def recvNew (a : FullTcpSender) (p : AckSegment) (w : AckContext) :
    Option (FullTcpSender × AckCall) :=
  let a₁ := a.newack p w.rtt
  let partialAck := a₁.pack p
  (if partialAck then a₁.packAction w.rtx else a₁.ackAction).map fun a₂ =>
    let a₃ := if p.ecnecho ∧ ¬ p.syn then a₂.ecn a₂.highest_ack_ else a₂
    ({ a₃ with ecn_burst_ := if a₃.ect_ then p.ecnecho else a₃.ecn_burst_ },
      if w.grow ∧ (¬ partialAck ∨ a₃.open_cwnd_on_pack_) ∧
        (¬ a₃.ect_ ∨ ¬ p.ecnecho ∨ a₃.ecn_burst_) then .opencwnd else .none)

/-- The header prediction: a pure ACK inside of the window. -/
def predictedAck (a : FullTcpSender) (p : AckSegment) : Prop :=
  p.datalen = 0 ∧ p.ackno > a.highest_ack_ ∧ p.ackno < a.maxseq_ ∧ a.cwnd_ ≥ a.wnd_ ∧
    ¬ a.fastrecov_

instance (a : FullTcpSender) (p : AckSegment) : Decidable (a.predictedAck p) :=
  inferInstanceAs (Decidable (_ ∧ _))

/-- `recv` of an ACK, up to the call of a virtual function. -/
def recvAck (a : FullTcpSender) (p : AckSegment) (w : AckContext) :
    Option (FullTcpSender × AckCall) :=
  let a := if a.dctcp_ then
    { a with toDctcpSender := a.toDctcpSender.updateDctcpAlpha p.ackno p.ecnecho } else a
  if w.predicted ∧ a.predictedAck p then some (a.newack p w.rtt, .none)
  else
    (a.processSack p).bind fun a₁ =>
      let a₂ := if a₁.fastrecov_ ∧ (p.datalen = 0 ∨ p.ackno > a₁.highest_ack_) then
        { a₁ with pipe_ := a₁.pipe_ - a₁.maxseg_ } else a₁
      if p.ackno ≤ a₂.highest_ack_ then some (a₂.recvOld p w)
      else if p.ackno > a₂.maxseq_ then some (a₂, .none)
      else a₂.recvNew p w

/-- The rest of `recv`, from the call of a virtual function on. -/
def afterAck (w : AckContext) : FullTcpSender × AckCall → Option FullTcpSender
  | (a, .dupack) => a.dupackAction w.rtx w.fill
  | (a, .opencwnd) => a.opencwnd.bind fun a₁ => a₁.sendMuch w.turns
  | (a, .none) => a.sendMuch w.turns

/-! ## The connection is made -/

/-- The constructor and `reset`, with the values of the bound variables from `a`. -/
def start (a : FullTcpSender) : FullTcpSender :=
  { a.rttInit with
    cwnd_ := a.initial_window
    ssthresh_ :=
      if 0 < a.max_ssthresh_ ∧ a.max_ssthresh_ < toInt a.wnd_ then a.max_ssthresh_
      else toInt a.wnd_
    frto_ := 0
    first_decrease_ := true
    last_cwnd_action_ := .none
    wnd_restart_ := 1
    W_used := 0
    cong_action_ := false
    ncwndcuts_ := 0
    ncwndcuts1_ := 0
    fcnt_ := 0
    count_ := 0
    ecn_backoff_ := false
    necnresponses_ := 0
    highest_ack_ := -1
    maxseq_ := -1
    t_seqno_ := a.iss_
    recover_ := 0
    fastrecov_ := false
    dupacks_ := 0
    dctcp_total := 0
    dctcp_marked := 0
    dctcp_alpha_update_seq := 0
    dctcp_maxseq := 0
    awnd_ := a.wnd_init_ / 2
    use_rtt_ := false
    ect_ := false
    ecn_burst_ := false
    pipe_ := 0
    rtxbytes_ := 0
    sq_ := ReassemblyQueue.new (-1)
    h_seqno_ := -1
    cuts := [] }

/-- A new sender of class `kind`, with the values of `ns-default.tcl`. -/
def default (kind : FullTcpKind) : FullTcpSender :=
  start
    { DctcpSender.tenSegments with
      wnd_option_ := 1
      size_ := 536
      dctcp_ := false
      wnd_init_ := 2
      kind := kind
      increase_param := fun cwnd => 1 / cwnd
      k_parameter_ := 0
      wnd_const_ := 4
      awnd_ := 0
      increase_num_ := 1
      maxcwnd_ := 0
      max_ssthresh_ := 0
      initial_window := 2
      tcp_tick_ := 1 / 100
      srtt_init_ := 0
      rttvar_init_ := 12
      rtxcur_init_ := 3
      T_SRTT_BITS := 3
      T_RTTVAR_BITS := 2
      rttvar_exp_ := 2
      t_rtt_ := 0
      t_srtt_ := 0
      t_rttvar_ := 0
      t_rtxcur_ := 0
      t_backoff_ := 0
      minrto_ := 1 / 5
      maxrto_ := 60
      rfc2988_ := true
      use_rtt_ := false
      ecn_ := false
      ect_ := false
      ecn_burst_ := false
      bug_fix_ := true
      restart_bugfix_ := true
      maxseg_ := 536
      tcprexmtthresh_ := 3
      reno_fastrecov_ := kind = .reno ∨ kind = .newreno
      open_cwnd_on_pack_ := kind = .reno ∨ kind = .tahoe
      dupack_reset_ := false
      dupseg_fix_ := true
      pipe_ := 0
      rtxbytes_ := 0
      pipectrl_ := false
      sq_ := ReassemblyQueue.new (-1)
      h_seqno_ := -1
      clear_on_timeout_ := true
      max_sack_blocks_ := 3
      sack_rtx_cthresh_ := 1
      sack_rtx_bthresh_ := 1
      sack_rtx_threshmode_ := 1
      cuts := [] }

/-- `recv` of a `SYN`, by a listener; `ect` says whether it agrees on ECN. -/
def recvSyn (a : FullTcpSender) (ect : Bool) (turns : List (Option Output)) :
    Option FullTcpSender :=
  { a with t_seqno_ := a.iss_, ect_ := a.ect_ || (a.ecn_ && ect) }.sendMuch turns

/-- `recv` of a `SYN` and ACK, after the own `SYN`, up to the call of a virtual function. -/
def recvSynAck (a : FullTcpSender) (p : AckSegment) (ect : Bool) (w : AckContext) :
    Option (FullTcpSender × AckCall) :=
  let a₁ :=
    { a with
      ect_ := a.ect_ || (a.ecn_ && ect), highest_ack_ := p.ackno, cwnd_ := a.initial_window }
  if p.ackno > a₁.maxseq_ then some (a₁, .none) else a₁.recvNew p w

/-- `recv` of the ACK that ends the handshake of a listener: the first window is one or two
segments if the `SYN` and ACK was marked. -/
def recvHandshakeAck (a : FullTcpSender) (p : AckSegment) (marked wait : Bool) (w : AckContext) :
    Option (FullTcpSender × AckCall) :=
  { a with
    cwnd_ := if marked then if wait then 1 else 2 else a.initial_window
    use_rtt_ := a.use_rtt_ || (marked && wait) }.recvAck p w

end FullTcpSender

/-! ## Steps -/

/-- What happens to a sender. -/
inductive FullSenderEvent where
  /-- A `SYN` arrives. -/
  | syn (ect : Bool) (turns : List (Option Output))
  /-- A `SYN` and ACK arrives. -/
  | synAck (p : AckSegment) (ect : Bool) (w : AckContext)
  /-- The ACK of the `SYN` and ACK arrives. -/
  | handshakeAck (p : AckSegment) (marked wait : Bool) (w : AckContext)
  /-- An ACK arrives. -/
  | ack (p : AckSegment) (w : AckContext)
  /-- The retransmission timer goes off. -/
  | timeout (turns : List (Option Output))
  /-- `send_much` is called, by the application or another timer. -/
  | send (turns : List (Option Output))

/-- One event. -/
def FullTcpSender.step (a : FullTcpSender) : FullSenderEvent → Option FullTcpSender
  | .syn ect turns => a.recvSyn ect turns
  | .synAck p ect w => (a.recvSynAck p ect w).bind (afterAck w)
  | .handshakeAck p marked wait w => (a.recvHandshakeAck p marked wait w).bind (afterAck w)
  | .ack p w => (a.recvAck p w).bind (afterAck w)
  | .timeout turns => a.timeout turns
  | .send turns => a.sendMuch turns

end Ns2.Tcp
