import Ns2.Lib.Run
import Ns2.Tcp.DctcpOutput

/-!
# What the DCTCP receiver echoes

The ECE bit of an ACK is to be the CE bit of the segments it is the first to acknowledge.
`recv` has the code for this twice, and a segment may pass through both: the second time
the CE bit is no news any more, and the ACK with the previous bit is not sent.

* `Start`, `Admissible` — a connection, and segments in order.
* `Echoes` — the condition on a step.
* `Announced` — before the bit changes an ACK with the previous one is sent.
* `Inv` — the invariant of the runs.
* `Inv.sendMuch`, `Inv.usrclosed` — output keeps it.
-/

namespace Ns2.Tcp

open Echo

namespace TcpState

/-- Data may arrive. -/
def receiving (s : TcpState) : Bool := s = established ∨ s = finWait1 ∨ s = finWait2

/-- The `FIN` of the peer has arrived. -/
def finReceived (s : TcpState) : Bool := s = closeWait ∨ s = closing ∨ s = lastAck ∨ s = closed

end TcpState

namespace DctcpReceiver

/-! ## Segments in order -/

/-- A connection with DCTCP and ECN, of which everything received so far is acknowledged. -/
structure Start (a : DctcpReceiver) : Prop where
  /-- DCTCP is used. -/
  dctcp : a.dctcp_ = true
  /-- ECN is used. -/
  ecn : a.ecn_ = true
  /-- ECN was agreed on. -/
  ect : a.ect_ = true
  /-- The peer's `SYN` has arrived, its `FIN` has not. -/
  state : a.state_ = .synReceived ∨ a.state_.receiving = true
  /-- Sequence numbers are not negative: `-1` is for none. -/
  nonneg : a.state_ = .synReceived → 0 ≤ a.rcv_nxt_
  /-- Nothing waits for reassembly. -/
  empty : a.rq_.empty = true
  /-- Everything is acknowledged. -/
  acked : a.last_ack_sent_ = a.rcv_nxt_
  /-- The history starts here. -/
  received : a.received = []
  /-- The history starts here. -/
  sent : a.sent = []

/-- A segment in order.  Data is ECT; pure ACKs may have any sequence number, and any ECT
and CE bits. -/
structure InOrder (a : DctcpReceiver) (p : TcpPacket) : Prop where
  /-- It is not a `SYN`. -/
  noSyn : p.tcph.tcp_flags_ &&& thSyn = 0
  /-- Its length is one. -/
  nonneg : 0 ≤ p.datalen
  /-- What it carries is expected next. -/
  seqno : a.state_.finReceived = false → 0 < p.datalen ∨ p.has thFin = true →
    p.tcph.seqno_ = a.rcv_nxt_
  /-- There is no data after the `FIN`. -/
  last : a.state_.finReceived = true → p.datalen = 0
  /-- Data is ECT. -/
  ect : 0 < p.datalen → p.fh.ect = true

/-- What may happen in a connection whose segments arrive in order. -/
def Admissible (a : DctcpReceiver) (e : Event) : Prop :=
  match e.action with
  | .recv p _ => a.InOrder p
  | .advanceBytes _ _ => a.state_ ≠ .closed
  | _ => True

/-! ## The condition -/

/-- Data is not acknowledged yet. -/
def Pending (a : DctcpReceiver) : Prop := a.last_ack_sent_ < a.rcv_nxt_ ∧ a.received ≠ []

/-- The segment has another CE bit than the last one. -/
def turns (a : DctcpReceiver) (p : TcpPacket) : Bool :=
  p.fh.ect ∧ (p.fh.ce ∧ ¬ a.recent_ce_ ∨ 0 < p.datalen ∧ ¬ p.fh.ce ∧ a.recent_ce_)

/-- The segment leaves `ce_transition` as it is, and that is set. -/
def stale (a : DctcpReceiver) (p : TcpPacket) : Bool :=
  a.ce_transition ∧ ¬ (p.fh.ect ∧ (p.fh.ce ∨ 0 < p.datalen))

/-- A retransmission is sent for the partial ACK. -/
def retransmits (a : DctcpReceiver) (p : TcpPacket) (w : RecvWork) : Bool :=
  a.newreno ∧ a.pack p ∧
    ({ a with highest_ack_ := p.tcph.ackno_ }).fillMaxseg.outputNow
      ⟨p.tcph.ackno_, w.window, w.pipectrl_⟩

/-- Without header prediction: the segment gets to the DCTCP state machine, and nothing is
sent before. -/
def Reaches (a : DctcpReceiver) (p : TcpPacket) (w : RecvWork) : Prop :=
  (0 < p.datalen ∨ p.has thFin = true) ∧
    (p.tcph.ackno_ ≤ a.highest_ack_ → 0 < p.datalen ∨ w.dupack = none) ∧
    (a.highest_ack_ < p.tcph.ackno_ → p.tcph.ackno_ ≤ a.maxseq_ ∧ a.retransmits p w = false)

/-- The condition without header prediction. -/
def SlowEchoes (a : DctcpReceiver) (p : TcpPacket) (w : RecvWork) : Prop :=
  if a.turns p then a.Reaches p w else a.stale p = true → ¬ a.Reaches p w

/-- `predict` looks at the segment. -/
def predicted (a : DctcpReceiver) (p : TcpPacket) : Bool := ¬ a.nopredict_ ∧ a.predictOk p

/-- The segment is dropped before its CE bit is looked at. -/
def drops (a : DctcpReceiver) (now : ℚ) (p : TcpPacket) : Bool :=
  a.dropsTs now p ∨ p.tcph.tcp_flags_ &&& thAck = 0

/-- **The condition.**  While data is not acknowledged, a segment with another CE bit
carries data or a `FIN`, gets to the DCTCP state machine, and gets there with
`ce_transition` set: the header prediction either takes the segment or does not look at
it. -/
def Echoes (a : DctcpReceiver) (e : Event) : Prop :=
  match e.action with
  | .recv p w =>
    a.Pending → a.state_.receiving = true → a.drops e.now p = false →
      if a.predicted p then
        0 < p.datalen ∧ p.tcph.ackno_ = a.highest_ack_ ∨ a.turns p = false
      else a.SlowEchoes p w
  | _ => True

/-- Before the bit changes, an ACK with the previous one is sent. -/
def Announced (v v' : Receiver ℤ Bool) : Prop :=
  v'.mark ≠ v.mark → ∃ rest, v'.acks = v.acks ++ ⟨v.next, v.mark⟩ :: rest

/-- If data is not acknowledged, a step announces a change of the bit. -/
def Announces (a : DctcpReceiver) (e : Event) : Prop :=
  a.Pending → Announced a.view (a.step e).view

/-! ## The invariant -/

/-- The part of the connection a receiver is in. -/
inductive Phase (a : DctcpReceiver) : Prop where
  /-- The handshake is not over, nothing was received. -/
  | handshake (state : a.state_ = .synReceived) (received : a.received = [])
      (nonneg : 0 ≤ a.rcv_nxt_) (empty : a.rq_.empty = true) (live : a.view.Live)
  /-- Data may arrive. -/
  | receiving (state : a.state_.receiving = true) (empty : a.rq_.empty = true)
      (live : a.view.Live)
  /-- The `FIN` of the peer has arrived. -/
  | finReceived (state : a.state_.finReceived = true)
      (acked : a.last_ack_sent_ = a.rcv_nxt_) (settled : a.view.Settled)

/-- The invariant. -/
structure Inv (a : DctcpReceiver) : Prop where
  /-- ECN is used. -/
  ecn : a.ecn_ = true
  /-- ECN was agreed on. -/
  ect : a.ect_ = true
  /-- DCTCP is used. -/
  dctcp : a.dctcp_ = true
  /-- The part of the connection. -/
  phase : a.Phase

variable {a b : DctcpReceiver}

/-- The invariant looks at the abstract receiver, the state and the queue only. -/
theorem Inv.congr (h : a.Inv) (hecn : b.ecn_ = a.ecn_) (hect : b.ect_ = a.ect_)
    (hdctcp : b.dctcp_ = a.dctcp_) (hs : b.state_ = a.state_) (hq : b.rq_ = a.rq_)
    (hv : b.view = a.view) : b.Inv where
  ecn := hecn.trans h.ecn
  ect := hect.trans h.ect
  dctcp := hdctcp.trans h.dctcp
  phase := by
    have hnext : b.rcv_nxt_ = a.rcv_nxt_ := congrArg ReassemblyQueue.rcv_nxt_ hq
    have hlast : b.last_ack_sent_ = a.last_ack_sent_ := congrArg Receiver.last hv
    cases h.phase with
    | handshake state received nonneg empty live =>
      exact .handshake (hs ▸ state) ((congrArg Receiver.received hv).trans received)
        (hnext ▸ nonneg) (hq ▸ empty) (hv ▸ live)
    | receiving state empty live => exact .receiving (hs ▸ state) (hq ▸ empty) (hv ▸ live)
    | finReceived state acked settled =>
      exact .finReceived (hs ▸ state) (by rw [hlast, hnext, acked]) (hv ▸ settled)

theorem Start.inv (h : a.Start) : a.Inv where
  ecn := h.ecn
  ect := h.ect
  dctcp := h.dctcp
  phase := by
    have hlive : a.view.Live := .of_received_nil h.received (by simp [view, h.sent]) h.acked.le
    rcases h.state with hs | hs
    · exact .handshake hs h.received (h.nonneg hs) h.empty hlive
    · exact .receiving hs h.empty hlive

theorem receiving_noSyn {s : TcpState} (h : s.receiving = true) : s.outflags &&& thSyn = 0 := by
  cases s <;> revert h <;> decide

theorem finReceived_noSyn {s : TcpState} (h : s.finReceived = true) :
    s.outflags &&& thSyn = 0 := by
  cases s <;> revert h <;> decide

theorem receiving_not_finReceived {s : TcpState} (h : s.receiving = true) :
    s.finReceived = false := by
  cases s <;> revert h <;> decide

theorem finReceived_not_mayClose {s : TcpState} (h : s.finReceived = true) :
    s.mayClose = false := by
  cases s <;> revert h <;> decide

theorem Frame.receiving (h : Frame a b) (hs : a.state_.receiving = true) :
    b.state_.receiving = true := by
  rcases h.state with h' | ⟨-, h'⟩
  · rw [h', hs]
  · rw [h']
    rfl

theorem Frame.finReceived (h : Frame a b) (hs : a.state_.finReceived = true) :
    b.state_ = a.state_ := by
  rcases h.state with h' | ⟨hm, -⟩
  · exact h'
  · rw [finReceived_not_mayClose hs] at hm
    cases hm

/-! ## Output keeps the invariant -/

theorem Inv.foutput (h : a.Inv) (now : ℚ) (c : OutputCall) (reason : ℕ) :
    (a.foutput now c reason).1.Inv := by
  have hf := foutput_frame a now c reason
  obtain ⟨m, hm, -⟩ := foutput_view a now c reason
  refine ⟨hf.ecn.trans h.ecn, hf.ect.trans h.ect, hf.dctcp.trans h.dctcp, ?_⟩
  have hnext : (a.foutput now c reason).1.rcv_nxt_ = a.rcv_nxt_ :=
    congrArg ReassemblyQueue.rcv_nxt_ hf.rq
  cases h.phase with
  | handshake state received nonneg empty live =>
    have hlive : (a.foutput now c reason).1.view.Live := by
      rw [hm]
      split_ifs
      · exact live.ackAt received le_rfl m
      · exact live
    rcases hf.state with hs | ⟨-, hs⟩
    · exact .handshake (hs.trans state) (hf.received.trans received) (hnext ▸ nonneg)
        (hf.rq ▸ empty) hlive
    · exact .receiving (hs ▸ rfl) (hf.rq ▸ empty) hlive
  | receiving state empty live =>
    refine .receiving (hf.receiving state) (hf.rq ▸ empty) ?_
    rw [foutput_acks a now c reason (receiving_noSyn state)]
    exact live.ackTimes _
  | finReceived state acked settled =>
    refine .finReceived (hf.finReceived state ▸ state) ?_ (hf.settled settled)
    have hlast : (a.foutput now c reason).1.last_ack_sent_ = a.rcv_nxt_ := by
      have := congrArg Receiver.last hm
      split_ifs at this
      · exact this
      · exact this.trans acked
    rw [hlast, hnext]

theorem Inv.sendLoop (now : ℚ) (reason : ℕ) (l : List OutputCall) (h : a.Inv) :
    (sendLoop now reason a l).Inv := by
  induction l generalizing a with
  | nil => exact h
  | cons c l ih =>
    have hc := h.foutput now c reason
    unfold DctcpReceiver.sendLoop
    simp only
    split_ifs
    · exact hc
    · exact ih hc

theorem Inv.sendMuch (h : a.Inv) (now : ℚ) (force : Bool) (reason : ℕ) (calls : OutputCalls) :
    (a.sendMuch now force reason calls).Inv := h.sendLoop now reason _

/-- The phases by the state. -/
theorem Inv.receiving_of (h : a.Inv) (hs : a.state_.finReceived = false) :
    a.rq_.empty = true ∧ a.view.Live := by
  cases h.phase with
  | handshake _ _ _ empty live => exact ⟨empty, live⟩
  | receiving _ empty live => exact ⟨empty, live⟩
  | finReceived state _ _ =>
    rw [hs] at state
    cases state

theorem Inv.finReceived_of (h : a.Inv) (hs : a.state_.finReceived = true) :
    a.last_ack_sent_ = a.rcv_nxt_ ∧ a.view.Settled := by
  cases h.phase with
  | handshake state _ _ _ _ =>
    rw [state] at hs
    cases hs
  | receiving state _ _ =>
    rw [receiving_not_finReceived state] at hs
    cases hs
  | finReceived _ acked settled => exact ⟨acked, settled⟩

theorem Inv.usrclosed (h : a.Inv) (now : ℚ) (calls : OutputCalls) :
    (a.usrclosed now calls).Inv := by
  unfold DctcpReceiver.usrclosed
  simp only
  cases hst : a.state_ with
  | closed => exact h.congr rfl rfl rfl hst.symm rfl rfl
  | listen | synSent =>
    -- not in a connection
    cases h.phase with
    | handshake state => simp [hst] at state
    | receiving state => simp [hst, TcpState.receiving] at state
    | finReceived state => simp [hst, TcpState.finReceived] at state
  | synReceived | established =>
    obtain ⟨empty, live⟩ := h.receiving_of (by rw [hst]; rfl)
    apply Inv.sendMuch
    exact ⟨h.ecn, h.ect, h.dctcp, .receiving rfl empty live⟩
  | closeWait | lastAck =>
    obtain ⟨acked, settled⟩ := h.finReceived_of (by rw [hst]; rfl)
    apply Inv.sendMuch
    exact ⟨h.ecn, h.ect, h.dctcp, .finReceived rfl acked settled⟩
  | finWait1 | closing | finWait2 => exact h.congr rfl rfl rfl hst.symm rfl rfl

end DctcpReceiver

end Ns2.Tcp
