import Ns2.Tcp.DctcpEcho

/-!
# Segments at the DCTCP receiver

The parts of `recv`, one lemma each: what they do to the abstract receiver, and under which
condition they keep the invariant.

* `echoTransition_fires` — the DCTCP state machine: the bit goes back for an ACK.
* `Ready`, `Ready.accept` — data is taken with its own mark.
* `step6_inv`, `step6_acks` — from `step6` on.
* `Turned` — the CE bit was looked at, and ACKs may have been sent since.
* `processAck_good`, `recvAck_good`, `recvTrimmed_good` — the ACK processing.
-/

namespace Ns2.Tcp

open Echo

namespace DctcpReceiver

variable {a b c : DctcpReceiver}

/-! ## The end of `recv` -/

theorem Inv.finalOutput (h : a.Inv) (now : ℚ) (needoutput : Bool) (w : RecvWork) :
    (a.finalOutput now needoutput w).Inv := by
  unfold DctcpReceiver.finalOutput
  split_ifs
  · exact h.sendMuch now true _ _
  · exact h.sendMuch now false _ _
  · exact h

theorem Inv.closeIfDone (h : a.Inv) (now : ℚ) (w : RecvWork) : (a.closeIfDone now w).Inv := by
  unfold DctcpReceiver.closeIfDone
  split_ifs
  · exact h.usrclosed now _
  · exact h

theorem finalOutput_frame (a : DctcpReceiver) (now : ℚ) (needoutput : Bool) (w : RecvWork) :
    Frame a (a.finalOutput now needoutput w) := by
  unfold finalOutput
  split_ifs
  · exact sendMuch_frame a now true _ _
  · exact sendMuch_frame a now false _ _
  · exact Frame.refl a

theorem usrclosed_grows (a : DctcpReceiver) (now : ℚ) (calls : OutputCalls) :
    Grows a (a.usrclosed now calls) := by
  have hself : ∀ b : DctcpReceiver, b.ecn_ = a.ecn_ → b.ect_ = a.ect_ → b.dctcp_ = a.dctcp_ →
      b.recent_ce_ = a.recent_ce_ → b.received = a.received → b.sent = a.sent → Grows a b :=
    fun b h₁ h₂ h₃ h₄ h₅ h₆ => ⟨h₁, h₂, h₃, h₄, h₅, [], by rw [h₆, List.append_nil]⟩
  unfold usrclosed
  simp only
  cases a.state_ with
  | closed | listen | finWait1 | closing | finWait2 => exact hself _ rfl rfl rfl rfl rfl rfl
  | synSent | synReceived | established | closeWait | lastAck =>
    apply Grows.trans _ (sendMuch_frame _ now true _ _).toGrows
    exact hself _ rfl rfl rfl rfl rfl rfl

theorem closeIfDone_grows (a : DctcpReceiver) (now : ℚ) (w : RecvWork) :
    Grows a (a.closeIfDone now w) := by
  unfold closeIfDone
  split_ifs
  · exact usrclosed_grows a now _
  · exact Grows.refl a

/-- The ACK of the `FIN` acknowledges everything. -/
theorem finalOutput_fin (hecn : a.ecn_ = true) (hect : a.ect_ = true) (hdctcp : a.dctcp_ = true)
    (hs : a.state_.finReceived = true) (hack : a.acknow = true) (hlive : a.view.Live) (now : ℚ)
    (needoutput : Bool) (w : RecvWork) : (a.finalOutput now needoutput w).Inv := by
  unfold finalOutput
  rw [if_pos (Or.inr hack)]
  have hf := sendMuch_frame a now true reasonNormal w.output
  obtain ⟨k, hk⟩ := sendMuch_force a now reasonNormal w.output (finReceived_noSyn hs) hack
  have hlast : (a.view.ackTimes (k + 1)).last = (a.view.ackTimes (k + 1)).next :=
    (Receiver.ackTimes_succ_last _ k).trans (Receiver.ackTimes_next _ _).symm
  refine ⟨hf.ecn.trans hecn, hf.ect.trans hect, hf.dctcp.trans hdctcp,
    .finReceived (hf.finReceived hs ▸ hs) ?_ ?_⟩
  · rw [← hk] at hlast
    exact hlast
  · rw [hk]
    exact (hlive.ackTimes _).settled hlast

/-! ## The DCTCP state machine -/

theorem echoTransition_of_not_fires (h : a.fires = false) (now : ℚ) (calls : OutputCalls) :
    a.echoTransition now calls = a := by
  unfold echoTransition
  simp [h]

@[simp] theorem flipCe_recent_ce_ (a : DctcpReceiver) : a.flipCe.recent_ce_ = !a.recent_ce_ := rfl

theorem echoTransition_frame (a : DctcpReceiver) (now : ℚ) (calls : OutputCalls) :
    Frame a (a.echoTransition now calls) := by
  unfold echoTransition
  split_ifs
  · have hf := sendMuch_frame ({ a with acknow := true }).flipCe now true reasonNormal calls
    refine ⟨⟨hf.ecn, hf.ect, hf.dctcp, ?_, hf.received, hf.sent⟩, hf.transition, hf.rq, hf.state⟩
    rw [flipCe_recent_ce_, hf.ce, flipCe_recent_ce_, Bool.not_not]
  · exact Frame.refl a

theorem mark_eq (hecn : a.ecn_ = true) (hect : a.ect_ = true) : a.mark = a.recent_ce_ := by
  unfold mark
  rw [hecn, hect]
  rfl

theorem flipCe_view (hecn : a.ecn_ = true) (hect : a.ect_ = true) :
    a.flipCe.view = a.view.turn (!a.mark) := by
  have hmark : a.flipCe.mark = !a.mark := by
    rw [mark_eq hecn hect, mark_eq (a := a.flipCe) hecn hect]
    rfl
  rw [← hmark]
  rfl

/-- **The state machine.**  The bit goes back, at least one ACK is sent, and the bit is
there again. -/
theorem echoTransition_fires (h : a.fires = true) (hecn : a.ecn_ = true) (hect : a.ect_ = true)
    (hs : a.state_.outflags &&& thSyn = 0) (now : ℚ) (calls : OutputCalls) :
    ∃ k, (a.echoTransition now calls).view =
      ((a.view.turn (!a.mark)).ackTimes (k + 1)).turn a.mark := by
  let b := ({ a with acknow := true } : DctcpReceiver).flipCe
  have hf := sendMuch_frame b now true reasonNormal calls
  obtain ⟨k, hk⟩ := sendMuch_force b now reasonNormal calls hs rfl
  have hb : b.view = a.view.turn (!a.mark) := flipCe_view hecn hect
  have hmark : b.mark = !a.mark := congrArg Receiver.mark hb
  refine ⟨k, ?_⟩
  unfold echoTransition
  rw [if_pos h, flipCe_view (hf.ecn.trans hecn) (hf.ect.trans hect), hk, hb, hf.mark, hmark,
    Bool.not_not]

/-! ## Taking data -/

/-- A receiver about to take a segment, if the segment `carries` something: the invariant
holds, or holds once the bit is back. -/
structure Ready (carries : Prop) (a : DctcpReceiver) : Prop where
  /-- ECN is used. -/
  ecn : a.ecn_ = true
  /-- ECN was agreed on. -/
  ect : a.ect_ = true
  /-- DCTCP is used. -/
  dctcp : a.dctcp_ = true
  /-- Data may arrive. -/
  state : a.state_.receiving = true
  /-- Nothing waits for reassembly. -/
  empty : a.rq_.empty = true
  /-- The state machine has nothing to do. -/
  steady : ¬ (carries ∧ a.fires = true) → a.view.Live
  /-- The state machine sends an ACK with the previous bit. -/
  flipped : carries → a.fires = true → (a.view.turn (!a.mark)).Live

theorem Ready.congr {carries : Prop} (h : Ready carries a) (hecn : b.ecn_ = a.ecn_)
    (hect : b.ect_ = a.ect_) (hdctcp : b.dctcp_ = a.dctcp_)
    (htr : b.ce_transition = a.ce_transition) (hs : b.state_.receiving = true)
    (hq : b.rq_ = a.rq_) (hv : b.view = a.view) : Ready carries b := by
  have hmark : b.mark = a.mark := congrArg Receiver.mark hv
  have hfires : b.fires = a.fires := by
    have hnext : b.rcv_nxt_ = a.rcv_nxt_ := congrArg Receiver.next hv
    have hlast : b.last_ack_sent_ = a.last_ack_sent_ := congrArg Receiver.last hv
    unfold fires
    rw [hdctcp, htr, hnext, hlast]
  exact ⟨hecn.trans h.ecn, hect.trans h.ect, hdctcp.trans h.dctcp, hs, hq ▸ h.empty,
    fun hn => hv ▸ h.steady (hfires ▸ hn), fun hc hf => hv ▸ hmark ▸ h.flipped hc (hfires ▸ hf)⟩

/-- After the state machine the invariant holds. -/
theorem Ready.machine {carries : Prop} (h : Ready carries a) (hc : carries) (now : ℚ)
    (calls : OutputCalls) : (a.echoTransition now calls).view.Live := by
  cases hf : a.fires with
  | true =>
    obtain ⟨k, hk⟩ := echoTransition_fires hf h.ecn h.ect (receiving_noSyn h.state) now calls
    rw [hk]
    apply ((h.flipped hc hf).ackTimes (k + 1)).turn
    rw [Receiver.ackTimes_succ_last, Receiver.ackTimes_next]
  | false =>
    rw [echoTransition_of_not_fires hf]
    apply h.steady
    rintro ⟨-, h'⟩
    rw [hf] at h'
    cases h'

/-- Data with the current bit is taken. -/
theorem Ready.accept {carries : Prop} (h : Ready carries a) (hc : carries) (now : ℚ)
    (calls : OutputCalls) {p : TcpPacket} {datalen : ℤ} (hd : 0 ≤ datalen)
    (hce : 0 < datalen → p.fh.ce = a.mark) :
    ((a.echoTransition now calls).takeData p datalen).Inv ∧
      ((a.echoTransition now calls).takeData p datalen).state_.receiving = true := by
  have hf := echoTransition_frame a now calls
  have hs := hf.receiving h.state
  have hlive : ((a.echoTransition now calls).takeData p datalen).view.Live := by
    apply (h.machine hc now calls).accept
    · change (a.echoTransition now calls).rcv_nxt_ ≤ (a.echoTransition now calls).rcv_nxt_ + datalen
      omega
    · intro hlt
      have hlt' : (a.echoTransition now calls).rcv_nxt_ <
        (a.echoTransition now calls).rcv_nxt_ + datalen := hlt
      rw [hce (by omega)]
      exact hf.mark.symm
  have hempty : (a.echoTransition now calls).rq_.empty = true := hf.rq ▸ h.empty
  exact ⟨⟨hf.ecn.trans h.ecn, hf.ect.trans h.ect, hf.dctcp.trans h.dctcp,
    .receiving hs hempty hlive⟩, hs⟩

/-- The `FIN` of the peer: an ACK is owed. -/
theorem processFin_receiving (hs : a.state_.receiving = true) {tiflags : TcpFlag}
    (hf : tiflags &&& thFin ≠ 0) :
    (a.processFin tiflags).ecn_ = a.ecn_ ∧ (a.processFin tiflags).ect_ = a.ect_ ∧
      (a.processFin tiflags).dctcp_ = a.dctcp_ ∧
      (a.processFin tiflags).state_.finReceived = true ∧
      (a.processFin tiflags).acknow = true ∧
      (a.processFin tiflags).view = a.view.skip (a.rcv_nxt_ + 1) := by
  unfold processFin
  rw [if_pos hf]
  cases hst : a.state_ with
  | established | finWait1 | finWait2 => exact ⟨rfl, rfl, rfl, rfl, rfl, rfl⟩
  | closed | listen | synSent | synReceived | closeWait | closing | lastAck =>
    rw [hst] at hs
    cases hs

theorem processFin_of_not_fin {tiflags : TcpFlag} (hf : tiflags &&& thFin = 0) :
    a.processFin tiflags = a := by
  unfold processFin
  rw [if_neg (by simp [hf])]

/-- The end of `recv`, after data was taken or not. -/
theorem Inv.finish (h : a.Inv) (hs : a.state_.receiving = true) (now : ℚ) (tiflags : TcpFlag)
    (needoutput : Bool) (w : RecvWork) :
    (((a.processFin tiflags).finalOutput now needoutput w).closeIfDone now w).Inv := by
  apply Inv.closeIfDone
  by_cases hf : tiflags &&& thFin = 0
  · rw [processFin_of_not_fin hf]
    exact h.finalOutput now _ w
  · obtain ⟨hecn, hect, hdctcp, hst, hack, hview⟩ := processFin_receiving hs hf
    apply finalOutput_fin (hecn.trans h.ecn) (hect.trans h.ect) (hdctcp.trans h.dctcp) hst hack
    rw [hview]
    apply (h.receiving_of (receiving_not_finReceived hs)).2.skip
    change a.rcv_nxt_ ≤ a.rcv_nxt_ + 1
    omega

/-- A trimmed segment that is in order. -/
structure Plain (a : DctcpReceiver) (p : TcpPacket) (g : Trim) : Prop where
  /-- Its length is one. -/
  nonneg : 0 ≤ g.datalen
  /-- Its flags are those of the header. -/
  flags : g.tiflags = p.tcph.tcp_flags_
  /-- What it carries is expected next. -/
  seqno : 0 < g.datalen ∨ g.tiflags &&& thFin ≠ 0 → g.seqno = a.rcv_nxt_
  /-- Nothing was received before. -/
  dupseg : g.dupseg = false

/-- From `step6` on. -/
theorem step6_inv {p : TcpPacket} {g : Trim}
    (h : Ready (0 < g.datalen ∨ g.tiflags &&& thFin ≠ 0) a) (hg : Plain a p g)
    (hce : 0 < g.datalen → p.fh.ce = a.mark) (now : ℚ) (needoutput : Bool) (w : RecvWork) :
    (a.step6 now p g needoutput w).Inv := by
  have hfin : a.state_.haveRcvdFin = false := by
    have hs := h.state
    cases hst : a.state_ <;> rw [hst] at hs <;> revert hs <;> decide
  unfold step6 acceptData
  by_cases hc : 0 < g.datalen ∨ g.tiflags &&& thFin ≠ 0
  · rw [if_pos ⟨hc, hfin⟩, if_pos ⟨hg.seqno hc, h.empty⟩]
    obtain ⟨hinv, hs⟩ := h.accept hc now w.immediate hg.nonneg hce
    exact hinv.finish hs now _ _ w
  · rw [if_neg (fun h' => hc h'.1)]
    have hlive := h.steady fun h' => hc h'.1
    exact Inv.finish ⟨h.ecn, h.ect, h.dctcp, .receiving h.state h.empty hlive⟩ h.state now _ _ w

theorem processFin_grows (a : DctcpReceiver) (tiflags : TcpFlag) :
    Grows a (a.processFin tiflags) := by
  by_cases hf : tiflags &&& thFin = 0
  · rw [processFin_of_not_fin hf]
    exact Grows.refl a
  · unfold processFin
    rw [if_pos hf]
    cases a.state_ <;> exact ⟨rfl, rfl, rfl, rfl, rfl, [], (List.append_nil _).symm⟩

/-- What comes after the data. -/
theorem finish_grows (a : DctcpReceiver) (now : ℚ) (tiflags : TcpFlag) (needoutput : Bool)
    (w : RecvWork) :
    Grows a (((a.processFin tiflags).finalOutput now needoutput w).closeIfDone now w) :=
  (processFin_grows a tiflags).trans
    ((finalOutput_frame _ now needoutput w).toGrows.trans (closeIfDone_grows _ now w))

/-- If the state machine has something to do, an ACK with the other bit comes first. -/
theorem Ready.accept_acks {carries : Prop} (h : Ready carries a) (hf : a.fires = true)
    (p : TcpPacket) (datalen : ℤ) (now : ℚ) (calls : OutputCalls)
    (hb : Grows ((a.echoTransition now calls).takeData p datalen) b) :
    ∃ rest, b.view.acks = a.view.acks ++ ⟨a.rcv_nxt_, !a.mark⟩ :: rest := by
  obtain ⟨k, hk⟩ := echoTransition_fires hf h.ecn h.ect (receiving_noSyn h.state) now calls
  obtain ⟨l, hl⟩ := hb.acks
  have hacks : ((a.echoTransition now calls).takeData p datalen).view.acks =
      a.view.acks ++ List.replicate (k + 1) ⟨a.rcv_nxt_, !a.mark⟩ :=
    (congrArg Receiver.acks hk).trans (Receiver.ackTimes_acks _ _)
  refine ⟨List.replicate k ⟨a.rcv_nxt_, !a.mark⟩ ++ l, ?_⟩
  rw [hl, hacks, List.replicate_succ, List.append_assoc, List.cons_append]

/-- From `step6` on the bit is what it was, and if the state machine has something to do, an
ACK with the other bit comes first. -/
theorem step6_acks {p : TcpPacket} {g : Trim}
    (h : Ready (0 < g.datalen ∨ g.tiflags &&& thFin ≠ 0) a) (hg : Plain a p g) (now : ℚ)
    (needoutput : Bool) (w : RecvWork) :
    (a.step6 now p g needoutput w).mark = a.mark ∧
      (0 < g.datalen ∨ g.tiflags &&& thFin ≠ 0 → a.fires = true → ∃ rest,
        (a.step6 now p g needoutput w).view.acks = a.view.acks ++ ⟨a.rcv_nxt_, !a.mark⟩ :: rest) := by
  have hfin : a.state_.haveRcvdFin = false := by
    have hs := h.state
    cases hst : a.state_ <;> rw [hst] at hs <;> revert hs <;> decide
  unfold step6 acceptData
  by_cases hc : 0 < g.datalen ∨ g.tiflags &&& thFin ≠ 0
  · rw [if_pos ⟨hc, hfin⟩, if_pos ⟨hg.seqno hc, h.empty⟩]
    have hgrows := finish_grows ((a.echoTransition now w.immediate).takeData p g.datalen) now
      (p.tcph.tcp_flags_ &&& thFin)
      ((a.echoTransition now w.immediate).takeData p g.datalen).needSend w
    refine ⟨hgrows.mark.trans (echoTransition_frame a now w.immediate).mark, fun _ hf => ?_⟩
    exact h.accept_acks hf p g.datalen now w.immediate hgrows
  · rw [if_neg (fun h' => hc h'.1)]
    exact ⟨(finish_grows a now _ _ w).mark, fun h' => absurd h' hc⟩

/-! ## The CE bit -/

theorem ecnBlock_eq (a : DctcpReceiver) (p : TcpPacket) (datalen : ℤ) :
    ∃ t e, a.ecnBlock p datalen = { a with ce_transition := t, recent_ce_ := e } := by
  unfold ecnBlock
  split_ifs <;> exact ⟨_, _, rfl⟩

theorem ecnBlock_recent_ce_ (hecn : a.ecn_ = true) (hdctcp : a.dctcp_ = true) (p : TcpPacket) :
    (a.ecnBlock p p.datalen).recent_ce_ = if a.turns p then !a.recent_ce_ else a.recent_ce_ := by
  unfold ecnBlock turns
  rw [if_pos hecn, if_pos hdctcp]
  by_cases hd : 0 < p.datalen <;> cases hce : p.fh.ce <;> cases hect : p.fh.ect <;>
    cases hr : a.recent_ce_ <;> simp [hd, hr]

theorem ecnBlock_ce_transition (hecn : a.ecn_ = true) (hdctcp : a.dctcp_ = true)
    (p : TcpPacket) :
    (a.ecnBlock p p.datalen).ce_transition =
      if p.fh.ect ∧ (p.fh.ce ∨ 0 < p.datalen) then a.turns p else a.ce_transition := by
  unfold ecnBlock turns
  rw [if_pos hecn, if_pos hdctcp]
  by_cases hd : 0 < p.datalen <;> cases hce : p.fh.ce <;> cases hect : p.fh.ect <;>
    cases hr : a.recent_ce_ <;> simp [hd]

/-- A segment with news has a CE bit that counts. -/
theorem turns_fresh {p : TcpPacket} (h : a.turns p = true) :
    p.fh.ect = true ∧ (p.fh.ce = true ∨ 0 < p.datalen) := by
  unfold turns at h
  rw [decide_eq_true_eq] at h
  exact ⟨h.1, h.2.imp And.left And.left⟩

/-- Data that is not pending is acknowledged. -/
theorem settled_of_not_pending (h : a.view.Live) (hp : ¬ a.Pending) : a.view.Settled := by
  by_cases hr : a.received = []
  · exact .of_received_nil hr
  · apply h.settled
    have hlt : ¬ a.last_ack_sent_ < a.rcv_nxt_ := fun hlt => hp ⟨hlt, hr⟩
    exact le_antisymm h.last_le (not_lt.mp hlt)

/-- `b` is `a` with the CE bit of `p` looked at, and `k` ACKs sent since.  The segment
`carries` something or not. -/
structure Turned (a : DctcpReceiver) (p : TcpPacket) (carries : Prop) (b : DctcpReceiver) :
    Prop where
  /-- ECN is used. -/
  ecn : b.ecn_ = true
  /-- ECN was agreed on. -/
  ect : b.ect_ = true
  /-- DCTCP is used. -/
  dctcp : b.dctcp_ = true
  /-- Data may arrive. -/
  state : b.state_.receiving = true
  /-- Nothing waits for reassembly. -/
  empty : b.rq_.empty = true
  /-- `ce_transition`. -/
  transition : b.ce_transition =
    if p.fh.ect ∧ (p.fh.ce ∨ 0 < p.datalen) then a.turns p else a.ce_transition
  /-- If there is news, the segment carries something, and nothing was sent; if
  `ce_transition` is stale, something was sent. -/
  view : ∃ k, b.view = (a.view.turn (if a.turns p then !a.mark else a.mark)).ackTimes k ∧
    (a.Pending → a.turns p = true → carries ∧ k = 0) ∧
    (a.Pending → a.turns p = false → a.stale p = true → carries → 0 < k)

namespace Turned

variable {p : TcpPacket} {carries : Prop}

theorem mark (h : Turned a p carries b) : b.mark = if a.turns p then !a.mark else a.mark := by
  obtain ⟨k, hk, -⟩ := h.view
  exact (congrArg Receiver.mark hk).trans (Receiver.ackTimes_mark _ k)

/-- News while data is pending is announced by the state machine. -/
theorem fires (h : Turned a p carries b) (hp : a.Pending) (ht : a.turns p = true) :
    b.fires = true ∧ b.view = a.view.turn (!a.mark) := by
  obtain ⟨k, hk, hnews, -⟩ := h.view
  rw [if_pos ht, (hnews hp ht).2] at hk
  have hnext : b.rcv_nxt_ = a.rcv_nxt_ := congrArg Receiver.next hk
  have hlast : b.last_ack_sent_ = a.last_ack_sent_ := congrArg Receiver.last hk
  have htr : b.ce_transition = true := by rw [h.transition, if_pos (turns_fresh ht), ht]
  have hlt := hp.1
  refine ⟨decide_eq_true ⟨h.dctcp, htr, ?_⟩, hk⟩
  omega

/-- Without news the state machine has nothing to do. -/
theorem not_fires (h : Turned a p carries b) (hp : a.Pending) (ht : a.turns p = false)
    (hc : carries) : b.fires = false := by
  obtain ⟨k, hk, -, hold⟩ := h.view
  by_cases hf : p.fh.ect ∧ (p.fh.ce ∨ 0 < p.datalen)
  · have htr : b.ce_transition = false := by rw [h.transition, if_pos hf, ht]
    unfold DctcpReceiver.fires
    simp [htr]
  · cases hce : a.ce_transition with
    | false =>
      have htr : b.ce_transition = false := by rw [h.transition, if_neg hf, hce]
      unfold DctcpReceiver.fires
      simp [htr]
    | true =>
      -- an ACK was sent, nothing is left to be acknowledged
      obtain ⟨j, rfl⟩ := Nat.exists_eq_add_of_lt (hold hp ht (decide_eq_true ⟨hce, hf⟩) hc)
      have hlast : b.last_ack_sent_ = b.rcv_nxt_ := by
        have h₁ : b.last_ack_sent_ = _ := congrArg Receiver.last hk
        have h₂ : b.rcv_nxt_ = _ := congrArg Receiver.next hk
        rw [Nat.zero_add] at h₁ h₂
        rw [h₁, h₂, Receiver.ackTimes_succ_last, Receiver.ackTimes_next]
      unfold DctcpReceiver.fires
      simp [hlast]

/-- The invariant holds, or holds once the bit is back. -/
theorem ready (h : Turned a p carries b) (hlive : a.view.Live) : Ready carries b := by
  have hmark := h.mark
  obtain ⟨k, hk, hnews, -⟩ := h.view
  by_cases hp : a.Pending
  · cases ht : a.turns p with
    | true =>
      obtain ⟨hf, hv⟩ := h.fires hp ht
      refine ⟨h.ecn, h.ect, h.dctcp, h.state, h.empty,
        fun hn => absurd ⟨(hnews hp ht).1, hf⟩ hn, fun _ _ => ?_⟩
      rw [hmark, if_pos ht, hv, Bool.not_not]
      exact hlive
    | false =>
      refine ⟨h.ecn, h.ect, h.dctcp, h.state, h.empty, fun _ => ?_, fun hc hf => ?_⟩
      · rw [hk, ht]
        exact hlive.ackTimes k
      · rw [h.not_fires hp ht hc] at hf
        cases hf
  · -- everything is acknowledged
    have hsettled := settled_of_not_pending hlive hp
    have hlive' : b.view.Live := hk ▸ (hlive.turn_of_settled hsettled _).ackTimes k
    have hsettled' : b.view.Settled := hk ▸ (hsettled.turn _).ackTimes k
    exact ⟨h.ecn, h.ect, h.dctcp, h.state, h.empty, fun _ => hlive',
      fun _ _ => hlive'.turn_of_settled hsettled' _⟩

/-- News is announced, if what comes after `b` sends what the state machine sends. -/
theorem announced (h : Turned a p carries b) (hm : c.mark = b.mark)
    (hc : carries → b.fires = true → ∃ rest,
      c.view.acks = b.view.acks ++ ⟨b.rcv_nxt_, !b.mark⟩ :: rest)
    (hp : a.Pending) : Announced a.view c.view := by
  intro hne
  have hmark := h.mark
  cases ht : a.turns p with
  | false =>
    rw [ht] at hmark
    exact absurd (hm.trans hmark) hne
  | true =>
    obtain ⟨hf, hv⟩ := h.fires hp ht
    obtain ⟨_, _, hnews, _⟩ := h.view
    obtain ⟨rest, hrest⟩ := hc (hnews hp ht).1 hf
    have hnext : b.rcv_nxt_ = a.rcv_nxt_ := congrArg Receiver.next hv
    refine ⟨rest, ?_⟩
    rw [hrest, hmark, if_pos ht, Bool.not_not, hnext, hv]
    rfl

end Turned

/-! ## The ACK -/

/-- What a segment that carries nothing leaves of the receiver. -/
theorem Ready.inv (h : Ready False a) : a.Inv :=
  ⟨h.ecn, h.ect, h.dctcp, .receiving h.state h.empty (h.steady And.left)⟩

/-- The outcome of a segment. -/
structure Good (a b : DctcpReceiver) : Prop where
  /-- The invariant holds. -/
  inv : b.Inv
  /-- News is announced. -/
  announced : a.Pending → Announced a.view b.view

variable {p : TcpPacket} {g : Trim}

/-- The CE bit of data, by the previous one. -/
theorem ce_eq (ha : a.Inv) (hd : 0 < p.datalen) (hect : p.fh.ect = true) :
    p.fh.ce = if a.turns p then !a.mark else a.mark := by
  rw [mark_eq ha.ecn ha.ect]
  unfold turns
  cases hce : p.fh.ce <;> cases hr : a.recent_ce_ <;> simp [hd, hect]

/-- A segment that carries nothing, followed by output. -/
theorem Turned.output (h : Turned a p False b) (ha : a.Inv) (hs : a.state_.finReceived = false)
    {c : DctcpReceiver} (hc : b.Inv → c.Inv) (hm : c.mark = b.mark) : Good a c :=
  ⟨hc (h.ready (ha.receiving_of hs).2).inv, h.announced hm fun hf => hf.elim⟩

/-- A segment at `step6`. -/
theorem Turned.step6 (h : Turned a p (0 < g.datalen ∨ g.tiflags &&& thFin ≠ 0) b)
    (ha : a.Inv) (hs : a.state_.finReceived = false) (hg : Plain b p g)
    (hd : g.datalen = p.datalen) (hect : 0 < p.datalen → p.fh.ect = true) (now : ℚ)
    (needoutput : Bool) (w : RecvWork) : Good a (b.step6 now p g needoutput w) := by
  have hr := h.ready (ha.receiving_of hs).2
  have hce : 0 < g.datalen → p.fh.ce = b.mark := by
    intro hpos
    rw [hd] at hpos
    rw [h.mark, ce_eq ha hpos (hect hpos)]
  obtain ⟨hm, hacks⟩ := step6_acks hr hg now needoutput w
  exact ⟨step6_inv hr hg hce now needoutput w, h.announced hm hacks⟩

/-- A state of the connection that data may arrive in, another such state, and what else
does not matter. -/
theorem Turned.congr {carries : Prop} (h : Turned a p carries b) (hecn : c.ecn_ = b.ecn_)
    (hect : c.ect_ = b.ect_) (hdctcp : c.dctcp_ = b.dctcp_)
    (htr : c.ce_transition = b.ce_transition) (hs : c.state_.receiving = true)
    (hq : c.rq_ = b.rq_) (hv : c.view = b.view) : Turned a p carries c where
  ecn := hecn.trans h.ecn
  ect := hect.trans h.ect
  dctcp := hdctcp.trans h.dctcp
  state := hs
  empty := hq ▸ h.empty
  transition := htr.trans h.transition
  view := hv ▸ h.view

/-- The CE bit of a segment is looked at. -/
theorem turned_ecnBlock (ha : a.Inv) (hs : a.state_.receiving = true) {carries : Prop}
    (hc : a.Pending → a.turns p = true → carries)
    (hst : a.Pending → a.turns p = false → a.stale p = true → ¬ carries) :
    Turned a p carries (a.ecnBlock p p.datalen) := by
  obtain ⟨t, e, heq⟩ := ecnBlock_eq a p p.datalen
  have hce := ecnBlock_recent_ce_ ha.ecn ha.dctcp p
  have htr := ecnBlock_ce_transition ha.ecn ha.dctcp p
  obtain ⟨hempty, -⟩ := ha.receiving_of (receiving_not_finReceived hs)
  rw [heq] at hce htr ⊢
  refine ⟨ha.ecn, ha.ect, ha.dctcp, hs, hempty, htr, 0, ?_, fun hp ht => ⟨hc hp ht, rfl⟩,
    fun hp ht hst' hc' => absurd hc' (hst hp ht hst')⟩
  have hmark : ({ a with ce_transition := t, recent_ce_ := e } : DctcpReceiver).mark =
      if a.turns p then !a.mark else a.mark := by
    rw [mark_eq (a := { a with ce_transition := t, recent_ce_ := e }) ha.ecn ha.ect, hce,
      mark_eq ha.ecn ha.ect]
  rw [← hmark]
  rfl

/-- What `foutput` tests does not depend on the CE bits and the timestamps. -/
theorem outputNow_newack (now : ℚ) (s : SenderState) (c : OutputCall) (t e : Bool)
    (h : a.highest_ack_ < p.tcph.ackno_) :
    (({ a with ce_transition := t, recent_ce_ := e } : DctcpReceiver).newack now p
      s).fillMaxseg.outputNow c =
      ({ a with highest_ack_ := p.tcph.ackno_ } : DctcpReceiver).fillMaxseg.outputNow c := by
  have hmax : max a.highest_ack_ p.tcph.ackno_ = p.tcph.ackno_ := max_eq_right h.le
  unfold newack
  rw [hmax]
  rfl

/-- The ACKs sent for a partial ACK. -/
theorem Turned.ackTimes {w : RecvWork} {carries : Prop}
    (h : Turned a p (carries ∧ a.retransmits p w = false) b) (hf : Frame b c)
    (hv : c.view = b.view.ackTimes (if a.retransmits p w then 1 else 0)) :
    Turned a p carries c where
  ecn := hf.ecn.trans h.ecn
  ect := hf.ect.trans h.ect
  dctcp := hf.dctcp.trans h.dctcp
  state := hf.receiving h.state
  empty := hf.rq ▸ h.empty
  transition := hf.transition.trans h.transition
  view := by
    obtain ⟨k, hk, hnews, hold⟩ := h.view
    refine ⟨k + if a.retransmits p w then 1 else 0, by rw [hv, hk, Receiver.ackTimes_add], ?_, ?_⟩
    · intro hp ht
      obtain ⟨⟨hc, hr⟩, rfl⟩ := hnews hp ht
      exact ⟨hc, by simp [hr]⟩
    · intro hp ht hst hc
      cases hr : a.retransmits p w with
      | true => simp
      | false => simpa using hold hp ht hst ⟨hc, hr⟩

/-- After the ACK has been processed. -/
theorem Turned.packed {w : RecvWork} {carries : Prop}
    (h : Turned a p (carries ∧ a.retransmits p w = false) (a.ecnBlock p p.datalen))
    (hgt : a.highest_ack_ < p.tcph.ackno_) (now : ℚ) :
    Turned a p carries
      (if (a.ecnBlock p p.datalen).pack p then
        ((a.ecnBlock p p.datalen).newack now p w.sender).packAction now w
      else (a.ecnBlock p p.datalen).newack now p w.sender) := by
  obtain ⟨t, e, heq⟩ := ecnBlock_eq a p p.datalen
  rw [heq] at h ⊢
  have hout := outputNow_newack now w.sender ⟨p.tcph.ackno_, w.window, w.pipectrl_⟩ t e hgt
  have hmax : max a.highest_ack_ p.tcph.ackno_ = p.tcph.ackno_ := max_eq_right hgt.le
  have h₀ : Turned a p (carries ∧ a.retransmits p w = false)
      (({ a with ce_transition := t, recent_ce_ := e } : DctcpReceiver).newack now p w.sender) :=
    h.congr rfl rfl rfl rfl h.state rfl rfl
  generalize hb : ({ a with ce_transition := t, recent_ce_ := e } : DctcpReceiver).newack now p
    w.sender = b at h₀ hout ⊢
  have hhigh : b.highest_ack_ = p.tcph.ackno_ := by
    rw [← hb]
    exact hmax
  have hnew : b.newreno = a.newreno := by
    rw [← hb]
    rfl
  change Turned a p carries (if a.pack p then b.packAction now w else b)
  unfold packAction
  rw [hhigh, hnew]
  by_cases hpack : a.pack p = true ∧ a.newreno = true
  · rw [if_pos hpack.1, if_pos hpack.2]
    apply h₀.ackTimes (foutput_frame b now _ _)
    rw [foutput_acks b now _ _ (receiving_noSyn h₀.state), hout]
    congr 1
    unfold retransmits
    simp [hpack.1, hpack.2]
  · have hr : a.retransmits p w = false := by
      unfold retransmits
      simp only [decide_eq_false_iff_not]
      exact fun h' => hpack ⟨h'.2.1, h'.1⟩
    have hb' : Turned a p carries b := by
      apply h₀.ackTimes (Frame.refl b)
      rw [hr]
      rfl
    split_ifs with h₁ h₂
    · exact absurd ⟨h₁, h₂⟩ hpack
    · exact hb'
    · exact hb'

theorem Turned.plain {carries : Prop} (h : Turned a p carries b) (hg : Plain a p g) :
    Plain b p g := by
  obtain ⟨k, hk, -⟩ := h.view
  have hnext : b.rcv_nxt_ = a.rcv_nxt_ :=
    (congrArg Receiver.next hk).trans (Receiver.ackTimes_next _ k)
  exact ⟨hg.nonneg, hg.flags, hnext ▸ hg.seqno, hg.dupseg⟩

theorem Inv.dropAfterAck (h : a.Inv) (now : ℚ) (w : RecvWork) : (a.dropAfterAck now w).Inv := by
  apply Inv.sendMuch
  exact h.congr rfl rfl rfl rfl rfl rfl

theorem dropAfterAck_mark (a : DctcpReceiver) (now : ℚ) (w : RecvWork) :
    (a.dropAfterAck now w).mark = a.mark :=
  (sendMuch_frame { a with acknow := true } now true reasonNormal w.output).mark

/-- What a trimmed segment carries. -/
theorem carries_iff_plain (hg : Plain a p g) (hd : g.datalen = p.datalen) :
    0 < g.datalen ∨ g.tiflags &&& thFin ≠ 0 ↔ 0 < p.datalen ∨ p.has thFin = true := by
  rw [hd, hg.flags]
  unfold TcpPacket.has
  simp

/-- A segment with an ACK for something new. -/
theorem processAck_good {w : RecvWork} (ha : a.Inv) (hs : a.state_.receiving = true)
    (hok : a.Pending → a.SlowEchoes p w) (hgt : a.highest_ack_ < p.tcph.ackno_)
    (hg : Plain a p g) (hd : g.datalen = p.datalen) (hect : 0 < p.datalen → p.fh.ect = true)
    (now : ℚ) : Good a ((a.ecnBlock p p.datalen).processAck now p g w) := by
  have hfin := receiving_not_finReceived hs
  have hreach : a.Pending → a.turns p = true → a.Reaches p w := fun hp ht => by
    have := hok hp
    unfold SlowEchoes at this
    rwa [if_pos ht] at this
  have hmaxseq : (a.ecnBlock p p.datalen).maxseq_ = a.maxseq_ := by
    obtain ⟨t, e, heq⟩ := ecnBlock_eq a p p.datalen
    rw [heq]
  unfold processAck
  rw [hmaxseq]
  by_cases hmax : p.tcph.ackno_ > a.maxseq_
  · rw [if_pos hmax]
    have hT : Turned a p False (a.ecnBlock p p.datalen) :=
      turned_ecnBlock ha hs
        (fun hp ht => absurd ((hreach hp ht).2.2 hgt).1 (not_le.mpr hmax)) fun _ _ _ => id
    exact hT.output ha hfin (fun h => h.dropAfterAck now w) (dropAfterAck_mark _ now w)
  · rw [if_neg hmax]
    simp only
    have hT : Turned a p ((0 < g.datalen ∨ g.tiflags &&& thFin ≠ 0) ∧ a.retransmits p w = false)
        (a.ecnBlock p p.datalen) := by
      apply turned_ecnBlock ha hs
      · intro hp ht
        exact ⟨(carries_iff_plain hg hd).mpr (hreach hp ht).1, ((hreach hp ht).2.2 hgt).2⟩
      · rintro hp ht hst ⟨hc, hr⟩
        have hslow := hok hp
        unfold SlowEchoes at hslow
        rw [if_neg (by simp [ht])] at hslow
        exact hslow hst ⟨(carries_iff_plain hg hd).mp hc, fun hle => absurd hgt (not_lt.mpr hle),
          fun _ => ⟨not_lt.mp hmax, hr⟩⟩
    have hP := hT.packed hgt now
    generalize (if (a.ecnBlock p p.datalen).pack p = true then
        ((a.ecnBlock p p.datalen).newack now p w.sender).packAction now w
      else (a.ecnBlock p p.datalen).newack now p w.sender) = b at hP ⊢
    have hgb := hP.plain hg
    by_cases hours : b.state_.geFinWait1 = true ∧ p.tcph.ackno_ = b.maxseq_
    · rw [if_pos hours]
      have hbs := hP.state
      cases hst : b.state_ with
      | finWait1 =>
        -- the `FIN` is acknowledged
        have hP' : Turned a p (0 < g.datalen ∨ g.tiflags &&& thFin ≠ 0)
            { b with state_ := .finWait2 } := hP.congr rfl rfl rfl rfl rfl rfl rfl
        exact hP'.step6 ha hfin ⟨hgb.nonneg, hgb.flags, hgb.seqno, hgb.dupseg⟩ hd hect now false w
      | closing | lastAck =>
        rw [hst] at hbs
        cases hbs
      | finWait2 | closed | listen | synSent | synReceived | established | closeWait =>
        exact hP.step6 ha hfin hgb hd hect now _ w
    · rw [if_neg hours]
      exact hP.step6 ha hfin hgb hd hect now _ w

/-- A segment with an ACK, in the states from `ESTABLISHED` on. -/
theorem recvAck_good {w : RecvWork} (ha : a.Inv) (hs : a.state_.receiving = true)
    (hok : a.Pending → a.SlowEchoes p w) (hg : Plain a p g) (hd : g.datalen = p.datalen)
    (hect : 0 < p.datalen → p.fh.ect = true) (now : ℚ) : Good a (a.recvAck now p g w) := by
  have hfin := receiving_not_finReceived hs
  have hreach : a.Pending → a.turns p = true → a.Reaches p w := fun hp ht => by
    have := hok hp
    unfold SlowEchoes at this
    rwa [if_pos ht] at this
  have hhigh : (a.ecnBlock p p.datalen).highest_ack_ = a.highest_ack_ := by
    obtain ⟨t, e, heq⟩ := ecnBlock_eq a p p.datalen
    rw [heq]
  unfold recvAck
  simp only
  rw [hd]
  by_cases hle : p.tcph.ackno_ ≤ (a.ecnBlock p p.datalen).highest_ack_
  · rw [if_pos hle]
    rw [hhigh] at hle
    -- the segment gets to `step6`
    have hstep : (0 < p.datalen ∨ w.dupack = none) →
        Good a (({ a.ecnBlock p p.datalen with sender := w.sender } : DctcpReceiver).step6 now p g
          false w) := by
      intro hdup
      have hT : Turned a p (0 < g.datalen ∨ g.tiflags &&& thFin ≠ 0) (a.ecnBlock p p.datalen) := by
        apply turned_ecnBlock ha hs
        · exact fun hp ht => (carries_iff_plain hg hd).mpr (hreach hp ht).1
        · intro hp ht hst hc
          have hslow := hok hp
          unfold SlowEchoes at hslow
          rw [if_neg (by simp [ht])] at hslow
          exact hslow hst ⟨(carries_iff_plain hg hd).mp hc, fun _ => hdup,
            fun hgt => absurd hle (not_le.mpr hgt)⟩
      have hT' := hT.congr (c := { a.ecnBlock p p.datalen with sender := w.sender }) rfl rfl rfl rfl
        hT.state rfl rfl
      exact hT'.step6 ha hfin (hT'.plain hg) hd hect now false w
    split_ifs with hzero
    · cases hdup : w.dupack with
      | none => exact hstep (Or.inr hdup)
      | some calls =>
        have hT : Turned a p False (a.ecnBlock p p.datalen) := by
          refine turned_ecnBlock ha hs (fun hp ht => ?_) fun _ _ _ => id
          rcases (hreach hp ht).2.1 hle with h | h
          · omega
          · rw [hdup] at h
            cases h
        have hT' := hT.congr (c := { a.ecnBlock p p.datalen with sender := w.sender }) rfl rfl rfl
          rfl hT.state rfl rfl
        exact hT'.output ha hfin (fun h => h.sendLoop now reasonDupack calls)
          (sendLoop_frame now reasonDupack calls _).mark
    · apply hstep
      have hnn := hg.nonneg
      have hdup := hg.dupseg
      left
      rw [hdup] at hzero
      rw [hd] at hnn
      by_contra hneg
      exact hzero ⟨by omega, by simp⟩
  · rw [if_neg hle]
    rw [hhigh] at hle
    exact processAck_good ha hs hok (not_le.mp hle) hg hd hect now

/-- The trimming leaves a segment in order as it is. -/
theorem InOrder.trim_eq (h : a.InOrder p) :
    a.trim p =
      { seqno := p.tcph.seqno_, datalen := p.datalen, size := p.datalen,
        tiflags := p.tcph.tcp_flags_, dupseg := false } := by
  have hsyn : p.has thSyn = false := by
    unfold TcpPacket.has
    simp [h.noSyn]
  unfold trim
  simp only
  rw [if_neg]
  rintro ⟨hdrop, hsyn' | hpos⟩
  · rw [hsyn] at hsyn'
    cases hsyn'
  · cases hs : a.state_.finReceived with
    | true =>
      have := h.last hs
      omega
    | false =>
      have := h.seqno hs (Or.inl hpos)
      omega

theorem InOrder.plain (h : a.InOrder p) (hs : a.state_.finReceived = false) :
    Plain a p (a.trim p) ∧ (a.trim p).datalen = p.datalen := by
  rw [h.trim_eq]
  refine ⟨⟨h.nonneg, rfl, fun hc => h.seqno hs (hc.imp_right fun hf => ?_), rfl⟩, rfl⟩
  unfold TcpPacket.has
  simpa using hf

/-- After the trimming, in the states from `ESTABLISHED` on. -/
theorem recvTrimmed_good {w : RecvWork} (ha : a.Inv) (hs : a.state_.receiving = true)
    (hok : a.Pending → p.tcph.tcp_flags_ &&& thAck ≠ 0 → a.SlowEchoes p w)
    (hsyn : p.tcph.tcp_flags_ &&& thSyn = 0) (hg : Plain a p g) (hd : g.datalen = p.datalen)
    (hect : 0 < p.datalen → p.fh.ect = true) (now : ℚ) : Good a (a.recvTrimmed now p g w) := by
  unfold recvTrimmed
  rw [hg.flags, if_neg (by simp [hsyn])]
  by_cases hack : p.tcph.tcp_flags_ &&& thAck = 0
  · rw [if_pos hack]
    exact ⟨ha, fun _ hne => absurd rfl hne⟩
  · have hst : a.state_ ≠ .synReceived := by
      intro hst
      rw [hst] at hs
      cases hs
    rw [if_neg hack, if_neg hst]
    exact recvAck_good ha hs (fun hp => hok hp hack) hg hd hect now

end DctcpReceiver

end Ns2.Tcp
