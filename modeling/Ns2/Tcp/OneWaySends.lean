import Ns2.Tcp.OneWaySender

/-!
# What a one-way sender has sent

The packets of a one-way sender are numbered from 0, and `maxseq_` is the highest one that it has
sent.  Only an ACK of new data acknowledges packets.

* `Progress` — the numbers that say what was sent and acknowledged.
* `Filled` — the packets up to `maxseq_` were sent, with no gap.
* `Sends` — a function that acknowledges nothing.
* `sends_sendMuch`, `sends_dupackAction` and the others — the functions of the sender.
* `newack_progress`, `recv_progress` — an ACK.
* `start_filled` — a sender that has sent nothing.
-/

namespace Ns2.Tcp

/-- The numbers that say what was sent and acknowledged. -/
structure Progress where
  last_ack : ℤ
  highest_ack : ℤ
  maxseq : ℤ
  t_seqno : ℤ
  recover : ℤ
  syn_connects : ℤ

namespace Progress

/-- The next packet is at most one above those that were sent. -/
structure Filled (g : Progress) : Prop where
  next : g.t_seqno ≤ g.maxseq + 1
  recover : g.recover ≤ max g.maxseq 0
  /-- After a `SYN` its packet has been sent. -/
  syn : 0 < g.syn_connects → 0 ≤ g.maxseq
  ack : g.last_ack ≤ g.maxseq
  same : g.highest_ack = g.last_ack
  start : -1 ≤ g.last_ack

/-- Nothing is acknowledged. -/
structure Sends (g g' : Progress) : Prop where
  last_ack : g'.last_ack = g.last_ack
  highest_ack : g'.highest_ack = g.highest_ack
  maxseq : g.maxseq ≤ g'.maxseq
  filled : g.Filled → g'.Filled

variable {g g' g'' : Progress}

theorem Sends.refl (g : Progress) : g.Sends g := ⟨rfl, rfl, le_rfl, id⟩

theorem sends_of_eq (h : g' = g) : g.Sends g' := h ▸ Sends.refl g

theorem Sends.trans (h : g.Sends g') (h' : g'.Sends g'') : g.Sends g'' where
  last_ack := h'.last_ack.trans h.last_ack
  highest_ack := h'.highest_ack.trans h.highest_ack
  maxseq := h.maxseq.trans h'.maxseq
  filled := h'.filled ∘ h.filled

/-- `recover_` is set to the highest packet sent. -/
theorem sends_recover (g : Progress) : g.Sends { g with recover := g.maxseq } :=
  ⟨rfl, rfl, le_rfl, fun h => ⟨h.next, le_max_left _ _, h.syn, h.ack, h.same, h.start⟩⟩

/-- The packets after the last ACK are sent again. -/
theorem sends_goBack (g : Progress) : g.Sends { g with t_seqno := g.highest_ack + 1 } := by
  refine ⟨rfl, rfl, le_rfl, fun h => ⟨?_, h.recover, h.syn, h.ack, h.same, h.start⟩⟩
  have := h.ack
  have := h.same
  show g.highest_ack + 1 ≤ g.maxseq + 1
  omega

end Progress

open Progress

/-! ## The window -/

namespace TcpSender

variable {a : TcpSender}

/-- Neither the packets sent nor those acknowledged. -/
def SameNumbers (a b : TcpSender) : Prop :=
  b.highest_ack_ = a.highest_ack_ ∧ b.maxseq_ = a.maxseq_ ∧ b.t_seqno_ = a.t_seqno_ ∧
    b.recover_ = a.recover_

theorem SameNumbers.refl (a : TcpSender) : a.SameNumbers a := ⟨rfl, rfl, rfl, rfl⟩

theorem SameNumbers.trans {b c : TcpSender} (h : a.SameNumbers b) (h' : b.SameNumbers c) :
    a.SameNumbers c :=
  ⟨h'.1.trans h.1, h'.2.1.trans h.2.1, h'.2.2.1.trans h.2.2.1, h'.2.2.2.trans h.2.2.2⟩

theorem slowdown_numbers (a : DctcpSender) (how : ℕ) :
    (a.slowdown how).highest_ack_ = a.highest_ack_ ∧ (a.slowdown how).maxseq_ = a.maxseq_ ∧
      (a.slowdown how).t_seqno_ = a.t_seqno_ ∧ (a.slowdown how).recover_ = a.recover_ := by
  unfold DctcpSender.slowdown DctcpSender.storeDecrease
  simp only
  split
  · exact ⟨rfl, rfl, rfl, rfl⟩
  · exact ⟨rfl, rfl, rfl, rfl⟩

theorem sameNumbers_slowdown (a : TcpSender) (how : ℕ) : a.SameNumbers (a.slowdown how) :=
  slowdown_numbers a.toDctcpSender how

theorem sameNumbers_accumulate (a : TcpSender) (f : ℚ) : a.SameNumbers (a.accumulate f) := by
  unfold accumulate
  split
  · exact SameNumbers.refl a
  · exact SameNumbers.refl a

theorem sameNumbers_opencwnd {b : TcpSender} (h : a.opencwnd = some b) : a.SameNumbers b := by
  have hcap : ∀ c : TcpSender, c.SameNumbers c.capped := fun c => by
    unfold capped
    split
    · exact SameNumbers.refl c
    · exact SameNumbers.refl c
  unfold opencwnd at h
  obtain ⟨c, hc, rfl⟩ := Option.map_eq_some_iff.mp h
  refine SameNumbers.trans ?_ (hcap c)
  split at hc
  · cases hc
    exact SameNumbers.refl a
  · unfold linear at hc
    split at hc
    all_goals cases hc
    · split
      · exact SameNumbers.refl a
      · exact SameNumbers.refl a
    · exact SameNumbers.refl a
    · exact sameNumbers_accumulate a _
    · exact sameNumbers_accumulate a _
    · exact sameNumbers_accumulate a _
    · exact sameNumbers_accumulate a _
    · exact SameNumbers.refl a
    · exact SameNumbers.refl a

theorem sameNumbers_rttUpdate (a : TcpSender) (ticks : ℤ) : a.SameNumbers (a.rttUpdate ticks) := by
  unfold rttUpdate
  simp only
  split
  · exact SameNumbers.refl a
  · exact SameNumbers.refl a

theorem sameNumbers_rttBackoff (a : TcpSender) : a.SameNumbers a.rttBackoff := by
  unfold rttBackoff
  simp only
  split
  · split
    · exact SameNumbers.refl a
    · exact SameNumbers.refl a
  · split
    · exact SameNumbers.refl a
    · exact SameNumbers.refl a

/-- A reaction to a mark notes the highest packet sent. -/
theorem ecn_numbers (a : TcpSender) (seqno : ℤ) :
    a.SameNumbers (a.ecn seqno) ∨
      ({ a with recover_ := a.maxseq_ } : TcpSender).SameNumbers (a.ecn seqno) := by
  unfold ecn
  split
  · obtain ⟨b, hb, hsame⟩ : ∃ b, b = (if a.cwnd_ ≤ 1 ∧ a.ecn_backoff_ then a.rttBackoff else a) ∧
        a.SameNumbers b := by
      refine ⟨_, rfl, ?_⟩
      split
      · exact sameNumbers_rttBackoff a
      · exact SameNumbers.refl a
    simp only [← hb]
    unfold DctcpSender.ecn
    split
    · right
      obtain ⟨hack, hmax, hnext, -⟩ := hsame
      simp only
      split
      · obtain ⟨h₁, h₂, h₃, h₄⟩ := slowdown_numbers _ (closeCwndDctcp ||| closeSsthreshDctcp)
        exact ⟨h₁.trans hack, h₂.trans hmax, h₃.trans hnext, h₄.trans hmax⟩
      · obtain ⟨h₁, h₂, h₃, h₄⟩ := slowdown_numbers _ (closeCwndHalf ||| closeSsthreshHalf)
        exact ⟨h₁.trans hack, h₂.trans hmax, h₃.trans hnext, h₄.trans hmax⟩
    · exact Or.inl hsame
  · exact Or.inl (SameNumbers.refl a)

end TcpSender

namespace OneWaySender

variable {a a' b : OneWaySender}

def progress (a : OneWaySender) : Progress :=
  ⟨a.last_ack_, a.highest_ack_, a.maxseq_, a.t_seqno_, a.recover_, a.syn_connects_⟩

/-- Another sender with the same numbers. -/
theorem progress_eq {b : TcpSender} (h : a.toTcpSender.SameNumbers b) :
    ({ a with toTcpSender := b } : OneWaySender).progress = a.progress := by
  unfold progress
  rw [h.1, h.2.1, h.2.2.1, h.2.2.2]

@[simp] theorem progress_slowdown (a : OneWaySender) (how : ℕ) :
    (a.slowdown how).progress = a.progress :=
  progress_eq (TcpSender.sameNumbers_slowdown a.toTcpSender how)

@[simp] theorem progress_rttUpdate (a : OneWaySender) (ticks : ℤ) :
    (a.rttUpdate ticks).progress = a.progress :=
  progress_eq (TcpSender.sameNumbers_rttUpdate a.toTcpSender ticks)

@[simp] theorem progress_rttBackoff (a : OneWaySender) : a.rttBackoff.progress = a.progress :=
  progress_eq (TcpSender.sameNumbers_rttBackoff a.toTcpSender)

theorem progress_opencwnd (h : a.opencwnd = some a') : a'.progress = a.progress := by
  obtain ⟨c, hc, rfl⟩ := Option.map_eq_some_iff.mp h
  exact progress_eq (TcpSender.sameNumbers_opencwnd hc)

theorem sends_resetRtxTimer (a : OneWaySender) (mild backoff : Bool) :
    Sends a.progress (a.resetRtxTimer mild backoff).progress := by
  have hback : (if backoff then a.rttBackoff else a).progress = a.progress := by
    split
    · exact progress_rttBackoff a
    · rfl
  unfold resetRtxTimer
  simp only
  split
  · exact sends_of_eq hback
  · have hgo := sends_goBack (if backoff then a.rttBackoff else a).progress
    rw [hback] at hgo
    refine (sends_of_eq hback).trans ?_
    rw [hback]
    convert hgo using 1
    rw [← hback]
    rfl

/-! ## Sending -/

/-- `output` raises `maxseq_` to the packet, unless the connection is given up; then a `SYN` was sent
before. -/
theorem output_progress (a : OneWaySender) (seqno : ℤ) (t : OneWayTurn) :
    ∃ m n, (a.output seqno t).progress = { a.progress with maxseq := m, syn_connects := n } ∧
      (m = max a.maxseq_ seqno ∨ m = a.maxseq_ ∧ seqno = 0 ∧ 0 < a.syn_connects_) ∧
      (n = a.syn_connects_ ∨ n = a.syn_connects_ + 1 ∧ seqno = 0) := by
  obtain ⟨b, hb, hbp, hbm⟩ : ∃ b : OneWaySender,
      b = (if a.cong_action_ ∧ (¬ seqno < a.maxseq_ ∨ a.SetCWRonRetransmit_) then
        { a with cong_action_ := false } else a) ∧ b.progress = a.progress ∧
        b.syn_connects_ = a.syn_connects_ := by
    refine ⟨_, rfl, ?_, ?_⟩
    all_goals split <;> rfl
  obtain ⟨c, hc, hcp, hcs⟩ : ∃ c : OneWaySender,
      c = (if seqno = 0 ∧ b.syn_ then
        { b with
          curseq_ := if b.maxseq_ = -1 then b.curseq_ + 1 else b.curseq_
          syn_connects_ := b.syn_connects_ + 1 } else b) ∧
        (∃ n, c.progress = { a.progress with syn_connects := n } ∧ c.syn_connects_ = n ∧
          (n = a.syn_connects_ ∨ n = a.syn_connects_ + 1 ∧ seqno = 0)) ∧
        c.syn_connects_ ≤ a.syn_connects_ + 1 := by
    refine ⟨_, rfl, ?_⟩
    split
    · rename_i hsyn
      refine ⟨⟨b.syn_connects_ + 1, ?_, rfl, Or.inr ⟨by rw [hbm], hsyn.1⟩⟩, by
        show b.syn_connects_ + 1 ≤ _
        omega⟩
      rw [← hbp]
      rfl
    · exact ⟨⟨b.syn_connects_, by rw [← hbp]; rfl, rfl, Or.inl hbm⟩, by omega⟩
  obtain ⟨n, hcp, hn, hor⟩ := hcp
  have hmax : c.maxseq_ = a.maxseq_ := congrArg Progress.maxseq hcp
  unfold output
  simp only [← hb, ← hc]
  split
  · rename_i hgive
    refine ⟨a.maxseq_, n, ?_, Or.inr ⟨rfl, hgive.1, by omega⟩, hor⟩
    exact hcp
  · refine ⟨max a.maxseq_ seqno, n, ?_, Or.inl rfl, hor⟩
    have hite : (if seqno > c.maxseq_ then seqno else c.maxseq_) = max a.maxseq_ seqno := by
      rw [hmax]
      split <;> omega
    unfold progress at hcp ⊢
    simp only [hite]
    simp only [Progress.mk.injEq] at hcp ⊢
    exact ⟨hcp.1, hcp.2.1, trivial, hcp.2.2.2.1, hcp.2.2.2.2⟩

/-- A packet next to those that were sent is sent. -/
theorem sends_output (a : OneWaySender) {seqno : ℤ} (t : OneWayTurn)
    (hseq : a.progress.Filled → seqno ≤ a.maxseq_ + 1) :
    Sends a.progress (a.output seqno t).progress := by
  obtain ⟨m, n, heq, hm, hn⟩ := output_progress a seqno t
  have hle : a.maxseq_ ≤ m := by
    rcases hm with rfl | ⟨rfl, -⟩
    · exact le_max_left _ _
    · exact le_rfl
  rw [heq]
  refine ⟨rfl, rfl, hle, fun h => ⟨?_, ?_, fun hpos => ?_, h.ack.trans hle, h.same, h.start⟩⟩
  · exact h.next.trans (Int.add_le_add_right hle 1)
  · exact h.recover.trans (max_le_max hle le_rfl)
  · rcases hn with rfl | ⟨-, rfl⟩
    · exact (h.syn hpos).trans hle
    · rcases hm with rfl | ⟨rfl, -, hsyn⟩
      · exact le_max_right _ _
      · exact h.syn hsyn

@[simp] theorem progress_halve (a : OneWaySender) (n : ℕ) : (a.halve n).progress = a.progress := by
  induction n generalizing a with
  | zero => rfl
  | succ n ih => exact (ih _).trans (progress_slowdown a _)

theorem progress_idleCut (a : OneWaySender) (t : OneWayTurn) : (a.idleCut t).progress = a.progress := by
  unfold idleCut
  split
  · exact (progress_halve _ _).trans (progress_slowdown a _)
  · rfl

theorem progress_countUsed (a : OneWaySender) : a.countUsed.progress = a.progress := by
  unfold countUsed
  simp only
  split <;> rfl

theorem progress_limitedCut (a : OneWaySender) (t : OneWayTurn) :
    (a.limitedCut t).progress = a.progress := by
  unfold limitedCut
  split
  · exact (progress_slowdown _ (closeCwndHalfWay ||| tcpIdle)).trans (progress_slowdown a _)
  · rfl

theorem progress_processQoptionAfterSend (a : OneWaySender) (t : OneWayTurn) :
    (a.processQoptionAfterSend t).progress = a.progress := by
  have hidle := progress_idleCut a t
  unfold processQoptionAfterSend
  simp only
  split
  · exact hidle
  · split
    · exact ((progress_limitedCut _ t).trans (progress_countUsed _)).trans hidle
    · exact hidle

/-- The next packet is sent. -/
theorem sends_sendNext (a : OneWaySender) (t : OneWayTurn) :
    Sends a.progress (a.sendNext t).progress := by
  obtain ⟨m, n, heq, hm, hn⟩ := output_progress a a.t_seqno_ t
  have hout : Sends a.progress (a.output a.t_seqno_ t).progress := sends_output a t fun h => h.next
  obtain ⟨b, hb, hbp⟩ : ∃ b : OneWaySender, b = (if (a.output a.t_seqno_ t).QOption_ then
      (a.output a.t_seqno_ t).processQoptionAfterSend t else a.output a.t_seqno_ t) ∧
        b.progress = (a.output a.t_seqno_ t).progress := by
    refine ⟨_, rfl, ?_⟩
    split
    · exact progress_processQoptionAfterSend _ t
    · rfl
  have hnext : (a.sendNext t).progress = { b.progress with t_seqno := b.t_seqno_ + 1 } := by
    simp only [sendNext, ← hb]
    rfl
  have htseq : b.t_seqno_ = a.t_seqno_ := congrArg Progress.t_seqno (hbp.trans heq)
  refine hout.trans ?_
  rw [hnext, htseq, hbp]
  refine ⟨rfl, rfl, le_rfl, fun h => ⟨?_, h.recover, h.syn, h.ack, h.same, h.start⟩⟩
  have hsyn := h.syn
  rw [heq] at hsyn ⊢
  simp only at hsyn ⊢
  rcases hm with rfl | ⟨rfl, hzero, hpos⟩
  · have := le_max_right a.maxseq_ a.t_seqno_
    omega
  · have := hsyn (by omega)
    omega

/-- `send_much` sends packets next to those that were sent. -/
theorem sends_sendMuch (a : OneWaySender) (turns : List OneWayTurn) :
    Sends a.progress (a.sendMuch turns).progress := by
  induction turns generalizing a with
  | nil => exact Sends.refl _
  | cons t turns ih =>
    unfold sendMuch
    split
    · simp only
      split
      · exact sends_sendNext a t
      · exact (sends_sendNext a t).trans (ih _)
    · exact Sends.refl _

theorem sends_sendOne (a : OneWaySender) (t : OneWayTurn) :
    Sends a.progress (a.sendOne t).progress := by
  unfold sendOne
  split
  · exact sends_sendNext a t
  · exact Sends.refl _

/-- The packet after the last ACK may be sent at any time. -/
theorem sends_resend (a : OneWaySender) (t : OneWayTurn) :
    Sends a.progress (a.output (a.last_ack_ + 1) t).progress :=
  sends_output a t fun h => Int.add_le_add_right h.ack 1

/-! ## ACKs -/

theorem progress_recvStart {p : OneWayAck} {w : OneWayContext} (h : a.recvStart p w = some a') :
    a'.progress = a.progress := by
  obtain ⟨b, hb, h⟩ := Option.bind_eq_some_iff.mp h
  have hbp : b.progress = a.progress := by
    split at hb
    · unfold endQuickStart at hb
      simp only at hb
      split at hb
      · obtain ⟨c, -, rfl⟩ := Option.map_eq_some_iff.mp hb
        rfl
      · cases hb
        rfl
    · cases hb
      rfl
  rw [← hbp]
  split at h
  · unfold processQuickStart at h
    simp only at h
    split at h
    · cases h
      rfl
    · obtain ⟨c, -, rfl⟩ := Option.map_eq_some_iff.mp h
      split <;> rfl
  · cases h
    rfl

/-- A reaction to a mark. -/
theorem sends_ecn (a : OneWaySender) (seqno : ℤ) : Sends a.progress (a.ecn seqno).progress := by
  rcases TcpSender.ecn_numbers a.toTcpSender seqno with hsame | hsame
  · exact sends_of_eq (progress_eq hsame)
  · have heq : (a.ecn seqno).progress = { a.progress with recover := a.maxseq_ } :=
      progress_eq (a := { a with recover_ := a.maxseq_ }) hsame
    rw [heq]
    exact sends_recover a.progress

theorem sends_recvFrtoHelper (a : OneWaySender) (p : OneWayAck) :
    Sends a.progress (a.recvFrtoHelper p).progress := by
  unfold recvFrtoHelper
  split
  · exact sends_goBack a.progress
  · exact Sends.refl _

theorem sends_lossQuickStart (a : OneWaySender) (t : OneWayTurn) :
    Sends a.progress (a.lossQuickStart t).1.progress := by
  unfold lossQuickStart
  split
  · have hcut := progress_slowdown a closeCwndInit
    have hlast : (a.slowdown closeCwndInit).last_ack_ = a.last_ack_ := congrArg Progress.last_ack hcut
    have hout := sends_resend ({ a.slowdown closeCwndInit with qs_window_ := 0 } : OneWaySender) t
    exact (sends_of_eq hcut).trans hout
  · exact Sends.refl _

theorem sends_tahoeAction (a : OneWaySender) (t : OneWayTurn) :
    Sends a.progress (a.tahoeAction t).progress := by
  have hloss := (sends_recover a.progress).trans
    (sends_lossQuickStart ({ a with recover_ := a.maxseq_ } : OneWaySender) t)
  unfold tahoeAction
  simp only
  refine Sends.trans ?_ (sends_resetRtxTimer _ false false)
  split
  · exact hloss
  · rw [progress_slowdown]
    exact hloss

/-- `dupack_action`. -/
theorem sends_dupackAction (a : OneWaySender) (t : OneWayTurn) :
    Sends a.progress (a.dupackAction t).progress := by
  unfold dupackAction
  simp only
  split
  · exact sends_tahoeAction a t
  · split
    · have hcut := progress_slowdown ({ a with last_cwnd_action_ := .dupack } : OneWaySender) closeCwndOne
      exact (sends_of_eq hcut).trans (sends_resetRtxTimer _ false false)
    · split
      · exact Sends.refl _
      · exact sends_tahoeAction a t

theorem sends_tcpEln (a : OneWaySender) (p : OneWayAck) (w : OneWayContext) :
    Sends a.progress (a.tcpEln p w).progress := by
  have hout := sends_resend ({ a with dupacks_ := a.dupacks_ + 1 } : OneWaySender) w.one
  have hsend := sends_sendMuch ({ a with dupacks_ := a.dupacks_ + 1 } : OneWaySender) w.turns
  unfold tcpEln
  simp only
  split
  · exact hout
  · exact hsend

/-- `recv` for a duplicate ACK. -/
theorem sends_recvDup (a : OneWaySender) (p : OneWayAck) (w : OneWayContext) :
    Sends a.progress (a.recvDup p w).progress := by
  have hdup := sends_dupackAction ({ a with dupacks_ := a.dupacks_ + 1 } : OneWaySender) w.one
  have hone := sends_sendOne ({ a with dupacks_ := a.dupacks_ + 1 } : OneWaySender) w.one
  unfold recvDup
  simp only
  split
  · exact sends_tcpEln a p w
  · refine Sends.trans ?_ (sends_sendMuch _ w.turns)
    split
    · exact hdup
    · split
      · exact hone
      · exact Sends.refl _

theorem progress_endBackoff (a : OneWaySender) (p : OneWayAck) :
    (a.endBackoff p).progress = a.progress := by
  unfold endBackoff
  split <;> rfl

theorem progress_newackRtt (a : OneWaySender) (p : OneWayAck) (w : OneWayContext) :
    (a.newackRtt p w).progress = a.progress := by
  obtain ⟨b, hb, hbp⟩ : ∃ b : OneWaySender,
      b = (if a.ts_option_ then
        if (a.rttUpdate w.ts_rtt).ts_resetRTO_ then (a.rttUpdate w.ts_rtt).endBackoff p
        else a.rttUpdate w.ts_rtt else a) ∧ b.progress = a.progress := by
    refine ⟨_, rfl, ?_⟩
    split
    · split
      · exact (progress_endBackoff _ p).trans (progress_rttUpdate a w.ts_rtt)
      · exact progress_rttUpdate a w.ts_rtt
    · rfl
  unfold newackRtt
  simp only [← hb]
  split
  · rfl
  · split
    · exact hbp
    · split
      · exact ((progress_rttUpdate _ _).trans (progress_endBackoff _ p)).trans hbp
      · exact (progress_endBackoff _ p).trans hbp

/-- The ACK is noted, and nothing up to it is sent again. -/
theorem newack_progress (a : OneWaySender) (p : OneWayAck) (w : OneWayContext) :
    (a.newack p w).progress = { a.progress with
      last_ack := p.seqno
      highest_ack := p.seqno
      t_seqno := max a.t_seqno_ (p.seqno + 1) } := by
  have hnext : (if a.t_seqno_ < p.seqno + 1 then p.seqno + 1 else a.t_seqno_) =
      max a.t_seqno_ (p.seqno + 1) := by
    split <;> omega
  refine (progress_newackRtt _ p w).trans ?_
  unfold progress
  simp only [hnext]

/-- With a packet sent, the end of `recv_newack_helper` is no exception. -/
theorem sends_frtoStep (hsent : 0 ≤ a.maxseq_) : Sends a.progress a.frtoStep.progress := by
  unfold frtoStep
  split
  · split
    · exact Sends.refl _
    · split
      · exact Sends.refl _
      · refine ⟨rfl, rfl, le_rfl, fun h => ⟨?_, h.recover, h.syn, h.ack, h.same, h.start⟩⟩
        have hrec := h.recover
        show a.recover_ + 1 ≤ a.maxseq_ + 1
        exact Int.add_le_add_right (hrec.trans (max_le le_rfl hsent)) 1
  · split
    · refine ⟨rfl, rfl, le_rfl, fun h => ⟨h.next, ?_, h.syn, h.ack, h.same, h.start⟩⟩
      have hack := h.ack
      have hsame := h.same
      show a.highest_ack_ - 1 ≤ max a.maxseq_ 0
      exact le_trans (by
        have : a.highest_ack_ = a.last_ack_ := hsame
        have : a.last_ack_ ≤ a.maxseq_ := hack
        omega) (le_max_left _ _)
    · exact Sends.refl _

/-- `recv` for an ACK of new data. -/
theorem recvNew_progress {p : OneWayAck} {w : OneWayContext} (hfilled : a.progress.Filled)
    (hnew : a.last_ack_ < p.seqno) (hsent : p.seqno ≤ a.maxseq_) (h : a.recvNew p w = some a') :
    a'.progress.Filled ∧ a.maxseq_ ≤ a'.maxseq_ ∧ a'.last_ack_ = p.seqno := by
  obtain ⟨b, hb, h⟩ := Option.bind_eq_some_iff.mp h
  obtain ⟨c, hc, rfl⟩ := Option.map_eq_some_iff.mp h
  have hcb : c.progress = b.progress := by
    split at hc
    · obtain ⟨v, -, rfl⟩ := Option.map_eq_some_iff.mp hc
      rfl
    · cases hc
      rfl
  -- the state after `newack`
  have hstart := hfilled.start
  have hmax : 0 ≤ a.maxseq_ := by
    have : -1 ≤ a.last_ack_ := hstart
    omega
  have hnoted := newack_progress a p w
  have hfilled₁ : (a.newack p w).progress.Filled := by
    rw [hnoted]
    refine ⟨?_, hfilled.recover, hfilled.syn, hsent, rfl, hstart.trans hnew.le⟩
    exact max_le hfilled.next (Int.add_le_add_right hsent 1)
  have hb' : Sends (a.newack p w).progress b.progress := by
    unfold recvNewackHelper at hb
    obtain ⟨d, hd, hdp⟩ : ∃ d : OneWaySender,
        d = (if (a.newack p w).qs_window_ ≠ 0 ∧ (a.newack p w).highest_ack_ ≥ (a.newack p w).qs_window_
          then { a.newack p w with qs_window_ := 0 } else a.newack p w) ∧
          d.progress = (a.newack p w).progress := by
      refine ⟨_, rfl, ?_⟩
      split <;> rfl
    simp only [← hd] at hb
    obtain ⟨e, he, rfl⟩ := Option.map_eq_some_iff.mp hb
    have hep : e.progress = (a.newack p w).progress := by
      split at he
      · exact (progress_opencwnd he).trans hdp
      · cases he
        exact hdp
    have hburst : (e.burstStep p).progress = e.progress := by
      unfold burstStep
      split <;> rfl
    have hect : ((e.burstStep p).ectStep p).progress = (e.burstStep p).progress := by
      unfold ectStep
      split <;> rfl
    have hclose : ((e.burstStep p).ectStep p).closeStep.progress =
        ((e.burstStep p).ectStep p).progress := by
      unfold closeStep
      split <;> rfl
    have hall := ((hclose.trans hect).trans hburst).trans hep
    refine (sends_of_eq hall).trans (sends_frtoStep ?_)
    have hm : ((e.burstStep p).ectStep p).closeStep.maxseq_ = a.maxseq_ :=
      congrArg Progress.maxseq (hall.trans hnoted)
    rw [hm]
    exact hmax
  have hsend := (hb'.trans (sends_of_eq hcb)).trans (sends_sendMuch c w.turns)
  have hle := hsend.maxseq
  have hlast := hsend.last_ack
  rw [hnoted] at hle hlast
  exact ⟨hsend.filled hfilled₁, hle, hlast⟩

/-- An ACK for a packet that was sent. -/
theorem recv_progress {p : OneWayAck} {w : OneWayContext} (hfilled : a.progress.Filled)
    (hsent : p.seqno ≤ a.maxseq_) (h : a.recv p w = some a') :
    a'.progress.Filled ∧ a.maxseq_ ≤ a'.maxseq_ ∧
      a'.last_ack_ = if w.stale then a.last_ack_ else max a.last_ack_ p.seqno := by
  obtain ⟨b, hb, h⟩ := Option.bind_eq_some_iff.mp h
  have hbp := progress_recvStart hb
  split at h
  · rename_i hstale
    cases h
    rw [if_pos hstale, hbp]
    exact ⟨hfilled, le_of_eq (congrArg Progress.maxseq hbp).symm, congrArg Progress.last_ack hbp⟩
  · rename_i hstale
    rw [if_neg hstale]
    obtain ⟨c, hc, hcp⟩ : ∃ c : OneWaySender,
        c = (if p.ecnecho ∧ b.ecn_ then b.ecn p.seqno else b) ∧ Sends b.progress c.progress := by
      refine ⟨_, rfl, ?_⟩
      split
      · exact sends_ecn b p.seqno
      · exact Sends.refl _
    simp only [← hc] at h
    have hstart : Sends a.progress (c.recvFrtoHelper p).progress :=
      ((sends_of_eq hbp).trans hcp).trans (sends_recvFrtoHelper c p)
    have hlast : (c.recvFrtoHelper p).last_ack_ = a.last_ack_ := hstart.last_ack
    have hmax : a.maxseq_ ≤ (c.recvFrtoHelper p).maxseq_ := hstart.maxseq
    split at h
    · rename_i hnew
      obtain ⟨h₁, h₂, h₃⟩ := recvNew_progress (hstart.filled hfilled) hnew (hsent.trans hmax) h
      refine ⟨h₁, hmax.trans h₂, ?_⟩
      rw [h₃, max_eq_right]
      omega
    · -- nothing new is acknowledged
      rename_i hold
      have hall : Sends a.progress a'.progress := by
        split at h
        · cases h
          exact hstart.trans (sends_recvDup _ p w)
        · cases h
          refine hstart.trans ?_
          split
          · exact sends_sendMuch _ w.turns
          · exact Sends.refl _
      refine ⟨hall.filled hfilled, hall.maxseq, ?_⟩
      rw [max_eq_left (by omega)]
      exact hall.last_ack

/-! ## Timeouts -/

theorem progress_firstLost (a : OneWaySender) : a.firstLost.progress = a.progress := by
  unfold firstLost
  split
  · rfl
  · split <;> rfl

theorem progress_beginFrto (a : OneWaySender) : a.beginFrto.progress = a.progress := by
  unfold beginFrto
  split <;> rfl

theorem sends_timeoutCut (a : OneWaySender) : Sends a.progress a.timeoutCut.progress := by
  have hlost := (sends_recover a.progress).trans
    (sends_of_eq (progress_firstLost ({ a with recover_ := a.maxseq_ } : OneWaySender)))
  unfold timeoutCut
  simp only
  split
  · rw [progress_slowdown]
    exact hlost
  · split
    · rw [progress_beginFrto, progress_slowdown]
      exact hlost
    · rw [progress_beginFrto, progress_slowdown]
      exact hlost

/-- `timeout`. -/
theorem sends_timeout (a : OneWaySender) (turns : List OneWayTurn) :
    Sends a.progress (a.timeout turns).progress := by
  have hcut : Sends a.progress (if a.timeoutStart.highest_ack_ = a.timeoutStart.maxseq_ ∧
      ¬ a.timeoutStart.slow_start_restart_ then a.timeoutStart
        else a.timeoutStart.timeoutCut).progress := by
    split
    · exact Sends.refl _
    · exact sends_timeoutCut a.timeoutStart
  unfold timeout
  simp only
  generalize (if a.timeoutStart.highest_ack_ = a.timeoutStart.maxseq_ ∧
    ¬ a.timeoutStart.slow_start_restart_ then a.timeoutStart else a.timeoutStart.timeoutCut) = b at hcut ⊢
  have hreset := hcut.trans (sends_resetRtxTimer b false
    (¬ (b.highest_ack_ = b.maxseq_ ∧ b.restart_bugfix_)))
  generalize b.resetRtxTimer false (¬ (b.highest_ack_ = b.maxseq_ ∧ b.restart_bugfix_)) = c at hreset ⊢
  have hsend := sends_sendMuch ({ c with
    last_cwnd_action_ := .timeout, cuts := c.cuts ++ [.timeout] } : OneWaySender) turns
  exact hreset.trans hsend

/-- `advanceby`. -/
theorem sends_advanceby (a : OneWaySender) (delta : ℤ) (turns : List OneWayTurn) :
    Sends a.progress (a.advanceby delta turns).progress := by
  have hsend := sends_sendMuch ({ a with
    curseq_ := a.curseq_ + delta, closed_ := if delta > 0 then false else a.closed_ } :
      OneWaySender) turns
  exact hsend

/-- `sendmsg`. -/
theorem sends_sendmsg (a : OneWaySender) (nbytes : ℤ) (turns : List OneWayTurn) :
    Sends a.progress (a.sendmsg nbytes turns).progress := by
  have hsend := sends_sendMuch ({ a with
    curseq_ :=
      if nbytes = -1 ∧ a.curseq_ ≤ tcpMaxseq then tcpMaxseq
      else a.curseq_ + (nbytes.tdiv a.size_ + if nbytes.tmod a.size_ ≠ 0 then 1 else 0) } :
        OneWaySender) turns
  exact hsend

/-! ## Starting -/

/-- A sender that has sent nothing. -/
theorem start_filled (h : a.start = some a') : a'.progress.Filled ∧ a'.maxseq_ = -1 ∧ a'.last_ack_ = -1 := by
  obtain ⟨cwnd, -, rfl⟩ := Option.map_eq_some_iff.mp h
  refine ⟨⟨?_, ?_, fun hpos => ?_, le_rfl, rfl, le_rfl⟩, rfl, rfl⟩
  · exact le_refl (0 : ℤ)
  · exact le_max_right _ _
  · exact absurd hpos (lt_irrefl _)

end OneWaySender

end Ns2.Tcp
