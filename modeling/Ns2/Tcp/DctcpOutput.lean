import Ns2.Tcp.DctcpReceiver

/-!
# What the DCTCP receiver sends

Every packet that `foutput` sends acknowledges what was received, with the CE bit the
receiver last saw: on the abstract receiver it is an `ack`.

* `DctcpReceiver.view` — the abstract receiver.
* `foutput_view` — one call of `foutput`.
* `Grows`, `Frame` — what output leaves as it is.
* `sendMuch_acks`, `sendMuch_force` — output is a number of acknowledgments.
-/

namespace Ns2.Tcp

open Echo

/-! ## Flags -/

theorem or_and_ne_zero (x y f : TcpFlag) :
    (x ||| y) &&& f ≠ 0 ↔ x &&& f ≠ 0 ∨ y &&& f ≠ 0 := by
  rw [Nat.and_or_distrib_right, Ne, Nat.or_eq_zero_iff, not_and_or]

namespace DctcpReceiver

variable {a b c : DctcpReceiver}

/-- The bit that goes with an ACK. -/
def mark (a : DctcpReceiver) : Bool := a.ecn_ && a.ect_ && a.recent_ce_

/-- The abstract receiver. -/
def view (a : DctcpReceiver) : Receiver ℤ Bool where
  next := a.rcv_nxt_
  last := a.last_ack_sent_
  mark := a.mark
  received := a.received
  acks := a.sent.map fun p => ⟨p.tcph.ackno_, p.fh.ecnecho⟩

/-- The flags that `foutput` starts from have no ECE. -/
theorem outputFlags_thEce (a : DctcpReceiver) (c : OutputCall) :
    a.outputFlags c &&& thEce = 0 := by
  unfold outputFlags
  simp only
  cases a.state_ <;> split_ifs <;> decide

/-- Without a `SYN`, the ECE bit comes from the state. -/
theorem ecnFlags_thEce (a : DctcpReceiver) {pflags : TcpFlag} (hs : pflags &&& thSyn = 0)
    (he : pflags &&& thEce = 0) (datalen : ℤ) (r : Bool) :
    (a.ecnFlags pflags datalen r).1 &&& thEce ≠ 0 → a.mark = true := by
  have hcwr : thCwr &&& thEce = 0 := by decide
  unfold ecnFlags mark
  simp only [hs, ne_eq, not_true_eq_false, false_and, and_false, if_false]
  split_ifs <;> simp_all [Nat.and_or_distrib_right]

/-- The flags of the state without the `FIN`. -/
theorem clearFin_thSyn (s : TcpState) :
    (if s.outflags &&& thFin ≠ 0 then s.outflags - thFin else s.outflags) &&& thSyn =
      s.outflags &&& thSyn := by
  cases s <;> decide

/-- Without a `SYN` there is none in the flags of `foutput` either. -/
theorem outputFlags_thSyn (a : DctcpReceiver) (c : OutputCall)
    (h : a.state_.outflags &&& thSyn = 0) : a.outputFlags c &&& thSyn = 0 := by
  have hfin := clearFin_thSyn a.state_
  have hpush : thPush &&& thSyn = 0 := by decide
  unfold outputFlags
  simp only
  generalize (if a.state_.outflags &&& thFin ≠ 0 then a.state_.outflags - thFin
    else a.state_.outflags) = f at hfin ⊢
  split_ifs
  · rw [Nat.and_or_distrib_right, h, hpush, Nat.or_self]
  · rw [Nat.and_or_distrib_right, hfin, h, hpush, Nat.or_self]
  · rw [hfin, h]

/-! ## One packet -/

/-- What the statistics leave as it is. -/
theorem count_frame (a : FullTcpAgent) (now : ℚ) (ackno datalen : ℤ) (reason : ℕ) :
    (a.count now ackno datalen reason).rq_ = a.rq_ ∧
      (a.count now ackno datalen reason).ecn_ = a.ecn_ ∧
      (a.count now ackno datalen reason).ect_ = a.ect_ ∧
      (a.count now ackno datalen reason).dctcp_ = a.dctcp_ ∧
      (a.count now ackno datalen reason).recent_ce_ = a.recent_ce_ ∧
      (a.count now ackno datalen reason).last_ack_sent_ = ackno := by
  unfold FullTcpAgent.count
  simp only
  split_ifs <;> exact ⟨rfl, rfl, rfl, rfl, rfl, trivial⟩

/-- A packet on the abstract receiver. -/
theorem send_view (a : DctcpReceiver) (now : ℚ) (seqno ackno : ℤ) (pflags : TcpFlag)
    (datalen : ℤ) (reason : ℕ) :
    (a.send now seqno ackno pflags datalen reason).view =
      a.view.ackAt ackno (a.mark || (pflags &&& thEce ≠ 0 : Bool)) := by
  obtain ⟨hrq, hecn, hect, -, hce, hlast⟩ :=
    count_frame a.toFullTcpAgent now ackno datalen reason
  have hbit : decide (a.toFullTcpAgent.echoFlags pflags &&& thEce ≠ 0) =
      (a.mark || (pflags &&& thEce ≠ 0 : Bool)) := by
    unfold FullTcpAgent.echoFlags mark
    cases a.ecn_ <;> cases a.ect_ <;> cases a.recent_ce_ <;>
      simp [or_and_ne_zero, show thEce &&& thEce = thEce from rfl, show thEce ≠ 0 by decide]
  have hack : (a.toFullTcpAgent.sendpacket now seqno ackno pflags datalen reason none).2.tcph.ackno_
      = ackno := by
    unfold FullTcpAgent.sendpacket FullTcpAgent.buildHeader FullTcpAgent.buildOptions
      FullTcpAgent.buildTimestamps
    simp only
    split_ifs <;> rfl
  unfold view Receiver.ackAt
  simp only [Receiver.mk.injEq]
  refine ⟨congrArg ReassemblyQueue.rcv_nxt_ hrq, hlast, ?_, rfl, ?_⟩
  · exact congrArg₂ and (congrArg₂ and hecn hect) hce
  · rw [← hbit]
    unfold send
    rw [List.map_append, List.map_singleton, hack]
    rfl

/-- What `foutput` does on the abstract receiver. -/
theorem foutput_view (a : DctcpReceiver) (now : ℚ) (c : OutputCall) (reason : ℕ) :
    ∃ m, (a.foutput now c reason).1.view =
        (if a.fillMaxseg.outputNow c then a.view.ackAt a.rcv_nxt_ m else a.view) ∧
      (a.state_.outflags &&& thSyn = 0 → m = a.mark) := by
  unfold foutput
  split_ifs with h
  · let x := a.fillMaxseg
    let r := x.ecnFlags (x.outputFlags c) (x.outputLen c) (c.seqno < x.maxseq_)
    let fin : Bool := x.closes c ∧ x.state_.mayClose
    refine ⟨_, send_view { x with
      needclose := false
      state_ := if fin then .finWait1 else x.state_ } now c.seqno x.rcv_nxt_
        (if fin then r.1 ||| thFin else r.1) (x.outputLen c) reason, ?_⟩
    intro hs
    have hece : (if fin then r.1 ||| thFin else r.1) &&& thEce = r.1 &&& thEce := by
      have hfin : thFin &&& thEce = 0 := by decide
      split_ifs
      · rw [Nat.and_or_distrib_right, hfin, Nat.or_zero]
      · rfl
    have hr := ecnFlags_thEce x (outputFlags_thSyn x c hs) (outputFlags_thEce x c)
      (x.outputLen c) (c.seqno < x.maxseq_)
    have hx : x.mark = a.mark := rfl
    rw [hece]
    change (a.mark || _) = a.mark
    cases hm : a.mark with
    | true => rfl
    | false =>
      have : ¬ r.1 &&& thEce ≠ 0 := fun h => by
        have := hr h
        rw [hx, hm] at this
        cases this
      simpa using this
  · exact ⟨a.mark, rfl, fun _ => rfl⟩

/-! ## What output leaves as it is -/

/-- Packets were sent, and no data received. -/
structure Grows (a b : DctcpReceiver) : Prop where
  /-- `ecn_`. -/
  ecn : b.ecn_ = a.ecn_
  /-- `ect_`. -/
  ect : b.ect_ = a.ect_
  /-- `dctcp_`. -/
  dctcp : b.dctcp_ = a.dctcp_
  /-- The last CE bit seen. -/
  ce : b.recent_ce_ = a.recent_ce_
  /-- No data was received. -/
  received : b.received = a.received
  /-- Packets were sent. -/
  sent : ∃ l, b.sent = a.sent ++ l

/-- `foutput` was called a number of times. -/
structure Frame (a b : DctcpReceiver) : Prop extends Grows a b where
  /-- The CE bit changed with the last segment. -/
  transition : b.ce_transition = a.ce_transition
  /-- The reassembly queue, with `rcv_nxt_`. -/
  rq : b.rq_ = a.rq_
  /-- The state: a `FIN` may have been sent. -/
  state : b.state_ = a.state_ ∨ (a.state_.mayClose = true ∧ b.state_ = .finWait1)

theorem Grows.refl (a : DctcpReceiver) : Grows a a :=
  ⟨rfl, rfl, rfl, rfl, rfl, [], by simp⟩

theorem Grows.trans (h : Grows a b) (h' : Grows b c) : Grows a c where
  ecn := h'.ecn.trans h.ecn
  ect := h'.ect.trans h.ect
  dctcp := h'.dctcp.trans h.dctcp
  ce := h'.ce.trans h.ce
  received := h'.received.trans h.received
  sent := by
    obtain ⟨l, hl⟩ := h.sent
    obtain ⟨l', hl'⟩ := h'.sent
    exact ⟨l ++ l', by rw [hl', hl, List.append_assoc]⟩

theorem Grows.mark (h : Grows a b) : b.mark = a.mark := by
  unfold DctcpReceiver.mark
  rw [h.ecn, h.ect, h.ce]

/-- The acknowledgments sent before are still there. -/
theorem Grows.acks (h : Grows a b) : ∃ l, b.view.acks = a.view.acks ++ l := by
  obtain ⟨l, hl⟩ := h.sent
  exact ⟨l.map fun p => ⟨p.tcph.ackno_, p.fh.ecnecho⟩, by unfold view; rw [hl, List.map_append]⟩

theorem Grows.settled (h : Grows a b) (hs : a.view.Settled) : b.view.Settled := by
  obtain ⟨l, hl⟩ := h.acks
  exact hs.of_append h.received hl

theorem Frame.refl (a : DctcpReceiver) : Frame a a :=
  { Grows.refl a with transition := rfl, rq := rfl, state := Or.inl rfl }

theorem Frame.trans (h : Frame a b) (h' : Frame b c) : Frame a c where
  toGrows := h.toGrows.trans h'.toGrows
  transition := h'.transition.trans h.transition
  rq := h'.rq.trans h.rq
  state := by
    rcases h'.state with hs' | ⟨hm', hs'⟩
    · rw [hs']
      exact h.state
    · rcases h.state with hs | ⟨hm, -⟩
      · exact Or.inr ⟨hs ▸ hm', hs'⟩
      · exact Or.inr ⟨hm, hs'⟩

theorem foutput_frame (a : DctcpReceiver) (now : ℚ) (c : OutputCall) (reason : ℕ) :
    Frame a (a.foutput now c reason).1 := by
  unfold foutput
  split_ifs with h
  · obtain ⟨hrq, hecn, hect, hdctcp, hce, -⟩ := count_frame a.toFullTcpAgent now a.rcv_nxt_
      (a.fillMaxseg.outputLen c) reason
    refine ⟨⟨hecn, hect, hdctcp, hce, rfl, ⟨_, rfl⟩⟩, rfl, hrq, ?_⟩
    by_cases hf : (a.fillMaxseg.closes c = true ∧ a.state_.mayClose = true)
    · exact Or.inr ⟨hf.2, if_pos (decide_eq_true hf)⟩
    · exact Or.inl (if_neg (mt of_decide_eq_true hf))
  · exact ⟨⟨rfl, rfl, rfl, rfl, rfl, [], by simp [fillMaxseg]⟩, rfl, rfl, Or.inl rfl⟩

/-- The state after output has no `SYN` in its flags if the one before has none. -/
theorem Frame.noSyn (h : Frame a b) (hs : a.state_.outflags &&& thSyn = 0) :
    b.state_.outflags &&& thSyn = 0 := by
  rcases h.state with h' | ⟨-, h'⟩
  · rw [h', hs]
  · rw [h']
    rfl

theorem sendLoop_frame (now : ℚ) (reason : ℕ) (l : List OutputCall) (a : DctcpReceiver) :
    Frame a (sendLoop now reason a l) := by
  induction l generalizing a with
  | nil => exact Frame.refl a
  | cons c l ih =>
    have hc := foutput_frame a now c reason
    unfold sendLoop
    simp only
    split_ifs
    · exact hc
    · exact hc.trans (ih _)

theorem sendMuch_frame (a : DctcpReceiver) (now : ℚ) (force : Bool) (reason : ℕ)
    (calls : OutputCalls) : Frame a (a.sendMuch now force reason calls) :=
  sendLoop_frame now reason _ a

/-! ## What output does -/

/-- Without a `SYN`, `foutput` acknowledges once or not at all. -/
theorem foutput_acks (a : DctcpReceiver) (now : ℚ) (c : OutputCall) (reason : ℕ)
    (hs : a.state_.outflags &&& thSyn = 0) :
    (a.foutput now c reason).1.view =
      a.view.ackTimes (if a.fillMaxseg.outputNow c then 1 else 0) := by
  obtain ⟨m, hm, hmark⟩ := foutput_view a now c reason
  rw [hm, hmark hs]
  split_ifs <;> rfl

/-- Without a `SYN`, all that is sent is acknowledgments of what was received. -/
theorem sendLoop_acks (now : ℚ) (reason : ℕ) (l : List OutputCall) (a : DctcpReceiver)
    (hs : a.state_.outflags &&& thSyn = 0) :
    ∃ k, (sendLoop now reason a l).view = a.view.ackTimes k := by
  induction l generalizing a with
  | nil => exact ⟨0, rfl⟩
  | cons c l ih =>
    have hc := foutput_acks a now c reason hs
    unfold sendLoop
    simp only
    split_ifs
    · exact ⟨_, hc⟩
    · obtain ⟨k, hk⟩ := ih _ ((foutput_frame a now c reason).noSyn hs)
      exact ⟨_, by rw [hk, hc, Receiver.ackTimes_add]⟩

theorem sendMuch_acks (a : DctcpReceiver) (now : ℚ) (force : Bool) (reason : ℕ)
    (calls : OutputCalls) (hs : a.state_.outflags &&& thSyn = 0) :
    ∃ k, (a.sendMuch now force reason calls).view = a.view.ackTimes k :=
  sendLoop_acks now reason _ a hs

/-- An ACK that is owed is sent. -/
theorem outputNow_of_acknow (h : a.acknow = true) (c : OutputCall) :
    a.fillMaxseg.outputNow c = true := by
  have h' : a.fillMaxseg.acknow = true := h
  unfold outputNow
  simp [h']

/-- If `send_much` has to send and an ACK is owed, an acknowledgment is sent. -/
theorem sendMuch_force (a : DctcpReceiver) (now : ℚ) (reason : ℕ) (calls : OutputCalls)
    (hs : a.state_.outflags &&& thSyn = 0) (ha : a.acknow = true) :
    ∃ k, (a.sendMuch now true reason calls).view = a.view.ackTimes (k + 1) := by
  have hc := foutput_acks a now calls.first reason hs
  rw [if_pos (outputNow_of_acknow ha _)] at hc
  unfold sendMuch
  rw [if_pos rfl]
  unfold sendLoop
  simp only
  split_ifs
  · exact ⟨0, hc⟩
  · obtain ⟨k, hk⟩ := sendLoop_acks now reason calls.more _
      ((foutput_frame a now calls.first reason).noSyn hs)
    exact ⟨k, by rw [hk, hc, Receiver.ackTimes_add, Nat.add_comm]⟩

end DctcpReceiver

end Ns2.Tcp
