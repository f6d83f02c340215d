import Ns2.Tcp.DctcpInput

/-!
# Runs of the DCTCP receiver

The invariant holds after every step that meets the condition, and such a step announces a
change of the bit.

* `recv_receiving` — `recv`, while data may arrive.
* `recv_handshake`, `recv_finReceived` — `recv` before and after that.
* `step_good` — a step.
* `echoes_run` — runs whose steps meet the condition.
* `not_echoes_run` — a run with a segment whose CE bit is looked at twice.
-/

namespace Ns2.Tcp

open Echo

namespace DctcpReceiver

variable {a b : DctcpReceiver} {p : TcpPacket} {w : RecvWork}

/-! ## While data may arrive -/

theorem noteTs_eq (a : DctcpReceiver) (now : ℚ) (seqno : ℤ) (p : TcpPacket) :
    ∃ r s, a.noteTs now seqno p = { a with recent_ := r, recent_age_ := s } := by
  unfold noteTs
  split_ifs <;> exact ⟨_, _, rfl⟩

theorem forgetTs_eq (a : DctcpReceiver) (p : TcpPacket) :
    ∃ r, a.forgetTs p = { a with recent_ := r } := by
  unfold forgetTs
  split_ifs <;> exact ⟨_, rfl⟩

theorem owe_false (a : DctcpReceiver) : a.owe false = a := by
  unfold owe
  rw [Bool.or_false]

/-- What `recv` does to the receiver before the ACK processing. -/
theorem slowPath_eq (hs : ¬ (a.state_ = .lastAck ∧ p.has thFin = true)) (hp : a.InOrder p)
    (now : ℚ) (hdrop : a.dropsTs now p = false) :
    ∃ r s, a.slowPath now p w =
      ({ a with recent_ := r, recent_age_ := s } : DctcpReceiver).recvTrimmed now p (a.trim p)
        w := by
  obtain ⟨r, hr⟩ := forgetTs_eq a p
  have htrim : (a.forgetTs p).trim p = a.trim p := by
    rw [hr]
    rfl
  have hdup : (a.trim p).dupseg = false := by rw [hp.trim_eq]
  obtain ⟨r', s, hr'⟩ := noteTs_eq (a.forgetTs p) now (a.trim p).seqno p
  refine ⟨r', s, ?_⟩
  unfold slowPath
  rw [if_neg hs, if_neg (by simp [hdrop])]
  simp only
  rw [htrim, hdup, owe_false, hr', hr]

/-- Without header prediction. -/
theorem slowPath_good (ha : a.Inv) (hs : a.state_.receiving = true) (hp : a.InOrder p)
    (now : ℚ) (hok : a.Pending → a.drops now p = false → a.SlowEchoes p w) :
    Good a (a.slowPath now p w) := by
  have hfin := receiving_not_finReceived hs
  obtain ⟨hg, hd⟩ := hp.plain hfin
  have hlast : ¬ (a.state_ = .lastAck ∧ p.has thFin = true) := by
    rintro ⟨hst, -⟩
    rw [hst] at hs
    cases hs
  cases hdrop : a.dropsTs now p with
  | true =>
    unfold slowPath
    rw [if_neg hlast, if_pos hdrop]
    exact ⟨ha.dropAfterAck now w, fun _ hne => absurd (dropAfterAck_mark a now w) hne⟩
  | false =>
    obtain ⟨r, s, heq⟩ := slowPath_eq (w := w) hlast hp now hdrop
    rw [heq]
    have hb : ({ a with recent_ := r, recent_age_ := s } : DctcpReceiver).Inv :=
      ha.congr rfl rfl rfl rfl rfl rfl
    have hok' : a.Pending → p.tcph.tcp_flags_ &&& thAck ≠ 0 → a.SlowEchoes p w := by
      intro hpend hack
      apply hok hpend
      unfold drops
      simp [hdrop, hack]
    have hgood := recvTrimmed_good hb hs hok' hp.noSyn
      ⟨hg.nonneg, hg.flags, hg.seqno, hg.dupseg⟩ hd hp.ect now
    exact ⟨hgood.inv, hgood.announced⟩

/-- A segment that is predicted has no `FIN`. -/
theorem predictOk_noFin (h : a.predictOk p = true) : p.has thFin = false := by
  unfold predictOk at h
  rw [decide_eq_true_eq] at h
  have hfin : p.tcph.tcp_flags_ &&& thFin = thAck &&& thFin := by
    rw [← h.2.1, Nat.and_assoc]
    rfl
  unfold TcpPacket.has
  rw [hfin]
  rfl

/-- A segment that is predicted is not dropped. -/
theorem predictOk_not_drops (h : a.predictOk p = true) (now : ℚ) : a.drops now p = false := by
  unfold predictOk at h
  rw [decide_eq_true_eq] at h
  obtain ⟨-, hflags, -, hts, -⟩ := h
  have hack : p.tcph.tcp_flags_ &&& thAck ≠ 0 := by
    have hmask : p.tcph.tcp_flags_ &&& (thSyn ||| thFin ||| thAck) &&& thAck =
        p.tcph.tcp_flags_ &&& thAck := by
      rw [Nat.and_assoc]
      rfl
    rw [← hmask, hflags]
    decide
  have hold : a.oldTs p = false := by
    unfold oldTs
    rw [decide_eq_false_iff_not]
    rintro ⟨h₁, h₂, -, h₄⟩
    rcases hts with h | h | h
    · exact h h₁
    · exact h₂ h
    · exact absurd h₄ (not_lt.mpr h)
  unfold drops dropsTs
  simp [hack, hold]

theorem Inv.noteTs (ha : a.Inv) (now : ℚ) (seqno : ℤ) (p : TcpPacket) :
    (a.noteTs now seqno p).Inv := by
  obtain ⟨r, s, hr⟩ := noteTs_eq a now seqno p
  rw [hr]
  exact ha.congr rfl rfl rfl rfl rfl rfl

theorem InOrder.noteTs (hp : a.InOrder p) (now : ℚ) (seqno : ℤ) :
    (a.noteTs now seqno p).InOrder p := by
  obtain ⟨r, s, hr⟩ := noteTs_eq a now seqno p
  rw [hr]
  exact ⟨hp.noSyn, hp.nonneg, hp.seqno, hp.last, hp.ect⟩

theorem Good.of_noteTs {now : ℚ} {seqno : ℤ} (h : Good (a.noteTs now seqno p) b) : Good a b := by
  obtain ⟨r, s, hr⟩ := noteTs_eq a now seqno p
  rw [hr] at h
  exact ⟨h.inv, h.announced⟩

/-- A segment whose CE bit has been looked at, and is looked at again. -/
theorem slowPath_ecnBlock_good (ha : a.Inv) (hs : a.state_.receiving = true) (hp : a.InOrder p)
    (now : ℚ) (hfin : p.has thFin = false) (hno : a.Pending → a.turns p = false) :
    Good a ((a.ecnBlock p p.datalen).slowPath now p w) := by
  have hT : Turned a p False (a.ecnBlock p p.datalen) := by
    refine turned_ecnBlock ha hs (fun hpend ht => ?_) fun _ _ _ => id
    rw [hno hpend] at ht
    cases ht
  have hb := (hT.ready (ha.receiving_of (receiving_not_finReceived hs)).2).inv
  have hce := ecnBlock_recent_ce_ ha.ecn ha.dctcp p
  obtain ⟨t, e, heq⟩ := ecnBlock_eq a p p.datalen
  rw [heq] at hb hce ⊢
  have hpb : ({ a with ce_transition := t, recent_ce_ := e } : DctcpReceiver).InOrder p :=
    ⟨hp.noSyn, hp.nonneg, hp.seqno, hp.last, hp.ect⟩
  -- while data is pending the bit is what it was
  have hsame : a.Pending → e = a.recent_ce_ := by
    intro hpend
    have hce' : e = if a.turns p then !a.recent_ce_ else a.recent_ce_ := hce
    rw [hno hpend] at hce'
    exact hce'
  have hgood := slowPath_good (w := w) hb hs hpb now (by
    intro hpend _
    have hpend' : a.Pending := hpend
    unfold SlowEchoes
    have hturns : ({ a with ce_transition := t, recent_ce_ := e } : DctcpReceiver).turns p =
        false := by
      rw [← hno hpend', hsame hpend']
      rfl
    rw [if_neg (by simp [hturns])]
    intro hst hreach
    rcases hreach.1 with hpos | hf
    · unfold stale at hst
      simp [hp.ect hpos, hpos] at hst
    · rw [hfin] at hf
      cases hf)
  refine ⟨hgood.inv, fun hpend => ?_⟩
  have hview : ({ a with ce_transition := t, recent_ce_ := e } : DctcpReceiver).view = a.view := by
    rw [hsame hpend]
    rfl
  rw [← hview]
  exact hgood.announced hpend

/-- Output after a pure ACK that was predicted. -/
theorem newack_good (ha : a.Inv) (hs : a.state_.receiving = true) (now : ℚ)
    (hno : a.Pending → a.turns p = false) :
    Good a (((a.ecnBlock p p.datalen).newack now p w.sender).sendMuch now false reasonNormal
      w.output) := by
  have hT : Turned a p False (a.ecnBlock p p.datalen) := by
    refine turned_ecnBlock ha hs (fun hpend ht => ?_) fun _ _ _ => id
    rw [hno hpend] at ht
    cases ht
  have hT' : Turned a p False ((a.ecnBlock p p.datalen).newack now p w.sender) :=
    hT.congr rfl rfl rfl rfl hT.state rfl rfl
  exact hT'.output ha (receiving_not_finReceived hs) (fun h => h.sendMuch now false _ _)
    (sendMuch_frame _ now false _ _).mark

/-- Data that was predicted. -/
theorem takeData_good (ha : a.Inv) (hs : a.state_.receiving = true) (hp : a.InOrder p) (now : ℚ)
    (hpos : 0 < p.datalen) (hb : Grows (((a.ecnBlock p p.datalen).echoTransition now
      w.immediate).takeData p p.datalen) b)
    (hinv : (((a.ecnBlock p p.datalen).echoTransition now w.immediate).takeData p
      p.datalen).Inv → b.Inv) : Good a b := by
  have hT : Turned a p True (a.ecnBlock p p.datalen) := by
    refine turned_ecnBlock ha hs (fun _ _ => trivial) fun _ _ hst => ?_
    unfold stale at hst
    simp [hp.ect hpos, hpos] at hst
  have hr := hT.ready (ha.receiving_of (receiving_not_finReceived hs)).2
  have hce : 0 < p.datalen → p.fh.ce = (a.ecnBlock p p.datalen).mark := fun _ => by
    rw [hT.mark, ce_eq ha hpos (hp.ect hpos)]
  have hm : b.mark = (a.ecnBlock p p.datalen).mark :=
    hb.mark.trans (echoTransition_frame _ now w.immediate).mark
  exact ⟨hinv (hr.accept trivial now w.immediate hp.nonneg hce).1,
    hT.announced hm fun _ hf => hr.accept_acks hf p p.datalen now w.immediate hb⟩

/-- What the header prediction makes of a segment. -/
theorem takePredicted_cases (a : DctcpReceiver) (now : ℚ) (p : TcpPacket) (w : RecvWork) :
    (p.datalen = 0 ∧ a.takePredicted now p w =
      ((a.newack now p w.sender).sendMuch now false reasonNormal w.output, true)) ∨
    (p.datalen ≠ 0 ∧ p.tcph.ackno_ = a.highest_ack_ ∧
      ∃ b, a.takePredicted now p w = (b, true) ∧
        (b = ((a.echoTransition now w.immediate).takeData p p.datalen).sendMuch now true
            reasonNormal w.output ∨
          b = (a.echoTransition now w.immediate).takeData p p.datalen)) ∨
    ((p.datalen = 0 ∨ p.tcph.ackno_ = a.highest_ack_ → p.datalen = 0 ∨ a.rq_.empty = false) ∧
      a.takePredicted now p w = (a, false)) := by
  unfold takePredicted
  simp only
  split_ifs with hzero hack hdata hneed
  · exact Or.inl ⟨hzero, rfl⟩
  · exact Or.inr (Or.inr ⟨fun _ => Or.inl hzero, rfl⟩)
  · exact Or.inr (Or.inl ⟨hzero, hdata.1, _, rfl, Or.inl rfl⟩)
  · exact Or.inr (Or.inl ⟨hzero, hdata.1, _, rfl, Or.inr rfl⟩)
  · refine Or.inr (Or.inr ⟨fun h => Or.inr ?_, rfl⟩)
    simpa using fun he => hdata ⟨h.resolve_left hzero, he⟩

/-- The header prediction. -/
theorem predict_good (ha : a.Inv) (hs : a.state_.receiving = true) (hp : a.InOrder p) (now : ℚ)
    (hpred : a.predicted p = true)
    (hok : a.Pending → 0 < p.datalen ∧ p.tcph.ackno_ = a.highest_ack_ ∨ a.turns p = false) :
    Good a (if (a.predict now p w).2 then (a.predict now p w).1
      else (a.predict now p w).1.slowPath now p w) := by
  unfold predicted at hpred
  rw [decide_eq_true_eq] at hpred
  have hfin := predictOk_noFin hpred.2
  have heq : a.predict now p w =
      ((a.noteTs now p.tcph.seqno_ p).ecnBlock p p.datalen).takePredicted now p w :=
    if_neg (by simp [hpred.1, hpred.2])
  rw [heq]
  -- the timestamp does not matter
  have hsame : (a.noteTs now p.tcph.seqno_ p).state_ = a.state_ ∧
      ((a.noteTs now p.tcph.seqno_ p).Pending ↔ a.Pending) ∧
      (a.noteTs now p.tcph.seqno_ p).highest_ack_ = a.highest_ack_ ∧
      (a.noteTs now p.tcph.seqno_ p).turns p = a.turns p := by
    obtain ⟨r, t, hr⟩ := noteTs_eq a now p.tcph.seqno_ p
    rw [hr]
    exact ⟨rfl, Iff.rfl, rfl, rfl⟩
  have hc := ha.noteTs now p.tcph.seqno_ p
  have hpc := hp.noteTs now p.tcph.seqno_
  suffices h : Good (a.noteTs now p.tcph.seqno_ p) _ from h.of_noteTs
  generalize a.noteTs now p.tcph.seqno_ p = c at hsame hc hpc ⊢
  obtain ⟨hst, hpending, hhigh, hturns⟩ := hsame
  rw [← hst] at hs
  rw [← hpending, ← hhigh, ← hturns] at hok
  have hempty := (hc.receiving_of (receiving_not_finReceived hs)).1
  have hx : (c.ecnBlock p p.datalen).rq_ = c.rq_ ∧
      (c.ecnBlock p p.datalen).highest_ack_ = c.highest_ack_ := by
    obtain ⟨u, e, hu⟩ := ecnBlock_eq c p p.datalen
    rw [hu]
    exact ⟨rfl, rfl⟩
  have hnn := hp.nonneg
  rcases takePredicted_cases (c.ecnBlock p p.datalen) now p w with
    ⟨hzero, h⟩ | ⟨hzero, -, b, h, hb⟩ | ⟨hcases, h⟩
  · rw [h]
    exact newack_good hc hs now fun hpend => (hok hpend).resolve_left fun h => by omega
  · rw [h]
    have hpos : 0 < p.datalen := by omega
    rcases hb with rfl | rfl
    · exact takeData_good hc hs hpc now hpos (sendMuch_frame _ now true _ _).toGrows
        fun h => h.sendMuch now true _ _
    · exact takeData_good hc hs hpc now hpos (Grows.refl _) id
  · rw [h]
    apply slowPath_ecnBlock_good hc hs hpc now hfin
    intro hpend
    refine (hok hpend).resolve_left fun h' => ?_
    rw [hx.1, hx.2, hempty] at hcases
    rcases hcases (Or.inr h'.2) with hz | hz
    · omega
    · cases hz

theorem recv_eq (hs : a.state_ ≠ .closed) (now : ℚ) (p : TcpPacket) (w : RecvWork) :
    a.recv now p w = if (a.predict now p w).2 then (a.predict now p w).1
      else (a.predict now p w).1.slowPath now p w := by
  unfold recv
  split
  · exact absurd ‹_› hs
  · rfl

/-- A segment that is not predicted. -/
theorem recv_of_not_predicted (hs : a.state_ ≠ .closed) (h : a.predicted p = false) (now : ℚ)
    (w : RecvWork) : a.recv now p w = a.slowPath now p w := by
  have heq : a.predict now p w = (a, false) := by
    apply if_pos
    unfold predicted at h
    rw [decide_eq_false_iff_not] at h
    by_contra hne
    exact h ⟨fun hn => hne (Or.inl hn), not_not.mp fun hp => hne (Or.inr hp)⟩
  rw [recv_eq hs, heq]
  rfl

/-- A segment, while data may arrive. -/
theorem recv_receiving (ha : a.Inv) (hs : a.state_.receiving = true) (hp : a.InOrder p) (now : ℚ)
    (hok : a.Pending → a.drops now p = false →
      if a.predicted p then 0 < p.datalen ∧ p.tcph.ackno_ = a.highest_ack_ ∨ a.turns p = false
      else a.SlowEchoes p w) : Good a (a.recv now p w) := by
  have hclosed : a.state_ ≠ .closed := by
    intro hst
    rw [hst] at hs
    cases hs
  cases hpred : a.predicted p with
  | true =>
    rw [hpred] at hok
    rw [recv_eq hclosed]
    apply predict_good ha hs hp now hpred
    intro hpend
    apply hok hpend
    unfold predicted at hpred
    rw [decide_eq_true_eq] at hpred
    exact predictOk_not_drops hpred.2 now
  | false =>
    rw [hpred] at hok
    rw [recv_of_not_predicted hclosed hpred]
    exact slowPath_good ha hs hp now hok

/-! ## Before and after -/

theorem not_predicted (hs : a.state_ ≠ .established) : a.predicted p = false := by
  unfold predicted predictOk
  simp [hs]

/-- A packet sent before any data was received. -/
theorem Inv.dropWithReset (ha : a.Inv) (hs : a.state_ = .synReceived) (now : ℚ) (seqno datalen : ℤ)
    {tiflags : TcpFlag} (hack : tiflags &&& thAck ≠ 0) :
    (a.dropWithReset now p seqno datalen tiflags).Inv := by
  unfold DctcpReceiver.dropWithReset
  rw [if_pos hack]
  obtain ⟨hrq, hecn, hect, hdctcp, -, -⟩ :=
    count_frame a.toFullTcpAgent now 0 0 reasonNormal
  have hview := send_view a now p.tcph.ackno_ 0 0 0 reasonNormal
  refine ⟨hecn.trans ha.ecn, hect.trans ha.ect, hdctcp.trans ha.dctcp, ?_⟩
  cases ha.phase with
  | handshake state received nonneg empty live =>
    have hempty : (a.send now p.tcph.ackno_ 0 0 0 reasonNormal).rq_.empty = true := by
      rw [← empty]
      exact congrArg ReassemblyQueue.empty hrq
    have hnext : (a.send now p.tcph.ackno_ 0 0 0 reasonNormal).rcv_nxt_ = a.rcv_nxt_ :=
      congrArg ReassemblyQueue.rcv_nxt_ hrq
    exact .handshake state received (hnext ▸ nonneg) hempty
      (hview ▸ live.ackAt received nonneg _)
  | receiving state =>
    rw [hs] at state
    cases state
  | finReceived state =>
    rw [hs] at state
    cases state

theorem Inv.handshake_of (ha : a.Inv) (hs : a.state_ = .synReceived) : a.received = [] := by
  cases ha.phase with
  | handshake _ received => exact received
  | receiving state =>
    rw [hs] at state
    cases state
  | finReceived state =>
    rw [hs] at state
    cases state

/-- After the trimming, during the handshake. -/
theorem recvTrimmed_handshake {g : Trim} (ha : a.Inv) (hs : a.state_ = .synReceived)
    (hsyn : p.tcph.tcp_flags_ &&& thSyn = 0) (hg : Plain a p g) (hd : g.datalen = p.datalen)
    (hect : 0 < p.datalen → p.fh.ect = true) (now : ℚ) : (a.recvTrimmed now p g w).Inv := by
  -- the handshake is over
  have hdone : ∀ st : TcpState, st.receiving = true →
      (({ a with state_ := st, needfin := false } : DctcpReceiver).recvAck now p g w).Inv := by
    intro st hst
    obtain ⟨empty, live⟩ := ha.receiving_of (by rw [hs]; rfl)
    exact (recvAck_good (a := { a with state_ := st, needfin := false })
      ⟨ha.ecn, ha.ect, ha.dctcp, .receiving hst empty live⟩ hst
      (fun hpend => absurd (ha.handshake_of hs) hpend.2)
      ⟨hg.nonneg, hg.flags, hg.seqno, hg.dupseg⟩ hd hect now).inv
  unfold recvTrimmed
  rw [hg.flags, if_neg (by simp [hsyn])]
  split_ifs with hack hbad hecho
  · exact ha
  · exact ha.dropWithReset hs now _ _ hack
  · apply Inv.foutput
    exact ha.congr rfl rfl rfl rfl rfl rfl
  · exact hdone _ rfl
  · exact hdone _ rfl

/-- The time stamps, and then the trimmed packet. -/
theorem slowPath_inv (ha : a.Inv) (hlast : ¬ (a.state_ = .lastAck ∧ p.has thFin = true))
    (hp : a.InOrder p) (now : ℚ)
    (htrim : ∀ r s, ({ a with recent_ := r, recent_age_ := s } : DctcpReceiver).Inv →
      (({ a with recent_ := r, recent_age_ := s } : DctcpReceiver).recvTrimmed now p (a.trim p)
        w).Inv) : (a.slowPath now p w).Inv := by
  cases hdrop : a.dropsTs now p with
  | true =>
    unfold slowPath
    rw [if_neg hlast, if_pos hdrop]
    exact ha.dropAfterAck now w
  | false =>
    obtain ⟨r, s, heq⟩ := slowPath_eq (w := w) hlast hp now hdrop
    rw [heq]
    exact htrim r s (ha.congr rfl rfl rfl rfl rfl rfl)

/-- During the handshake. -/
theorem recv_handshake (ha : a.Inv) (hs : a.state_ = .synReceived) (hp : a.InOrder p) (now : ℚ) :
    (a.recv now p w).Inv := by
  have hlast : ¬ (a.state_ = .lastAck ∧ p.has thFin = true) := by
    rintro ⟨hst, -⟩
    rw [hs] at hst
    cases hst
  obtain ⟨hg, hd⟩ := hp.plain (by rw [hs]; rfl)
  rw [recv_of_not_predicted (by simp [hs]) (not_predicted (by simp [hs]))]
  refine slowPath_inv ha hlast hp now fun r s hb => ?_
  exact recvTrimmed_handshake hb hs hp.noSyn ⟨hg.nonneg, hg.flags, hg.seqno, hg.dupseg⟩ hd hp.ect now

/-- The flags that are left have no `FIN`. -/
theorem clearFin (f : TcpFlag) : (if f &&& thFin ≠ 0 then f - thFin else f) &&& thFin = 0 := by
  have hbit : ∀ n : ℕ, (if n &&& 1 ≠ 0 then n - 1 else n) &&& 1 = 0 := by
    intro n
    simp only [Nat.and_one_is_mod]
    split_ifs with h <;> omega
  exact hbit f

/-- From `step6` on, after the `FIN`. -/
theorem step6_finReceived (ha : a.Inv) (hs : a.state_.finReceived = true) {g : Trim}
    (hd : g.datalen = 0) (hlast : a.state_ = .lastAck → g.tiflags &&& thFin = 0) (now : ℚ)
    (needoutput : Bool) : (a.step6 now p g needoutput w).Inv := by
  have hno : ¬ ((0 < g.datalen ∨ g.tiflags &&& thFin ≠ 0) ∧ a.state_.haveRcvdFin = false) := by
    rintro ⟨hpos | hf, hst⟩
    · omega
    · cases hst' : a.state_ <;> rw [hst'] at hs hst <;> revert hs hst
      case lastAck => exact fun _ _ => hf (hlast hst')
      all_goals decide
  unfold step6 acceptData
  rw [if_neg hno]
  apply Inv.closeIfDone
  apply Inv.finalOutput
  rw [processFin_of_not_fin (clearFin g.tiflags)]
  exact ha

theorem Inv.reset (ha : a.Inv) (hs : a.state_.finReceived = true) (h : b = { a with state_ := .closed }) :
    b.reset.Inv := by
  obtain ⟨-, settled⟩ := ha.finReceived_of hs
  rw [h]
  exact ⟨ha.ecn, ha.ect, ha.dctcp, .finReceived rfl rfl
    (settled.of_append rfl (List.append_nil _).symm)⟩

/-- After an ACK has been processed, after the `FIN`. -/
theorem processAck_finReceived (ha : a.Inv) (hs : a.state_.finReceived = true) {g : Trim}
    (hd : g.datalen = 0) (hlast : a.state_ = .lastAck → g.tiflags &&& thFin = 0) (now : ℚ) :
    (a.processAck now p g w).Inv := by
  have hn : (a.newack now p w.sender).Inv := ha.congr rfl rfl rfl rfl rfl rfl
  have hb : (if a.pack p then (a.newack now p w.sender).packAction now w
      else a.newack now p w.sender).Inv ∧
      (if a.pack p then (a.newack now p w.sender).packAction now w
        else a.newack now p w.sender).state_ = a.state_ := by
    unfold packAction
    split_ifs
    · exact ⟨hn.foutput now _ _, (foutput_frame _ now _ _).finReceived hs⟩
    · exact ⟨hn, rfl⟩
    · exact ⟨hn, rfl⟩
  unfold processAck
  by_cases hmax : p.tcph.ackno_ > a.maxseq_
  · rw [if_pos hmax]
    exact ha.dropAfterAck now w
  · rw [if_neg hmax]
    simp only
    generalize (if a.pack p = true then (a.newack now p w.sender).packAction now w
      else a.newack now p w.sender) = b at hb ⊢
    obtain ⟨hb, hst⟩ := hb
    rw [← hst] at hs hlast
    split_ifs with hours
    · cases hbs : b.state_ with
      | closing =>
        have hb' : ({ b with state_ := .closed } : DctcpReceiver).Inv := by
          obtain ⟨acked, settled⟩ := hb.finReceived_of hs
          exact ⟨hb.ecn, hb.ect, hb.dctcp, .finReceived rfl acked settled⟩
        apply step6_finReceived hb' rfl hd _ now
        exact fun h => nomatch h
      | lastAck => exact hb.reset hs rfl
      | finWait1 =>
        rw [hbs] at hs
        cases hs
      | closed | listen | synSent | synReceived | established | closeWait | finWait2 =>
        exact step6_finReceived hb hs hd hlast now _
    · exact step6_finReceived hb hs hd hlast now _

/-- The ACK processing, after the `FIN`. -/
theorem recvAck_finReceived (ha : a.Inv) (hs : a.state_.finReceived = true) {g : Trim}
    (hd : g.datalen = 0) (hlast : a.state_ = .lastAck → g.tiflags &&& thFin = 0) (now : ℚ) :
    (a.recvAck now p g w).Inv := by
  have hx : (a.ecnBlock p g.datalen).Inv ∧ (a.ecnBlock p g.datalen).state_ = a.state_ := by
    obtain ⟨t, e, heq⟩ := ecnBlock_eq a p g.datalen
    obtain ⟨acked, settled⟩ := ha.finReceived_of hs
    rw [heq]
    exact ⟨⟨ha.ecn, ha.ect, ha.dctcp,
      .finReceived hs acked (settled.of_append rfl (List.append_nil _).symm)⟩, rfl⟩
  unfold recvAck
  simp only
  generalize a.ecnBlock p g.datalen = b at hx ⊢
  obtain ⟨hb, hst⟩ := hx
  rw [← hst] at hs hlast
  have hbs : ({ b with sender := w.sender } : DctcpReceiver).Inv := hb.congr rfl rfl rfl rfl rfl rfl
  split_ifs with hle hdup
  · cases w.dupack with
    | none => exact step6_finReceived hbs hs hd hlast now false
    | some calls => exact hbs.sendLoop now _ calls
  · exact step6_finReceived hbs hs hd hlast now false
  · exact processAck_finReceived hb hs hd hlast now

/-- After the trimming, after the `FIN`. -/
theorem recvTrimmed_finReceived {g : Trim} (ha : a.Inv) (hs : a.state_.finReceived = true)
    (hst : a.state_ ≠ .synReceived) (hsyn : p.tcph.tcp_flags_ &&& thSyn = 0)
    (hd : g.datalen = 0) (hflags : g.tiflags = p.tcph.tcp_flags_)
    (hlast : ¬ (a.state_ = .lastAck ∧ p.has thFin = true)) (now : ℚ) :
    (a.recvTrimmed now p g w).Inv := by
  unfold recvTrimmed
  rw [hflags, if_neg (by simp [hsyn]), if_neg hst]
  split_ifs
  · exact ha
  · apply recvAck_finReceived ha hs hd _ now
    intro hst
    by_contra hf
    rw [hflags] at hf
    exact hlast ⟨hst, by unfold TcpPacket.has; simpa using hf⟩

/-- After the `FIN`. -/
theorem recv_finReceived (ha : a.Inv) (hs : a.state_.finReceived = true) (hp : a.InOrder p)
    (now : ℚ) : (a.recv now p w).Inv := by
  have hest : a.state_ ≠ .established ∧ a.state_ ≠ .synReceived := by
    constructor <;> intro hst <;> rw [hst] at hs <;> cases hs
  by_cases hclosed : a.state_ = .closed
  · unfold recv
    rw [hclosed]
    simp only
    split_ifs
    · exact ha.dropAfterAck now w
    · exact ha
  · rw [recv_of_not_predicted hclosed (not_predicted hest.1)]
    by_cases hlast : a.state_ = .lastAck ∧ p.has thFin = true
    · unfold slowPath
      rw [if_pos hlast]
      exact ha
    · have hg : (a.trim p).datalen = 0 ∧ (a.trim p).tiflags = p.tcph.tcp_flags_ := by
        rw [hp.trim_eq]
        exact ⟨hp.last hs, rfl⟩
      refine slowPath_inv ha hlast hp now fun r s hb => ?_
      exact recvTrimmed_finReceived hb hs hest.2 hp.noSyn hg.1 hg.2 hlast now

/-! ## Steps and runs -/

theorem Inv.advanceBytes (ha : a.Inv) (now : ℚ) (nb : ℤ) (calls : OutputCalls) :
    (a.advanceBytes now nb calls).Inv := by
  unfold DctcpReceiver.advanceBytes
  split
  · apply Inv.sendMuch
    exact ha.congr rfl rfl rfl rfl rfl rfl
  · exact ha.congr rfl rfl rfl rfl rfl rfl
  · exact ha.congr rfl rfl rfl rfl rfl rfl
  · exact ha

theorem advanceBytes_mark (a : DctcpReceiver) (now : ℚ) (nb : ℤ) (calls : OutputCalls) :
    (a.advanceBytes now nb calls).mark = a.mark := by
  unfold advanceBytes
  split
  · exact (sendMuch_frame _ now false _ calls).mark
  all_goals rfl

theorem Inv.timeoutRtx (ha : a.Inv) (now : ℚ) (s : SenderState) (calls : OutputCalls) :
    (a.timeoutRtx now s calls).Inv := by
  unfold DctcpReceiver.timeoutRtx
  split_ifs
  · exact ha
  · apply Inv.sendMuch
    exact ha.congr rfl rfl rfl rfl rfl rfl

theorem timeoutRtx_mark (a : DctcpReceiver) (now : ℚ) (s : SenderState) (calls : OutputCalls) :
    (a.timeoutRtx now s calls).mark = a.mark := by
  unfold timeoutRtx
  split_ifs
  · rfl
  · exact (sendMuch_frame _ now true _ calls).mark

theorem Inv.timeoutDelack (ha : a.Inv) (now : ℚ) (calls : OutputCalls) :
    (a.timeoutDelack now calls).Inv := by
  unfold DctcpReceiver.timeoutDelack
  split_ifs
  · exact ha
  · apply Inv.sendMuch
    exact ha.congr rfl rfl rfl rfl rfl rfl
  · exact ha

theorem timeoutDelack_mark (a : DctcpReceiver) (now : ℚ) (calls : OutputCalls) :
    (a.timeoutDelack now calls).mark = a.mark := by
  unfold timeoutDelack
  split_ifs
  · rfl
  · exact (sendMuch_frame _ now true _ calls).mark
  · rfl

/-- **A step.**  A step that meets the condition keeps the invariant, and announces a change
of the bit. -/
theorem step_good {e : Event} (ha : a.Inv) (hadm : a.Admissible e) (hok : a.Echoes e) :
    (a.step e).Inv ∧ a.Announces e := by
  have hgood : Good a (a.act e.now e.action) := by
    unfold Admissible at hadm
    unfold Echoes at hok
    unfold act
    cases hact : e.action with
    | recv p w =>
      rw [hact] at hadm hok
      cases ha.phase with
      | handshake state received =>
        exact ⟨recv_handshake ha state hadm e.now, fun hpend => absurd received hpend.2⟩
      | receiving state => exact recv_receiving ha state hadm e.now fun hpend => hok hpend state
      | finReceived state acked =>
        exact ⟨recv_finReceived ha state hadm e.now, fun hpend => absurd hpend.1 acked.not_lt⟩
    | advanceBytes nb calls =>
      exact ⟨ha.advanceBytes e.now nb calls,
        fun _ hne => absurd (advanceBytes_mark a e.now nb calls) hne⟩
    | usrclosed calls =>
      exact ⟨ha.usrclosed e.now calls,
        fun _ hne => absurd (usrclosed_grows a e.now calls).mark hne⟩
    | timeoutRtx s calls =>
      exact ⟨ha.timeoutRtx e.now s calls,
        fun _ hne => absurd (timeoutRtx_mark a e.now s calls) hne⟩
    | timeoutDelack calls =>
      exact ⟨ha.timeoutDelack e.now calls,
        fun _ hne => absurd (timeoutDelack_mark a e.now calls) hne⟩
  exact ⟨hgood.inv.congr rfl rfl rfl rfl rfl rfl, hgood.announced⟩

/-- **Marks are echoed.**  The first ACK of each byte received has the CE bit of the segment
that carried the byte. -/
def EchoesMarks (a : DctcpReceiver) : Prop := Faithful a.view.received a.view.acks

theorem Inv.echoesMarks (ha : a.Inv) : a.EchoesMarks := by
  cases ha.phase with
  | handshake _ _ _ _ live => exact live.faithful
  | receiving _ _ live => exact live.faithful
  | finReceived _ _ settled => exact settled.faithful

/-- **Runs echo marks.**  A run whose steps meet the condition echoes every mark, and
announces every change of the bit. -/
theorem echoes_run (h : a.Start) (es : List Event)
    (hadm : Run.AllSteps step Admissible a es) (hok : Run.AllSteps step Echoes a es) :
    (es.foldl step a).EchoesMarks ∧ Run.AllSteps step Announces a es := by
  have hsteps : Run.AllSteps step (fun a e => a.Admissible e ∧ a.Echoes e) a es :=
    (Run.allSteps_and a es).mpr ⟨hadm, hok⟩
  constructor
  · apply Inv.echoesMarks
    exact Run.foldl_invariant (I := fun _ b => b.Inv)
      (fun _ b e hb hbe => (step_good hb hbe.1 hbe.2).1) es [] a h.inv hsteps
  · exact Run.allSteps_imp (fun b e hb hbe => (step_good hb hbe.1 hbe.2).2)
      (fun b e hb hbe => (step_good hb hbe.1 hbe.2).1) es a h.inv hsteps

/-! ## Two runs -/

instance (a : DctcpReceiver) (p : TcpPacket) : Decidable (a.InOrder p) :=
  decidable_of_iff
    (p.tcph.tcp_flags_ &&& thSyn = 0 ∧ 0 ≤ p.datalen ∧
      (a.state_.finReceived = false → 0 < p.datalen ∨ p.has thFin = true →
        p.tcph.seqno_ = a.rcv_nxt_) ∧
      (a.state_.finReceived = true → p.datalen = 0) ∧ (0 < p.datalen → p.fh.ect = true))
    ⟨fun h => ⟨h.1, h.2.1, h.2.2.1, h.2.2.2.1, h.2.2.2.2⟩,
      fun h => ⟨h.noSyn, h.nonneg, h.seqno, h.last, h.ect⟩⟩

instance (a : DctcpReceiver) (e : Event) : Decidable (a.Admissible e) := by
  unfold Admissible
  split <;> infer_instance

instance (a : DctcpReceiver) : Decidable a.Pending := inferInstanceAs (Decidable (_ ∧ _))

instance (a : DctcpReceiver) (p : TcpPacket) (w : RecvWork) : Decidable (a.Reaches p w) :=
  have : Decidable (w.dupack = none) :=
    decidable_of_iff (w.dupack.isNone = true) Option.isNone_iff_eq_none
  inferInstanceAs (Decidable (_ ∧ _ ∧ _))

instance (a : DctcpReceiver) (p : TcpPacket) (w : RecvWork) : Decidable (a.SlowEchoes p w) := by
  unfold SlowEchoes
  infer_instance

instance (a : DctcpReceiver) (e : Event) : Decidable (a.Echoes e) := by
  unfold Echoes
  split <;> infer_instance

/-- A connection with 1000 bytes sent, and nothing received; every second segment is
ACKed. -/
def connected : DctcpReceiver where
  ts_option_ := false
  ts_option_size_ := 10
  tcpip_base_hdr_size_ := 40
  max_sack_blocks_ := 3
  sack_block_size_ := 8
  sack_option_size_ := 2
  ecn_ := true
  ecn_syn_ := false
  dctcp_ := true
  ecn_syn_next_ := false
  ect_ := true
  recent_ce_ := false
  recent_ := -1
  rq_ := ReassemblyQueue.new 1
  last_ack_sent_ := 1
  nackpack_ := 0
  ndatapack_ := 0
  ndatabytes_ := 0
  nrexmitpack_ := 0
  nrexmitbytes_ := 0
  last_send_time_ := 0
  newreno := false
  nopredict_ := false
  halfclose_ := false
  dupseg_fix_ := true
  data_on_syn_ := false
  nodelay_ := false
  SetCWRonRetransmit_ := true
  ecn_syn_wait_ := 0
  iss_ := 0
  size_ := 1000
  segs_per_ack_ := 2
  spa_thresh_ := 0
  wnd_ := 20
  maxseg_ := 1000
  state_ := .established
  irs_ := 0
  recent_age_ := -1
  infinite_send_ := false
  close_on_empty_ := false
  curseq_ := 1000
  highest_ack_ := 1
  maxseq_ := 1001
  t_seqno_ := 1001
  sender := { cwnd_ := 2, fastrecov_ := false, recover_ := 0, cong_action_ := false }
  acknow := false
  delack := false
  needfin := false
  needclose := false
  ce_transition := false
  received := []
  sent := []

/-- 1000 bytes from `seqno` on arrive, with the CE bit `ce`. -/
def dataArrives (seqno ackno : ℤ) (ce : Bool) : Event where
  now := 1
  action := .recv
    { tcph := { TcpPacket.alloc.tcph with
        seqno_ := seqno, ackno_ := ackno, tcp_flags_ := thAck ||| thPush, hlen_ := 40 }
      fh := { TcpPacket.alloc.fh with ect := true, ce := ce }
      size_ := 1040 }
    { sender := connected.sender
      dupack := none
      window := 2
      pipectrl_ := false
      immediate := ⟨⟨1001, 2, false⟩, []⟩
      output := ⟨⟨1001, 2, false⟩, []⟩
      close := ⟨⟨1001, 2, false⟩, []⟩ }
  t_seqno_ := 1001

theorem connected_start : connected.Start :=
  ⟨rfl, rfl, rfl, Or.inr rfl, by decide, rfl, rfl, rfl, rfl⟩

/-- The timer for delayed ACKs expires. -/
def delackExpires : Event where
  now := 2
  action := .timeoutDelack ⟨⟨1001, 2, false⟩, []⟩
  t_seqno_ := 1001

/-- A marked segment after one that is not; no data of ours is acknowledged. -/
theorem echoes_run_connected :
    ([dataArrives 1 1 false, dataArrives 1001 1 true, delackExpires].foldl step
        connected).EchoesMarks ∧
      Run.AllSteps step Announces connected
        [dataArrives 1 1 false, dataArrives 1001 1 true, delackExpires] :=
  echoes_run connected_start _ (by decide +kernel) (by decide +kernel)

/-- The marked segment acknowledges our data as well: both segments are acknowledged with
the mark. -/
theorem not_echoes_run :
    ¬ ∀ a : DctcpReceiver, a.Start → ∀ es : List Event, Run.AllSteps step Admissible a es →
      (es.foldl step a).EchoesMarks ∧ Run.AllSteps step Announces a es := by
  intro h
  have hmarks := (h connected connected_start [dataArrives 1 1 false, dataArrives 1001 1001 true]
    (by decide +kernel)).1
  have hreceived : ([dataArrives 1 1 false, dataArrives 1001 1001 true].foldl step
      connected).view.received = [⟨1, 1001, false⟩, ⟨1001, 2001, true⟩] := by decide +kernel
  have hacks : ([dataArrives 1 1 false, dataArrives 1001 1001 true].foldl step
      connected).view.acks = [⟨2001, true⟩] := by decide +kernel
  unfold EchoesMarks at hmarks
  rw [hreceived, hacks] at hmarks
  have hbit : true = false := hmarks ⟨1, 1001, false⟩ (by simp) 1 (by decide) (by decide)
    ⟨2001, true⟩ (by decide)
  cases hbit

end DctcpReceiver

end Ns2.Tcp
