import Ns2.Mptcp.Assignment

/-!
# What input changes

`recv` does not append to the stream and does not send data itself.  It sends one packet
at most, an acknowledgment.  At most it resets the connection.

* `Quiet` — input without output: the mappings and the history of packets are left alone.
* `Receives` — a subflow before and after a segment, with the acknowledgment it was
  answered by, if any.
* `recv_receives` — `recv`, in these terms; one lemma for each part of it.
* `usrclosed_spec` — what `usrclosed` leaves alone.
* `step_silent` — steps of the agent other than those of a subflow send nothing.
-/

namespace Ns2.Mptcp

open Ns2.Tcp

namespace MpFullTcpAgent

/-- A subflow before and after some input that is not answered. -/
structure Quiet (t t' : MpFullTcpAgent) : Prop where
  /-- The Tcl variables have not changed. -/
  config : t'.toConfig = t.toConfig
  /-- Nor have the mappings of what is sent. -/
  dsnmap : t'.mptcp_dsnmap_ = t.mptcp_dsnmap_
  /-- Nor have those of what is received. -/
  recvmap : t'.mptcp_recv_dsnmap_ = t.mptcp_recv_dsnmap_
  /-- The stream is what it was, or the connection was reset. -/
  curseq : t'.curseq_ = t.curseq_ ∨ t'.curseq_ = 0
  /-- Nothing was sent. -/
  sent : t'.sent = t.sent

/-- A subflow before and after a segment, with the data-level acknowledgment. -/
structure Receives (t : MpFullTcpAgent) (core : Core) (t' : MpFullTcpAgent) (core' : Core) :
    Prop where
  /-- The Tcl variables have not changed. -/
  config : t'.toConfig = t.toConfig
  /-- Nor have the mappings of what is sent. -/
  dsnmap : t'.mptcp_dsnmap_ = t.mptcp_dsnmap_
  /-- The stream is what it was, or the connection was reset. -/
  curseq : t'.curseq_ = t.curseq_ ∨ t'.curseq_ = 0
  /-- Nothing was sent, or a packet without data. -/
  answer : t'.sent = t.sent ∧ t'.mptcp_recv_dsnmap_ = t.mptcp_recv_dsnmap_ ∧ core' = core ∨
    ∃ p, t'.sent = t.sent ++ [p] ∧ p.datalen = 0 ∧ AckOption t t' core core' p.ackno p.flags

variable {t t' t'' : MpFullTcpAgent} {core core' : Core} {p : Packet}
  {seqno ackno datalen size : ℤ} {tiflags hflags : TcpFlag}

namespace Quiet

theorem refl (t : MpFullTcpAgent) : Quiet t t := ⟨rfl, rfl, rfl, Or.inl rfl, rfl⟩

theorem trans (h : Quiet t t') (h' : Quiet t' t'') : Quiet t t'' := by
  refine ⟨h'.config.trans h.config, h'.dsnmap.trans h.dsnmap, h'.recvmap.trans h.recvmap, ?_,
    h'.sent.trans h.sent⟩
  rcases h'.curseq with heq | hzero
  · rw [heq]
    exact h.curseq
  · exact Or.inr hzero

/-- Input that touches neither the mappings nor the stream. -/
theorem of_eq (hconfig : t'.toConfig = t.toConfig) (hmap : t'.mptcp_dsnmap_ = t.mptcp_dsnmap_)
    (hrecv : t'.mptcp_recv_dsnmap_ = t.mptcp_recv_dsnmap_) (hcur : t'.curseq_ = t.curseq_)
    (hsent : t'.sent = t.sent) : Quiet t t' :=
  ⟨hconfig, hmap, hrecv, Or.inl hcur, hsent⟩

theorem receives (h : Quiet t t') (core : Core) : Receives t core t' core :=
  ⟨h.config, h.dsnmap, h.curseq, Or.inl ⟨h.sent, h.recvmap, rfl⟩⟩

/-- Quiet input before a segment. -/
theorem before (h : Quiet t t') (h' : Receives t' core t'' core') : Receives t core t'' core' := by
  obtain ⟨hconfig, hdsnmap, hcurseq, hanswer⟩ := h'
  refine ⟨hconfig.trans h.config, hdsnmap.trans h.dsnmap, ?_, ?_⟩
  · rcases hcurseq with heq | hzero
    · rw [heq]
      exact h.curseq
    · exact Or.inr hzero
  · unfold AckOption at hanswer ⊢
    rw [h.sent, h.recvmap] at hanswer
    exact hanswer

/-- Quiet input after a segment. -/
theorem after (h : Quiet t' t'') (h' : Receives t core t' core') : Receives t core t'' core' := by
  obtain ⟨hconfig, hdsnmap, hcurseq, hanswer⟩ := h'
  refine ⟨h.config.trans hconfig, h.dsnmap.trans hdsnmap, ?_, ?_⟩
  · rcases h.curseq with heq | hzero
    · rw [heq]
      exact hcurseq
    · exact Or.inr hzero
  · unfold AckOption at hanswer ⊢
    rw [h.sent, h.recvmap]
    exact hanswer

/-- Quiet input after something that touches neither the mappings nor the stream. -/
theorem since {t₁ : MpFullTcpAgent} (h : Quiet t₁ t') (hconfig : t₁.toConfig = t.toConfig)
    (hmap : t₁.mptcp_dsnmap_ = t.mptcp_dsnmap_)
    (hrecv : t₁.mptcp_recv_dsnmap_ = t.mptcp_recv_dsnmap_) (hcur : t₁.curseq_ = t.curseq_)
    (hsent : t₁.sent = t.sent) : Quiet t t' :=
  (of_eq hconfig hmap hrecv hcur hsent).trans h

end Quiet

/-- A segment after something that touches neither the mappings nor the stream. -/
theorem Receives.since {t₁ : MpFullTcpAgent} (h : Receives t₁ core t' core')
    (hconfig : t₁.toConfig = t.toConfig) (hmap : t₁.mptcp_dsnmap_ = t.mptcp_dsnmap_)
    (hrecv : t₁.mptcp_recv_dsnmap_ = t.mptcp_recv_dsnmap_) (hcur : t₁.curseq_ = t.curseq_)
    (hsent : t₁.sent = t.sent) : Receives t core t' core' :=
  (Quiet.of_eq hconfig hmap hrecv hcur hsent).before h

/-- Whatever is sent carries no data. -/
theorem Receives.sent (h : Receives t core t' core') :
    ∃ l, t'.sent = t.sent ++ l ∧ ∀ p ∈ l, p.datalen = 0 := by
  rcases h.answer with ⟨hsent, -⟩ | ⟨p, hsent, hlen, -⟩
  · exact ⟨[], by rw [hsent, List.append_nil], by simp⟩
  · exact ⟨[p], hsent, by simpa using hlen⟩

/-- `usrclosed` changes the state and the end of the stream only. -/
theorem usrclosed_spec (t : MpFullTcpAgent) :
    t.usrclosed.toConfig = t.toConfig ∧ t.usrclosed.mptcp_dsnmap_ = t.mptcp_dsnmap_ ∧
      t.usrclosed.mptcp_recv_dsnmap_ = t.mptcp_recv_dsnmap_ ∧ t.usrclosed.sent = t.sent ∧
      t.usrclosed.curseq_ = t.maxseq_ - 1 := by
  unfold usrclosed
  simp only
  split
  all_goals exact ⟨rfl, rfl, rfl, rfl, rfl⟩

/-! ## The parts of `recv` -/

theorem reset_quiet (h : t.reset = some t') : Quiet t t' := by
  obtain ⟨h1, h2, h3, h4, h5, -⟩ := reset_spec h
  exact ⟨h1, h2, h3, Or.inr h5, h4⟩

theorem processAck_quiet {b : Bool} (h : t.processAck ackno = some (t', b)) : Quiet t t' := by
  unfold processAck at h
  split at h
  · cases h
    exact Quiet.of_eq rfl rfl rfl rfl rfl
  · simp only at h
    split at h
    · split at h
      · cases h
        exact Quiet.of_eq rfl rfl rfl rfl rfl
      · cases h
        exact Quiet.of_eq rfl rfl rfl rfl rfl
      · obtain ⟨r, hr, heq⟩ := Option.map_eq_some_iff.mp h
        cases heq
        exact (reset_quiet hr).since rfl rfl rfl rfl rfl
      · cases h
        exact Quiet.of_eq rfl rfl rfl rfl rfl
    · cases h
      exact Quiet.of_eq rfl rfl rfl rfl rfl

theorem acceptData_quiet {flags : TcpFlag}
    (h : t.acceptData seqno datalen size tiflags hflags = some (t', flags)) : Quiet t t' := by
  unfold acceptData at h
  split at h
  · split at h
    · cases h
      exact Quiet.of_eq rfl rfl rfl rfl rfl
    · obtain ⟨r, -, heq⟩ := Option.map_eq_some_iff.mp h
      cases heq
      exact Quiet.of_eq rfl rfl rfl rfl rfl
  · cases h
    exact Quiet.refl _

theorem processFin_quiet (t : MpFullTcpAgent) (tiflags : TcpFlag) :
    Quiet t (t.processFin tiflags) := by
  unfold processFin
  split
  · simp only
    have hfin : Quiet t
        (if t.state_.haveRcvdFin then t
          else { t.setRcvNxt (t.rcv_nxt_ + 1) with acknow := true }) := by
      split
      · exact Quiet.refl t
      · exact Quiet.of_eq rfl rfl rfl rfl rfl
    split
    all_goals exact hfin.trans (Quiet.of_eq rfl rfl rfl rfl rfl)
  · exact Quiet.refl t

theorem step6_quiet
    (h : t.step6 core seqno datalen size tiflags hflags = some (t', core')) :
    Quiet t t' ∧ core' = core := by
  obtain ⟨⟨r, flags⟩, hr, heq⟩ := Option.map_eq_some_iff.mp h
  cases heq
  exact ⟨(acceptData_quiet hr).trans (processFin_quiet r flags), rfl⟩

theorem ackThenStep6_quiet
    (h : t.ackThenStep6 core ackno seqno datalen size tiflags hflags = some (t', core')) :
    Quiet t t' ∧ core' = core := by
  obtain ⟨⟨r, b⟩, hr, h2⟩ := Option.bind_eq_some_iff.mp h
  have hack := processAck_quiet hr
  simp only at h2
  split at h2
  · cases h2
    exact ⟨hack, rfl⟩
  · obtain ⟨hquiet, hcore⟩ := step6_quiet h2
    exact ⟨hack.trans hquiet, hcore⟩

/-- A packet without data. -/
theorem sendpacket_receives {pflags : TcpFlag}
    (h : t.sendpacket core seqno ackno pflags 0 = some (t', core')) :
    Receives t core t' core' := by
  obtain ⟨p, hout, -, hlen, hflags, hack, -, -, hopt⟩ := sendpacket_spec h
  refine ⟨hout.frame.config, (hout.nodata hlen).1, Or.inl hout.frame.curseq,
    Or.inr ⟨p, hout.sent, hlen, ?_⟩⟩
  rw [hflags, hack]
  exact hopt

theorem step6_receives
    (h : t.step6 core seqno datalen size tiflags hflags = some (t', core')) :
    Receives t core t' core' := by
  obtain ⟨hquiet, rfl⟩ := step6_quiet h
  exact hquiet.receives core'

theorem ackThenStep6_receives
    (h : t.ackThenStep6 core ackno seqno datalen size tiflags hflags = some (t', core')) :
    Receives t core t' core' := by
  obtain ⟨hquiet, rfl⟩ := ackThenStep6_quiet h
  exact hquiet.receives core'

theorem dropWithReset_receives
    (h : t.dropWithReset core p seqno datalen tiflags = some (t', core')) :
    Receives t core t' core' := by
  unfold dropWithReset at h
  split at h
  · exact sendpacket_receives h
  · exact sendpacket_receives h

theorem recvListen_receives (h : t.recvListen core p = some (t', core')) :
    Receives t core t' core' := by
  unfold recvListen at h
  split at h
  · exact dropWithReset_receives h
  · split at h
    · cases h
      exact (Quiet.refl _).receives _
    · exact (step6_receives h).since rfl rfl rfl rfl rfl

theorem recvSynSent_receives (h : t.recvSynSent core p = some (t', core')) :
    Receives t core t' core' := by
  unfold recvSynSent at h
  split at h
  · exact dropWithReset_receives h
  · split at h
    · cases h
      exact (Quiet.refl _).receives _
    · simp only at h
      split at h
      · obtain ⟨⟨r, c⟩, hr, h2⟩ := Option.bind_eq_some_iff.mp h
        obtain ⟨hquiet, rfl⟩ := ackThenStep6_quiet h2
        exact (hquiet.after (sendpacket_receives hr)).since rfl rfl rfl rfl rfl
      · exact (step6_receives h).since rfl rfl rfl rfl rfl

theorem recvAck_receives {g : Trimmed} {dupack : Bool}
    (h : t.recvAck core p g dupack = some (t', core')) : Receives t core t' core' := by
  unfold recvAck at h
  split at h
  · split at h
    · cases h
      exact (Quiet.refl _).receives _
    · exact step6_receives h
  · exact ackThenStep6_receives h

theorem recvSynchronized_receives {dupack : Bool}
    (h : t.recvSynchronized core p dupack = some (t', core')) : Receives t core t' core' := by
  unfold recvSynchronized at h
  simp only at h
  split at h
  · cases h
    exact (Quiet.refl _).receives _
  · apply Quiet.before (Quiet.of_eq rfl rfl rfl rfl rfl : Quiet t
      { t with acknow := t.acknow || (t.trim p).dupseg })
    split at h
    · exact dropWithReset_receives h
    · split at h
      · cases h
        exact (Quiet.refl _).receives _
      · split at h
        · split at h
          · exact dropWithReset_receives h
          · exact (recvAck_receives h).since rfl rfl rfl rfl rfl
        · exact recvAck_receives h

/-- `recv` does not append to the stream, and sends at most an acknowledgment. -/
theorem recv_receives {cong : Congestion} {dupack : Bool}
    (h : t.recv core p cong dupack = some (t', core')) : Receives t core t' core' := by
  unfold recv at h
  simp only at h
  apply Quiet.before (Quiet.of_eq rfl rfl rfl rfl rfl : Quiet t { t with cong := cong })
  split at h
  · cases h
    split
    · exact ((Quiet.refl _).receives _).since rfl rfl rfl rfl rfl
    · exact (Quiet.refl _).receives _
  · exact recvListen_receives h
  · exact recvSynSent_receives h
  · exact recvSynchronized_receives h

end MpFullTcpAgent

/-- Requests and turns of `send_control` send nothing and report nothing. -/
theorem MptcpAgent.step_silent {s s' : MptcpAgent} {a : Action} (hne : ∀ id o, a ≠ .subflow id o)
    (h : s.step a = some s') : s'.core = s.core ∧
      ∀ i, (s'.subflows_ i).sent = (s.subflows_ i).sent ∧
        (s'.subflows_ i).mptcp_recv_dsnmap_ = (s.subflows_ i).mptcp_recv_dsnmap_ := by
  cases a with
  | sendmsg nbytes =>
    cases h
    unfold request
    split
    all_goals exact ⟨rfl, fun i => ⟨rfl, rfl⟩⟩
  | sendControl id =>
    unfold MptcpAgent.step at h
    simp only at h
    split at h
    · rename_i hturn
      rcases assign_spec hturn.2 h with rfl | ⟨n, t', -, -, hadv, rfl⟩
      · exact ⟨rfl, fun i => ⟨rfl, rfl⟩⟩
      · obtain ⟨-, -, -, hmap, hsent⟩ := MpFullTcpAgent.advance_spec hadv
        refine ⟨rfl, fun i => ?_⟩
        show (Function.update s.subflows_ id t' i).sent = _ ∧
          (Function.update s.subflows_ id t' i).mptcp_recv_dsnmap_ = _
        by_cases hi : i = id
        · subst hi
          rw [Function.update_self]
          exact ⟨hsent, hmap⟩
        · rw [Function.update_of_ne hi]
          exact ⟨rfl, rfl⟩
    · cases h
      exact ⟨rfl, fun i => ⟨rfl, rfl⟩⟩
  | subflow id o => exact absurd rfl (hne id o)

end Ns2.Mptcp
