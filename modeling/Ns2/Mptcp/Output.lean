import Ns2.Mptcp.Agent

/-!
# What output changes

`sendpacket` and `foutput` touch the two vectors of mappings, the history of packets, and
a few counters.

* `Frame` — the part of a subflow that output leaves alone.
* `Output` — a subflow before and after a packet has been sent, and the packet.
* `sendpacket_spec`, `foutput_spec` — the two functions, in these terms.
* `sendmsg_steps`, `recv_steps` — `sendmsg` and `recv` of the agent are runs of steps.
-/

namespace Ns2.Mptcp

open Ns2.Tcp

namespace MpFullTcpAgent

/-- Everything but the mappings, the history of packets and the counters of output is
the same. -/
structure Frame (t t' : MpFullTcpAgent) : Prop where
  /-- The Tcl variables. -/
  config : t'.toConfig = t.toConfig
  /-- The state of the connection. -/
  state : t'.state_ = t.state_
  /-- The end of the stream. -/
  curseq : t'.curseq_ = t.curseq_
  /-- The highest ACK. -/
  highest_ack : t'.highest_ack_ = t.highest_ack_
  /-- Congestion control. -/
  cong : t'.cong = t.cong
  /-- The wish for a `FIN`. -/
  needfin : t'.needfin = t.needfin
  /-- The reassembly queue, and `rcv_nxt_`. -/
  rq : t'.rq_ = t.rq_
  /-- The peer's initial sequence number. -/
  irs : t'.irs_ = t.irs_

namespace Frame

variable {t t' t'' : MpFullTcpAgent}

theorem refl (t : MpFullTcpAgent) : Frame t t := ⟨rfl, rfl, rfl, rfl, rfl, rfl, rfl, rfl⟩

theorem trans (h : Frame t t') (h' : Frame t' t'') : Frame t t'' :=
  ⟨h'.config.trans h.config, h'.state.trans h.state, h'.curseq.trans h.curseq,
    h'.highest_ack.trans h.highest_ack, h'.cong.trans h.cong, h'.needfin.trans h.needfin,
    h'.rq.trans h.rq, h'.irs.trans h.irs⟩

theorem iss (h : Frame t t') : t'.iss_ = t.iss_ := congrArg Config.iss_ h.config

theorem rcv_nxt (h : Frame t t') : t'.rcv_nxt_ = t.rcv_nxt_ :=
  congrArg ReassemblyQueue.rcv_nxt_ h.rq

end Frame

/-- A packet has been sent. -/
structure Output (t t' : MpFullTcpAgent) (p : Packet) : Prop where
  /-- What has not changed. -/
  frame : Frame t t'
  /-- The packet went out. -/
  sent : t'.sent = t.sent ++ [p]
  /-- A packet without data leaves the mappings alone. -/
  nodata : p.datalen = 0 → t'.mptcp_dsnmap_ = t.mptcp_dsnmap_ ∧ p.mp_dsn = 0
  /-- A packet with data goes through the loop over the mappings. -/
  data : p.datalen ≠ 0 → t'.mptcp_dsnmap_ = (attach p.seqno t.mptcp_dsnmap_).1
  /-- The mapping on the packet is the one the loop has found. -/
  mapping : ∀ m, p.datalen ≠ 0 → (attach p.seqno t.mptcp_dsnmap_).2 = some m → p.mapping.Same m
  /-- When it has found none there is none on the packet. -/
  nomapping : p.datalen ≠ 0 → (attach p.seqno t.mptcp_dsnmap_).2 = none → p.mp_dsn = 0

namespace Output

variable {t t' : MpFullTcpAgent} {p : Packet}

theorem setCounters (h : Output t t' p) (acknow : Bool) (maxseq_ : ℤ) :
    Output t { t' with acknow := acknow, maxseq_ := maxseq_ } p :=
  ⟨⟨h.frame.config, h.frame.state, h.frame.curseq, h.frame.highest_ack, h.frame.cong,
    h.frame.needfin, h.frame.rq, h.frame.irs⟩, h.sent, h.nodata, h.data, h.mapping, h.nomapping⟩

theorem ofRecvMap {l : List DsnMapping} (h : Output { t with mptcp_recv_dsnmap_ := l } t' p) :
    Output t t' p :=
  ⟨⟨h.frame.config, h.frame.state, h.frame.curseq, h.frame.highest_ack, h.frame.cong,
    h.frame.needfin, h.frame.rq, h.frame.irs⟩, h.sent, h.nodata, h.data, h.mapping, h.nomapping⟩

end Output

variable {t t' : MpFullTcpAgent} {core core' : Core} {seqno ackno datalen : ℤ} {pflags : TcpFlag}

/-- The mapping part of `sendpacket` changes nothing but the options of the packet. -/
theorem attachMapping_packet (p : Packet) :
    (t.attachMapping p).2.seqno = p.seqno ∧ (t.attachMapping p).2.datalen = p.datalen ∧
      (t.attachMapping p).2.flags = p.flags ∧ (t.attachMapping p).2.ackno = p.ackno := by
  unfold attachMapping
  split
  · exact ⟨rfl, rfl, rfl, rfl⟩
  · simp

theorem attachMapping_frame (p : Packet) :
    (t.attachMapping p).1 = { t with mptcp_dsnmap_ := (t.attachMapping p).1.mptcp_dsnmap_ } := by
  unfold attachMapping
  split
  · rfl
  · rfl

/-- The two parts of `sendpacket` that follow the ACK option. -/
theorem send_output (p : Packet) (hp : p.mp_dsn = 0) :
    Output t ((t.attachMapping p).1.send (t.attachMapping p).2) (t.attachMapping p).2 := by
  obtain ⟨hseq, hlen, -⟩ := attachMapping_packet (t := t) p
  refine ⟨?_, ?_, ?_, ?_, ?_, ?_⟩
  · rw [attachMapping_frame]
    exact ⟨rfl, rfl, rfl, rfl, rfl, rfl, rfl, rfl⟩
  · rw [send, attachMapping_frame]
  · intro h
    rw [hlen] at h
    unfold attachMapping
    rw [if_pos h]
    exact ⟨rfl, hp⟩
  · intro h
    rw [hlen] at h
    rw [hseq]
    unfold attachMapping
    rw [if_neg h]
    rfl
  · intro m h hm
    rw [hlen] at h
    rw [hseq] at hm
    unfold attachMapping
    rw [if_neg h]
    show (p.withMapping (attach p.seqno t.mptcp_dsnmap_).2).mapping.Same m
    rw [hm]
    exact p.withMapping_same m
  · intro h hm
    rw [hlen] at h
    rw [hseq] at hm
    unfold attachMapping
    rw [if_neg h]
    show (p.withMapping (attach p.seqno t.mptcp_dsnmap_).2).mp_dsn = 0
    rw [hm]
    exact hp

/-- What `sendpacket` does to the mappings of the receiver: nothing for a `SYN`, or else
what `mptcp_recv_getack` does. -/
def AckOption (t t' : MpFullTcpAgent) (core core' : Core) (ackno : ℤ) (pflags : TcpFlag) : Prop :=
  pflags &&& thSyn ≠ 0 ∧ core' = core ∧ t'.mptcp_recv_dsnmap_ = t.mptcp_recv_dsnmap_ ∨
    pflags &&& thSyn = 0 ∧ ackno = 1 ∧ core' = core ∧
      t'.mptcp_recv_dsnmap_ = t.mptcp_recv_dsnmap_ ∨
    pflags &&& thSyn = 0 ∧ ackno ≠ 1 ∧
      ∃ m, scan ackno t.mptcp_recv_dsnmap_ = some (t'.mptcp_recv_dsnmap_, m) ∧
        core' = core.setDataack m.dseqnum (ackno - m.sseqnum)

/-- `mptcp_recv_getack` touches the mappings of the receiver only. -/
theorem mptcpRecvGetack_spec {n : ℤ} (h : t.mptcpRecvGetack core ackno = some (t', core', n)) :
    t' = { t with mptcp_recv_dsnmap_ := t'.mptcp_recv_dsnmap_ } ∧
      (ackno = 1 ∧ core' = core ∧ t'.mptcp_recv_dsnmap_ = t.mptcp_recv_dsnmap_ ∨
        ackno ≠ 1 ∧ ∃ m, scan ackno t.mptcp_recv_dsnmap_ = some (t'.mptcp_recv_dsnmap_, m) ∧
          core' = core.setDataack m.dseqnum (ackno - m.sseqnum)) := by
  unfold mptcpRecvGetack at h
  split at h
  · rename_i hone
    cases h
    exact ⟨rfl, Or.inl ⟨hone, rfl, rfl⟩⟩
  · rename_i hone
    obtain ⟨⟨l, m⟩, hscan, heq⟩ := Option.map_eq_some_iff.mp h
    cases heq
    exact ⟨rfl, Or.inr ⟨hone, m, hscan, rfl⟩⟩

/-- `sendpacket` sends one packet. -/
theorem sendpacket_spec (h : t.sendpacket core seqno ackno pflags datalen = some (t', core')) :
    ∃ p, Output t t' p ∧ p.seqno = seqno ∧ p.datalen = datalen ∧ p.flags = pflags ∧
      p.ackno = ackno ∧ t'.maxseq_ = t.maxseq_ ∧ t'.acknow = t.acknow ∧
      AckOption t t' core core' ackno pflags := by
  obtain ⟨⟨r, c, n⟩, hr, heq⟩ := Option.map_eq_some_iff.mp h
  cases heq
  -- the packet as it is before a mapping is put on it
  obtain ⟨hrt, hack⟩ : r = { t with mptcp_recv_dsnmap_ := r.mptcp_recv_dsnmap_ } ∧
      AckOption t r core c ackno pflags := by
    split at hr
    · rename_i hsyn
      cases hr
      exact ⟨rfl, Or.inl ⟨hsyn, rfl, rfl⟩⟩
    · rename_i hsyn
      obtain ⟨h1, h2⟩ := mptcpRecvGetack_spec hr
      exact ⟨h1, Or.inr (h2.imp (fun h => ⟨not_not.mp hsyn, h⟩) fun h => ⟨not_not.mp hsyn, h⟩)⟩
  have hout := send_output (t := r) { seqno, ackno, flags := pflags, datalen, mp_ack := n } rfl
  obtain ⟨h1, h2, h3, h4⟩ := attachMapping_packet (t := r)
    { seqno, ackno, flags := pflags, datalen, mp_ack := n }
  refine ⟨_, ?_, h1, h2, h3, h4, ?_, ?_, ?_⟩
  · rw [hrt] at hout ⊢
    exact hout.ofRecvMap
  · rw [send, attachMapping_frame, hrt]
  · rw [send, attachMapping_frame, hrt]
  · have hmap : (((r.attachMapping { seqno, ackno, flags := pflags, datalen, mp_ack := n }).1.send
        (r.attachMapping { seqno, ackno, flags := pflags, datalen, mp_ack := n }).2)).mptcp_recv_dsnmap_
          = r.mptcp_recv_dsnmap_ := by
      rw [send, attachMapping_frame]
    unfold AckOption at hack ⊢
    rw [hmap]
    exact hack

/-- `foutput` does nothing, or it sends one packet. -/
theorem foutput_spec (h : t.foutput core seqno = some (t', core')) :
    t' = t ∧ core' = core ∨
      ∃ p, Output t t' p ∧ p.seqno = seqno ∧ p.datalen = t.outputLen seqno ∧
        p.flags = t.outputFlags seqno ∧ p.ackno = t.rcv_nxt_ ∧ t.maxseq_ ≤ t'.maxseq_ ∧
        AckOption t t' core core' t.rcv_nxt_ (t.outputFlags seqno) := by
  unfold foutput at h
  split at h
  · obtain ⟨⟨r, c⟩, hr, heq⟩ := Option.map_eq_some_iff.mp h
    cases heq
    obtain ⟨p, hout, h1, h2, h3, h4, h5, -, h7⟩ := sendpacket_spec hr
    refine Or.inr ⟨p, hout.setCounters false _, h1, h2, h3, h4, ?_, h7⟩
    show t.maxseq_ ≤ max r.maxseq_ _
    rw [h5]
    exact le_max_left _ _
  · cases h
    exact Or.inl ⟨rfl, rfl⟩

theorem foutput_frame (h : t.foutput core seqno = some (t', core')) : Frame t t' := by
  rcases foutput_spec h with ⟨rfl, -⟩ | ⟨p, hout, -⟩
  · exact Frame.refl t'
  · exact hout.frame

theorem outputLen_nonneg (t : MpFullTcpAgent) (seqno : ℤ) : 0 ≤ t.outputLen seqno := by
  unfold outputLen
  simp only
  split
  · exact le_rfl
  · split <;> omega

/-- `foutput` does not send what the application has not provided. -/
theorem outputLen_le (h : 0 < t.outputLen seqno) : seqno + t.outputLen seqno ≤ t.curseq_ + 1 := by
  unfold outputLen at h ⊢
  simp only at h ⊢
  split_ifs at h ⊢ <;> omega

/-- `send_control` does not hand out more than there is, nor more than a segment. -/
theorem sendbytes_le {total_bytes_ n : ℤ} (h : t.sendbytes total_bytes_ = some n) :
    n ≤ total_bytes_ ∧ n ≤ t.maxseg_ := by
  unfold sendbytes at h
  split at h
  · cases h
  · simp only at h
    split at h
    · cases h
    · cases h
      split_ifs <;> omega

/-- A turn does not hand out a negative number of bytes. -/
theorem sendbytes_nonneg {total_bytes_ n : ℤ} (h : t.sendbytes total_bytes_ = some n)
    (hpos : 0 ≤ total_bytes_) : 0 ≤ n := by
  unfold sendbytes at h
  split at h
  · cases h
  · simp only at h
    split at h
    · cases h
    · cases h
      split_ifs <;> omega

/-- No data goes with the `SYN`. -/
theorem outputLen_syn (h : t.data_on_syn_ = false) : t.outputLen t.iss_ = 0 := by
  unfold outputLen
  simp [h]

end MpFullTcpAgent

/-! ## The functions of the agent are runs of steps -/

namespace MptcpAgent

variable {s s' : MptcpAgent} {id : ℕ}

/-- A run that does not come to `abort()`. -/
def Leads (s s' : MptcpAgent) : Prop := ∃ l : List Action, l.foldl exec (some s) = some s'

theorem Leads.refl (s : MptcpAgent) : Leads s s := ⟨[], rfl⟩

theorem Leads.step (a : Action) (h : s.step a = some s') : Leads s s' := ⟨[a], h⟩

theorem Leads.trans {s'' : MptcpAgent} (h : Leads s s') (h' : Leads s' s'') : Leads s s'' := by
  obtain ⟨l, hl⟩ := h
  obtain ⟨l', hl'⟩ := h'
  exact ⟨l ++ l', by rw [List.foldl_append, hl, hl']⟩

@[simp] theorem put_self (s : MptcpAgent) (id : ℕ) :
    s.put id (s.subflows_ id, s.core) = s := by
  simp [put]

@[simp] theorem put_put (s : MptcpAgent) (id : ℕ) (r r' : MpFullTcpAgent × Core) :
    (s.put id r).put id r' = s.put id r' := by
  simp [put]

@[simp] theorem put_subflow (s : MptcpAgent) (id : ℕ) (r : MpFullTcpAgent × Core) :
    (s.put id r).subflows_ id = r.1 := by
  simp [put]

@[simp] theorem put_core (s : MptcpAgent) (id : ℕ) (r : MpFullTcpAgent × Core) :
    (s.put id r).core = r.2 := rfl

/-- The assignments of `send_control` do not depend on the output before them. -/
theorem onSubflow_assigned {f : MpFullTcpAgent → Core → Option (MpFullTcpAgent × Core)}
    (hf : ∀ t core r, f t core = some r → r.1.curseq_ = t.curseq_) (t : MpFullTcpAgent) (n : ℤ) :
    (s.assigned id t n).onSubflow id f = (s.onSubflow id f).map fun s' => s'.assigned id t n := by
  unfold onSubflow
  rw [Option.map_map]
  show (f (s.subflows_ id) s.core).map _ = (f (s.subflows_ id) s.core).map _
  cases hr : f (s.subflows_ id) s.core with
  | none => rfl
  | some r =>
    have hcur := hf _ _ _ hr
    simp [assigned, put, hcur]
    rfl

theorem onSubflow_bind (s : MptcpAgent) (id : ℕ)
    (f g : MpFullTcpAgent → Core → Option (MpFullTcpAgent × Core)) :
    (s.onSubflow id fun t core => (f t core).bind fun r => g r.1 r.2)
      = (s.onSubflow id f).bind fun s' => s'.onSubflow id g := by
  unfold onSubflow
  simp only
  cases f (s.subflows_ id) s.core with
  | none => rfl
  | some r =>
    have hput : (s.put id r).put id = s.put id := funext (put_put s id r)
    simp [hput]

/-- `send_much` is a run of calls of `foutput`. -/
theorem sendMuch_leads (id : ℕ) (seqs : List ℤ) :
    ∀ s s' : MptcpAgent, (s.onSubflow id fun t core => t.sendMuch core seqs) = some s' →
      Leads s s' := by
  induction seqs with
  | nil =>
    intro s s' h
    cases h
    show Leads s (s.put id (s.subflows_ id, s.core))
    rw [put_self]
    exact Leads.refl s
  | cons seqno seqs ih =>
    intro s s' h
    have hsplit := onSubflow_bind s id (fun t core => t.foutput core seqno)
      fun t core => t.sendMuch core seqs
    have hcons : (s.onSubflow id fun t core => t.sendMuch core (seqno :: seqs))
        = s.onSubflow id fun t core =>
            (t.foutput core seqno).bind fun r => r.1.sendMuch r.2 seqs := by
      simp [MpFullTcpAgent.sendMuch, List.foldlM_cons]
    rw [hcons, hsplit] at h
    obtain ⟨s₁, h1, h2⟩ := Option.bind_eq_some_iff.mp h
    exact (Leads.step (.subflow id (.foutput seqno)) h1).trans (ih s₁ s' h2)

/-- The output of `advance_bytes`, for a subflow that was `t` before. -/
def outputAfter (t : MpFullTcpAgent) (seqs : List ℤ) (r : MpFullTcpAgent) (core : Core) :
    Option (MpFullTcpAgent × Core) :=
  if t.state_ = .closed ∨ t.state_ = .listen then r.foutput core r.iss_
  else if r.state_ = .established then r.sendMuch core seqs
  else some (r, core)

/-- Nothing is appended to the stream by the output. -/
theorem outputAfter_curseq {t r : MpFullTcpAgent} {seqs : List ℤ} {core : Core}
    {r' : MpFullTcpAgent × Core} (h : outputAfter t seqs r core = some r') :
    r'.1.curseq_ = r.curseq_ := by
  have hmuch : ∀ (seqs : List ℤ) (t : MpFullTcpAgent) (core : Core),
      t.sendMuch core seqs = some r' → r'.1.curseq_ = t.curseq_ := by
    intro seqs
    induction seqs with
    | nil =>
      intro t core h
      cases h
      rfl
    | cons seqno seqs ih =>
      intro t core h
      obtain ⟨⟨t₁, c₁⟩, h1, h2⟩ := Option.bind_eq_some_iff.mp h
      exact (ih t₁ c₁ h2).trans (MpFullTcpAgent.foutput_frame h1).curseq
  unfold outputAfter at h
  split at h
  · exact (MpFullTcpAgent.foutput_frame h).curseq
  · split at h
    · exact hmuch seqs r core h
    · cases h
      rfl

theorem outputAfter_leads {t : MpFullTcpAgent} {seqs : List ℤ}
    (h : s.onSubflow id (outputAfter t seqs) = some s') : Leads s s' := by
  unfold outputAfter at h
  by_cases ht : t.state_ = .closed ∨ t.state_ = .listen
  · simp only [if_pos ht] at h
    exact Leads.step (.subflow id (.foutput (s.subflows_ id).iss_)) h
  · simp only [if_neg ht] at h
    by_cases hr : (s.subflows_ id).state_ = .established
    · refine sendMuch_leads id seqs s s' ?_
      rw [← h]
      unfold onSubflow
      simp only [if_pos hr]
    · unfold onSubflow at h
      simp only [if_neg hr] at h
      cases h
      rw [put_self]
      exact Leads.refl s

/-- A turn of the loop is a turn without the output, and the output. -/
theorem sendControlTurn_eq (s : MptcpAgent) (id : ℕ) (seqs : List ℤ) :
    s.sendControlTurn id seqs = (s.assign id).bind fun s' =>
      if ((s.subflows_ id).sendbytes s.total_bytes_).isSome then
        s'.onSubflow id (outputAfter (s.subflows_ id) seqs)
      else some s' := by
  unfold sendControlTurn assign
  cases (s.subflows_ id).sendbytes s.total_bytes_ with
  | none => rfl
  | some n =>
    have hsplit := onSubflow_bind s id
      (fun t core => ((t.mptcpAddMapping s.mcurseq_ n).advance n).map (·, core))
      (outputAfter (s.subflows_ id) seqs)
    have hmsg : (s.onSubflow id fun t core => (t.mptcpAddMapping s.mcurseq_ n).sendmsg core n seqs)
        = s.onSubflow id fun t core =>
          (((t.mptcpAddMapping s.mcurseq_ n).advance n).map (·, core)).bind fun r =>
            outputAfter (s.subflows_ id) seqs r.1 r.2 := by
      unfold onSubflow MpFullTcpAgent.sendmsg MpFullTcpAgent.advanceBytes outputAfter
      simp only [Option.bind_map]
      rfl
    simp only [Option.isSome_some, if_true]
    rw [hmsg, hsplit, Option.map_bind, Option.bind_map]
    congr 1
    funext s₁
    exact (onSubflow_assigned (fun _ _ _ => outputAfter_curseq) _ n).symm

/-- The turns leave the number of subflows alone, and `total_bytes_` is not negative
after them. -/
theorem sendControlTurn_total {seqs : List ℤ} (hpos : 0 ≤ s.total_bytes_)
    (h : s.sendControlTurn id seqs = some s') :
    s'.sub_num_ = s.sub_num_ ∧ 0 ≤ s'.total_bytes_ := by
  unfold sendControlTurn at h
  cases hn : (s.subflows_ id).sendbytes s.total_bytes_ with
  | none =>
    rw [hn] at h
    cases h
    exact ⟨rfl, hpos⟩
  | some n =>
    rw [hn] at h
    obtain ⟨s₁, h1, h2⟩ := Option.map_eq_some_iff.mp h
    obtain ⟨r, -, hr⟩ := Option.map_eq_some_iff.mp h1
    subst hr h2
    refine ⟨rfl, ?_⟩
    have hle := MpFullTcpAgent.sendbytes_le hn
    show 0 ≤ if s.infinite_send_ = true then s.total_bytes_ else s.total_bytes_ - n
    split <;> omega

theorem sendControlTurn_leads {seqs : List ℤ} (hid : id < s.sub_num_) (hpos : 0 ≤ s.total_bytes_)
    (h : s.sendControlTurn id seqs = some s') : Leads s s' := by
  rw [sendControlTurn_eq] at h
  obtain ⟨s₁, h1, h2⟩ := Option.bind_eq_some_iff.mp h
  have hfirst : Leads s s₁ := by
    refine Leads.step (.sendControl id) ?_
    rw [MptcpAgent.step, if_pos ⟨hid, hpos⟩, h1]
  split at h2
  · exact hfirst.trans (outputAfter_leads h2)
  · cases h2
    exact hfirst

/-- `send_control` is a run of steps. -/
theorem sendControl_leads {seqs : ℕ → List ℤ} (h : s.sendControl seqs = some s') :
    Leads s s' := by
  unfold sendControl at h
  split at h
  · rename_i hpos
    have hloop : ∀ (ids : List ℕ) (s₁ : MptcpAgent), (∀ id ∈ ids, id < s₁.sub_num_) →
        0 ≤ s₁.total_bytes_ →
        ids.foldlM (fun s id => s.sendControlTurn id (seqs id)) s₁ = some s' → Leads s₁ s' := by
      intro ids
      induction ids with
      | nil =>
        intro s₁ _ _ h
        cases h
        exact Leads.refl s'
      | cons id ids ih =>
        intro s₁ hids hpos h
        obtain ⟨s₂, h1, h2⟩ := Option.bind_eq_some_iff.mp h
        obtain ⟨hnum, hpos₂⟩ := sendControlTurn_total hpos h1
        refine (sendControlTurn_leads (hids id List.mem_cons_self) hpos h1).trans
          (ih s₂ (fun i hi => ?_) hpos₂ h2)
        rw [hnum]
        exact hids i (List.mem_cons_of_mem id hi)
    exact hloop _ s (fun id hid => List.mem_range.mp hid) hpos.le h
  · cases h
    exact Leads.refl s

/-- **`sendmsg` is a run of steps.** -/
theorem sendmsg_steps {nbytes : ℤ} {seqs : ℕ → List ℤ} (h : s.sendmsg nbytes seqs = some s') :
    Leads s s' :=
  (Leads.step (.sendmsg nbytes) rfl).trans (sendControl_leads h)

/-- **`recv` is a run of steps.** -/
theorem recv_steps {p : Packet} {cong : Congestion} {dupack : Bool} {out : List ℤ}
    {seqs : ℕ → List ℤ} (h : s.recv id p cong dupack out seqs = some s') : Leads s s' := by
  obtain ⟨s₂, h1, h2⟩ := Option.bind_eq_some_iff.mp h
  obtain ⟨s₁, h3, h4⟩ := Option.bind_eq_some_iff.mp h1
  exact (Leads.step (.subflow id (.recv p cong dupack)) h3).trans
    ((sendMuch_leads id out s₁ s₂ h4).trans (sendControl_leads h2))

end MptcpAgent

end Ns2.Mptcp
