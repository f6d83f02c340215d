import Ns2.Mptcp.AckMapping

/-!
# What one agent knows of the other

An agent learns of the data stream of the other side from the mappings on the packets that arrive.
What it keeps, reports and acknowledges is only what `send_control` of the other side has handed out.

* `HandedOut` — a mapping of the agent, whether it has been sent or not.
* `Signed` — the options on the packets that a step of a subflow sends.
* `Hands`, `Believes` — the invariant: of an agent alone, and of an agent and its peer.
* `dataack_handed_out` — every mapping kept, every block reported and every data-level ACK sent.
-/

namespace Ns2.Mptcp

open Ns2.Tcp

/-! ## One subflow -/

namespace MpFullTcpAgent

variable {t t' t'' : MpFullTcpAgent} {core core' : Core} {p : Packet} {o : SubflowAction}
  {seqno ackno datalen size : ℤ} {tiflags hflags pflags : TcpFlag}

/-- The options on what a step sends: a mapping is one of those kept, and the ACK is the data-level ACK
after the step. -/
def Signed (t t' : MpFullTcpAgent) (core' : Core) : Prop :=
  ∃ l, t'.sent = t.sent ++ l ∧ ∀ p ∈ l,
    (p.mp_dsn ≠ 0 → ∃ m ∈ t.mptcp_dsnmap_, p.mapping.Same m) ∧
      (p.mp_ack ≠ 0 → p.mp_ack = core'.getDataack)

theorem Signed.of_sent (h : t'.sent = t.sent) : Signed t t' core' :=
  ⟨[], by rw [h, List.append_nil], fun _ hp => absurd hp List.not_mem_nil⟩

theorem Signed.congr (h : Signed t t' core') (hmap : t.mptcp_dsnmap_ ⊆ t''.mptcp_dsnmap_)
    (hsent : t.sent = t''.sent) : Signed t'' t' core' := by
  obtain ⟨l, hl, hall⟩ := h
  refine ⟨l, hsent ▸ hl, fun p hp => ⟨fun hdsn => ?_, (hall p hp).2⟩⟩
  obtain ⟨m, hm, hsame⟩ := (hall p hp).1 hdsn
  exact ⟨m, hmap hm, hsame⟩

theorem Signed.after (h : Signed t t' core') (hsent : t''.sent = t'.sent) : Signed t t'' core' := by
  obtain ⟨l, hl, hall⟩ := h
  exact ⟨l, hsent.trans hl, hall⟩

/-- The ACK option of `sendpacket` is the data-level ACK, if there is one. -/
theorem sendpacket_mp_ack (h : t.sendpacket core seqno ackno pflags datalen = some (t', core')) :
    ∃ p, t'.sent = t.sent ++ [p] ∧ (p.mp_ack ≠ 0 → p.mp_ack = core'.getDataack) := by
  obtain ⟨⟨r, c, n⟩, hr, heq⟩ := Option.map_eq_some_iff.mp h
  cases heq
  have hack : r.sent = t.sent ∧ (n ≠ 0 → n = c.getDataack) := by
    split at hr
    · cases hr
      exact ⟨rfl, fun hn => absurd rfl hn⟩
    · unfold mptcpRecvGetack at hr
      split at hr
      · cases hr
        exact ⟨rfl, fun hn => absurd rfl hn⟩
      · obtain ⟨r', -, heq⟩ := Option.map_eq_some_iff.mp hr
        cases heq
        exact ⟨rfl, fun _ => rfl⟩
  have hopt : ∀ q : Packet, (r.attachMapping q).1.sent = r.sent ∧ (r.attachMapping q).2.mp_ack = q.mp_ack := by
    intro q
    unfold attachMapping
    split
    · exact ⟨rfl, rfl⟩
    · refine ⟨rfl, ?_⟩
      show (q.withMapping _).mp_ack = _
      cases (attach q.seqno r.mptcp_dsnmap_).2 <;> rfl
  refine ⟨_, congrArg (· ++ [_]) ((hopt _).1.trans hack.1), ?_⟩
  rw [(hopt _).2]
  exact hack.2

theorem Output.signed {q : Packet} (h : Output t t' p) (hq : t'.sent = t.sent ++ [q])
    (hack : q.mp_ack ≠ 0 → q.mp_ack = core'.getDataack) : Signed t t' core' := by
  obtain rfl : q = p := by simpa using hq.symm.trans h.sent
  refine ⟨[q], hq, ?_⟩
  rintro _ (_ | ⟨_, ⟨⟩⟩)
  refine ⟨fun hdsn => ?_, hack⟩
  have hlen : q.datalen ≠ 0 := fun hzero => hdsn (h.nodata hzero).2
  cases hm : (attach q.seqno t.mptcp_dsnmap_).2 with
  | none => exact absurd (h.nomapping hlen hm) hdsn
  | some m =>
    obtain ⟨-, -, A, B, heq, -⟩ := attach_eq_some hm
    exact ⟨m, heq ▸ List.mem_append_right _ List.mem_cons_self, h.mapping m hlen hm⟩

theorem sendpacket_signed (h : t.sendpacket core seqno ackno pflags datalen = some (t', core')) :
    Signed t t' core' := by
  obtain ⟨p, hout, -⟩ := sendpacket_spec h
  obtain ⟨q, hq, hack⟩ := sendpacket_mp_ack h
  exact hout.signed hq hack

theorem foutput_signed (h : t.foutput core seqno = some (t', core')) : Signed t t' core' := by
  unfold foutput at h
  split at h
  · obtain ⟨⟨r, c⟩, hr, heq⟩ := Option.map_eq_some_iff.mp h
    cases heq
    exact (sendpacket_signed hr).after rfl
  · cases h
    exact .of_sent rfl

theorem Quiet.signed (h : Quiet t t') : Signed t t' core' := .of_sent h.sent

theorem dropWithReset_signed (h : t.dropWithReset core p seqno datalen tiflags = some (t', core')) :
    Signed t t' core' := by
  unfold dropWithReset at h
  split at h
  · exact sendpacket_signed h
  · exact sendpacket_signed h

theorem recvListen_signed (h : t.recvListen core p = some (t', core')) : Signed t t' core' := by
  unfold recvListen at h
  split at h
  · exact dropWithReset_signed h
  · split at h
    · cases h
      exact .of_sent rfl
    · exact (step6_quiet h).1.signed.congr (List.Subset.refl _) rfl

theorem recvSynSent_signed (h : t.recvSynSent core p = some (t', core')) : Signed t t' core' := by
  unfold recvSynSent at h
  split at h
  · exact dropWithReset_signed h
  · split at h
    · cases h
      exact .of_sent rfl
    · simp only at h
      split at h
      · obtain ⟨⟨r, c⟩, hr, h2⟩ := Option.bind_eq_some_iff.mp h
        obtain ⟨hquiet, rfl⟩ := ackThenStep6_quiet h2
        exact ((sendpacket_signed hr).after hquiet.sent).congr (List.Subset.refl _) rfl
      · exact (step6_quiet h).1.signed.congr (List.Subset.refl _) rfl

theorem recvAck_signed {g : Trimmed} {dupack : Bool} (h : t.recvAck core p g dupack = some (t', core')) :
    Signed t t' core' := by
  unfold recvAck at h
  split at h
  · split at h
    · cases h
      exact .of_sent rfl
    · exact (step6_quiet h).1.signed
  · exact (ackThenStep6_quiet h).1.signed

theorem recvSynchronized_signed {dupack : Bool} (h : t.recvSynchronized core p dupack = some (t', core')) :
    Signed t t' core' := by
  unfold recvSynchronized at h
  simp only at h
  split at h
  · cases h
    exact .of_sent rfl
  · refine Signed.congr (t := { t with acknow := t.acknow || (t.trim p).dupseg }) ?_
      (List.Subset.refl _) rfl
    split at h
    · exact dropWithReset_signed h
    · split at h
      · cases h
        exact .of_sent rfl
      · split at h
        · split at h
          · exact dropWithReset_signed h
          · exact (recvAck_signed h).congr (List.Subset.refl _) rfl
        · exact recvAck_signed h

theorem recv_signed {cong : Congestion} {dupack : Bool} (h : t.recv core p cong dupack = some (t', core')) :
    Signed t t' core' := by
  unfold recv at h
  simp only at h
  refine Signed.congr (t := { t with cong := cong }) ?_ (List.Subset.refl _) rfl
  split at h
  · cases h
    split
    · exact .of_sent rfl
    · exact .of_sent rfl
  · exact recvListen_signed h
  · exact recvSynSent_signed h
  · exact recvSynchronized_signed h

/-! ### A step -/

theorem act_signed (h : t.act o core = some (t', core')) : Signed t t' core' := by
  cases o with
  | foutput seqno => exact foutput_signed h
  | recv p cong dupack =>
    refine (recv_signed h).congr (recvOptions_dsnmap t p).1 ?_
    unfold MptcpAgent.recvOptions
    simp only
    split_ifs <;> rfl
  | timer cong acknow =>
    cases h
    exact .of_sent rfl
  | usrclosed =>
    cases h
    exact .of_sent (usrclosed_spec t).2.2.2.1
  | listen =>
    cases h
    exact .of_sent rfl

/-- The mappings kept for sending are those from before, less some. -/
theorem act_dsnmap (h : t.act o core = some (t', core')) :
    ∀ m ∈ t'.mptcp_dsnmap_, ∃ m₀ ∈ t.mptcp_dsnmap_, m.Same m₀ := by
  have hself : t'.mptcp_dsnmap_ ⊆ t.mptcp_dsnmap_ →
      ∀ m ∈ t'.mptcp_dsnmap_, ∃ m₀ ∈ t.mptcp_dsnmap_, m.Same m₀ := fun hsub m hm =>
    ⟨m, hsub hm, rfl, rfl, rfl⟩
  cases o with
  | foutput seqno =>
    rcases foutput_spec h with ⟨rfl, rfl⟩ | ⟨p, hout, -⟩
    · exact hself (List.Subset.refl _)
    · by_cases hlen : p.datalen = 0
      · rw [(hout.nodata hlen).1]
        exact fun m hm => ⟨m, hm, rfl, rfl, rfl⟩
      · rw [hout.data hlen]
        intro m hm
        obtain ⟨m₀, hm₀, hsame, -⟩ := exists_of_mem_attach hm
        exact ⟨m₀, hm₀, hsame⟩
  | recv p cong dupack =>
    refine hself ?_
    rw [(recv_receives h).dsnmap]
    exact (recvOptions_dsnmap t p).1
  | timer cong acknow =>
    cases h
    exact hself (List.Subset.refl _)
  | usrclosed =>
    cases h
    exact hself ((usrclosed_spec t).2.1 ▸ List.Subset.refl _)
  | listen =>
    cases h
    exact hself (List.Subset.refl _)

/-- What a step keeps for reception, and what it reports. -/
theorem act_reports (h : t.act o core = some (t', core')) :
    t'.mptcp_recv_dsnmap_ ⊆ t.records o ∧ (core' = core ∨ ∃ m ∈ t.records o, ∃ ackno, m.Meets ackno ∧
      core' = core.setDataack m.dseqnum (ackno - m.sseqnum)) := by
  rcases act_answer h with ⟨-, hmap, rfl⟩ | ⟨p, t₁, -, hmap, hopt⟩
  · exact ⟨hmap ▸ List.Subset.refl _, Or.inl rfl⟩
  · rw [← hmap]
    refine ⟨hopt.subset, ?_⟩
    rcases hopt with ⟨-, rfl, -⟩ | ⟨-, -, rfl, -⟩ | ⟨-, -, m, hscan, rfl⟩
    · exact Or.inl rfl
    · exact Or.inl rfl
    · obtain ⟨hfound, -⟩ := scan_eq_some hscan
      exact Or.inr ⟨m, List.mem_of_find?_eq_some hfound, p.ackno,
        by simpa using List.find?_some hfound, rfl⟩

end MpFullTcpAgent

/-- A report puts the data-level ACK at the end of what was reported, or leaves it. -/
theorem Core.setDataack_getDataack (c : Core) (ackno length : ℤ) :
    (c.setDataack ackno length).getDataack = c.getDataack ∨
      (c.setDataack ackno length).getDataack = ackno + length := by
  show (DataAck.recalc ackno length _ _).1 = c.dataack.mackno_ ∨ (DataAck.recalc ackno length _ _).1 = _
  rw [DataAck.recalc_fst]
  split
  · exact Or.inr rfl
  · exact Or.inl rfl

/-! ## One agent -/

namespace MptcpAgent

variable {s s' peer peer' : MptcpAgent} {a : Action} {id : ℕ} {m m' : DsnMapping}

/-- A mapping that `send_control` has made for a subflow, sent or not. -/
def HandedOut (s : MptcpAgent) (id : ℕ) (m : DsnMapping) : Prop := ∃ m', (id, m') ∈ s.recorded ∧ m.Same m'

/-- The agent has handed out as much as before, and perhaps more. -/
structure Extends (s s' : MptcpAgent) : Prop where
  recorded : s.recorded ⊆ s'.recorded
  mcurseq : s.mcurseq_ ≤ s'.mcurseq_

theorem Extends.refl (s : MptcpAgent) : Extends s s := ⟨List.Subset.refl _, le_rfl⟩

theorem HandedOut.same (h : s.HandedOut id m) (hm : m'.Same m) : s.HandedOut id m' := by
  obtain ⟨m₀, hmem, hsame⟩ := h
  exact ⟨m₀, hmem, hm.trans hsame⟩

theorem HandedOut.extends (h : s.HandedOut id m) (hs : Extends s s') : s'.HandedOut id m := by
  obtain ⟨m₀, hmem, hsame⟩ := h
  exact ⟨m₀, hs.recorded hmem, hsame⟩

/-- The invariant of an agent alone: what is kept for sending and what is on a packet was handed out. -/
structure Hands (s : MptcpAgent) : Prop where
  /-- Data sequence numbers start at one. -/
  one_le : 1 ≤ s.mcurseq_
  /-- A mapping is about data below `mcurseq_`. -/
  range : ∀ r ∈ s.recorded, 1 ≤ r.2.dseqnum ∧ 0 ≤ r.2.length ∧ r.2.dseqnum + r.2.length ≤ s.mcurseq_
  /-- The mappings kept for sending. -/
  kept : ∀ id, ∀ m ∈ (s.subflows_ id).mptcp_dsnmap_, s.HandedOut id m
  /-- The mappings on packets. -/
  sent : ∀ id, ∀ p ∈ (s.subflows_ id).sent, p.mp_dsn ≠ 0 → s.HandedOut id p.mapping

theorem Hands.bounds (h : s.Hands) (hm : s.HandedOut id m) :
    1 ≤ m.dseqnum ∧ 0 ≤ m.length ∧ m.dseqnum + m.length ≤ s.mcurseq_ := by
  obtain ⟨m₀, hmem, -, hdsn, hlen⟩ := hm
  rw [hdsn, hlen]
  exact h.range _ hmem

theorem hands_new (sub_num_ : ℕ) (configs : ℕ → Config) : (new sub_num_ configs).Hands where
  one_le := le_rfl
  range _ hr := absurd hr List.not_mem_nil
  kept _ _ hm := absurd hm List.not_mem_nil
  sent _ _ hp := absurd hp List.not_mem_nil

/-- A turn of `send_control` that hands out bytes. -/
theorem Hands.assigned {n : ℤ} {t' : MpFullTcpAgent} (h : s.Hands) (hn : 0 ≤ n)
    (hadv : ((s.subflows_ id).mptcpAddMapping s.mcurseq_ n).advance n = some t') :
    Extends s ((s.put id (t', s.core)).assigned id (s.subflows_ id) n) ∧
      ((s.put id (t', s.core)).assigned id (s.subflows_ id) n).Hands := by
  obtain ⟨-, -, hmap, -, hsent⟩ := MpFullTcpAgent.advance_spec hadv
  have hext : Extends s ((s.put id (t', s.core)).assigned id (s.subflows_ id) n) :=
    ⟨List.subset_append_left _ _, show s.mcurseq_ ≤ s.mcurseq_ + n by omega⟩
  have hone := h.one_le
  refine ⟨hext, ?_, fun r hr => ?_, fun i m hm => ?_, fun i p hp hdsn => ?_⟩
  · show 1 ≤ s.mcurseq_ + n
    omega
  · show 1 ≤ r.2.dseqnum ∧ 0 ≤ r.2.length ∧ r.2.dseqnum + r.2.length ≤ s.mcurseq_ + n
    rcases List.mem_append.mp hr with hr | hr
    · obtain ⟨h1, h2, h3⟩ := h.range r hr
      exact ⟨h1, h2, by omega⟩
    · rw [List.mem_singleton.mp hr]
      exact ⟨hone, hn, le_rfl⟩
  · by_cases hi : i = id
    · subst hi
      have hm' : m ∈ (s.subflows_ i).mptcp_dsnmap_ ++
          [DsnMapping.new s.mcurseq_ ((s.subflows_ i).curseq_ + 1) n] := by
        rw [show ((s.put i (t', s.core)).assigned i (s.subflows_ i) n).subflows_ i = t' from
          put_subflow s i _, hmap] at hm
        exact hm
      rcases List.mem_append.mp hm' with hm' | hm'
      · exact (h.kept i m hm').extends hext
      · exact ⟨m, List.mem_append_right _ (by rw [List.mem_singleton.mp hm']; exact List.mem_cons_self),
          rfl, rfl, rfl⟩
    · rw [show ((s.put id (t', s.core)).assigned id (s.subflows_ id) n).subflows_ i = s.subflows_ i from
        Function.update_of_ne hi _ _] at hm
      exact (h.kept i m hm).extends hext
  · refine (h.sent i p ?_ hdsn).extends hext
    by_cases hi : i = id
    · subst hi
      rw [show ((s.put i (t', s.core)).assigned i (s.subflows_ i) n).subflows_ i = t' from
        put_subflow s i _, hsent] at hp
      exact hp
    · rw [show ((s.put id (t', s.core)).assigned id (s.subflows_ id) n).subflows_ i = s.subflows_ i from
        Function.update_of_ne hi _ _] at hp
      exact hp

/-- **Every step of an agent keeps its own invariant**, and takes nothing back. -/
theorem Hands.step (h : s.Hands) (hs : s.step a = some s') : Extends s s' ∧ s'.Hands := by
  cases a with
  | sendmsg nbytes =>
    cases hs
    unfold request
    split
    · exact ⟨⟨List.Subset.refl _, le_rfl⟩, h.one_le, h.range, h.kept, h.sent⟩
    · exact ⟨⟨List.Subset.refl _, le_rfl⟩, h.one_le, h.range, h.kept, h.sent⟩
  | sendControl id =>
    unfold MptcpAgent.step at hs
    simp only at hs
    split at hs
    · rename_i hturn
      rcases assign_spec hturn.2 hs with rfl | ⟨n, t', hn, -, hadv, rfl⟩
      · exact ⟨Extends.refl s', h⟩
      · exact h.assigned hn hadv
    · cases hs
      exact ⟨Extends.refl s, h⟩
  | subflow id o =>
    obtain ⟨⟨t', core'⟩, hact, rfl⟩ := Option.map_eq_some_iff.mp hs
    have hother : ∀ i, i ≠ id → (s.put id (t', core')).subflows_ i = s.subflows_ i :=
      fun i hi => Function.update_of_ne hi _ _
    refine ⟨⟨List.Subset.refl _, le_rfl⟩, h.one_le, h.range, fun i m hm => ?_, fun i p hp hdsn => ?_⟩
    · by_cases hi : i = id
      · subst hi
        rw [put_subflow] at hm
        obtain ⟨m₀, hm₀, hsame⟩ := MpFullTcpAgent.act_dsnmap hact m hm
        exact (h.kept i m₀ hm₀).same hsame
      · rw [hother i hi] at hm
        exact h.kept i m hm
    · by_cases hi : i = id
      · subst hi
        rw [put_subflow] at hp
        obtain ⟨l, hl, hall⟩ := MpFullTcpAgent.act_signed hact
        rw [hl] at hp
        rcases List.mem_append.mp hp with hp | hp
        · exact h.sent i p hp hdsn
        · obtain ⟨m₀, hm₀, hsame⟩ := (hall p hp).1 hdsn
          exact (h.kept i m₀ hm₀).same hsame
      · rw [hother i hi] at hp
        exact h.sent i p hp hdsn

/-! ## An agent and its peer -/

/-- The invariant of an agent and its peer: whatever came from the peer was handed out there. -/
structure Believes (s peer : MptcpAgent) : Prop where
  /-- The mappings kept for reception. -/
  kept : ∀ id, ∀ m ∈ (s.subflows_ id).mptcp_recv_dsnmap_, peer.HandedOut id m
  /-- What was reported is the first part of a mapping. -/
  reported : ∀ r ∈ s.core.reported, ∃ id m, peer.HandedOut id m ∧
    r.ackno = m.dseqnum ∧ 0 ≤ r.length ∧ r.length ≤ m.length
  /-- The data-level ACK. -/
  dataack : 1 ≤ s.core.getDataack ∧ s.core.getDataack ≤ peer.mcurseq_
  /-- The data-level ACKs on packets. -/
  acked : ∀ id, ∀ p ∈ (s.subflows_ id).sent, p.mp_ack ≠ 0 → 1 ≤ p.mp_ack ∧ p.mp_ack ≤ peer.mcurseq_

theorem believes_new (sub_num_ : ℕ) (configs : ℕ → Config) (hpeer : peer.Hands) :
    (new sub_num_ configs).Believes peer where
  kept _ _ hm := absurd hm List.not_mem_nil
  reported _ hr := absurd hr List.not_mem_nil
  dataack := ⟨le_rfl, hpeer.one_le⟩
  acked _ _ hp := absurd hp List.not_mem_nil

/-- The peer may go on. -/
theorem Believes.extends (h : s.Believes peer) (hext : Extends peer peer') : s.Believes peer' := by
  refine ⟨fun id m hm => (h.kept id m hm).extends hext, fun r hr => ?_,
    ⟨h.dataack.1, h.dataack.2.trans hext.mcurseq⟩, fun id p hp hack => ?_⟩
  · obtain ⟨id, m, hm, hrest⟩ := h.reported r hr
    exact ⟨id, m, hm.extends hext, hrest⟩
  · obtain ⟨h1, h2⟩ := h.acked id p hp hack
    exact ⟨h1, h2.trans hext.mcurseq⟩

/-- Nothing is known after a step that reports nothing, keeps nothing new and sends nothing. -/
theorem Believes.silent (h : s.Believes peer) (hcore : s'.core = s.core)
    (hsame : ∀ i, (s'.subflows_ i).sent = (s.subflows_ i).sent ∧
      (s'.subflows_ i).mptcp_recv_dsnmap_ = (s.subflows_ i).mptcp_recv_dsnmap_) : s'.Believes peer := by
  refine ⟨fun i m hm => ?_, ?_, ?_, fun i p hp => ?_⟩
  · rw [(hsame i).2] at hm
    exact h.kept i m hm
  · rw [hcore]
    exact h.reported
  · rw [hcore]
    exact h.dataack
  · rw [(hsame i).1] at hp
    exact h.acked i p hp

/-- The mappings `mptcp_recv_getack` finds were handed out, if the packet was sent by the peer. -/
theorem Believes.records (h : s.Believes peer) (hpeer : peer.Hands) (id : ℕ) (o : SubflowAction)
    (hfrom : ∀ p cong dupack, o = .recv p cong dupack → p ∈ (peer.subflows_ id).sent) :
    ∀ m ∈ (s.subflows_ id).records o, peer.HandedOut id m := by
  cases o with
  | recv p cong dupack =>
    intro m hm
    rw [show (s.subflows_ id).records (.recv p cong dupack) = _ from recvOptions_recvmap _ p] at hm
    rcases List.mem_append.mp hm with hm | hm
    · exact h.kept id m hm
    · split at hm
      · rename_i hdsn
        rw [List.mem_singleton.mp hm]
        exact hpeer.sent id p (hfrom p cong dupack rfl) hdsn
      · exact absurd hm List.not_mem_nil
  | foutput seqno => exact h.kept id
  | timer cong acknow => exact h.kept id
  | usrclosed => exact h.kept id
  | listen => exact h.kept id

/-- **Every step keeps what an agent believes of its peer**, if what arrives was sent. -/
theorem Believes.step (h : s.Believes peer) (hpeer : peer.Hands)
    (hfrom : ∀ id p cong dupack, a = .subflow id (.recv p cong dupack) → p ∈ (peer.subflows_ id).sent)
    (hs : s.step a = some s') : s'.Believes peer := by
  have hsilent : (∀ id o, a ≠ .subflow id o) → s'.Believes peer := fun hne =>
    h.silent (step_silent hne hs).1 (step_silent hne hs).2
  cases a with
  | sendmsg nbytes => exact hsilent fun _ _ => Action.noConfusion
  | sendControl id => exact hsilent fun _ _ => Action.noConfusion
  | subflow id o =>
    obtain ⟨⟨t', core'⟩, hact, rfl⟩ := Option.map_eq_some_iff.mp hs
    have hother : ∀ i, i ≠ id → (s.put id (t', core')).subflows_ i = s.subflows_ i :=
      fun i hi => Function.update_of_ne hi _ _
    have hrecords := h.records hpeer id o
      fun p cong dupack ho => hfrom id p cong dupack (ho ▸ rfl)
    obtain ⟨hsub, hcore⟩ := MpFullTcpAgent.act_reports hact
    -- the data-level ACK is where it was, or at the end of what is reported now
    have hack : 1 ≤ core'.getDataack ∧ core'.getDataack ≤ peer.mcurseq_ := by
      rcases hcore with rfl | ⟨m, hm, ackno, hmeets, rfl⟩
      · exact h.dataack
      · rcases s.core.setDataack_getDataack m.dseqnum (ackno - m.sseqnum) with heq | heq
        · rw [heq]
          exact h.dataack
        · obtain ⟨h1, h2, h3⟩ := hpeer.bounds (hrecords m hm)
          obtain ⟨h4, h5⟩ := hmeets
          rw [DsnMapping.stop] at h5
          rw [heq]
          constructor <;> omega
    refine ⟨fun i m hm => ?_, ?_, hack, fun i p hp hne => ?_⟩
    · by_cases hi : i = id
      · subst hi
        rw [put_subflow] at hm
        exact hrecords m (hsub hm)
      · rw [hother i hi] at hm
        exact h.kept i m hm
    · rw [put_core]
      rcases hcore with rfl | ⟨m, hm, ackno, hmeets, rfl⟩
      · exact h.reported
      · intro r hr
        rcases List.mem_append.mp hr with hr | hr
        · exact h.reported r hr
        · rw [List.mem_singleton.mp hr]
          obtain ⟨h4, h5⟩ := hmeets
          rw [DsnMapping.stop] at h5
          exact ⟨id, m, hrecords m hm, rfl, sub_nonneg.mpr h4, sub_le_iff_le_add'.mpr h5⟩
    · by_cases hi : i = id
      · subst hi
        rw [put_subflow] at hp
        obtain ⟨l, hl, hall⟩ := MpFullTcpAgent.act_signed hact
        rw [hl] at hp
        rcases List.mem_append.mp hp with hp | hp
        · exact h.acked i p hp hne
        · rw [(hall p hp).2 hne]
          exact hack
      · rw [hother i hi] at hp
        exact h.acked i p hp hne

end MptcpAgent

/-! ## The connection -/

namespace Connection

open MptcpAgent

variable {c c' : Connection} {e : Event}

/-- The invariant, for both sides. -/
def Honest (c : Connection) : Prop :=
  ∀ side, (c.agent side).Hands ∧ (c.agent side).Believes (c.agent !side)

theorem Honest.step (h : c.Honest) (hlegal : c.ActionLegal e.side e.action) (hs : c.step e = some c') :
    c'.Honest := by
  obtain ⟨side, action⟩ := e
  obtain ⟨s', hs', rfl⟩ := Option.map_eq_some_iff.mp hs
  obtain ⟨hands, believes⟩ := h side
  obtain ⟨hpeer, hpeerBelieves⟩ := h !side
  obtain ⟨hext, hands'⟩ := hands.step hs'
  intro b
  by_cases hb : b = side
  · subst hb
    rw [put_agent, put_agent_of_ne c (Bool.not_ne_self b)]
    refine ⟨hands', believes.step hpeer ?_ hs'⟩
    rintro id p cong dupack heq
    dsimp only at heq
    subst heq
    exact hlegal
  · obtain rfl : b = !side := Bool.eq_not.mpr hb
    rw [put_agent_of_ne c hb, Bool.not_not, put_agent]
    rw [Bool.not_not] at hpeerBelieves
    exact ⟨hpeer, hpeerBelieves.extends hext⟩

/-- **The data-level ACK acknowledges only what was handed out.**  Whatever is lost, repeated or reordered
on the subflows, a mapping kept for reception is one that `send_control` of the other side has made for
the same subflow, what was reported is the first part of such a mapping, and a data-level ACK on a packet
is at most `mcurseq_` of the other side. -/
theorem dataack_handed_out (sub_num_ : Bool → ℕ) (configs : Bool → ℕ → Config) (l : List Event)
    (hlegal : Run.AllSteps exec Legal (some (new sub_num_ configs)) l) :
    ∀ c ∈ l.foldl exec (some (new sub_num_ configs)), ∀ side,
      (∀ id, ∀ m ∈ (c.subflow side id).mptcp_recv_dsnmap_, (c.agent !side).HandedOut id m) ∧
      (∀ r ∈ (c.agent side).core.reported, ∃ id m, (c.agent !side).HandedOut id m ∧
        r.ackno = m.dseqnum ∧ 0 ≤ r.length ∧ r.length ≤ m.length) ∧
      (c.agent side).core.reportedBytes ⊆ Set.Ico 1 (c.agent !side).mcurseq_ ∧
      ∀ id, ∀ p ∈ (c.subflow side id).sent, p.mp_ack ≠ 0 →
        1 ≤ p.mp_ack ∧ p.mp_ack ≤ (c.agent !side).mcurseq_ := by
  have hnew : (new sub_num_ configs).Honest := fun side =>
    ⟨hands_new _ _, believes_new _ _ (hands_new _ _)⟩
  have hrun : ∀ c ∈ l.foldl exec (some (new sub_num_ configs)), c.Honest := by
    refine Run.foldl_of_allSteps (I := fun c? => ∀ c ∈ c?, Honest c) (fun c? e hc he c' hc' => ?_) l _
      (fun c hc => Option.some.inj hc ▸ hnew) hlegal
    obtain ⟨c, hmem, hstep⟩ := Option.bind_eq_some_iff.mp hc'
    exact (hc c hmem).step (he c hmem) hstep
  intro c hc side
  obtain ⟨-, believes⟩ := hrun c hc side
  obtain ⟨hpeer, -⟩ := hrun c hc !side
  refine ⟨believes.kept, believes.reported, ?_, believes.acked⟩
  rintro k ⟨r, hr, hk⟩
  obtain ⟨id, m, hm, hack, h1, h2⟩ := believes.reported r hr
  obtain ⟨h3, h4, h5⟩ := hpeer.bounds hm
  obtain ⟨h6, h7⟩ := hk
  rw [DackMapping.endno] at h7
  constructor <;> omega

/-- A segment is sent and acknowledged, and the data-level ACK comes back. -/
theorem dataack_handed_out_segment : ∃ c ∈ segmentRun.foldl exec
      (some (new (fun _ => 1) fun _ _ => Config.default)),
    (c.agent true).core.reported = [⟨1, 536⟩] ∧
      (c.agent true).core.reportedBytes ⊆ Set.Ico 1 (c.agent false).mcurseq_ := by
  have hrun : (segmentRun.foldl exec (some (new (fun _ => 1) fun _ _ => Config.default))).map
      (fun c => (c.agent true).core.reported) = some [⟨1, 536⟩] := by
    decide +kernel
  obtain ⟨c, hc, heq⟩ := Option.map_eq_some_iff.mp hrun
  exact ⟨c, hc, heq, (dataack_handed_out (fun _ => 1) (fun _ _ => Config.default) segmentRun
    (by decide +kernel) c hc true).2.2.1⟩

end Connection

end Ns2.Mptcp
