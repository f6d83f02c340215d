import Ns2.Mptcp.Subflow
import Ns2.Tcp.SendPacket

/-!
# Building a packet of a subflow

`MpFullTcpAgent::sendpacket` of `tcp/mptcp-full.cc`, with everything it writes to the
packet.  Its body is a copy of that of `FullTcpAgent::sendpacket` with the MPTCP options
added.

* `MpSender` — the agent; `MpSender.sendpacket` — the source function.
* `SameButOptions` — two packets that differ in the MPTCP options only.
* `sendpacket_refines_iff` — when the two functions build the same packet.
* `sendpacket_projects` — the model of the subflow builds this packet, as far as it goes.
-/

namespace Ns2.Mptcp

open Ns2.Tcp

/-- `MPTCP_CAPABLEOPTION_SIZE`. -/
def mptcpCapableOptionSize : ℤ := 12

/-- `MPTCP_JOINOPTION_SIZE`. -/
def mptcpJoinOptionSize : ℤ := 7

/-- `MPTCP_ACKOPTION_SIZE`. -/
def mptcpAckOptionSize : ℤ := 10

/-- `MPTCP_DATAOPTION_SIZE`. -/
def mptcpDataOptionSize : ℤ := 16

/-- What `sendpacket` reads and writes of an `MpFullTcpAgent`. -/
structure MpSender extends FullTcpAgent where
  /-- The subflow is the first one. -/
  mptcp_primary_ : Bool
  /-- The peer has sent the capable option. -/
  mpcapable_ : Bool
  /-- The peer has sent the join option. -/
  mpjoin_ : Bool
  /-- Bytes of the MPTCP options of the last packet. -/
  mptcp_option_size_ : ℤ
  /-- Mappings of what is sent. -/
  mptcp_dsnmap_ : List DsnMapping
  /-- Mappings of what is received. -/
  mptcp_recv_dsnmap_ : List DsnMapping
  /-- The agent. -/
  mptcp_core_ : Core

namespace MpSender

/-- `mptcp_recv_getack`. -/
def mptcpRecvGetack (a : MpSender) (ackno : ℤ) : Option (MpSender × ℤ) :=
  if ackno = 1 then some (a, 0)
  else (scan ackno a.mptcp_recv_dsnmap_).map fun r =>
    let core := a.mptcp_core_.setDataack r.2.dseqnum (ackno - r.2.sseqnum)
    ({ a with mptcp_recv_dsnmap_ := r.1, mptcp_core_ := core }, core.getDataack)

/-- The options of a `SYN`. -/
def synOptions (a : MpSender) (tcph : HdrTcp) (pflags : TcpFlag) : MpSender × HdrTcp :=
  if pflags &&& thAck = 0 then
    if a.mptcp_primary_ then
      ({ a with mptcp_option_size_ := a.mptcp_option_size_ + mptcpCapableOptionSize },
        { tcph with mp_capable_ := true })
    else
      ({ a with mptcp_option_size_ := a.mptcp_option_size_ + mptcpJoinOptionSize },
        { tcph with mp_join_ := true })
  else
    let r :=
      if a.mpcapable_ then
        ({ a with mptcp_option_size_ := a.mptcp_option_size_ + mptcpCapableOptionSize },
          { tcph with mp_capable_ := true })
      else (a, tcph)
    if r.1.mpjoin_ then
      ({ r.1 with mptcp_option_size_ := r.1.mptcp_option_size_ + mptcpJoinOptionSize },
        { r.2 with mp_join_ := true })
    else r

/-- The options of a `SYN`, or the data-level acknowledgment of another packet. -/
def controlOptions (a : MpSender) (tcph : HdrTcp) (ackno : ℤ) (pflags : TcpFlag) :
    Option (MpSender × HdrTcp) :=
  if pflags &&& thSyn ≠ 0 then some (a.synOptions tcph pflags)
  else (a.mptcpRecvGetack ackno).map fun r =>
    let tcph := { tcph with mp_ack_ := r.2 }
    if r.2 ≠ 0 then
      ({ r.1 with mptcp_option_size_ := r.1.mptcp_option_size_ + mptcpAckOptionSize }, tcph)
    else (r.1, tcph)

/-- The mapping of a packet with data. -/
def dataOptions (a : MpSender) (tcph : HdrTcp) (seqno datalen : ℤ) : MpSender × HdrTcp :=
  if datalen ≠ 0 ∧ a.mptcp_dsnmap_ ≠ [] then
    let a₁ := { a with mptcp_dsnmap_ := (attach seqno a.mptcp_dsnmap_).1 }
    match (attach seqno a.mptcp_dsnmap_).2 with
    | none => (a₁, tcph)
    | some m =>
      ({ a₁ with mptcp_option_size_ := a₁.mptcp_option_size_ + mptcpDataOptionSize },
        { tcph with mp_dsn_ := m.dseqnum, mp_subseq_ := m.sseqnum, mp_dsnlen_ := m.length })
  else (a, tcph)

/-- `sendpacket(seqno, ackno, pflags, datalen, reason, p)`. -/
def sendpacket (a : MpSender) (now : ℚ) (seqno ackno : ℤ) (pflags : TcpFlag) (datalen : ℤ)
    (reason : ℕ) (p? : Option TcpPacket) : Option (MpSender × TcpPacket) :=
  let p := p?.getD TcpPacket.alloc
  let tcph := a.buildHeader now p.tcph seqno ackno pflags reason
  let ect := a.baseEct pflags datalen
  let pflags := a.echoFlags pflags
  (({ a with mptcp_option_size_ := 0 } : MpSender).controlOptions tcph ackno pflags).map fun r =>
    let s := r.1.dataOptions r.2 seqno datalen
    let tcph := { s.2 with hlen_ := s.2.hlen_ + s.1.mptcp_option_size_ }
    ({ s.1 with toFullTcpAgent := s.1.count now ackno datalen reason },
      { tcph := tcph
        fh :=
          { p.fh with
            ect := ect
            ecnecho := pflags &&& thEce ≠ 0
            cong_action := pflags &&& thCwr ≠ 0 }
        size_ := datalen + tcph.hlen_ })

/-! ## What the options change -/

/-- `mptcp_recv_getack` aborts when there is no mapping. -/
theorem mptcpRecvGetack_isSome_iff (a : MpSender) (ackno : ℤ) :
    (a.mptcpRecvGetack ackno).isSome = true ↔
      ackno = 1 ∨ ∃ m ∈ a.mptcp_recv_dsnmap_, m.Meets ackno := by
  rw [mptcpRecvGetack]
  split
  · rename_i h1
    exact iff_of_true rfl (.inl h1)
  · rename_i h1
    rw [Option.isSome_map, scan_isSome_iff, or_iff_right h1]

theorem mptcpRecvGetack_toFullTcpAgent {a : MpSender} {ackno : ℤ} {r : MpSender × ℤ}
    (h : a.mptcpRecvGetack ackno = some r) : r.1.toFullTcpAgent = a.toFullTcpAgent := by
  rw [mptcpRecvGetack] at h
  split at h
  · obtain rfl := Option.some.inj h
    rfl
  · obtain ⟨r', -, rfl⟩ := Option.map_eq_some_iff.mp h
    rfl

theorem synOptions_spec (a : MpSender) (tcph : HdrTcp) (pflags : TcpFlag) :
    (a.synOptions tcph pflags).1.toFullTcpAgent = a.toFullTcpAgent ∧
      (a.synOptions tcph pflags).2.dropMptcp = tcph.dropMptcp := by
  unfold synOptions
  split
  · split <;> exact ⟨rfl, rfl⟩
  · by_cases hcapable : a.mpcapable_ = true
    · simp only [if_pos hcapable]
      split <;> exact ⟨rfl, rfl⟩
    · simp only [if_neg hcapable]
      split <;> exact ⟨rfl, rfl⟩

theorem controlOptions_isSome_iff (a : MpSender) (tcph : HdrTcp) (ackno : ℤ) (pflags : TcpFlag) :
    (a.controlOptions tcph ackno pflags).isSome = true ↔
      pflags &&& thSyn ≠ 0 ∨ ackno = 1 ∨ ∃ m ∈ a.mptcp_recv_dsnmap_, m.Meets ackno := by
  rw [controlOptions]
  split
  · rename_i hsyn
    exact iff_of_true rfl (.inl hsyn)
  · rename_i hsyn
    rw [Option.isSome_map, mptcpRecvGetack_isSome_iff, or_iff_right hsyn]

theorem controlOptions_spec {a : MpSender} {tcph : HdrTcp} {ackno : ℤ} {pflags : TcpFlag}
    {r : MpSender × HdrTcp} (h : a.controlOptions tcph ackno pflags = some r) :
    r.1.toFullTcpAgent = a.toFullTcpAgent ∧ r.2.dropMptcp = tcph.dropMptcp := by
  rw [controlOptions] at h
  split at h
  · obtain rfl := Option.some.inj h
    exact a.synOptions_spec tcph pflags
  · obtain ⟨r', hr', rfl⟩ := Option.map_eq_some_iff.mp h
    have hfull := mptcpRecvGetack_toFullTcpAgent hr'
    simp only
    split
    · exact ⟨hfull, rfl⟩
    · exact ⟨hfull, rfl⟩

theorem dataOptions_spec (a : MpSender) (tcph : HdrTcp) (seqno datalen : ℤ) :
    (a.dataOptions tcph seqno datalen).1.toFullTcpAgent = a.toFullTcpAgent ∧
      (a.dataOptions tcph seqno datalen).2.dropMptcp = tcph.dropMptcp := by
  unfold dataOptions
  split_ifs
  · simp only
    split <;> exact ⟨rfl, rfl⟩
  · exact ⟨rfl, rfl⟩

/-! ## The two functions -/

/-- Two packets that differ in the MPTCP options only; these make the second one `n` bytes
longer. -/
structure SameButOptions (n : ℤ) (p q : TcpPacket) : Prop where
  /-- The TCP header. -/
  tcph : q.tcph.dropMptcp = { p.tcph.dropMptcp with hlen_ := p.tcph.hlen_ + n }
  /-- The bits for ECN. -/
  fh : q.fh = p.fh
  /-- The size. -/
  size_ : q.size_ = p.size_ + n

/-- `MpFullTcpAgent::sendpacket` sends the packet of `FullTcpAgent::sendpacket` with the MPTCP
options added, and counts it in the same way. -/
def Refines (a : MpSender) (now : ℚ) (seqno ackno : ℤ) (pflags : TcpFlag) (datalen : ℤ)
    (reason : ℕ) (p? : Option TcpPacket) : Prop :=
  ∃ r, a.sendpacket now seqno ackno pflags datalen reason p? = some r ∧
    let base := a.toFullTcpAgent.sendpacket now seqno ackno pflags datalen reason p?
    r.1.toFullTcpAgent = base.1 ∧ SameButOptions r.1.mptcp_option_size_ base.2 r.2

/-- The packet is a `SYN`, or there is a mapping for its ACK number. -/
def HasMapping (a : MpSender) (ackno : ℤ) (pflags : TcpFlag) : Prop :=
  pflags &&& thSyn ≠ 0 ∨ ackno = 1 ∨ ∃ m ∈ a.mptcp_recv_dsnmap_, m.Meets ackno

/-- ECT is set on the packet without the rule for DCTCP, or need not be set. -/
def EctAgrees (a : MpSender) (pflags : TcpFlag) (datalen : ℤ) : Prop :=
  a.dctcp_ = true → a.ect_ = true → (datalen > 0 ∧ a.ecn_ = true) ∨ a.ectSynAck pflags = true

/-- The ECE bit is not looked at by the tests for `SYN`. -/
theorem echoFlags_and_syn (a : FullTcpAgent) (pflags : TcpFlag) :
    a.echoFlags pflags &&& thSyn = pflags &&& thSyn := by
  rw [FullTcpAgent.echoFlags]
  split
  · rw [Nat.and_or_distrib_right]
    simp [thEce, thSyn]
  · rfl

theorem ectAgrees_iff (a : MpSender) (pflags : TcpFlag) (datalen : ℤ) :
    a.EctAgrees pflags datalen ↔
      a.baseEct pflags datalen = if a.dctcp_ then a.ect_ else a.baseEct pflags datalen := by
  unfold EctAgrees FullTcpAgent.baseEct
  cases a.dctcp_ <;> cases a.ect_ <;> simp

/-- **The copy agrees with the original** exactly when there is a mapping for the ACK number
and, with DCTCP, the packet gets ECT by the rules for data packets and `SYN`/`ACK`s. -/
theorem sendpacket_refines_iff (a : MpSender) (now : ℚ) (seqno ackno : ℤ) (pflags : TcpFlag)
    (datalen : ℤ) (reason : ℕ) (p? : Option TcpPacket) :
    a.Refines now seqno ackno pflags datalen reason p? ↔
      a.HasMapping ackno pflags ∧ a.EctAgrees pflags datalen := by
  rw [ectAgrees_iff, HasMapping, ← echoFlags_and_syn a.toFullTcpAgent]
  constructor
  · rintro ⟨r, hr, -, hsame⟩
    rw [sendpacket] at hr
    obtain ⟨r', hr', rfl⟩ := Option.map_eq_some_iff.mp hr
    refine ⟨?_, ?_⟩
    · exact (controlOptions_isSome_iff { a with mptcp_option_size_ := 0 } _ _ _).mp
        (Option.isSome_of_eq_some hr')
    · exact congrArg HdrFlags.ect hsame.fh
  · rintro ⟨hmap, hect⟩
    have hsome := (controlOptions_isSome_iff { a with mptcp_option_size_ := 0 }
      (a.buildHeader now (p?.getD TcpPacket.alloc).tcph seqno ackno pflags reason) ackno
      (a.echoFlags pflags)).mpr hmap
    obtain ⟨r', hr'⟩ := Option.isSome_iff_exists.mp hsome
    obtain ⟨h1, h2⟩ := controlOptions_spec hr'
    obtain ⟨h3, h4⟩ := r'.1.dataOptions_spec r'.2 seqno datalen
    have hdrop := h4.trans h2
    have hlen := HdrTcp.hlen_of_dropMptcp hdrop
    refine ⟨_, by rw [sendpacket]; exact congrArg (Option.map _) hr', ?_, ?_, ?_, ?_⟩
    · simp only [h3, h1]
      rfl
    · exact HdrTcp.dropMptcp_lengthen hdrop _
    · exact congrArg (fun ect : Bool => ({ (p?.getD TcpPacket.alloc).fh with
        ect := ect
        ecnecho := a.echoFlags pflags &&& thEce ≠ 0
        cong_action := a.echoFlags pflags &&& thCwr ≠ 0 } : HdrFlags)) hect
    · simp only [hlen]
      exact (add_assoc _ _ _).symm

/-- A subflow with DCTCP that has received nothing yet. -/
def pureAck : MpSender where
  ts_option_ := false
  ts_option_size_ := 10
  tcpip_base_hdr_size_ := 40
  max_sack_blocks_ := 3
  sack_block_size_ := 8
  sack_option_size_ := 2
  ecn_ := true
  ecn_syn_ := false
  dctcp_ := true
  ecn_syn_next_ := false
  ect_ := true
  recent_ce_ := false
  recent_ := 0
  rq_ := ReassemblyQueue.new 1
  last_ack_sent_ := 1
  nackpack_ := 0
  ndatapack_ := 0
  ndatabytes_ := 0
  nrexmitpack_ := 0
  nrexmitbytes_ := 0
  last_send_time_ := -1
  mptcp_primary_ := true
  mpcapable_ := true
  mpjoin_ := false
  mptcp_option_size_ := 0
  mptcp_dsnmap_ := []
  mptcp_recv_dsnmap_ := []
  mptcp_core_ := ⟨⟨0, []⟩, []⟩

/-- With DCTCP the original sets ECT on a pure ACK, and the copy does not. -/
theorem not_sendpacket_refines :
    ¬ ∀ (a : MpSender) (now : ℚ) (seqno ackno : ℤ) (pflags : TcpFlag) (datalen : ℤ) (reason : ℕ)
        (p? : Option TcpPacket), a.Refines now seqno ackno pflags datalen reason p? := by
  intro h
  obtain ⟨r, hr, -, hsame⟩ := h pureAck 0 1 1 thAck 0 reasonNormal none
  rw [sendpacket] at hr
  obtain ⟨r', -, rfl⟩ := Option.map_eq_some_iff.mp hr
  have hect : pureAck.baseEct thAck 0 =
      (pureAck.toFullTcpAgent.sendpacket 0 1 1 thAck 0 reasonNormal none).2.fh.ect :=
    congrArg HdrFlags.ect hsame.fh
  exact absurd hect (by decide)

/-! ## The part that concerns mappings -/

/-- A header as the model of the subflow sees it. -/
def viewHeader (h : HdrTcp) (datalen : ℤ) : Packet where
  seqno := h.seqno_
  ackno := h.ackno_
  flags := h.tcp_flags_
  datalen := datalen
  mp_ack := h.mp_ack_
  mp_dsn := h.mp_dsn_
  mp_subseq := h.mp_subseq_
  mp_dsnlen := h.mp_dsnlen_

/-- A packet as the model of the subflow sees it. -/
def view (q : TcpPacket) : Packet := viewHeader q.tcph (q.size_ - q.tcph.hlen_)

/-- The mappings are those of a subflow and the agent behind it. -/
structure Projects (a : MpSender) (t : MpFullTcpAgent) (core : Core) : Prop where
  /-- Mappings of what is sent. -/
  dsnmap : t.mptcp_dsnmap_ = a.mptcp_dsnmap_
  /-- Mappings of what is received. -/
  recv_dsnmap : t.mptcp_recv_dsnmap_ = a.mptcp_recv_dsnmap_
  /-- The agent behind it. -/
  core : core = a.mptcp_core_

theorem viewHeader_buildHeader (a : FullTcpAgent) (now : ℚ) (seqno ackno datalen : ℤ)
    (pflags : TcpFlag) (reason : ℕ) :
    viewHeader (a.buildHeader now TcpPacket.alloc.tcph seqno ackno pflags reason) datalen =
      { seqno, ackno, flags := pflags, datalen } := by
  unfold FullTcpAgent.buildHeader FullTcpAgent.buildOptions FullTcpAgent.buildTimestamps
  cases a.ts_option_ <;> cases a.rq_.empty <;> rfl

theorem viewHeader_withAck {tcph : HdrTcp} {datalen : ℤ} {p : Packet}
    (h : viewHeader tcph datalen = p) (n : ℤ) :
    viewHeader { tcph with mp_ack_ := n } datalen = { p with mp_ack := n } := by
  rw [← h]
  rfl

theorem synOptions_projects {a : MpSender} {t : MpFullTcpAgent} {core : Core}
    (h : a.Projects t core) (tcph : HdrTcp) (datalen : ℤ) (pflags : TcpFlag) :
    (a.synOptions tcph pflags).1.Projects t core ∧
      viewHeader (a.synOptions tcph pflags).2 datalen = viewHeader tcph datalen := by
  unfold synOptions
  split
  · split <;> exact ⟨⟨h.dsnmap, h.recv_dsnmap, h.core⟩, rfl⟩
  · by_cases hcapable : a.mpcapable_ = true
    · simp only [if_pos hcapable]
      split <;> exact ⟨⟨h.dsnmap, h.recv_dsnmap, h.core⟩, rfl⟩
    · simp only [if_neg hcapable]
      split <;> exact ⟨⟨h.dsnmap, h.recv_dsnmap, h.core⟩, rfl⟩

theorem dataOptions_projects {a : MpSender} {t : MpFullTcpAgent} {core : Core}
    (h : a.Projects t core) (tcph : HdrTcp) (datalen : ℤ) :
    let r := a.dataOptions tcph tcph.seqno_ datalen
    let r' := t.attachMapping (viewHeader tcph datalen)
    r.1.Projects r'.1 core ∧ viewHeader r.2 datalen = r'.2 ∧ r'.1.sent = t.sent := by
  unfold dataOptions MpFullTcpAgent.attachMapping
  have hdatalen : (viewHeader tcph datalen).datalen = datalen := rfl
  by_cases hzero : datalen = 0
  · rw [if_neg (by simp [hzero]), hdatalen, if_pos hzero]
    exact ⟨h, rfl, rfl⟩
  rw [hdatalen, if_neg hzero]
  by_cases hnil : a.mptcp_dsnmap_ = []
  · rw [if_neg (by simp [hnil])]
    have hmap := h.dsnmap.trans hnil
    refine ⟨⟨?_, h.recv_dsnmap, h.core⟩, ?_, rfl⟩
    · simp only [hmap, hnil, attach]
    · simp only [hmap, attach, Packet.withMapping]
  · rw [if_pos ⟨hzero, hnil⟩]
    simp only
    rw [← h.dsnmap]
    cases hm : (attach tcph.seqno_ t.mptcp_dsnmap_).2 with
    | none =>
      refine ⟨⟨rfl, h.recv_dsnmap, h.core⟩, ?_⟩
      simp [viewHeader, hm, Packet.withMapping]
    | some m =>
      refine ⟨⟨rfl, h.recv_dsnmap, h.core⟩, ?_⟩
      simp [viewHeader, hm, Packet.withMapping]

/-- What one packet does, in the two models. -/
def SendsAlike (t : MpFullTcpAgent) (r : MpSender × TcpPacket) (r' : MpFullTcpAgent × Core) :
    Prop :=
  r.1.Projects r'.1 r'.2 ∧ r'.1.last_ack_sent_ = r.1.last_ack_sent_ ∧
    r'.1.sent = t.sent ++ [view r.2]

theorem dataOptions_sendsAlike {a : MpSender} {t : MpFullTcpAgent} {core : Core}
    (h : a.Projects t core) (now : ℚ) {tcph : HdrTcp} {datalen : ℤ} {p : Packet}
    (hp : viewHeader tcph datalen = p) (reason : ℕ) (fh : HdrFlags) :
    let s := a.dataOptions tcph p.seqno datalen
    let s' := t.attachMapping p
    SendsAlike t
      ({ s.1 with toFullTcpAgent := s.1.count now p.ackno datalen reason },
        { tcph := { s.2 with hlen_ := s.2.hlen_ + s.1.mptcp_option_size_ }
          fh := fh
          size_ := datalen + (s.2.hlen_ + s.1.mptcp_option_size_) })
      (s'.1.send s'.2, core) := by
  subst hp
  obtain ⟨h1, h2, h3⟩ := dataOptions_projects h tcph datalen
  have hackno : (t.attachMapping (viewHeader tcph datalen)).2.ackno = tcph.ackno_ := by
    rw [MpFullTcpAgent.attachMapping]
    split
    · rfl
    · exact Packet.withMapping_ackno _ _
  refine ⟨⟨h1.dsnmap, h1.recv_dsnmap, h1.core⟩, hackno, ?_⟩
  simp only [MpFullTcpAgent.send, h3, view, add_sub_cancel_right]
  rw [← h2]
  rfl

theorem controlOptions_projects {a : MpSender} {t : MpFullTcpAgent} {core : Core}
    (h : a.Projects t core) {tcph : HdrTcp} {p : Packet} (hp : viewHeader tcph p.datalen = p)
    (hack : p.mp_ack = 0) {pflags pflags' : TcpFlag} (hsyn : pflags' &&& thSyn = pflags &&& thSyn) :
    Option.Rel (fun r r' => r.1.Projects r'.1 r'.2.1 ∧ r'.1.sent = t.sent ∧
        viewHeader r.2 p.datalen = { p with mp_ack := r'.2.2 })
      (a.controlOptions tcph p.ackno pflags')
      (if pflags &&& thSyn ≠ 0 then some (t, core, 0) else t.mptcpRecvGetack core p.ackno) := by
  rw [controlOptions, hsyn]
  split
  · obtain ⟨h1, h2⟩ := synOptions_projects h tcph p.datalen pflags'
    exact Option.Rel.some ⟨h1, rfl, h2.trans (hp.trans (by rw [← hack]))⟩
  rw [mptcpRecvGetack, MpFullTcpAgent.mptcpRecvGetack]
  split
  · refine Option.Rel.some ⟨h, rfl, ?_⟩
    exact viewHeader_withAck hp 0
  rw [h.recv_dsnmap, h.core]
  cases scan p.ackno a.mptcp_recv_dsnmap_ with
  | none => exact Option.Rel.none
  | some r =>
    refine Option.Rel.some ?_
    simp only
    split
    · exact ⟨⟨h.dsnmap, rfl, rfl⟩, trivial, viewHeader_withAck hp _⟩
    · exact ⟨⟨h.dsnmap, rfl, rfl⟩, trivial, viewHeader_withAck hp _⟩

/-- The model of the subflow builds the same packet, and changes the mappings alike. -/
theorem sendpacket_projects {a : MpSender} {t : MpFullTcpAgent} {core : Core}
    (h : a.Projects t core) (now : ℚ) (seqno ackno : ℤ) (pflags : TcpFlag) (datalen : ℤ)
    (reason : ℕ) :
    Option.Rel (SendsAlike t) (a.sendpacket now seqno ackno pflags datalen reason none)
      (t.sendpacket core seqno ackno pflags datalen) := by
  have hrel := controlOptions_projects (a := { a with mptcp_option_size_ := 0 })
    (p := { seqno, ackno, flags := pflags, datalen }) ⟨h.dsnmap, h.recv_dsnmap, h.core⟩
    (viewHeader_buildHeader a.toFullTcpAgent now seqno ackno datalen pflags reason) rfl
    (echoFlags_and_syn a.toFullTcpAgent pflags)
  rw [sendpacket, MpFullTcpAgent.sendpacket]
  simp only [Option.getD_none] at hrel ⊢
  revert hrel
  generalize controlOptions _ _ _ _ = x
  generalize (if pflags &&& thSyn ≠ 0 then some (t, core, 0) else t.mptcpRecvGetack core ackno) = y
  rintro (⟨h1, h2, h3⟩ | _)
  · have halike := dataOptions_sendsAlike h1 now h3 reason
      { TcpPacket.alloc.fh with
        ect := a.baseEct pflags datalen
        ecnecho := a.echoFlags pflags &&& thEce ≠ 0
        cong_action := a.echoFlags pflags &&& thCwr ≠ 0 }
    rw [SendsAlike, h2] at halike
    exact Option.Rel.some halike
  · exact Option.Rel.none

end MpSender

end Ns2.Mptcp
