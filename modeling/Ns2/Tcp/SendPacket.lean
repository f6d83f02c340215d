import Ns2.Tcp.Reass

/-!
# Building a packet

`FullTcpAgent::sendpacket` of `tcp/tcp-full.cc`, with `build_options` as a
`SackFullTcpAgent` has it.  The agent has what these functions read and write.

* `TcpPacket` — the headers of a packet.
* `ReassemblyQueue.gensack`, `FullTcpAgent.buildOptions` — timestamps and SACK blocks.
* `FullTcpAgent.setEct`, `setEce`, `setCwr`, `count` — the parts of `sendpacket`.
* `FullTcpAgent.sendpacket` — the source function.
-/

namespace Ns2.Tcp

/-- `TH_ECE`. -/
def thEce : TcpFlag := 0x40

/-- `TH_CWR`. -/
def thCwr : TcpFlag := 0x80

/-- `REASON_NORMAL`. -/
def reasonNormal : ℕ := 0

/-- `REASON_TIMEOUT`. -/
def reasonTimeout : ℕ := 1

/-- `REASON_DUPACK`. -/
def reasonDupack : ℕ := 2

/-- `REASON_SACK`. -/
def reasonSack : ℕ := 4

/-- `hdr_tcp`. -/
structure HdrTcp where
  /-- Time the packet was generated. -/
  ts_ : ℚ
  /-- The echoed timestamp. -/
  ts_echo_ : ℚ
  /-- Sequence number. -/
  seqno_ : ℤ
  /-- Reason for a retransmission. -/
  reason_ : ℕ
  /-- SACK blocks. -/
  sack_area_ : ℕ → ℤ × ℤ
  /-- Number of SACK blocks. -/
  sa_length_ : ℤ
  /-- Acknowledgment number. -/
  ackno_ : ℤ
  /-- Header length, in bytes. -/
  hlen_ : ℤ
  /-- TCP flags. -/
  tcp_flags_ : TcpFlag
  /-- MPTCP: the capable option. -/
  mp_capable_ : Bool
  /-- MPTCP: the join option. -/
  mp_join_ : Bool
  /-- MPTCP: data sequence number of a mapping. -/
  mp_dsn_ : ℤ
  /-- MPTCP: subflow sequence number of a mapping. -/
  mp_subseq_ : ℤ
  /-- MPTCP: length of a mapping. -/
  mp_dsnlen_ : ℤ
  /-- MPTCP: data-level acknowledgment. -/
  mp_ack_ : ℤ

/-- The header without the MPTCP options. -/
def HdrTcp.dropMptcp (h : HdrTcp) : HdrTcp :=
  { h with
    mp_capable_ := false
    mp_join_ := false
    mp_dsn_ := 0
    mp_subseq_ := 0
    mp_dsnlen_ := 0
    mp_ack_ := 0 }

theorem HdrTcp.hlen_of_dropMptcp {x y : HdrTcp} (h : x.dropMptcp = y.dropMptcp) :
    x.hlen_ = y.hlen_ := by
  have hlen : x.dropMptcp.hlen_ = y.dropMptcp.hlen_ := by rw [h]
  exact hlen

/-- The length of the header does not matter to its other fields. -/
theorem HdrTcp.dropMptcp_lengthen {x y : HdrTcp} (h : x.dropMptcp = y.dropMptcp) (n : ℤ) :
    ({ x with hlen_ := x.hlen_ + n } : HdrTcp).dropMptcp =
      { y.dropMptcp with hlen_ := y.hlen_ + n } := by
  rw [← h, ← hlen_of_dropMptcp h]
  rfl

/-- `hdr_flags`. -/
structure HdrFlags where
  /-- ECT bit of the IP header. -/
  ect : Bool
  /-- CE bit of the IP header. -/
  ce : Bool
  /-- ECN Echo bit of the TCP header. -/
  ecnecho : Bool
  /-- CWR bit of the TCP header. -/
  cong_action : Bool
  /-- The timestamp is not to be used. -/
  no_ts_ : Bool
  deriving DecidableEq, Repr

/-- A packet: its headers, and `size_` of the common header. -/
structure TcpPacket where
  /-- The TCP header. -/
  tcph : HdrTcp
  /-- The flags. -/
  fh : HdrFlags
  /-- Size, with the headers. -/
  size_ : ℤ

/-- `allocpkt()`: headers of zeros. -/
def TcpPacket.alloc : TcpPacket where
  tcph :=
    { ts_ := 0, ts_echo_ := 0, seqno_ := 0, reason_ := 0, sack_area_ := fun _ => (0, 0),
      sa_length_ := 0, ackno_ := 0, hlen_ := 0, tcp_flags_ := 0, mp_capable_ := false,
      mp_join_ := false, mp_dsn_ := 0, mp_subseq_ := 0, mp_dsnlen_ := 0, mp_ack_ := 0 }
  fh := { ect := false, ce := false, ecnecho := false, cong_action := false, no_ts_ := false }
  size_ := 0

/-- The loop of `gensack`: up to `maxsblock` blocks of the LIFO. -/
def ReassemblyQueue.gensackLoop (q : ReassemblyQueue) : ℕ → Option Ptr → ℤ → List (ℤ × ℤ)
  | 0, _, _ => []
  | _, none, _ => []
  | fuel + 1, some p, maxsblock =>
    if maxsblock = 0 then []
    else (q.startseq_ p, q.endseq_ p) :: q.gensackLoop fuel (q.snext_ p) (maxsblock - 1)

/-- `gensack(sacks, maxsblock)`. -/
def ReassemblyQueue.gensack (q : ReassemblyQueue) (maxsblock : ℤ) : List (ℤ × ℤ) :=
  q.gensackLoop q.bound q.top_ maxsblock

/-- What `sendpacket` reads and writes of a `SackFullTcpAgent`. -/
structure FullTcpAgent where
  /-- Timestamps are used. -/
  ts_option_ : Bool
  /-- Bytes of the timestamp option. -/
  ts_option_size_ : ℤ
  /-- Bytes of the headers without options. -/
  tcpip_base_hdr_size_ : ℤ
  /-- Largest number of SACK blocks in a packet. -/
  max_sack_blocks_ : ℤ
  /-- Bytes of a SACK block. -/
  sack_block_size_ : ℤ
  /-- Bytes of the SACK option without blocks. -/
  sack_option_size_ : ℤ
  /-- ECN is to be used if the peer does. -/
  ecn_ : Bool
  /-- ECT may be set on a `SYN`/`ACK`. -/
  ecn_syn_ : Bool
  /-- DCTCP is used. -/
  dctcp_ : Bool
  /-- The next `SYN`/`ACK` may be ECN-capable. -/
  ecn_syn_next_ : Bool
  /-- ECN was agreed on. -/
  ect_ : Bool
  /-- The last CE bit seen. -/
  recent_ce_ : Bool
  /-- The last timestamp seen. -/
  recent_ : ℚ
  /-- Reassembly queue, with `rcv_nxt_`. -/
  rq_ : ReassemblyQueue
  /-- ACK number of the last packet sent. -/
  last_ack_sent_ : ℤ
  /-- Number of ACKs sent. -/
  nackpack_ : ℤ
  /-- Number of data packets sent. -/
  ndatapack_ : ℤ
  /-- Number of bytes sent. -/
  ndatabytes_ : ℤ
  /-- Number of packets retransmitted. -/
  nrexmitpack_ : ℤ
  /-- Number of bytes retransmitted. -/
  nrexmitbytes_ : ℤ
  /-- Time of the last data sent. -/
  last_send_time_ : ℚ

namespace FullTcpAgent

/-- `FullTcpAgent::build_options`: the timestamps.  With the header comes the length. -/
def buildTimestamps (a : FullTcpAgent) (now : ℚ) (tcph : HdrTcp) : HdrTcp × ℤ :=
  if a.ts_option_ then ({ tcph with ts_ := now, ts_echo_ := a.recent_ }, a.ts_option_size_)
  else ({ tcph with ts_ := -1, ts_echo_ := -1 }, 0)

/-- `SackFullTcpAgent::build_options`. -/
def buildOptions (a : FullTcpAgent) (now : ℚ) (tcph : HdrTcp) : HdrTcp × ℤ :=
  let r := a.buildTimestamps now tcph
  if ¬ a.rq_.empty then
    let blocks := a.rq_.gensack a.max_sack_blocks_
    ({ r.1 with
        sack_area_ := fun i => (blocks[i]?).getD (r.1.sack_area_ i)
        sa_length_ := blocks.length },
      r.2 + (blocks.length * a.sack_block_size_ + a.sack_option_size_))
  else ({ r.1 with sa_length_ := 0 }, r.2)

/-- The basic header with options. -/
def buildHeader (a : FullTcpAgent) (now : ℚ) (tcph : HdrTcp) (seqno ackno : ℤ) (pflags : TcpFlag)
    (reason : ℕ) : HdrTcp :=
  let r := a.buildOptions now
    { tcph with
      seqno_ := seqno
      ackno_ := ackno
      tcp_flags_ := pflags
      reason_ := tcph.reason_ ||| reason
      sa_length_ := 0
      hlen_ := a.tcpip_base_hdr_size_ }
  { r.1 with hlen_ := r.1.hlen_ + r.2 }

/-- The packet is a `SYN`/`ACK` that may be ECN-capable. -/
def ectSynAck (a : FullTcpAgent) (pflags : TcpFlag) : Bool :=
  a.ecn_ ∧ a.ecn_syn_ ∧ a.ecn_syn_next_ ∧ pflags &&& thSyn ≠ 0 ∧ pflags &&& thAck ≠ 0

/-- The ECT bit by the rules for data packets and `SYN`/`ACK`s. -/
def baseEct (a : FullTcpAgent) (pflags : TcpFlag) (datalen : ℤ) : Bool :=
  if datalen > 0 ∧ a.ecn_ then a.ect_
  else if a.ectSynAck pflags then a.ect_
  else false

/-- `pflags` with the ECE bit. -/
def echoFlags (a : FullTcpAgent) (pflags : TcpFlag) : TcpFlag :=
  if a.ecn_ ∧ a.ect_ ∧ a.recent_ce_ then pflags ||| thEce else pflags

/-- The statistics, and `last_ack_sent_`. -/
def count (a : FullTcpAgent) (now : ℚ) (ackno datalen : ℤ) (reason : ℕ) : FullTcpAgent :=
  let a₁ :=
    if datalen ≤ 0 then { a with nackpack_ := a.nackpack_ + 1 }
    else
      { a with
        ndatapack_ := a.ndatapack_ + 1
        ndatabytes_ := a.ndatabytes_ + datalen
        last_send_time_ := now }
  let a₂ :=
    if reason = reasonTimeout ∨ reason = reasonDupack ∨ reason = reasonSack then
      { a₁ with
        nrexmitpack_ := a₁.nrexmitpack_ + 1
        nrexmitbytes_ := a₁.nrexmitbytes_ + datalen }
    else a₁
  { a₂ with last_ack_sent_ := ackno }

/-- `sendpacket(seqno, ackno, pflags, datalen, reason, p)`: the agent, and the packet that
is sent. -/
def sendpacket (a : FullTcpAgent) (now : ℚ) (seqno ackno : ℤ) (pflags : TcpFlag) (datalen : ℤ)
    (reason : ℕ) (p? : Option TcpPacket) : FullTcpAgent × TcpPacket :=
  let p := p?.getD TcpPacket.alloc
  let tcph := a.buildHeader now p.tcph seqno ackno pflags reason
  let ect := a.baseEct pflags datalen
  -- "For DCTCP, ect should be set on all packets"
  let ect := if a.dctcp_ then a.ect_ else ect
  let pflags := a.echoFlags pflags
  (a.count now ackno datalen reason,
    { tcph := tcph
      fh :=
        { p.fh with
          ect := ect
          ecnecho := pflags &&& thEce ≠ 0
          cong_action := pflags &&& thCwr ≠ 0 }
      size_ := datalen + tcph.hlen_ })

end FullTcpAgent

end Ns2.Tcp
