import Ns2.Sctp.TsnBlocks

/-!
# The sending side of an SCTP association

The model of the send variables of `SctpAgent` in `sctp/sctp.cc`: the send buffer, the congestion
variables of the destinations, and the sender's view of the peer's window.

* `SendBufferNode`, `Dest`, `SendVars`, `SendState` — the state.
* `gapAck`, `withdraw`, `markLoop` — how `ProcessGapAckBlocks` marks chunks.
* `MarkChunkForRtx`, `RtxMarkedChunks`, `FastRtx`, `TimeoutRtx` — retransmission.
* `GenOneDataChunk`, `ProcessSackChunk`, `ProcessNonRenegSackChunk` — new chunks and
  acknowledgments.

Timers, round trip times and error counts are left out.  They decide which destination chunks are
sent to, and so the destinations are arguments here.
-/

namespace Ns2.Sctp

/-- `MarkedForRtx_E`. -/
inductive MarkedForRtx where
  | NO_RTX
  | FAST_RTX
  | TIMEOUT_RTX
deriving DecidableEq

/-- `SctpSendBufferNode_S`, with the header of its chunk. -/
structure SendBufferNode where
  uiTsn : ℤ
  usLength : ℕ
  usStreamId : ℕ
  eAdvancedAcked : Bool
  eGapAcked : Bool
  eAddedToPartialBytesAcked : Bool
  iNumMissingReports : ℕ
  iUnrelRtxLimit : ℕ
  eMarkedForRtx : MarkedForRtx
  eIneligibleForFastRtx : Bool
  iNumTxs : ℕ
  /-- The destination that the chunk was last sent to. -/
  spDest : ℕ
deriving DecidableEq

/-- `SctpDest_S`. -/
structure Dest where
  iCwnd : ℤ
  iSsthresh : ℤ
  iPartialBytesAcked : ℤ
  iOutstandingBytes : ℤ
  iNumNewlyAckedBytes : ℤ
  eCcApplied : Bool

/-- What does not change during an association. -/
structure SendConfig where
  uiMaxDataSize : ℕ
  uiMaxPayloadSize : ℕ
  iFastRtxTrigger : ℕ
  iNumDests : ℕ
  /-- `eMode` of an out stream is `SCTP_STREAM_UNRELIABLE`. -/
  unreliable : ℕ → Bool
  eUseNonRenegSacks : Bool
  eUseMaxBurst : Bool

/-- The send variables but for the send buffer. -/
structure SendVars where
  dests : ℕ → Dest
  uiPeerRwnd : ℕ
  uiNextTsn : ℤ
  uiCumAckPoint : ℤ
  uiAdvancedPeerAckPoint : ℤ
  uiHighestTsnNewlyAcked : ℤ
  uiHighestTsnSent : ℤ
  uiRecover : ℤ
  eMarkedChunksPending : Bool
  eApplyMaxBurst : Bool
  /-- The local variable of `ProcessGapAckBlocks`. -/
  eFastRtxNeeded : Bool
  /-- The last window that the peer has advertised. -/
  uiArwnd : ℕ
  /-- A subtraction from `uiPeerRwnd` has gone below zero. -/
  wrapped : Bool

/-- The send variables. -/
structure SendState extends SendVars where
  sSendBuffer : List SendBufferNode

/-- A SACK or an NR-SACK, with its blocks as TSNs. -/
structure Sack where
  uiCumAck : ℤ
  uiArwnd : ℕ
  gapAckBlocks : List TsnBlock
  nonRenegBlocks : List TsnBlock

variable (cfg : SendConfig)

/-- A loop over a send buffer that changes the nodes in place. -/
def walkList (f : SendVars → SendBufferNode → SendVars × SendBufferNode) :
    SendVars → List SendBufferNode → SendVars × List SendBufferNode
  | v, [] => (v, [])
  | v, n :: l =>
    let one := f v n
    let rest := walkList f one.1 l
    (rest.1, one.2 :: rest.2)

/-- A loop over the whole send buffer. -/
def SendState.walk (f : SendVars → SendBufferNode → SendVars × SendBufferNode) (s : SendState) : SendState :=
  let res := walkList f s.toSendVars s.sSendBuffer
  { res.1 with sSendBuffer := res.2 }

namespace SendVars

/-- An assignment to the fields of one destination. -/
def setDest (v : SendVars) (d : ℕ) (f : Dest → Dest) : SendVars :=
  { v with dests := Function.update v.dests d (f (v.dests d)) }

/-- An assignment to the fields of all destinations. -/
def mapDests (v : SendVars) (f : Dest → Dest) : SendVars := { v with dests := fun d => f (v.dests d) }

/-- `iOutstandingBytes += k`. -/
def addOutstanding (v : SendVars) (d : ℕ) (k : ℤ) : SendVars :=
  v.setDest d fun x => { x with iOutstandingBytes := x.iOutstandingBytes + k }

/-- `uiPeerRwnd += k`. -/
def creditRwnd (v : SendVars) (k : ℕ) : SendVars :=
  { v with uiPeerRwnd := (v.uiPeerRwnd + k) % 2 ^ 32 }

/-- `uiPeerRwnd -= k`. -/
def chargeRwnd (v : SendVars) (k : ℕ) : SendVars :=
  { v with
    uiPeerRwnd := (v.uiPeerRwnd + (2 ^ 32 - k % 2 ^ 32)) % 2 ^ 32
    wrapped := v.wrapped || v.uiPeerRwnd < k }

/-- `TotalOutstanding`. -/
def TotalOutstanding (v : SendVars) : ℕ :=
  ((∑ d ∈ Finset.range cfg.iNumDests, (v.dests d).iOutstandingBytes) % 2 ^ 32).toNat

/-! ## Acknowledgments -/

/-- The body of the loop of `SendBufferDequeueUpTo`. -/
def dequeueNode (v : SendVars) (n : SendBufferNode) : SendVars :=
  let v :=
    if n.eGapAcked = false ∧ n.eAdvancedAcked = false then
      { v with uiHighestTsnNewlyAcked := n.uiTsn }.setDest n.spDest fun x =>
        { x with
          iNumNewlyAckedBytes := x.iNumNewlyAckedBytes + n.usLength
          iPartialBytesAcked :=
            if x.iCwnd > x.iSsthresh ∧ x.iOutstandingBytes ≥ x.iCwnd then
              x.iPartialBytesAcked + n.usLength
            else x.iPartialBytesAcked }
    else v
  if n.eIneligibleForFastRtx then { v with eApplyMaxBurst := true } else v

/-- The loop of `SendBufferDequeueUpTo`. -/
def dequeueUpTo (uiTsn : ℤ) : SendVars → List SendBufferNode → SendVars × List SendBufferNode
  | v, [] => (v, [])
  | v, n :: l => if n.uiTsn ≤ uiTsn then dequeueUpTo uiTsn (v.dequeueNode n) l else (v, n :: l)

/-- A chunk that was gap acked is not acked any more. -/
def withdraw (v : SendVars) (n : SendBufferNode) : SendVars × SendBufferNode :=
  if n.eGapAcked then (v.addOutstanding n.spDest n.usLength, { n with eGapAcked := false })
  else (v, n)

/-- A chunk is acked via a gap ack block. -/
def gapAck (eNewCumAck : Bool) (v : SendVars) (n : SendBufferNode) : SendVars × SendBufferNode :=
  if n.eGapAcked = false then
    let v := { v with uiHighestTsnNewlyAcked := max v.uiHighestTsnNewlyAcked n.uiTsn }
    let v :=
      if n.eAdvancedAcked = false then
        v.setDest n.spDest fun x =>
          { x with iNumNewlyAckedBytes := x.iNumNewlyAckedBytes + n.usLength }
      else v
    let add := (v.dests n.spDest).iCwnd > (v.dests n.spDest).iSsthresh ∧ eNewCumAck = true ∧
      n.eAddedToPartialBytesAcked = false
    let v :=
      if add then
        v.setDest n.spDest fun x =>
          { x with iPartialBytesAcked := x.iPartialBytesAcked + n.usLength }
      else v
    (v, { n with
      eGapAcked := true
      eAddedToPartialBytesAcked := n.eAddedToPartialBytesAcked || decide add
      eMarkedForRtx := .NO_RTX })
  else (v, n)

end SendVars

/-- Where `ProcessGapAckBlocks` is in the two lists of blocks. -/
structure Cursor where
  /-- The gap ack blocks that are not processed. -/
  gaps : List TsnBlock
  /-- The non-renegable blocks that are not processed. -/
  nonReneg : List TsnBlock
  /-- `spCurrGapAck`. -/
  block : TsnBlock
  eUseGapAckBlock : Bool

namespace Cursor

/-- All blocks are processed. -/
def done (c : Cursor) : Bool := c.gaps.isEmpty && c.nonReneg.isEmpty

/-- One block more is processed. -/
def processed (c : Cursor) : Cursor :=
  if cfg.eUseNonRenegSacks = false ∨ c.eUseGapAckBlock then { c with gaps := c.gaps.tail }
  else { c with nonReneg := c.nonReneg.tail }

/-- The block to use next. -/
def choose (c : Cursor) : Cursor :=
  match c.gaps, c.nonReneg with
  | [], [] => c
  | g :: _, [] => { c with block := g, eUseGapAckBlock := true }
  | [], b :: _ =>
    if cfg.eUseNonRenegSacks then { c with block := b, eUseGapAckBlock := false } else c
  | g :: _, b :: _ =>
    if cfg.eUseNonRenegSacks = false ∨ g.uiStartTsn < b.uiStartTsn then
      { c with block := g, eUseGapAckBlock := true }
    else if b.uiStartTsn < g.uiStartTsn then { c with block := b, eUseGapAckBlock := false }
    -- the warning that should not be reached
    else { c with block := g }

/-- The cursor at the first block. -/
def init (sack : Sack) : Cursor :=
  choose cfg ⟨sack.gapAckBlocks, if cfg.eUseNonRenegSacks then sack.nonRenegBlocks else [], ⟨0, 0⟩, false⟩

end Cursor

/-- The marking loops of `ProcessGapAckBlocks`, with the nodes before the current one.
`spPrevNode` is the last of them, or the head of the list when there are none: a step back then
makes the head the current node again, and the increment of the loop passes it.  `none` when the
rounds do not suffice. -/
def markLoop (eNewCumAck : Bool) : ℕ → SendVars → List SendBufferNode → List SendBufferNode →
    Cursor → Option (SendVars × List SendBufferNode)
  | 0, _, _, _, _ => none
  | _ + 1, v, before, [], _ => some (v, before)
  | rounds + 1, v, before, n :: l, c =>
    if c.done then
      -- out of blocks: the remaining chunks are not acked
      let rest := walkList SendVars.withdraw v (n :: l)
      some (rest.1, before ++ rest.2)
    else if n.uiTsn < c.block.uiStartTsn then
      let one := v.withdraw n
      markLoop eNewCumAck rounds one.1 (before ++ [one.2]) l c
    else if n.uiTsn ≤ c.block.uiEndTsn then
      let one := v.gapAck eNewCumAck n
      markLoop eNewCumAck rounds one.1 (before ++ [one.2]) l c
    else if cfg.eUseNonRenegSacks = false then
      let one := v.withdraw n
      markLoop eNewCumAck rounds one.1 (before ++ [one.2]) l ((c.processed cfg).choose cfg)
    else if (c.processed cfg).done then
      markLoop eNewCumAck rounds v (before ++ [n]) l (c.processed cfg)
    else if before = [] then
      markLoop eNewCumAck rounds v [n] l ((c.processed cfg).choose cfg)
    else markLoop eNewCumAck rounds v before (n :: l) ((c.processed cfg).choose cfg)

/-- The rounds that are enough: one for each chunk and each block, and one to leave the loop. -/
def markRounds (s : SendState) (sack : Sack) : ℕ :=
  s.sSendBuffer.length + sack.gapAckBlocks.length + sack.nonRenegBlocks.length + 1

namespace SendState

/-- The marking loops over the whole send buffer. -/
def markGapAcked (s : SendState) (sack : Sack) (eNewCumAck : Bool) : Option SendState :=
  (markLoop cfg eNewCumAck (markRounds s sack) s.toSendVars [] s.sSendBuffer
    (Cursor.init cfg sack)).map fun res => { res.1 with sSendBuffer := res.2 }

/-! ## Retransmission -/

/-- `MarkChunkForRtx`. -/
def markChunkForRtx (eMarkedForRtx : MarkedForRtx) (v : SendVars) (n : SendBufferNode) :
    SendVars × SendBufferNode :=
  let v := v.creditRwnd n.usLength
  if cfg.unreliable n.usStreamId ∧ n.iNumTxs > n.iUnrelRtxLimit then
    (v.addOutstanding n.spDest (-n.usLength),
      { n with eAdvancedAcked := true, eMarkedForRtx := .NO_RTX })
  else ({ v with eMarkedChunksPending := true }, { n with eMarkedForRtx := eMarkedForRtx })

/-- `AnyMarkedChunks`. -/
def AnyMarkedChunks (s : SendState) : Bool := s.sSendBuffer.any fun n => n.eMarkedForRtx ≠ .NO_RTX

/-- A chunk with its padding. -/
def padded (iSize : ℕ) : ℕ := if iSize % 4 ≠ 0 then iSize + (4 - iSize % 4) else iSize

/-- A marked chunk is sent to `spRtxDest`. -/
def resend (spRtxDest : ℕ) (v : SendVars) (n : SendBufferNode) : SendVars × SendBufferNode :=
  ((v.addOutstanding spRtxDest n.usLength).chargeRwnd n.usLength,
    { n with spDest := spRtxDest, iNumTxs := n.iNumTxs + 1, eMarkedForRtx := .NO_RTX })

/-- The loop that fills a packet: the variables, its size, the nodes passed and those left. -/
def fillPacket (spRtxDest : ℕ) : SendVars → ℕ → List SendBufferNode →
    SendVars × ℕ × List SendBufferNode × List SendBufferNode
  | v, iOutDataSize, [] => (v, iOutDataSize, [], [])
  | v, iOutDataSize, n :: l =>
    if n.eMarkedForRtx ≠ .NO_RTX then
      if iOutDataSize + n.usLength > cfg.uiMaxPayloadSize then (v, iOutDataSize, [], n :: l)
      else
        let one := resend spRtxDest v n
        let rest := fillPacket spRtxDest one.1 (iOutDataSize + padded n.usLength) l
        (rest.1, rest.2.1, one.2 :: rest.2.2.1, rest.2.2.2)
    else
      let rest := fillPacket spRtxDest v iOutDataSize l
      (rest.1, rest.2.1, n :: rest.2.2.1, rest.2.2.2)

/-- `SctpRtxLimit_E`. -/
inductive RtxLimit where
  | RTX_LIMIT_ONE_PACKET
  | RTX_LIMIT_CWND
deriving DecidableEq

/-- The loop over the packets, with those sent and `uiBurstLength`.  `none` when the rounds do not
suffice, as when a chunk does not fit a packet. -/
def rtxLoop (eLimit : RtxLimit) (spRtxDest : ℕ) : ℕ → SendVars → List SendBufferNode →
    List SendBufferNode → ℕ → ℕ → Option (SendVars × List SendBufferNode)
  | 0, _, _, _, _, _ => none
  | rounds + 1, v, before, l, iNumPacketsSent, uiBurstLength =>
    if eLimit = .RTX_LIMIT_ONE_PACKET ∧ iNumPacketsSent < 1 ∧ l ≠ [] ∨
        eLimit = .RTX_LIMIT_CWND ∧
          (v.dests spRtxDest).iOutstandingBytes < (v.dests spRtxDest).iCwnd ∧ l ≠ [] then
      let packet := fillPacket cfg spRtxDest v 0 l
      if packet.2.1 > 0 then
        if cfg.eUseMaxBurst ∧ packet.1.eApplyMaxBurst then
          if uiBurstLength ≥ 4 then
            some ({ packet.1 with eApplyMaxBurst := false },
              before ++ packet.2.2.1 ++ packet.2.2.2)
          else
            rtxLoop eLimit spRtxDest rounds packet.1 (before ++ packet.2.2.1) packet.2.2.2
              (iNumPacketsSent + 1) (uiBurstLength + 1)
        else
          rtxLoop eLimit spRtxDest rounds packet.1 (before ++ packet.2.2.1) packet.2.2.2
            (iNumPacketsSent + 1) uiBurstLength
      else
        rtxLoop eLimit spRtxDest rounds packet.1 (before ++ packet.2.2.1) packet.2.2.2
          iNumPacketsSent uiBurstLength
    else some (v, before ++ l)

/-- The loop that counts the marked chunks as not outstanding, or as outstanding again. -/
def countMarked (sign : ℤ) (v : SendVars) (n : SendBufferNode) : SendVars × SendBufferNode :=
  if n.eMarkedForRtx ≠ .NO_RTX then (v.addOutstanding n.spDest (sign * n.usLength), n) else (v, n)

/-- `RtxMarkedChunks`, where `rtxDest` picks the destination for the first marked chunk.  Without
a marked chunk its loops change nothing. -/
def RtxMarkedChunks (s : SendState) (eLimit : RtxLimit) (rtxDest : SendBufferNode → ℕ) :
    Option SendState :=
  match s.sSendBuffer.find? fun n => n.eMarkedForRtx ≠ .NO_RTX with
  | none => some { s with eMarkedChunksPending := false }
  | some first =>
    let s := s.walk (countMarked (-1))
    (rtxLoop cfg eLimit (rtxDest first) (s.sSendBuffer.length + 1) s.toSendVars [] s.sSendBuffer 0
      0).map fun res =>
        let s := SendState.walk (countMarked 1) { res.1 with sSendBuffer := res.2 }
        { s with eMarkedChunksPending := s.AnyMarkedChunks }

/-- `GetHighestOutstandingTsn`, which is also the new `uiHighestTsnSent`. -/
def highestOutstandingTsn (v : SendVars) (l : List SendBufferNode) : ℤ :=
  max ((l.reverse.find? fun n => n.eMarkedForRtx = .NO_RTX).elim 0 SendBufferNode.uiTsn)
    v.uiHighestTsnSent

/-- The body of the loop of `FastRtx` that cuts the congestion windows. -/
def cutCwnd (l : List SendBufferNode) (v : SendVars) (n : SendBufferNode) :
    SendVars × SendBufferNode :=
  if (n.eMarkedForRtx ≠ .NO_RTX ∨ n.eAdvancedAcked) ∧ (v.dests n.spDest).eCcApplied = false ∧
      n.uiTsn > v.uiRecover then
    let v := v.setDest n.spDest fun x =>
      { x with
        iSsthresh := max (x.iCwnd / 2) (4 * cfg.uiMaxDataSize)
        iCwnd := max (x.iCwnd / 2) (4 * cfg.uiMaxDataSize)
        iPartialBytesAcked := 0
        eCcApplied := true }
    ({ v with
      uiRecover := highestOutstandingTsn v l
      uiHighestTsnSent := highestOutstandingTsn v l }, n)
  else (v, n)

/-- `FastRtx`. -/
def FastRtx (s : SendState) (rtxDest : SendBufferNode → ℕ) : Option SendState :=
  let s : SendState := { s.mapDests fun x => { x with eCcApplied := false } with
    sSendBuffer := s.sSendBuffer }
  let s := s.walk (cutCwnd cfg s.sSendBuffer)
  if s.eMarkedChunksPending then s.RtxMarkedChunks cfg .RTX_LIMIT_ONE_PACKET rtxDest else some s

/-- The body of the loop of `TimeoutRtx`. -/
def timeoutNode (spDest : ℕ) (v : SendVars) (n : SendBufferNode) : SendVars × SendBufferNode :=
  if n.spDest = spDest ∧ n.eGapAcked = false ∧ n.eAdvancedAcked = false then
    let one := markChunkForRtx cfg .TIMEOUT_RTX v n
    (one.1, { one.2 with iNumMissingReports := 0 })
  else (v, n)

/-- `TimeoutRtx`. -/
def TimeoutRtx (s : SendState) (spDest : ℕ) (rtxDest : SendBufferNode → ℕ) : Option SendState :=
  let s := s.walk (timeoutNode cfg spDest)
  if s.eMarkedChunksPending then s.RtxMarkedChunks cfg .RTX_LIMIT_ONE_PACKET rtxDest else some s

/-! ## New chunks -/

/-- `GenOneDataChunk`, for a chunk of `usLength` bytes sent to `spNewTxDest`. -/
def GenOneDataChunk (s : SendState) (usLength usStreamId iUnrelRtxLimit spNewTxDest : ℕ) : SendState :=
  let n : SendBufferNode :=
    { uiTsn := s.uiNextTsn + 1
      usLength := usLength
      usStreamId := usStreamId
      eAdvancedAcked := false
      eGapAcked := false
      eAddedToPartialBytesAcked := false
      iNumMissingReports := 0
      iUnrelRtxLimit := iUnrelRtxLimit
      eMarkedForRtx := .NO_RTX
      eIneligibleForFastRtx := false
      iNumTxs := 1
      spDest := spNewTxDest }
  let v := { s.toSendVars with uiNextTsn := s.uiNextTsn + 1 }.addOutstanding spNewTxDest usLength
  { (if (padded usLength : ℤ) ≤ Receiver.toInt v.uiPeerRwnd then v.chargeRwnd (padded usLength)
     else { v with uiPeerRwnd := 0 }) with
    sSendBuffer := s.sSendBuffer ++ [n] }

/-! ## SACKs -/

/-- The body of the loop of `ProcessGapAckBlocks` that counts missing reports. -/
def missingReport (eNewCumAck : Bool) (uiHighestTsnSacked : ℤ) (v : SendVars) (n : SendBufferNode) :
    SendVars × SendBufferNode :=
  if n.eGapAcked = false ∧ (n.uiTsn < v.uiHighestTsnNewlyAcked ∨ eNewCumAck = true ∧
      v.uiHighestTsnNewlyAcked ≤ v.uiRecover ∧ n.uiTsn < uiHighestTsnSacked) then
    let n := { n with iNumMissingReports := n.iNumMissingReports + 1 }
    if n.iNumMissingReports ≥ cfg.iFastRtxTrigger ∧ n.eIneligibleForFastRtx = false ∧
        n.eAdvancedAcked = false then
      let one := markChunkForRtx cfg .FAST_RTX v n
      ({ one.1 with eFastRtxNeeded := true }, { one.2 with eIneligibleForFastRtx := true })
    else (v, n)
  else (v, n)

/-- `ProcessGapAckBlocks`.  Each block is looked at for `uiHighestTsnSacked`, in the marking loop
or behind it. -/
def ProcessGapAckBlocks (s : SendState) (sack : Sack) (eNewCumAck : Bool) : Option SendState :=
  let blocks := sack.gapAckBlocks ++ if cfg.eUseNonRenegSacks then sack.nonRenegBlocks else []
  let uiHighestTsnSacked :=
    blocks.foldl (fun h b => max h b.uiEndTsn) s.uiHighestTsnNewlyAcked
  let s := { s with eFastRtxNeeded := false }
  if s.sSendBuffer = [] then some s
  else (s.markGapAcked cfg sack eNewCumAck).map (walk (missingReport cfg eNewCumAck uiHighestTsnSacked))

/-- `AdjustCwnd`. -/
def AdjustCwnd (x : Dest) : Dest :=
  if x.iCwnd ≤ x.iSsthresh then
    if x.iOutstandingBytes ≥ x.iCwnd then
      { x with iCwnd := x.iCwnd + min x.iNumNewlyAckedBytes cfg.uiMaxDataSize }
    else x
  else if x.iPartialBytesAcked ≥ x.iCwnd ∧ x.iOutstandingBytes ≥ x.iCwnd then
    { x with
      iPartialBytesAcked :=
        if x.iCwnd ≤ x.iPartialBytesAcked then x.iPartialBytesAcked - x.iCwnd else 0
      iCwnd := x.iCwnd + cfg.uiMaxDataSize }
  else x

/-- What `ProcessSackChunk` does with each destination. -/
def settleDest (adjust : Bool) (x : Dest) : Dest :=
  let x := if adjust ∧ x.iNumNewlyAckedBytes > 0 then AdjustCwnd cfg x else x
  let x :=
    { x with
      iOutstandingBytes :=
        if x.iNumNewlyAckedBytes ≤ x.iOutstandingBytes then
          x.iOutstandingBytes - x.iNumNewlyAckedBytes
        else 0 }
  if x.iOutstandingBytes = 0 then { x with iPartialBytesAcked := 0 } else x

/-- The loop of `AdvancePeerAckPoint`. -/
def advancedPoint : ℤ → List SendBufferNode → ℤ
  | point, [] => point
  | point, n :: l =>
    if n.eAdvancedAcked = false ∧ n.eGapAcked = false then point else advancedPoint n.uiTsn l

/-- `AdvancePeerAckPoint`. -/
def AdvancePeerAckPoint (s : SendState) : SendState :=
  { s with
    uiAdvancedPeerAckPoint :=
      advancedPoint (max s.uiAdvancedPeerAckPoint s.uiCumAckPoint) s.sSendBuffer }

/-- The loops of `ProcessNonRenegSackBlocks`. -/
def deleteBlocks : List TsnBlock → List SendBufferNode → List SendBufferNode
  | [], l => l
  | b :: blocks, l =>
    (l.takeWhile fun n => n.uiTsn < b.uiStartTsn) ++
      deleteBlocks blocks
        ((l.dropWhile fun n => n.uiTsn < b.uiStartTsn).dropWhile fun n => n.uiTsn ≤ b.uiEndTsn)

/-- `ProcessNonRenegSackBlocks`, with `UpdateHighestTsnSent`. -/
def ProcessNonRenegSackBlocks (s : SendState) (sack : Sack) : SendState :=
  if sack.nonRenegBlocks = [] ∨ s.sSendBuffer = [] then s
  else
    { s with
      uiHighestTsnSent := max (s.sSendBuffer.getLast?.elim 0 SendBufferNode.uiTsn) s.uiHighestTsnSent
      sSendBuffer := deleteBlocks sack.nonRenegBlocks s.sSendBuffer }

/-- How `ProcessSackChunk` processes the blocks. -/
def gapAcksOfSack (sack : Sack) (s : SendState) (eNewCumAck : Bool) : Option SendState :=
  if sack.gapAckBlocks ≠ [] then s.ProcessGapAckBlocks cfg sack eNewCumAck
  else some { s with eFastRtxNeeded := false }

/-- How `ProcessNonRenegSackChunk` processes the blocks. -/
def gapAcksOfNonRenegSack (sack : Sack) (s : SendState) (eNewCumAck : Bool) : Option SendState :=
  if sack.gapAckBlocks ≠ [] ∨ sack.nonRenegBlocks ≠ [] then
    (s.ProcessGapAckBlocks cfg sack eNewCumAck).map fun s => s.ProcessNonRenegSackBlocks sack
  else some { s with eFastRtxNeeded := false }

/-- `ProcessSackChunk` and `ProcessNonRenegSackChunk` up to the retransmissions, for a SACK that is
not out of order.  They differ in how they process the blocks. -/
def processAcks (gapAcks : SendState → Bool → Option SendState) (s : SendState) (sack : Sack) :
    Option SendState :=
  let eNewCumAck := decide (sack.uiCumAck > s.uiCumAckPoint)
  let s : SendState :=
    if eNewCumAck then
      let res := SendVars.dequeueUpTo sack.uiCumAck s.toSendVars s.sSendBuffer
      { res.1 with uiCumAckPoint := sack.uiCumAck, sSendBuffer := res.2 }
    else s
  (gapAcks s eNewCumAck).map fun s =>
    AdvancePeerAckPoint
      { s.mapDests (settleDest cfg (eNewCumAck && decide (sack.uiCumAck ≥ s.uiRecover))) with
        sSendBuffer := s.sSendBuffer }

/-- Their retransmissions. -/
def rtxAfterSack (s : SendState) (rtxDest : SendBufferNode → ℕ) : Option SendState :=
  if s.eFastRtxNeeded then s.FastRtx cfg rtxDest
  else if s.AnyMarkedChunks then
    { s with eMarkedChunksPending := true }.RtxMarkedChunks cfg .RTX_LIMIT_CWND rtxDest
  else some { s with eMarkedChunksPending := false }

/-- What `ProcessSackChunk` and `ProcessNonRenegSackChunk` share. -/
def processSack (gapAcks : SendState → Bool → Option SendState) (s : SendState) (sack : Sack)
    (rtxDest : SendBufferNode → ℕ) : Option SendState :=
  let s : SendState := { s.mapDests fun x => { x with iNumNewlyAckedBytes := 0 } with
    sSendBuffer := s.sSendBuffer }
  if sack.uiCumAck < s.uiCumAckPoint then some s
  else
    (s.processAcks cfg gapAcks sack).bind fun s =>
      (s.rtxAfterSack cfg rtxDest).map fun s =>
        { s with
          uiPeerRwnd := sack.uiArwnd - s.TotalOutstanding cfg
          uiArwnd := sack.uiArwnd }

/-- `ProcessSackChunk`. -/
def ProcessSackChunk (s : SendState) (sack : Sack) (rtxDest : SendBufferNode → ℕ) :
    Option SendState :=
  s.processSack cfg (gapAcksOfSack cfg sack) sack rtxDest

/-- `ProcessNonRenegSackChunk`. -/
def ProcessNonRenegSackChunk (s : SendState) (sack : Sack) (rtxDest : SendBufferNode → ℕ) :
    Option SendState :=
  s.processSack cfg (gapAcksOfNonRenegSack cfg sack) sack rtxDest

end SendState

end Ns2.Sctp
