import Ns2.Sctp.ReliableSender
import Ns2.Sctp.SackChunk
import Ns2.Sctp.TsnState

/-!
# An association over a lossy network

A sender and a receiver of `sctp/sctp.cc`, and the DATA chunks and SACKs between them.  The network
keeps everything that has been sent: a packet that never arrives is lost, one that arrives again is
duplicated, and any order of arrival is possible.  Retransmissions send what is there already.

* `GenDataChunk` — the header that `GenChunk` writes for a new DATA chunk.
* `Association`, `Association.step`, `Association.run` — the two parties and the network.
* `Received` — the invariant of the receiver, for the TSNs that have arrived.
* `Safe` — the invariant of the association.
* `association_reliable` — nothing is lost, and the acks are right.
-/

namespace Ns2.Sctp

/-- The header of a DATA chunk, and the stream sequence numbers after it.  An unordered chunk has
none; it is not read. -/
def GenDataChunk (uiNextTsn : ℤ) (usNextStreamSeqNum : ℕ → ℕ) (usLength usStreamId : ℕ)
    (eUnordered : Bool) : DataChunk × (ℕ → ℕ) :=
  (⟨uiNextTsn + 1, usLength, usStreamId, if eUnordered then 0 else usNextStreamSeqNum usStreamId, eUnordered⟩,
    if eUnordered then usNextStreamSeqNum
    else Function.update usNextStreamSeqNum usStreamId ((usNextStreamSeqNum usStreamId + 1) % 2 ^ 16))

/-- A SACK as its receiver reads it. -/
def SackChunk.read (c : SackChunk) : Option Sack :=
  c.gapAckBlocks.map fun blocks => ⟨c.uiCumAck, c.uiArwnd, blocks, []⟩

/-- The two parties, and what has been sent. -/
structure Association where
  sender : SendState
  /-- `spOutStreams`. -/
  usNextStreamSeqNum : ℕ → ℕ
  receiver : Receiver
  chunks : List DataChunk
  sacks : List Sack

inductive AssociationEvent where
  | send (usLength usStreamId iUnrelRtxLimit spNewTxDest : ℕ) (eUnordered : Bool)
  /-- The `i`-th chunk arrives. -/
  | data (i : ℕ)
  /-- The receiver sends a SACK. -/
  | ack
  /-- The `i`-th SACK arrives. -/
  | sack (i : ℕ) (rtxDest : SendBufferNode → ℕ)
  | timeout (spDest : ℕ) (rtxDest : SendBufferNode → ℕ)
  | window (d : ℕ) (iCwnd iSsthresh iPartialBytesAcked : ℤ) (eApplyMaxBurst : Bool)

namespace Association

/-- One event; `none` when a function does not return or a SACK is read beyond its end. -/
def step (cfg : SendConfig) (a : Association) : AssociationEvent → Option Association
  | .send usLength usStreamId iUnrelRtxLimit spNewTxDest eUnordered =>
    let chunk := GenDataChunk a.sender.uiNextTsn a.usNextStreamSeqNum usLength usStreamId eUnordered
    (a.sender.step cfg (.send usLength usStreamId iUnrelRtxLimit spNewTxDest)).map fun s =>
      { a with sender := s, usNextStreamSeqNum := chunk.2, chunks := a.chunks ++ [chunk.1] }
  | .data i =>
    match a.chunks[i]? with
    | none => some a
    | some c => some { a with receiver := a.receiver.ProcessDataChunk c }
  | .ack =>
    let sack := a.receiver.GenSack cfg.uiMaxDataSize
    sack.1.read.map fun k => { a with receiver := sack.2, sacks := a.sacks ++ [k] }
  | .sack i rtxDest =>
    match a.sacks[i]? with
    | none => some a
    | some k => (a.sender.step cfg (.sack k rtxDest)).map fun s => { a with sender := s }
  | .timeout spDest rtxDest =>
    (a.sender.step cfg (.timeout spDest rtxDest)).map fun s => { a with sender := s }
  | .window d iCwnd iSsthresh iPartialBytesAcked eApplyMaxBurst =>
    (a.sender.step cfg (.window d iCwnd iSsthresh iPartialBytesAcked eApplyMaxBurst)).map fun s =>
      { a with sender := s }

def run (cfg : SendConfig) (a : Association) (es : List AssociationEvent) : Option Association :=
  es.foldlM (step cfg) a

end Association

/-! ## The receiver -/

namespace Receiver

variable {r : Receiver} {c : DataChunk} {t : ℤ}

/-- The TSNs that have been handed to the streams. -/
def streamedTsns (r : Receiver) : Set ℤ := {t | ∃ c ∈ r.streamed, c.uiTsn = t}

/-- The TSN variables are those of the chunks that have been handed to the streams. -/
structure Received (r : Receiver) : Prop where
  inv : r.tsnState.Inv r.streamedTsns
  le : ∀ t ∈ r.streamedTsns, t ≤ r.uiHighestRecvTsn

theorem Received.congr {r' : Receiver} (h : r.Received) (heq : r'.tsnState = r.tsnState) : r'.Received := by
  have hstreamed : r'.streamed = r.streamed := congrArg TsnState.streamed heq
  have hset : r'.streamedTsns = r.streamedTsns := by rw [streamedTsns, streamedTsns, hstreamed]
  have hhigh : r'.uiHighestRecvTsn = r.uiHighestRecvTsn := congrArg TsnState.uiHighestRecvTsn heq
  exact ⟨by rw [heq, hset]; exact h.inv, fun t ht => by rw [hhigh]; exact h.le t (hset ▸ ht)⟩

theorem received_init {w k : ℕ} {f : ℕ → StreamMode} {nr : Bool} : (Receiver.init w k f nr).Received := by
  have hset : (Receiver.init w k f nr).streamedTsns = ∅ := by
    ext t
    simp [streamedTsns, Receiver.init]
  exact ⟨hset ▸ TsnState.Inv.init, fun t ht => absurd (hset ▸ ht) (Set.notMem_empty t)⟩

/-- A chunk that is not handed on changes these variables at most. -/
def PassedOver (r r' : Receiver) : Prop :=
  ∃ dups needed, r' = { r with sDupTsnList := dups, eSackChunkNeeded := needed }

theorem PassedOver.tsnState {r' : Receiver} (h : r.PassedOver r') : r'.tsnState = r.tsnState := by
  obtain ⟨dups, needed, rfl⟩ := h
  rfl

theorem mem_streamedTsns (hc : c ∈ r.streamed) : c.uiTsn ∈ r.streamedTsns := ⟨c, hc, rfl⟩

/-- **A DATA chunk is dropped, noted as a duplicate, or handed to the streams.** -/
theorem Received.data (h : r.Received) (hc : 1 ≤ c.uiTsn) (hc' : c.uiTsn < 2 ^ 32 - 1) :
    (r.ProcessDataChunk c).Received ∧
      (r.PassedOver (r.ProcessDataChunk c) ∨ c.usLength ≤ r.uiMyRwnd ∧
        c.uiTsn ∉ r.streamedTsns ∧ (r.ProcessDataChunk c).streamed = r.streamed ++ [c]) := by
  by_cases hroom : c.usLength ≤ r.uiMyRwnd
  · have hfit : r.Fits (.data c) := ⟨hroom, hc, hc'⟩
    by_cases hS : c.uiTsn ∈ r.streamedTsns
    · have hsafe : r.SafeStep (.data c) := fun hskip => absurd (h.le _ hS) (not_le.mpr hskip.1)
      have hdup : r.PassedOver (r.ProcessDataChunk c) :=
        ⟨_, _, ProcessDataChunk_dup h.inv hfit hS hsafe⟩
      exact ⟨h.congr hdup.tsnState, Or.inl hdup⟩
    · have hnew := new_inv h.inv hfit hS
      have hstate : (r.ProcessDataChunk c).tsnState =
          { ((r.accept c).UpdateRecvTsnBlocks c.uiTsn).tsnState with streamed := r.streamed ++ [c] } := by
        rw [ProcessDataChunk_new h.inv hfit hS, tsnState_UpdateAllStreams, tsnState_PassToStream]
        rfl
      have hstreamed : (r.ProcessDataChunk c).streamed = r.streamed ++ [c] :=
        congrArg TsnState.streamed hstate
      have hhigh : (r.ProcessDataChunk c).uiHighestRecvTsn = max r.uiHighestRecvTsn c.uiTsn :=
        congrArg TsnState.uiHighestRecvTsn hstate
      have hset : (r.ProcessDataChunk c).streamedTsns = insert c.uiTsn r.streamedTsns := by
        ext t
        simp only [streamedTsns, hstreamed, List.mem_append, List.mem_singleton, Set.mem_ofPred_eq,
          Set.mem_insert_iff]
        constructor
        · rintro ⟨x, hx | rfl, rfl⟩
          · exact Or.inr ⟨x, hx, rfl⟩
          · exact Or.inl rfl
        · rintro (rfl | ⟨x, hx, rfl⟩)
          · exact ⟨c, Or.inr rfl, rfl⟩
          · exact ⟨x, Or.inl hx, rfl⟩
      refine ⟨⟨hset ▸ hnew, fun t ht => ?_⟩, Or.inr ⟨hroom, hS, hstreamed⟩⟩
      rw [hhigh]
      rcases hset ▸ ht with rfl | ht
      · exact le_max_right _ _
      · exact (h.le t ht).trans (le_max_left _ _)
  · have hdrop : r.PassedOver (r.ProcessDataChunk c) :=
      ⟨r.sDupTsnList, false, by rw [ProcessDataChunk, if_neg hroom]⟩
    exact ⟨h.congr hdrop.tsnState, Or.inl hdrop⟩

/-- What a SACK may say about the TSNs of a receiver. -/
structure Reports (k : Sack) (r : Receiver) : Prop where
  wellFormed : k.WellFormed
  blocks : tsns k.gapAckBlocks ⊆ r.streamedTsns
  cumAck : k.uiCumAck ≤ r.uiCumAck

/-- **A SACK that has room for its entries is read back, and reports what has been received.** -/
theorem Received.genSack {uiMaxDataSize : ℕ} (h : r.Received) (hroom : r.HasRoom uiMaxDataSize) :
    ∃ k, (r.GenSack uiMaxDataSize).1.read = some k ∧ Reports k r ∧ k.uiCumAck = r.uiCumAck := by
  have hexact := h.inv.exact
  have hpos : ∀ b ∈ r.sRecvTsnBlockList, b.uiStartTsn < b.uiEndTsn + 1 := hexact.runs.apart.pos
  have hstart : ∀ b ∈ r.sRecvTsnBlockList, r.uiCumAck + 1 < b.uiStartTsn := fun b hb => hexact.start_gt hb
  have habove : ∀ b ∈ r.sRecvTsnBlockList, r.uiCumAck < b.uiStartTsn ∧ b.uiStartTsn ≤ b.uiEndTsn := by
    intro b hb
    have h1 := hpos b hb
    have h2 := hstart b hb
    omega
  have hread := ((sack_describes_itself_iff uiMaxDataSize habove).mpr hroom).readBack
  generalize (r.GenSack uiMaxDataSize).1.usNumGapAckBlocks = n at hread
  refine ⟨⟨r.uiCumAck, r.uiMyRwnd, r.sRecvTsnBlockList.take n, []⟩, ?_, ⟨⟨⟨?_, ?_⟩, ?_⟩, ?_, le_rfl⟩, rfl⟩
  · rw [SackChunk.read, hread]
    rfl
  · exact fun b hb => (habove b (List.mem_of_mem_take hb)).2
  · refine (hexact.runs.apart.gap.sublist (List.take_sublist _ _)).imp fun {x y} hxy => ?_
    have hstop : x.uiEndTsn + 1 < y.uiStartTsn := hxy
    have hbefore : x.uiEndTsn < y.uiStartTsn := by omega
    exact hbefore
  · exact fun b hb => (habove b (List.mem_of_mem_take hb)).1.le
  · intro t ht
    obtain ⟨b, hb, hbt⟩ := mem_tsns.mp ht
    have hmem : t ∈ tsns r.sRecvTsnBlockList := mem_tsns.mpr ⟨b, List.mem_of_mem_take hb, hbt⟩
    have hruns : tsns r.sRecvTsnBlockList = r.streamedTsns ∩ Set.Ioi r.uiCumAck := hexact.runs.tsns
    rw [hruns] at hmem
    exact hmem.1

end Receiver

/-! ## The sender -/

variable {cfg : SendConfig} {s s' : SendState} {R : Set ℤ} {a a' : Association}

/-- What `GenOneDataChunk` does to the buffer. -/
theorem GenOneDataChunk_spec (s : SendState) (usLength usStreamId iUnrelRtxLimit spNewTxDest : ℕ) :
    (s.GenOneDataChunk usLength usStreamId iUnrelRtxLimit spNewTxDest).sSendBuffer =
        s.sSendBuffer ++ [newChunk (s.uiNextTsn + 1) usLength usStreamId iUnrelRtxLimit spNewTxDest] ∧
      (s.GenOneDataChunk usLength usStreamId iUnrelRtxLimit spNewTxDest).uiNextTsn = s.uiNextTsn + 1 ∧
      (s.GenOneDataChunk usLength usStreamId iUnrelRtxLimit spNewTxDest).uiCumAckPoint = s.uiCumAckPoint := by
  refine ⟨rfl, ?_, ?_⟩
  · rw [SendState.GenOneDataChunk]
    split_ifs <;> rfl
  · rw [SendState.GenOneDataChunk]
    split_ifs <;> rfl

theorem Flagged.GenOneDataChunk {usLength usStreamId iUnrelRtxLimit spNewTxDest : ℕ} {c : ℤ}
    (h : Flagged R c s.sSendBuffer) (hc : c ≤ s.uiNextTsn) :
    Flagged R c (s.GenOneDataChunk usLength usStreamId iUnrelRtxLimit spNewTxDest).sSendBuffer := by
  rw [(GenOneDataChunk_spec s usLength usStreamId iUnrelRtxLimit spNewTxDest).1]
  intro n hn
  rcases List.mem_append.mp hn with hn | hn
  · exact h n hn
  · rw [List.mem_singleton.mp hn]
    exact ⟨Int.lt_add_one_of_le hc, fun hgap => absurd hgap Bool.false_ne_true, rfl⟩

/-! ## The invariant -/

/-- The invariant of an association of reliable streams. -/
structure Safe (cfg : SendConfig) (a : Association) : Prop where
  tracked : Tracked cfg a.sender
  received : a.receiver.Received
  next : a.sender.uiNextTsn = a.chunks.length
  numbered : ∀ (i : ℕ) c, a.chunks[i]? = some c → c.uiTsn = i + 1
  streamed : ∀ c ∈ a.receiver.streamed, c ∈ a.chunks
  flagged : Flagged a.receiver.streamedTsns a.sender.uiCumAckPoint a.sender.sSendBuffer
  cumAck : a.sender.uiCumAckPoint ≤ a.receiver.uiCumAck
  reports : ∀ k ∈ a.sacks, Receiver.Reports k a.receiver

namespace AssociationEvent

/-- Chunks fit a packet. -/
def Fits (cfg : SendConfig) : AssociationEvent → Prop
  | .send usLength .. => usLength ≤ cfg.uiMaxPayloadSize
  | _ => True

/-- How many chunks are sent. -/
def sends : AssociationEvent → ℕ
  | .send .. => 1
  | _ => 0

end AssociationEvent

theorem Safe.tsn (h : Safe cfg a) {c : DataChunk} (hc : c ∈ a.chunks) :
    1 ≤ c.uiTsn ∧ c.uiTsn ≤ a.chunks.length := by
  obtain ⟨i, hi⟩ := List.mem_iff_getElem?.mp hc
  have hlt := (List.getElem?_eq_some_iff.mp hi).1
  have htsn := h.numbered i c hi
  omega

/-- The TSN of a chunk tells which one it is. -/
theorem Safe.eq_of_tsn (h : Safe cfg a) {c d : DataChunk} (hc : c ∈ a.chunks) (hd : d ∈ a.chunks)
    (heq : c.uiTsn = d.uiTsn) : c = d := by
  obtain ⟨i, hi⟩ := List.mem_iff_getElem?.mp hc
  obtain ⟨j, hj⟩ := List.mem_iff_getElem?.mp hd
  have h1 := h.numbered i c hi
  have h2 := h.numbered j d hj
  obtain rfl : i = j := by omega
  exact Option.some.inj (hi.symm.trans hj)

/-- The cumulative ack is not above the TSNs that have been used. -/
theorem Safe.cumAck_le (h : Safe cfg a) : a.receiver.uiCumAck ≤ a.sender.uiNextTsn := by
  by_contra hlt
  have hnonneg := Int.natCast_nonneg a.chunks.length
  have hnext := h.next
  obtain ⟨c, hc, htsn⟩ : a.receiver.uiCumAck ∈ a.receiver.streamedTsns :=
    h.received.inv.exact.acked _ (by omega) le_rfl
  have hle := (h.tsn (h.streamed c hc)).2
  omega

/-- A change of the sender that keeps the acks of its chunks. -/
theorem Safe.sender (h : Safe cfg a) (htracked : Tracked cfg s) (hnext : s.uiNextTsn = a.sender.uiNextTsn)
    (hcum : s.uiCumAckPoint ≤ a.receiver.uiCumAck)
    (hflagged : Flagged a.receiver.streamedTsns s.uiCumAckPoint s.sSendBuffer) :
    Safe cfg { a with sender := s } where
  tracked := htracked
  received := h.received
  next := hnext.trans h.next
  numbered := h.numbered
  streamed := h.streamed
  flagged := hflagged
  cumAck := hcum
  reports := h.reports

/-- A change of the receiver, which has streamed some of the chunks. -/
theorem Safe.receiver (h : Safe cfg a) {r : Receiver} (hr : r.Received)
    (hle : a.receiver.uiCumAck ≤ r.uiCumAck) (hsub : a.receiver.streamedTsns ⊆ r.streamedTsns)
    (hstreamed : ∀ c ∈ r.streamed, c ∈ a.chunks) : Safe cfg { a with receiver := r } where
  tracked := h.tracked
  received := hr
  next := h.next
  numbered := h.numbered
  streamed := hstreamed
  flagged := h.flagged.mono hsub
  cumAck := h.cumAck.trans hle
  reports k hk := by
    obtain ⟨h1, h2, h3⟩ := h.reports k hk
    exact ⟨h1, h2.trans hsub, h3.trans hle⟩

/-! ## One event -/

section events

variable (hcfg : cfg.eUseNonRenegSacks = false) (hrel : ∀ i, cfg.unreliable i = false)

theorem Safe.send (h : Safe cfg a) {usLength : ℕ} (hfits : usLength ≤ cfg.uiMaxPayloadSize)
    (usStreamId iUnrelRtxLimit spNewTxDest : ℕ) (eUnordered : Bool) :
    ∃ a', a.step cfg (.send usLength usStreamId iUnrelRtxLimit spNewTxDest eUnordered) = some a' ∧
      Safe cfg a' ∧ a'.chunks.length = a.chunks.length + 1 := by
  obtain ⟨hbuffer, hnext, hcum⟩ :=
    GenOneDataChunk_spec a.sender usLength usStreamId iUnrelRtxLimit spNewTxDest
  refine ⟨_, rfl, ?_, by simp⟩
  refine ⟨GenOneDataChunk_tracked h.tracked hfits, h.received, ?_, fun i c hi => ?_, fun c hc => ?_, ?_,
    ?_, h.reports⟩
  · rw [List.length_append, List.length_singleton]
    exact hnext.trans (by rw [h.next]; rfl)
  · rw [List.getElem?_append] at hi
    split at hi
    · exact h.numbered i c hi
    · rename_i hlt
      obtain ⟨hi', hc⟩ := List.getElem?_eq_some_iff.mp hi
      obtain rfl : i = a.chunks.length := by simp at hi'; omega
      have htsn : c.uiTsn = a.sender.uiNextTsn + 1 := by
        rw [← hc]
        simp [GenDataChunk]
      rw [htsn, h.next]
  · exact List.mem_append_left _ (h.streamed c hc)
  · rw [hcum]
    exact h.flagged.GenOneDataChunk (h.cumAck.trans h.cumAck_le)
  · rw [hcum]
    exact h.cumAck

theorem Safe.data (h : Safe cfg a) (hcount : a.chunks.length < 2 ^ 32 - 1) (i : ℕ) :
    ∃ a', a.step cfg (.data i) = some a' ∧ Safe cfg a' ∧ a'.chunks = a.chunks := by
  cases hi : a.chunks[i]? with
  | none => exact ⟨a, by simp only [Association.step, hi], h, rfl⟩
  | some c =>
    have hmem := List.mem_of_getElem? hi
    obtain ⟨h1, h2⟩ := h.tsn hmem
    obtain ⟨hreceived, hstate⟩ := h.received.data h1 (by omega)
    refine ⟨{ a with receiver := a.receiver.ProcessDataChunk c }, by simp only [Association.step, hi], ?_,
      rfl⟩
    rcases hstate with hover | ⟨-, -, hnew⟩
    · have hsame := hover.tsnState
      have hstreamed : (a.receiver.ProcessDataChunk c).streamed = a.receiver.streamed :=
        congrArg Receiver.TsnState.streamed hsame
      have hcum : (a.receiver.ProcessDataChunk c).uiCumAck = a.receiver.uiCumAck :=
        congrArg Receiver.TsnState.uiCumAck hsame
      refine h.receiver hreceived hcum.ge (fun t ht => ?_) fun x hx => h.streamed x (hstreamed ▸ hx)
      rwa [Receiver.streamedTsns, hstreamed]
    · have hsub : a.receiver.streamedTsns ⊆ (a.receiver.ProcessDataChunk c).streamedTsns := by
        rintro t ⟨x, hx, rfl⟩
        exact Receiver.mem_streamedTsns (hnew ▸ List.mem_append_left _ hx)
      have hmono : a.receiver.uiCumAck ≤ (a.receiver.ProcessDataChunk c).uiCumAck := by
        by_contra hlt
        have hnonneg : 0 ≤ (a.receiver.ProcessDataChunk c).uiCumAck := hreceived.inv.nonneg
        refine hreceived.inv.exact.next (hsub (h.received.inv.exact.acked _ ?_ ?_))
        · exact Int.le_add_of_nonneg_left hnonneg
        · exact not_le.mp hlt
      refine h.receiver hreceived hmono hsub fun x hx => ?_
      rcases List.mem_append.mp (hnew ▸ hx) with hx | hx
      · exact h.streamed x hx
      · exact List.mem_singleton.mp hx ▸ hmem

theorem Safe.ack (h : Safe cfg a) (hroom : a.receiver.HasRoom cfg.uiMaxDataSize) :
    ∃ a' k, a.step cfg .ack = some a' ∧ Safe cfg a' ∧ a'.chunks = a.chunks ∧ a'.sender = a.sender ∧
      a'.sacks = a.sacks ++ [k] ∧ k.uiCumAck = a.receiver.uiCumAck := by
  obtain ⟨k, hread, hreports, hcum⟩ := h.received.genSack hroom
  refine ⟨{ a with receiver := (a.receiver.GenSack cfg.uiMaxDataSize).2, sacks := a.sacks ++ [k] }, k, ?_, ?_,
    rfl, rfl, rfl, hcum⟩
  · rw [Association.step, hread]
    rfl
  · have hsafe : Safe cfg { a with receiver := (a.receiver.GenSack cfg.uiMaxDataSize).2 } :=
      h.receiver (h.received.congr rfl) le_rfl (fun _ ht => ht) h.streamed
    refine ⟨hsafe.tracked, hsafe.received, hsafe.next, hsafe.numbered, hsafe.streamed, hsafe.flagged,
      hsafe.cumAck, fun k' hk' => ?_⟩
    have hsame : Receiver.Reports k' a.receiver →
        Receiver.Reports k' (a.receiver.GenSack cfg.uiMaxDataSize).2 := fun h => ⟨h.1, h.2, h.3⟩
    rcases List.mem_append.mp hk' with hk' | hk'
    · exact hsame (h.reports k' hk')
    · exact hsame (List.mem_singleton.mp hk' ▸ hreports)

include hrel in
theorem Safe.timeout (h : Safe cfg a) (spDest : ℕ) (rtxDest : SendBufferNode → ℕ) :
    ∃ a', a.step cfg (.timeout spDest rtxDest) = some a' ∧ Safe cfg a' ∧ a'.chunks = a.chunks := by
  obtain ⟨s, hs, hresent⟩ := TimeoutRtx_resent spDest rtxDest h.tracked.nodes
  have hstep : a.sender.step cfg (.timeout spDest rtxDest) = some s := hs
  refine ⟨{ a with sender := s }, by rw [Association.step, hstep]; rfl,
    h.sender (h.tracked.resent hresent) hresent.kept.nextTsn ?_ ?_, rfl⟩
  · exact hresent.kept.cumAck.le.trans h.cumAck
  · rw [hresent.kept.cumAck]
    exact h.flagged.congr (TimeoutRtx_acks hrel hs)

include hcfg hrel

theorem Safe.sack (h : Safe cfg a) (i : ℕ) (rtxDest : SendBufferNode → ℕ) :
    ∃ a', a.step cfg (.sack i rtxDest) = some a' ∧ Safe cfg a' ∧ a'.chunks = a.chunks ∧
      ∀ k, a.sacks[i]? = some k → a'.sender.uiCumAckPoint = max a.sender.uiCumAckPoint k.uiCumAck := by
  cases hi : a.sacks[i]? with
  | none =>
    exact ⟨a, by simp only [Association.step, hi], h, rfl,
      fun k hk => absurd hk.symm (Option.some_ne_none k)⟩
  | some k =>
    obtain ⟨hwf, hblocks, hcum⟩ := h.reports k (List.mem_of_getElem? hi)
    obtain ⟨s, hs, htracked⟩ :
        ∃ s, a.sender.ProcessSackChunk cfg k rtxDest = some s ∧ Tracked cfg s :=
      ProcessSackChunk_tracked hcfg h.tracked hwf fun _ _ => h.flagged.coversAbandoned k
    obtain ⟨hflagged, hnext, hpoint⟩ := h.flagged.ProcessSackChunk hcfg hrel h.tracked hwf hblocks hs
    have hstep : a.sender.step cfg (.sack k rtxDest) = some s := by
      rw [SendState.step, if_neg (by simp [hcfg])]
      exact hs
    refine ⟨{ a with sender := s }, by simp only [Association.step, hi, hstep, Option.map_some],
      h.sender htracked hnext ?_ hflagged, rfl, fun k' hk' => ?_⟩
    · rw [hpoint]
      exact max_le h.cumAck hcum
    · obtain rfl := Option.some.inj hk'
      exact hpoint

/-- **One event keeps the invariant.** -/
theorem Safe.step (h : Safe cfg a) {e : AssociationEvent} (hfits : e.Fits cfg)
    (hroom : e = .ack → a.receiver.HasRoom cfg.uiMaxDataSize)
    (hcount : a.chunks.length < 2 ^ 32 - 1) :
    ∃ a', a.step cfg e = some a' ∧ Safe cfg a' ∧ a'.chunks.length = a.chunks.length + e.sends := by
  cases e with
  | send usLength usStreamId iUnrelRtxLimit spNewTxDest eUnordered => exact h.send hfits _ _ _ _
  | data i =>
    obtain ⟨a', hstep, hsafe, hchunks⟩ := h.data hcount i
    exact ⟨a', hstep, hsafe, congrArg List.length hchunks⟩
  | ack =>
    obtain ⟨a', -, hstep, hsafe, hchunks, -⟩ := h.ack (hroom rfl)
    exact ⟨a', hstep, hsafe, congrArg List.length hchunks⟩
  | sack i rtxDest =>
    obtain ⟨a', hstep, hsafe, hchunks, -⟩ := h.sack hcfg hrel i rtxDest
    exact ⟨a', hstep, hsafe, congrArg List.length hchunks⟩
  | timeout spDest rtxDest =>
    obtain ⟨a', hstep, hsafe, hchunks⟩ := h.timeout hrel spDest rtxDest
    exact ⟨a', hstep, hsafe, congrArg List.length hchunks⟩
  | window => exact ⟨_, rfl, h.sender (setWindow_tracked h.tracked) rfl h.cumAck h.flagged, rfl⟩

end events

/-! ## Runs -/

namespace Association

/-- Two parties before anything is sent; no stream is unreliable. -/
structure Opened (a : Association) : Prop where
  sender : a.sender.Opened
  next : a.sender.uiNextTsn = 0
  receiver : ∃ w k nr, a.receiver = Receiver.init w k (fun _ => .reliable) nr
  seqNums : a.usNextStreamSeqNum = fun _ => 0
  chunks : a.chunks = []
  sacks : a.sacks = []

theorem Opened.safe (h : a.Opened) : Safe cfg a := by
  obtain ⟨w, k, nr, hr⟩ := h.receiver
  have hreceived : a.receiver.Received := hr ▸ Receiver.received_init
  refine ⟨h.sender.tracked, hreceived, ?_, ?_, ?_, ?_, ?_, ?_⟩
  · simp [h.next, h.chunks]
  · simp [h.chunks]
  · simp [hr, Receiver.init]
  · simp [Flagged, h.sender.buffer]
  · have hpoint := h.sender.tsns
    rw [h.next] at hpoint
    exact hpoint.symm.le.trans hreceived.inv.nonneg
  · simp [h.sacks]

/-- Each SACK that is sent has room for its entries. -/
def Roomy (cfg : SendConfig) : Association → List AssociationEvent → Prop
  | _, [] => True
  | a, e :: es => (e = .ack → a.receiver.HasRoom cfg.uiMaxDataSize) ∧
      ∀ b, a.step cfg e = some b → Roomy cfg b es

/-- The invariant along a run. -/
theorem run_safe (hcfg : cfg.eUseNonRenegSacks = false) (hrel : ∀ i, cfg.unreliable i = false)
    (h : Safe cfg a) (es : List AssociationEvent) (hfits : ∀ e ∈ es, e.Fits cfg)
    (hcount : a.chunks.length + (es.map AssociationEvent.sends).sum < 2 ^ 32 - 1)
    (hroom : a.Roomy cfg es) : ∃ b, a.run cfg es = some b ∧ Safe cfg b := by
  induction es generalizing a with
  | nil => exact ⟨a, rfl, h⟩
  | cons e es ih =>
    rw [List.map_cons, List.sum_cons] at hcount
    obtain ⟨he, hes⟩ := List.forall_mem_cons.mp hfits
    obtain ⟨a₁, hstep, hsafe, hlen⟩ := h.step hcfg hrel he hroom.1 (by omega)
    obtain ⟨b, hb, hsafe'⟩ := ih hsafe hes (by omega) (hroom.2 a₁ hstep)
    refine ⟨b, ?_, hsafe'⟩
    rw [run, List.foldlM_cons, hstep]
    exact hb

end Association

theorem Consecutive.mem_iff {l : List SendBufferNode} {t i : ℤ} (h : Consecutive t l) :
    (∃ n ∈ l, n.uiTsn = i) ↔ t ≤ i ∧ i < t + l.length := by
  induction l generalizing t with
  | nil =>
    simp only [List.not_mem_nil, false_and, exists_false, List.length_nil, Nat.cast_zero, false_iff]
    omega
  | cons n l ih =>
    obtain ⟨hn, hl⟩ := h
    simp only [List.mem_cons, exists_eq_or_imp, ih hl, hn, List.length_cons, Nat.cast_add, Nat.cast_one]
    omega

/-- A chunk that has not been received is in the send buffer, and is not taken for received. -/
theorem Safe.kept (h : Safe cfg a) {c : DataChunk} (hc : c ∈ a.chunks) (hnew : c ∉ a.receiver.streamed) :
    ∃ n ∈ a.sender.sSendBuffer, n.uiTsn = c.uiTsn ∧ n.eGapAcked = false ∧ n.eAdvancedAcked = false := by
  have hnot : c.uiTsn ∉ a.receiver.streamedTsns := by
    rintro ⟨d, hd, heq⟩
    exact hnew (h.eq_of_tsn (h.streamed d hd) hc heq ▸ hd)
  obtain ⟨h1, h2⟩ := h.tsn hc
  have hgt : a.receiver.uiCumAck < c.uiTsn := by
    by_contra hle
    exact hnot (h.received.inv.exact.acked _ h1 (not_lt.mp hle))
  have hnext := h.next
  have hfirst := h.tracked.first
  have hcum := h.cumAck
  obtain ⟨n, hn, htsn⟩ := (h.tracked.tsns.mem_iff (i := c.uiTsn)).mpr (by omega)
  refine ⟨n, hn, htsn, ?_, (h.flagged n hn).2.2⟩
  exact Bool.eq_false_of_not_eq_true fun hgap => hnot (htsn ▸ (h.flagged n hn).2.1 hgap)

/-- When everything has been received, the next SACK empties the send buffer. -/
theorem Safe.completes (hcfg : cfg.eUseNonRenegSacks = false) (hrel : ∀ i, cfg.unreliable i = false)
    (h : Safe cfg a) (hall : ∀ c ∈ a.chunks, c ∈ a.receiver.streamed)
    (hroom : a.receiver.HasRoom cfg.uiMaxDataSize) (rtxDest : SendBufferNode → ℕ) :
    ∃ b, a.run cfg [.ack, .sack a.sacks.length rtxDest] = some b ∧ b.sender.sSendBuffer = [] := by
  obtain ⟨a₁, k, hstep₁, hsafe₁, hchunks₁, -, hsacks, hcum⟩ := h.ack hroom
  obtain ⟨a₂, hstep₂, hsafe₂, hchunks₂, hpoint⟩ := hsafe₁.sack hcfg hrel a.sacks.length rtxDest
  refine ⟨a₂, ?_, ?_⟩
  · rw [Association.run, List.foldlM_cons, hstep₁]
    simp [hstep₂]
  · have hlast : a₁.sacks[a.sacks.length]? = some k := by simp [hsacks]
    have hexact := h.received.inv.exact
    have hnonneg : 0 ≤ a.receiver.uiCumAck := h.received.inv.nonneg
    -- the cumulative ack is that of the last chunk
    have hacked : (a.chunks.length : ℤ) ≤ a.receiver.uiCumAck := by
      by_contra hlt
      have hi : a.receiver.uiCumAck.toNat < a.chunks.length := by omega
      have hmem := List.getElem_mem hi
      have htsn := h.numbered _ _ (List.getElem?_eq_getElem hi)
      have heq : a.receiver.uiCumAck + 1 = (a.chunks[a.receiver.uiCumAck.toNat]).uiTsn := by omega
      exact hexact.next (heq ▸ Receiver.mem_streamedTsns (hall _ hmem))
    have hmax := hpoint k hlast
    have hnext := hsafe₂.next
    rw [hchunks₂, hchunks₁] at hnext
    refine List.eq_nil_iff_forall_not_mem.mpr fun n hn => ?_
    have habove := (hsafe₂.flagged n hn).1
    have hbelow := (hsafe₂.tracked.tsns.mem_iff.mp ⟨n, hn, rfl⟩).2
    have hle := le_max_right a₁.sender.uiCumAckPoint k.uiCumAck
    omega

/-- **An association of reliable streams over a network that loses, duplicates and reorders packets.**
Every function returns; each chunk that has been sent is received, or is in the send buffer and not
taken for received; the sender's cumulative ack and gap acks are never ahead of the receiver; no chunk
is handed to the streams twice, and none that was not sent; the outstanding bytes are counted right;
and once everything is received the next SACK empties the send buffer. -/
theorem association_reliable (cfg : SendConfig) (hcfg : cfg.eUseNonRenegSacks = false)
    (hrel : ∀ i, cfg.unreliable i = false) (a : Association) (ha : a.Opened)
    (es : List AssociationEvent) (hfits : ∀ e ∈ es, e.Fits cfg)
    (hcount : (es.map AssociationEvent.sends).sum < 2 ^ 32 - 1) (hroom : a.Roomy cfg es) :
    ∃ b, a.run cfg es = some b ∧
      (∀ c ∈ b.chunks, c ∈ b.receiver.streamed ∨ ∃ n ∈ b.sender.sSendBuffer,
        n.uiTsn = c.uiTsn ∧ n.eGapAcked = false ∧ n.eAdvancedAcked = false) ∧
      b.sender.uiCumAckPoint ≤ b.receiver.uiCumAck ∧
      (∀ n ∈ b.sender.sSendBuffer, n.eGapAcked = true → ∃ c ∈ b.receiver.streamed, c.uiTsn = n.uiTsn) ∧
      (∀ c ∈ b.receiver.streamed, c ∈ b.chunks) ∧ (b.receiver.streamed.map DataChunk.uiTsn).Nodup ∧
      b.sender.Accounted ∧
      ((∀ c ∈ b.chunks, c ∈ b.receiver.streamed) → b.receiver.HasRoom cfg.uiMaxDataSize →
        ∀ rtxDest, ∃ b', b.run cfg [.ack, .sack b.sacks.length rtxDest] = some b' ∧
          b'.sender.sSendBuffer = []) := by
  obtain ⟨b, hb, hsafe⟩ := Association.run_safe hcfg hrel ha.safe es hfits (by rwa [ha.chunks,
    List.length_nil, Nat.zero_add]) hroom
  refine ⟨b, hb, fun c hc => ?_, hsafe.cumAck, fun n hn hgap => (hsafe.flagged n hn).2.1 hgap,
    hsafe.streamed, hsafe.received.inv.once, hsafe.tracked.accounted,
    fun hall hroom rtxDest => hsafe.completes hcfg hrel hall hroom rtxDest⟩
  by_cases hnew : c ∈ b.receiver.streamed
  · exact Or.inl hnew
  · exact Or.inr (hsafe.kept hc hnew)

/-- Reliable streams on one destination. -/
def reliableDest : SendConfig := { oneDest false with unreliable := fun _ => false }

/-- Two parties before anything is sent. -/
def opened : Association where
  sender := withBuffer []
  usNextStreamSeqNum := fun _ => 0
  receiver := Receiver.init 131072 1 (fun _ => .reliable) false
  chunks := []
  sacks := []

theorem opened_opened : opened.Opened where
  sender := SendState.opened_withBuffer
  next := rfl
  receiver := ⟨131072, 1, false, rfl⟩
  seqNums := rfl
  chunks := rfl
  sacks := rfl

/-- Two chunks; the second one and the SACK of both arrive first. -/
def reordered : List AssociationEvent :=
  [.send 1000 0 0 0 false, .send 1000 0 0 0 false, .data 1, .ack, .data 0, .ack, .sack 1 fun _ => 0,
    .sack 0 fun _ => 0, .data 1]

theorem hasRoom_small {r : Receiver} (hblocks : r.sRecvTsnBlockList.length ≤ 1)
    (hdups : r.sDupTsnList = []) (hoffsets : ∀ b ∈ r.sRecvTsnBlockList, b.uiEndTsn - r.uiCumAck < 2 ^ 16) :
    r.HasRoom reliableDest.uiMaxDataSize := by
  have hroom : room reliableDest.uiMaxDataSize 16 = 362 := by decide
  refine ⟨?_, ?_, fun b hb => hoffsets b (List.mem_of_mem_take hb)⟩
  · rw [hroom, Receiver.Counted]
    omega
  · rw [hroom, hdups, Receiver.Counted]
    simp

theorem reordered_roomy : opened.Roomy reliableDest reordered := by
  refine ⟨by simp, fun b hb => ?_⟩
  obtain rfl := Option.some.inj hb
  refine ⟨by simp, fun b hb => ?_⟩
  obtain rfl := Option.some.inj hb
  refine ⟨by simp, fun b hb => ?_⟩
  obtain rfl := Option.some.inj hb
  refine ⟨fun _ => hasRoom_small (by decide) (by decide) (by decide), fun b hb => ?_⟩
  obtain rfl := Option.some.inj hb
  refine ⟨by simp, fun b hb => ?_⟩
  obtain rfl := Option.some.inj hb
  refine ⟨fun _ => hasRoom_small (by decide) (by decide) (by decide), fun b hb => ?_⟩
  obtain rfl := Option.some.inj hb
  exact ⟨by simp, fun b hb => ⟨by simp, fun b hb => ⟨by simp, fun b hb => trivial⟩⟩⟩

/-- The second SACK to arrive is an old one, and changes nothing. -/
theorem association_reliable_reordered : ∃ b, opened.run reliableDest reordered = some b ∧
    b.sender.uiCumAckPoint ≤ b.receiver.uiCumAck ∧ b.sender.Accounted := by
  obtain ⟨b, hb, -, hcum, -, -, -, haccounted, -⟩ := association_reliable reliableDest rfl (fun _ => rfl)
    opened opened_opened reordered (by simp [reordered, AssociationEvent.Fits, reliableDest, oneDest])
    (by decide) reordered_roomy
  exact ⟨b, hb, hcum, haccounted⟩

end Ns2.Sctp
