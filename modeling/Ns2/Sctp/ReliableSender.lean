import Ns2.Sctp.Outstanding

/-!
# The sender of reliable streams

What a step of a sender does to the acks of its chunks, when no stream is unreliable and plain SACKs
are used.

* `SendBufferNode.acks` — the TSN of a chunk and how it has been acked; retransmissions leave that
  alone.
* `Flagged` — the gap acked chunks are in a set of TSNs, and none is abandoned.
* `Flagged.ProcessSackChunk` — what a SACK does.
-/

namespace Ns2.Sctp

variable {cfg : SendConfig} {s s' : SendState} {v v' : SendVars} {n : SendBufferNode}
  {l l' before : List SendBufferNode} {R : Set ℤ} {c : ℤ} {rtxDest : SendBufferNode → ℕ}

/-- The TSN of a chunk, and how it has been acked. -/
def SendBufferNode.acks (n : SendBufferNode) : ℤ × Bool × Bool := (n.uiTsn, n.eGapAcked, n.eAdvancedAcked)

/-! ## What leaves the acks alone -/

theorem walkList_acks {f : SendVars → SendBufferNode → SendVars × SendBufferNode}
    (h : ∀ v n, (f v n).2.acks = n.acks) :
    (walkList f v l).2.map SendBufferNode.acks = l.map SendBufferNode.acks := by
  induction l generalizing v with
  | nil => rfl
  | cons n l ih => simp [walkList, h, ih]

section reliable

variable (hrel : ∀ i, cfg.unreliable i = false)

include hrel in
theorem markChunkForRtx_acks (e : MarkedForRtx) (v : SendVars) (n : SendBufferNode) :
    (SendState.markChunkForRtx cfg e v n).2.acks = n.acks := by
  rw [SendState.markChunkForRtx]
  simp only [hrel, Bool.false_eq_true, false_and, if_false]
  rfl

include hrel in
theorem missingReport_acks (eNewCumAck : Bool) (high : ℤ) (v : SendVars) (n : SendBufferNode) :
    (SendState.missingReport cfg eNewCumAck high v n).2.acks = n.acks := by
  rw [SendState.missingReport]
  split
  · dsimp only
    split
    · exact markChunkForRtx_acks hrel .FAST_RTX v { n with iNumMissingReports := n.iNumMissingReports + 1 }
    · rfl
  · rfl

include hrel in
theorem timeoutNode_acks (spDest : ℕ) (v : SendVars) (n : SendBufferNode) :
    (SendState.timeoutNode cfg spDest v n).2.acks = n.acks := by
  rw [SendState.timeoutNode]
  split
  · exact markChunkForRtx_acks hrel .TIMEOUT_RTX v n
  · rfl

end reliable

theorem cutCwnd_acks (v : SendVars) (n : SendBufferNode) : (SendState.cutCwnd cfg l v n).2.acks = n.acks := by
  rw [SendState.cutCwnd]
  split <;> rfl

theorem countMarked_acks (sign : ℤ) (v : SendVars) (n : SendBufferNode) :
    (SendState.countMarked sign v n).2.acks = n.acks := by
  rw [SendState.countMarked]
  split <;> rfl

variable (cfg v l) in
/-- The loop that fills a packet. -/
theorem fillPacket_acks (spRtxDest iOutDataSize : ℕ) :
    ((SendState.fillPacket cfg spRtxDest v iOutDataSize l).2.2.1 ++
      (SendState.fillPacket cfg spRtxDest v iOutDataSize l).2.2.2).map SendBufferNode.acks =
        l.map SendBufferNode.acks := by
  induction l generalizing v iOutDataSize with
  | nil => rfl
  | cons n l ih =>
    rw [SendState.fillPacket]
    split
    · split
      · rfl
      · exact congrArg₂ List.cons rfl (ih _ _)
    · exact congrArg₂ List.cons rfl (ih _ _)

/-- The loop over the packets. -/
theorem rtxLoop_acks {eLimit : SendState.RtxLimit} {spRtxDest rounds iNumPacketsSent uiBurstLength : ℕ}
    {res : SendVars × List SendBufferNode}
    (h : SendState.rtxLoop cfg eLimit spRtxDest rounds v before l iNumPacketsSent uiBurstLength = some res) :
    res.2.map SendBufferNode.acks = (before ++ l).map SendBufferNode.acks := by
  induction rounds generalizing v before l iNumPacketsSent uiBurstLength with
  | zero => exact absurd h.symm (Option.some_ne_none res)
  | succ rounds ih =>
    have hfill := fillPacket_acks cfg v l spRtxDest 0
    rw [SendState.rtxLoop] at h
    generalize SendState.fillPacket cfg spRtxDest v 0 l = packet at h hfill
    have hpacket : (before ++ packet.2.2.1 ++ packet.2.2.2).map SendBufferNode.acks =
        (before ++ l).map SendBufferNode.acks := by
      rw [List.append_assoc, List.map_append, hfill, List.map_append]
    split at h
    · dsimp only at h
      split at h
      · split at h
        · split at h
          · obtain rfl := Option.some.inj h
            exact hpacket
          · exact (ih h).trans hpacket
        · exact (ih h).trans hpacket
      · exact (ih h).trans hpacket
    · obtain rfl := Option.some.inj h
      rfl

theorem RtxMarkedChunks_acks {eLimit : SendState.RtxLimit}
    (h : s.RtxMarkedChunks cfg eLimit rtxDest = some s') :
    s'.sSendBuffer.map SendBufferNode.acks = s.sSendBuffer.map SendBufferNode.acks := by
  rw [SendState.RtxMarkedChunks] at h
  split at h
  · obtain rfl := Option.some.inj h
    rfl
  · obtain ⟨res, hres, rfl⟩ := Option.map_eq_some_iff.mp h
    have hoff : (s.walk (SendState.countMarked (-1))).sSendBuffer.map SendBufferNode.acks =
        s.sSendBuffer.map SendBufferNode.acks := walkList_acks (countMarked_acks (-1))
    have hon : (walkList (SendState.countMarked 1) res.1 res.2).2.map SendBufferNode.acks =
        res.2.map SendBufferNode.acks := walkList_acks (countMarked_acks 1)
    have hloop := rtxLoop_acks hres
    rw [List.nil_append, hoff] at hloop
    exact hon.trans hloop

theorem FastRtx_acks (h : s.FastRtx cfg rtxDest = some s') :
    s'.sSendBuffer.map SendBufferNode.acks = s.sSendBuffer.map SendBufferNode.acks := by
  rw [SendState.FastRtx] at h
  dsimp only at h
  split at h
  · exact (RtxMarkedChunks_acks h).trans (walkList_acks cutCwnd_acks)
  · obtain rfl := Option.some.inj h
    exact walkList_acks cutCwnd_acks

/-- The retransmissions after a SACK. -/
theorem rtxAfterSack_acks (h : s.rtxAfterSack cfg rtxDest = some s') :
    s'.sSendBuffer.map SendBufferNode.acks = s.sSendBuffer.map SendBufferNode.acks := by
  rw [SendState.rtxAfterSack] at h
  split at h
  · exact FastRtx_acks h
  · split at h
    · have hrtx : s'.sSendBuffer.map SendBufferNode.acks =
          { s with eMarkedChunksPending := true }.sSendBuffer.map SendBufferNode.acks :=
        RtxMarkedChunks_acks h
      exact hrtx
    · obtain rfl := Option.some.inj h
      rfl

theorem TimeoutRtx_acks (hrel : ∀ i, cfg.unreliable i = false) {spDest : ℕ}
    (h : s.TimeoutRtx cfg spDest rtxDest = some s') :
    s'.sSendBuffer.map SendBufferNode.acks = s.sSendBuffer.map SendBufferNode.acks := by
  rw [SendState.TimeoutRtx] at h
  split at h
  · exact (RtxMarkedChunks_acks h).trans (walkList_acks (timeoutNode_acks hrel spDest))
  · obtain rfl := Option.some.inj h
    exact walkList_acks (timeoutNode_acks hrel spDest)

/-! ## The acks of the chunks -/

/-- The chunks are above a TSN, those that are gap acked are in a set of TSNs, and none is
abandoned. -/
def Flagged (R : Set ℤ) (c : ℤ) (l : List SendBufferNode) : Prop :=
  ∀ n ∈ l, c < n.uiTsn ∧ (n.eGapAcked = true → n.uiTsn ∈ R) ∧ n.eAdvancedAcked = false

theorem Flagged.mono {R' : Set ℤ} (h : Flagged R c l) (hR : R ⊆ R') : Flagged R' c l :=
  fun n hn => ⟨(h n hn).1, fun hgap => hR ((h n hn).2.1 hgap), (h n hn).2.2⟩

theorem Flagged.congr (h : Flagged R c l)
    (hacks : l'.map SendBufferNode.acks = l.map SendBufferNode.acks) : Flagged R c l' := by
  intro m hm
  obtain ⟨n, hn, heq⟩ := List.mem_map.mp (hacks ▸ List.mem_map_of_mem hm)
  obtain ⟨htsn, hgap, hadv⟩ : n.uiTsn = m.uiTsn ∧ n.eGapAcked = m.eGapAcked ∧
      n.eAdvancedAcked = m.eAdvancedAcked := by simpa [SendBufferNode.acks] using heq
  rw [← htsn, ← hgap, ← hadv]
  exact h n hn

/-- Marking flags chunks in the blocks alone. -/
theorem Flagged.plainMark {eNewCumAck : Bool} {B : List TsnBlock} (h : Flagged R c l) (hB : tsns B ⊆ R) :
    Flagged R c (walkList (plainMark eNewCumAck B) v l).2 := by
  induction l generalizing v with
  | nil => exact fun _ hn => absurd hn List.not_mem_nil
  | cons n l ih =>
    obtain ⟨hn, hl⟩ := List.forall_mem_cons.mp h
    refine List.forall_mem_cons.mpr ⟨?_, ih hl⟩
    rw [Sctp.plainMark, SendVars.mark]
    split
    · rename_i hin
      have hmem : n.uiTsn ∈ R := hB (of_decide_eq_true hin).1
      rw [SendVars.gapAck]
      split
      · exact ⟨hn.1, fun _ => hmem, hn.2.2⟩
      · exact hn
    · rw [SendVars.withdraw]
      split
      · exact ⟨hn.1, fun hgap => absurd hgap Bool.false_ne_true, hn.2.2⟩
      · exact hn

/-- Where no chunk is abandoned, no ack of one is withdrawn. -/
theorem Flagged.coversAbandoned (h : Flagged R c s.sSendBuffer) (sack : Sack) : sack.CoversAbandoned s :=
  fun n hn _ _ hadv => absurd ((h n hn).2.2.symm.trans hadv) Bool.false_ne_true

section sack

variable {sack : Sack} {eNewCumAck : Bool}

theorem Flagged.ProcessGapAckBlocks (hcfg : cfg.eUseNonRenegSacks = false)
    (hrel : ∀ i, cfg.unreliable i = false) (hs : BufferOk cfg s) (hsack : sack.WellFormed)
    (hcum : s.uiCumAckPoint = sack.uiCumAck) (h : Flagged R c s.sSendBuffer)
    (hB : tsns sack.gapAckBlocks ⊆ R) (hres : s.ProcessGapAckBlocks cfg sack eNewCumAck = some s') :
    Flagged R c s'.sSendBuffer ∧ s'.uiNextTsn = s.uiNextTsn ∧ s'.uiCumAckPoint = s.uiCumAckPoint := by
  rw [SendState.ProcessGapAckBlocks] at hres
  dsimp only at hres
  split at hres
  · obtain rfl := Option.some.inj hres
    exact ⟨h, rfl, rfl⟩
  · have hs' : BufferOk cfg { s with eFastRtxNeeded := false } := ⟨hs.nodes, hs.first, hs.tsns⟩
    rw [markGapAcked_plain hcfg hs' hsack hcum] at hres
    obtain rfl := Option.some.inj hres
    have hmark : Kept cfg { s.toSendVars with eFastRtxNeeded := false } s.sSendBuffer
        (walkList (Sctp.plainMark eNewCumAck sack.gapAckBlocks) _ _).1
        (walkList (Sctp.plainMark eNewCumAck sack.gapAckBlocks) _ _).2 := plainMark_keeps.walkList
    have hreport : ∀ high v l, Kept cfg v l (walkList (SendState.missingReport cfg eNewCumAck high) v l).1
        (walkList (SendState.missingReport cfg eNewCumAck high) v l).2 :=
      fun _ _ _ => missingReport_keeps.walkList
    exact ⟨(h.plainMark hB).congr (walkList_acks (missingReport_acks hrel _ _)),
      (hreport _ _ _).nextTsn.trans hmark.nextTsn, (hreport _ _ _).cumAck.trans hmark.cumAck⟩

/-- **What a SACK does**: the chunks that it flags are in its blocks. -/
theorem Flagged.ProcessSackChunk (hcfg : cfg.eUseNonRenegSacks = false)
    (hrel : ∀ i, cfg.unreliable i = false) (hs : Tracked cfg s) (hsack : sack.WellFormed)
    (h : Flagged R s.uiCumAckPoint s.sSendBuffer) (hB : tsns sack.gapAckBlocks ⊆ R)
    (hres : s.ProcessSackChunk cfg sack rtxDest = some s') :
    Flagged R s'.uiCumAckPoint s'.sSendBuffer ∧ s'.uiNextTsn = s.uiNextTsn ∧
      s'.uiCumAckPoint = max s.uiCumAckPoint sack.uiCumAck := by
  rw [SendState.ProcessSackChunk, SendState.processSack] at hres
  dsimp only at hres
  split at hres
  · rename_i hold
    obtain rfl := Option.some.inj hres
    exact ⟨h, rfl, (max_eq_left hold.le).symm⟩
  · rename_i hcum
    have hle : s.uiCumAckPoint ≤ sack.uiCumAck := not_lt.mp hcum
    obtain ⟨s₂, hacks, hres⟩ := Option.bind_eq_some_iff.mp hres
    obtain ⟨s₃, hrtx, rfl⟩ := Option.map_eq_some_iff.mp hres
    generalize hs₀ : ({ s.mapDests fun x => { x with iNumNewlyAckedBytes := 0 } with
      sSendBuffer := s.sSendBuffer } : SendState) = s₀ at hacks
    have hsettling : Settling cfg s₀ := by
      rw [← hs₀]
      exact ⟨⟨hs.nodes, hs.first, hs.tsns⟩, fun d => (Int.sub_zero _).trans (hs.accounted d)⟩
    have hbuffer : s₀.sSendBuffer = s.sSendBuffer := by rw [← hs₀]
    have hnext₀ : s₀.uiNextTsn = s.uiNextTsn := by rw [← hs₀]; rfl
    have hcum₀ : s₀.uiCumAckPoint = s.uiCumAckPoint := by rw [← hs₀]; rfl
    have hle₀ : s₀.uiCumAckPoint ≤ sack.uiCumAck := hcum₀ ▸ hle
    have hdequeued := dequeued_settling hsettling hle₀
    have hflagged : Flagged R sack.uiCumAck (s₀.dequeued sack).sSendBuffer := by
      intro n hn
      obtain ⟨habove, hrest⟩ := h n (hbuffer ▸ dequeued_subset hn)
      refine ⟨?_, hrest⟩
      rcases hle₀.eq_or_lt with heq | hlt
      · rwa [← heq, hcum₀]
      · exact dequeued_gt hsettling.toBufferOk hlt n hn
    have hnext : (s₀.dequeued sack).uiNextTsn = s₀.uiNextTsn := by
      rw [SendState.dequeued]
      split
      · exact dequeueUpTo_nextTsn
      · rfl
    rw [processAcks_eq] at hacks
    obtain ⟨s₁, hgap, rfl⟩ := Option.map_eq_some_iff.mp hacks
    have hspec : Flagged R sack.uiCumAck s₁.sSendBuffer ∧ s₁.uiNextTsn = (s₀.dequeued sack).uiNextTsn ∧
        s₁.uiCumAckPoint = (s₀.dequeued sack).uiCumAckPoint := by
      rw [SendState.gapAcksOfSack] at hgap
      split at hgap
      · exact hflagged.ProcessGapAckBlocks hcfg hrel hdequeued.toBufferOk hsack (dequeued_cumAck hle₀) hB
          hgap
      · obtain rfl := Option.some.inj hgap
        exact ⟨hflagged, rfl, rfl⟩
    obtain ⟨hflagged₁, hnext₁, hcum₁⟩ := hspec
    have hcovers : ∀ n ∈ (s₀.dequeued sack).sSendBuffer, n.eGapAcked = true → n.eAdvancedAcked = true →
        n.uiTsn ∈ tsns sack.gapAckBlocks ∧ ∀ b ∈ sack.gapAckBlocks, b.uiEndTsn + 1 ≠ n.uiTsn :=
      fun n hn _ hadv => absurd ((hflagged n hn).2.2.symm.trans hadv) Bool.false_ne_true
    have hsettling₁ : Settling cfg s₁ := by
      rw [SendState.gapAcksOfSack] at hgap
      split at hgap
      · obtain ⟨t, ht, hset⟩ := ProcessGapAckBlocks_settling hcfg hdequeued hsack (dequeued_cumAck hle₀)
          hcovers
        obtain rfl := Option.some.inj (ht.symm.trans hgap)
        exact hset
      · obtain rfl := Option.some.inj hgap
        exact ⟨⟨hdequeued.nodes, hdequeued.first, hdequeued.tsns⟩, hdequeued.net⟩
    obtain ⟨t, ht, hresent⟩ := rtxAfterSack_resent rtxDest (settled_tracked hsettling₁).nodes
    obtain rfl := Option.some.inj (ht.symm.trans hrtx)
    have hcum₂ : t.uiCumAckPoint = sack.uiCumAck :=
      hresent.kept.cumAck.trans (hcum₁.trans (dequeued_cumAck hle₀))
    refine ⟨?_, hresent.kept.nextTsn.trans (hnext₁.trans (hnext.trans hnext₀)), ?_⟩
    · show Flagged R t.uiCumAckPoint t.sSendBuffer
      rw [hcum₂]
      exact Flagged.congr hflagged₁ (rtxAfterSack_acks hrtx :)
    · rw [max_eq_right hle]
      exact hcum₂

end sack

end Ns2.Sctp
