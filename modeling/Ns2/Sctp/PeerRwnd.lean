import Ns2.Sctp.Outstanding

/-!
# The peer's window

The sender's view of the window of its peer, `uiPeerRwnd`, over whole runs.

* `Charged`, `Quiet` — what is taken from the window, and what only gives credit.
* `packetBytes`, `burstBytes` — the bytes that `RtxMarkedChunks` sends.
* `KeepsWindow` — these bytes are in the window, and a timeout does not give more than was offered.
* `run_within_iff` — when the window stays within what the peer has offered.
-/

namespace Ns2.Sctp

variable {cfg : SendConfig} {v v' v'' : SendVars} {n : SendBufferNode}
  {l l' before : List SendBufferNode} {s s' : SendState} {eNewCumAck : Bool} {a b : ℕ}
  {f : SendVars → SendBufferNode → SendVars × SendBufferNode}

/-! ## The window -/

/-- The window is not used: it may grow, modulo `2^32`. -/
structure Quiet (v v' : SendVars) : Prop where
  arwnd : v'.uiArwnd = v.uiArwnd
  wrapped : v'.wrapped = v.wrapped
  lt : v.uiPeerRwnd < 2 ^ 32 → v'.uiPeerRwnd < 2 ^ 32

/-- `a` bytes are taken from the window. -/
structure Charged (a : ℕ) (v v' : SendVars) : Prop where
  arwnd : v'.uiArwnd = v.uiArwnd
  wrapped : v'.wrapped = (v.wrapped || decide (v.uiPeerRwnd < a))
  lt : v.uiPeerRwnd < 2 ^ 32 → v'.uiPeerRwnd < 2 ^ 32
  rwnd : v.uiPeerRwnd < 2 ^ 32 → a ≤ v.uiPeerRwnd → v'.uiPeerRwnd = v.uiPeerRwnd - a

theorem Quiet.refl : Quiet v v := ⟨rfl, rfl, id⟩

theorem Quiet.trans (h : Quiet v v') (h' : Quiet v' v'') : Quiet v v'' where
  arwnd := h'.arwnd.trans h.arwnd
  wrapped := h'.wrapped.trans h.wrapped
  lt := fun hv => h'.lt (h.lt hv)

theorem charged_zero (harwnd : v'.uiArwnd = v.uiArwnd) (hwrapped : v'.wrapped = v.wrapped)
    (hrwnd : v'.uiPeerRwnd = v.uiPeerRwnd) : Charged 0 v v' where
  arwnd := harwnd
  wrapped := by simp [hwrapped]
  lt := fun hv => hrwnd.trans_lt hv
  rwnd := fun _ _ => hrwnd

theorem Charged.trans (h : Charged a v v') (h' : Charged b v' v'') (hv : v.uiPeerRwnd < 2 ^ 32) :
    Charged (a + b) v v'' where
  arwnd := h'.arwnd.trans h.arwnd
  wrapped := by
    rw [h'.wrapped, h.wrapped, Bool.or_assoc, ← Bool.decide_or]
    congr 2
    rw [eq_iff_iff]
    by_cases ha : a ≤ v.uiPeerRwnd
    · rw [h.rwnd hv ha]
      omega
    · omega
  lt := fun hv => h'.lt (h.lt hv)
  rwnd := fun hv hab => by
    have ha := h.rwnd hv (by omega)
    have hb := h'.rwnd (h.lt hv) (by omega)
    omega

theorem chargeRwnd_charged : Charged a v (v.chargeRwnd a) where
  arwnd := rfl
  wrapped := rfl
  lt := fun _ => Nat.mod_lt _ (by norm_num)
  rwnd := fun hv ha => by
    simp only [SendVars.chargeRwnd]
    omega

/-! ## What is resent -/

/-- The marked chunks that fill a packet: their bytes, the size of the packet, and what is left. -/
def packetBytes (cfg : SendConfig) : ℕ → List SendBufferNode → ℕ × ℕ × List SendBufferNode
  | iOutDataSize, [] => (0, iOutDataSize, [])
  | iOutDataSize, n :: l =>
    if n.eMarkedForRtx ≠ .NO_RTX then
      if iOutDataSize + n.usLength > cfg.uiMaxPayloadSize then (0, iOutDataSize, n :: l)
      else
        let rest := packetBytes cfg (iOutDataSize + SendState.padded n.usLength) l
        (n.usLength + rest.1, rest.2)
    else packetBytes cfg iOutDataSize l

/-- The bytes of the packets that are filled while fewer than `iCwnd` bytes are outstanding, and
that Max.Burst allows. -/
def burstBytes (cfg : SendConfig) (iCwnd : ℤ) (eApplyMaxBurst : Bool) :
    ℕ → ℤ → List SendBufferNode → ℕ → ℕ
  | 0, _, _, _ => 0
  | rounds + 1, iOutstandingBytes, l, uiBurstLength =>
    if iOutstandingBytes < iCwnd ∧ l ≠ [] then
      let packet := packetBytes cfg 0 l
      let limited := packet.2.1 > 0 ∧ cfg.eUseMaxBurst ∧ eApplyMaxBurst
      packet.1 +
        if limited ∧ uiBurstLength ≥ 4 then 0
        else
          burstBytes cfg iCwnd eApplyMaxBurst rounds (iOutstandingBytes + packet.1) packet.2.2
            (if limited then uiBurstLength + 1 else uiBurstLength)
    else 0

/-- What a packet does to the variables. -/
structure Packed (spRtxDest a : ℕ) (v v' : SendVars) : Prop extends Charged a v v' where
  out : (v'.dests spRtxDest).iOutstandingBytes = (v.dests spRtxDest).iOutstandingBytes + a
  cwnd : (v'.dests spRtxDest).iCwnd = (v.dests spRtxDest).iCwnd
  burst : v'.eApplyMaxBurst = v.eApplyMaxBurst

theorem Packed.trans {spRtxDest : ℕ} (h : Packed spRtxDest a v v') (h' : Packed spRtxDest b v' v'')
    (hv : v.uiPeerRwnd < 2 ^ 32) : Packed spRtxDest (a + b) v v'' where
  toCharged := h.toCharged.trans h'.toCharged hv
  out := by
    rw [h'.out, h.out]
    push_cast
    omega
  cwnd := h'.cwnd.trans h.cwnd
  burst := h'.burst.trans h.burst

theorem packed_zero {spRtxDest : ℕ} : Packed spRtxDest 0 v v where
  toCharged := charged_zero rfl rfl rfl
  out := by simp
  cwnd := rfl
  burst := rfl

theorem resend_packed (spRtxDest : ℕ) :
    Packed spRtxDest n.usLength v (SendState.resend spRtxDest v n).1 where
  toCharged := ⟨rfl, rfl, fun _ => Nat.mod_lt _ (by norm_num), fun hv ha =>
    (chargeRwnd_charged (v := v)).rwnd hv ha⟩
  out := by
    have hout := addOutstanding_out (v := v) (d := spRtxDest) (i := spRtxDest) (k := n.usLength)
    rw [if_pos rfl] at hout
    exact hout
  cwnd := by simp [SendState.resend, SendVars.addOutstanding, SendVars.setDest, SendVars.chargeRwnd]
  burst := rfl

variable (cfg l) in
/-- The loop that fills a packet takes its bytes from the window. -/
theorem fillPacket_packed (spRtxDest iOutDataSize : ℕ) (hv : v.uiPeerRwnd < 2 ^ 32) :
    Packed spRtxDest (packetBytes cfg iOutDataSize l).1 v
        (SendState.fillPacket cfg spRtxDest v iOutDataSize l).1 ∧
      (SendState.fillPacket cfg spRtxDest v iOutDataSize l).2.1 =
        (packetBytes cfg iOutDataSize l).2.1 ∧
      (SendState.fillPacket cfg spRtxDest v iOutDataSize l).2.2.2 =
        (packetBytes cfg iOutDataSize l).2.2 := by
  induction l generalizing v iOutDataSize with
  | nil => exact ⟨packed_zero, rfl, rfl⟩
  | cons n l ih =>
    rw [SendState.fillPacket, packetBytes]
    split
    · split
      · exact ⟨packed_zero, rfl, rfl⟩
      · have hone := resend_packed (v := v) (n := n) spRtxDest
        obtain ⟨hpacked, hsize, hleft⟩ := ih (v := (SendState.resend spRtxDest v n).1)
          (iOutDataSize + SendState.padded n.usLength) (hone.lt hv)
        exact ⟨hone.trans hpacked hv, hsize, hleft⟩
    · exact ih _ hv

/-! ## The loop over the packets -/

/-- Outside its limits the loop stops. -/
theorem rtxLoop_stop {eLimit : SendState.RtxLimit} {spRtxDest rounds i k : ℕ}
    (hone : eLimit = .RTX_LIMIT_ONE_PACKET → i < 1 → l = [])
    (hcwnd : eLimit = .RTX_LIMIT_CWND →
      (v.dests spRtxDest).iOutstandingBytes < (v.dests spRtxDest).iCwnd → l = [])
    (h : SendState.rtxLoop cfg eLimit spRtxDest rounds v before l i k = some (v', l')) :
    v' = v := by
  cases rounds with
  | zero => exact absurd h (by simp [SendState.rtxLoop])
  | succ rounds =>
    rw [SendState.rtxLoop, if_neg] at h
    · exact (congrArg Prod.fst (Option.some.inj h)).symm
    · rintro (⟨he, hi, hne⟩ | ⟨he, hout, hne⟩)
      · exact hne (hone he hi)
      · exact hne (hcwnd he hout)

variable (cfg) in
theorem le_packetBytes_size (iOutDataSize : ℕ) :
    iOutDataSize ≤ (packetBytes cfg iOutDataSize l).2.1 := by
  induction l generalizing iOutDataSize with
  | nil => exact le_rfl
  | cons n l ih =>
    rw [packetBytes]
    split
    · split
      · exact le_rfl
      · exact (Nat.le_add_right _ _).trans (ih _)
    · exact ih _

/-- A packet stays empty only when no chunk is left. -/
theorem packetBytes_left (hl : ∀ n ∈ l, NodeOk cfg n) (h : (packetBytes cfg 0 l).2.1 = 0) :
    (packetBytes cfg 0 l).2.2 = [] := by
  induction l with
  | nil => rfl
  | cons n l ih =>
    obtain ⟨hn, hl⟩ := List.forall_mem_cons.mp hl
    rw [packetBytes] at h ⊢
    split at h
    · rename_i hmarked
      have hfits : ¬ 0 + n.usLength > cfg.uiMaxPayloadSize := by
        have := hn.fits
        omega
      rw [if_neg hfits] at h
      rw [if_pos hmarked, if_neg hfits]
      have hsize := le_packetBytes_size cfg (l := l) (0 + SendState.padded n.usLength)
      have hzero : 0 + SendState.padded n.usLength = 0 := by
        dsimp only at h
        omega
      rw [hzero] at h ⊢
      exact ih hl h
    · rename_i hmarked
      rw [if_neg hmarked]
      exact ih hl h

/-- One packet is sent. -/
theorem rtxLoop_one {spRtxDest rounds : ℕ} (hl : ∀ n ∈ l, NodeOk cfg n)
    (hv : v.uiPeerRwnd < 2 ^ 32)
    (h : SendState.rtxLoop cfg .RTX_LIMIT_ONE_PACKET spRtxDest rounds v before l 0 0 =
      some (v', l')) : Charged (packetBytes cfg 0 l).1 v v' := by
  obtain ⟨hpacked, hsize, hleft⟩ := fillPacket_packed cfg l spRtxDest 0 hv
  cases rounds with
  | zero => exact absurd h (by simp [SendState.rtxLoop])
  | succ rounds =>
    rw [SendState.rtxLoop] at h
    split at h
    · dsimp only at h
      split at h
      · -- a packet is sent, and no second one
        split at h
        · rw [if_neg (by decide)] at h
          rw [rtxLoop_stop (by simp) (by simp) h]
          exact hpacked.toCharged
        · rw [rtxLoop_stop (by simp) (by simp) h]
          exact hpacked.toCharged
      · -- no chunk is left
        rename_i hempty
        have hnil : (SendState.fillPacket cfg spRtxDest v 0 l).2.2.2 = [] := by
          rw [hleft]
          exact packetBytes_left hl (by omega)
        rw [rtxLoop_stop (fun _ _ => hnil) (by simp) h]
        exact hpacked.toCharged
    · rename_i hcond
      have hnil : l = [] := by simpa using hcond
      cases h
      rw [hnil]
      exact charged_zero rfl rfl rfl

/-- Packets are sent while the congestion window allows. -/
theorem rtxLoop_cwnd {spRtxDest rounds i k : ℕ} (hv : v.uiPeerRwnd < 2 ^ 32)
    (h : SendState.rtxLoop cfg .RTX_LIMIT_CWND spRtxDest rounds v before l i k = some (v', l')) :
    Charged (burstBytes cfg (v.dests spRtxDest).iCwnd v.eApplyMaxBurst rounds
      (v.dests spRtxDest).iOutstandingBytes l k) v v' := by
  induction rounds generalizing v before l i k with
  | zero => exact absurd h (by simp [SendState.rtxLoop])
  | succ rounds ih =>
    obtain ⟨hpacked, hsize, hleft⟩ := fillPacket_packed cfg l spRtxDest 0 hv
    have hrest {before' : List SendBufferNode} {i' k' : ℕ}
        (h : SendState.rtxLoop cfg .RTX_LIMIT_CWND spRtxDest rounds
          (SendState.fillPacket cfg spRtxDest v 0 l).1 before'
          (SendState.fillPacket cfg spRtxDest v 0 l).2.2.2 i' k' = some (v', l')) :
        Charged ((packetBytes cfg 0 l).1 + burstBytes cfg (v.dests spRtxDest).iCwnd v.eApplyMaxBurst
          rounds ((v.dests spRtxDest).iOutstandingBytes + (packetBytes cfg 0 l).1)
          (packetBytes cfg 0 l).2.2 k') v v' := by
      have hnext := ih (hpacked.lt hv) h
      rw [hpacked.out, hpacked.cwnd, hpacked.burst, hleft] at hnext
      exact hpacked.toCharged.trans hnext hv
    rw [SendState.rtxLoop] at h
    rw [burstBytes]
    split at h
    · rename_i hcond
      rw [if_pos (by simpa using hcond)]
      dsimp only at h ⊢
      rw [hsize, hpacked.burst] at h
      split at h
      · rename_i hpos
        split at h
        · rename_i hlimited
          split at h
          · rename_i hburst
            cases h
            rw [if_pos ⟨⟨hpos, hlimited⟩, hburst⟩]
            exact ⟨hpacked.arwnd, hpacked.wrapped, hpacked.lt, hpacked.rwnd⟩
          · rename_i hburst
            rw [if_neg fun h => hburst h.2, if_pos ⟨hpos, hlimited⟩]
            exact hrest h
        · rename_i hlimited
          rw [if_neg fun h => hlimited h.1.2, if_neg fun h => hlimited h.2]
          exact hrest h
      · rename_i hpos
        rw [if_neg fun h => hpos h.1.1, if_neg fun h => hpos h.1]
        exact hrest h
    · rename_i hcond
      cases h
      rw [if_neg (by simpa using hcond)]
      exact charged_zero rfl rfl rfl

/-! ## Retransmission -/

theorem walkList_field {α : Type*} {g : SendVars → α} (h : ∀ v n, g (f v n).1 = g v) :
    g (walkList f v l).1 = g v := by
  induction l generalizing v with
  | nil => rfl
  | cons n l ih =>
    rw [walkList]
    exact ih.trans (h v n)

theorem walkList_same (h : ∀ v n, (f v n).2 = n) : (walkList f v l).2 = l := by
  induction l generalizing v with
  | nil => rfl
  | cons n l ih => simp only [walkList, h, ih]

theorem quiet_walkList (h : ∀ v n, Quiet v (f v n).1) : Quiet v (walkList f v l).1 := by
  induction l generalizing v with
  | nil => exact Quiet.refl
  | cons n l ih => exact (h v n).trans ih

/-- The fields that are the window. -/
def SendVars.window (v : SendVars) : ℕ × ℕ × Bool := (v.uiArwnd, v.uiPeerRwnd, v.wrapped)

theorem charged_of_window (h : v'.window = v.window) : Charged 0 v v' := by
  simp only [SendVars.window, Prod.mk.injEq] at h
  exact charged_zero h.1 h.2.2 h.2.1

theorem quiet_of_window (h : v'.window = v.window) : Quiet v v' := by
  simp only [SendVars.window, Prod.mk.injEq] at h
  exact ⟨h.1, h.2.2, fun hv => h.2.1.trans_lt hv⟩

theorem countMarked_window {sign : ℤ} : (SendState.countMarked sign v n).1.window = v.window := by
  rw [SendState.countMarked]
  split <;> rfl

theorem countMarked_same {sign : ℤ} : (SendState.countMarked sign v n).2 = n := by
  rw [SendState.countMarked]
  split <;> rfl

theorem cutCwnd_window : (SendState.cutCwnd cfg l v n).1.window = v.window := by
  rw [SendState.cutCwnd]
  split <;> rfl

theorem cutCwnd_same : (SendState.cutCwnd cfg l v n).2 = n := by
  rw [SendState.cutCwnd]
  split <;> rfl

theorem cutCwnd_pending :
    (SendState.cutCwnd cfg l v n).1.eMarkedChunksPending = v.eMarkedChunksPending := by
  rw [SendState.cutCwnd]
  split <;> rfl

/-- The bytes of a marked chunk on a destination. -/
def SendBufferNode.markedOn (d : ℕ) (n : SendBufferNode) : ℤ :=
  if n.eMarkedForRtx ≠ .NO_RTX ∧ n.spDest = d then n.usLength else 0

namespace SendState

/-- The bytes that `RtxMarkedChunks` sends when its limit is one packet. -/
def onePacketBytes (cfg : SendConfig) (s : SendState) : ℕ := (packetBytes cfg 0 s.sSendBuffer).1

/-- The bytes that it sends when its limit is the congestion window: marked chunks are not counted
as outstanding. -/
def cwndBytes (cfg : SendConfig) (s : SendState) (rtxDest : SendBufferNode → ℕ) : ℕ :=
  (s.sSendBuffer.find? fun n => n.eMarkedForRtx ≠ .NO_RTX).elim 0 fun first =>
    burstBytes cfg (s.dests (rtxDest first)).iCwnd s.eApplyMaxBurst (s.sSendBuffer.length + 1)
      ((s.dests (rtxDest first)).iOutstandingBytes -
        total (SendBufferNode.markedOn (rtxDest first)) s.sSendBuffer) s.sSendBuffer 0

/-- The bytes that it sends. -/
def rtxBytes (cfg : SendConfig) (s : SendState) (rtxDest : SendBufferNode → ℕ) : RtxLimit → ℕ
  | .RTX_LIMIT_ONE_PACKET => s.onePacketBytes cfg
  | .RTX_LIMIT_CWND => s.cwndBytes cfg rtxDest

end SendState

theorem packetBytes_unmarked {k : ℕ} (h : ∀ n ∈ l, n.eMarkedForRtx = .NO_RTX) :
    (packetBytes cfg k l).1 = 0 := by
  induction l with
  | nil => rfl
  | cons n l ih =>
    obtain ⟨hn, hl⟩ := List.forall_mem_cons.mp h
    rw [packetBytes, if_neg (not_not.mpr hn)]
    exact ih hl

theorem countMarked_out {d : ℕ} :
    ((walkList (SendState.countMarked (-1)) v l).1.dests d).iOutstandingBytes =
      (v.dests d).iOutstandingBytes - total (SendBufferNode.markedOn d) l := by
  induction l generalizing v with
  | nil => simp [walkList]
  | cons n l ih =>
    have hn : ((SendState.countMarked (-1) v n).1.dests d).iOutstandingBytes =
        (v.dests d).iOutstandingBytes - n.markedOn d := by
      rw [SendState.countMarked, SendBufferNode.markedOn]
      by_cases hmarked : n.eMarkedForRtx ≠ .NO_RTX
      · rw [if_pos hmarked, addOutstanding_out]
        by_cases hd : n.spDest = d
        · simp [hd, hmarked]
          omega
        · simp [hd]
      · simp [hmarked]
    rw [walkList, ih, hn, total_cons]
    omega

theorem countMarked_cwnd {d : ℕ} {sign : ℤ} :
    ((SendState.countMarked sign v n).1.dests d).iCwnd = (v.dests d).iCwnd := by
  rw [SendState.countMarked]
  split
  · by_cases hd : d = n.spDest
    · subst hd
      simp [SendVars.addOutstanding, SendVars.setDest]
    · simp [SendVars.addOutstanding, SendVars.setDest, Function.update_of_ne hd]
  · rfl

theorem countMarked_burst {sign : ℤ} :
    (SendState.countMarked sign v n).1.eApplyMaxBurst = v.eApplyMaxBurst := by
  rw [SendState.countMarked]
  split <;> rfl

/-- `RtxMarkedChunks` takes the bytes that it sends from the window. -/
theorem RtxMarkedChunks_charged {eLimit : SendState.RtxLimit} {rtxDest : SendBufferNode → ℕ}
    (hnodes : ∀ n ∈ s.sSendBuffer, NodeOk cfg n) (hv : s.uiPeerRwnd < 2 ^ 32)
    (h : s.RtxMarkedChunks cfg eLimit rtxDest = some s') :
    Charged (s.rtxBytes cfg rtxDest eLimit) s.toSendVars s'.toSendVars := by
  rw [SendState.RtxMarkedChunks] at h
  split at h
  · rename_i hnone
    cases h
    have hunmarked : ∀ n ∈ s.sSendBuffer, n.eMarkedForRtx = .NO_RTX := by
      simpa using List.find?_eq_none.mp hnone
    have hzero : s.rtxBytes cfg rtxDest eLimit = 0 := by
      cases eLimit with
      | RTX_LIMIT_ONE_PACKET => exact packetBytes_unmarked hunmarked
      | RTX_LIMIT_CWND => rw [SendState.rtxBytes, SendState.cwndBytes, hnone]; rfl
    rw [hzero]
    exact charged_zero rfl rfl rfl
  · rename_i first hfirst
    dsimp only at h
    obtain ⟨res, hloop, rfl⟩ := Option.map_eq_some_iff.mp h
    have hsame : (s.walk (SendState.countMarked (-1))).sSendBuffer = s.sSendBuffer :=
      walkList_same fun _ _ => countMarked_same
    have hbefore : Charged 0 s.toSendVars (s.walk (SendState.countMarked (-1))).toSendVars :=
      charged_of_window (walkList_field fun _ _ => countMarked_window)
    have hafter : Charged 0 res.1 (walkList (SendState.countMarked 1) res.1 res.2).1 :=
      charged_of_window (walkList_field fun _ _ => countMarked_window)
    rw [hsame] at hloop
    have hbytes : Charged (s.rtxBytes cfg rtxDest eLimit)
        (s.walk (SendState.countMarked (-1))).toSendVars res.1 := by
      cases eLimit with
      | RTX_LIMIT_ONE_PACKET => exact rtxLoop_one hnodes (hbefore.lt hv) hloop
      | RTX_LIMIT_CWND =>
        have hcwnd := rtxLoop_cwnd (hbefore.lt hv) hloop
        have hout : ((s.walk (SendState.countMarked (-1))).dests
            (rtxDest first)).iOutstandingBytes = _ := countMarked_out
        have hsize : ((s.walk (SendState.countMarked (-1))).dests (rtxDest first)).iCwnd =
            (s.dests (rtxDest first)).iCwnd :=
          walkList_field (g := fun v => (v.dests (rtxDest first)).iCwnd) fun _ _ => countMarked_cwnd
        have hburst : (s.walk (SendState.countMarked (-1))).eApplyMaxBurst = s.eApplyMaxBurst :=
          walkList_field (g := SendVars.eApplyMaxBurst) fun _ _ => countMarked_burst
        rw [hout, hsize, hburst] at hcwnd
        rw [SendState.rtxBytes, SendState.cwndBytes, hfirst]
        exact hcwnd
    have htotal := (hbefore.trans hbytes hv).trans hafter hv
    rw [zero_add, add_zero] at htotal
    exact ⟨htotal.arwnd, htotal.wrapped, htotal.lt, htotal.rwnd⟩

/-- The bytes that are sent when marked chunks are pending. -/
def SendState.pendingBytes (cfg : SendConfig) (s : SendState) : ℕ :=
  if s.eMarkedChunksPending then s.onePacketBytes cfg else 0

/-- `FastRtx` takes the bytes that it sends from the window. -/
theorem FastRtx_charged {rtxDest : SendBufferNode → ℕ}
    (hnodes : ∀ n ∈ s.sSendBuffer, NodeOk cfg n) (hv : s.uiPeerRwnd < 2 ^ 32)
    (h : s.FastRtx cfg rtxDest = some s') :
    Charged (s.pendingBytes cfg) s.toSendVars s'.toSendVars := by
  obtain ⟨u, hu⟩ : ∃ u : SendState, u = SendState.walk (SendState.cutCwnd cfg s.sSendBuffer)
      { s.mapDests fun x => { x with eCcApplied := false } with sSendBuffer := s.sSendBuffer } :=
    ⟨_, rfl⟩
  have hbuffer : u.sSendBuffer = s.sSendBuffer := by
    rw [hu]
    exact walkList_same fun _ _ => cutCwnd_same
  have hpending : u.eMarkedChunksPending = s.eMarkedChunksPending := by
    rw [hu]
    exact walkList_field (g := SendVars.eMarkedChunksPending) fun _ _ => cutCwnd_pending
  have hwindow : u.window = s.window := by
    rw [hu]
    exact walkList_field fun _ _ => cutCwnd_window
  have hcut : Charged 0 s.toSendVars u.toSendVars := charged_of_window hwindow
  rw [SendState.FastRtx] at h
  dsimp only at h
  rw [← hu, hpending] at h
  rw [SendState.pendingBytes]
  split at h
  · rename_i hp
    have hrtx := RtxMarkedChunks_charged (by rwa [hbuffer]) (hcut.lt hv) h
    rw [if_pos hp, ← zero_add (s.onePacketBytes cfg)]
    rw [SendState.rtxBytes, SendState.onePacketBytes, hbuffer] at hrtx
    exact hcut.trans hrtx hv
  · rename_i hp
    cases h
    rw [if_neg hp]
    exact hcut

namespace SendState

/-- The bytes that are resent after a SACK. -/
def bytesAfterSack (cfg : SendConfig) (s : SendState) (rtxDest : SendBufferNode → ℕ) : ℕ :=
  if s.eFastRtxNeeded then s.pendingBytes cfg else s.cwndBytes cfg rtxDest

end SendState

theorem rtxAfterSack_charged {rtxDest : SendBufferNode → ℕ}
    (hnodes : ∀ n ∈ s.sSendBuffer, NodeOk cfg n) (hv : s.uiPeerRwnd < 2 ^ 32)
    (h : s.rtxAfterSack cfg rtxDest = some s') :
    Charged (s.bytesAfterSack cfg rtxDest) s.toSendVars s'.toSendVars := by
  rw [SendState.rtxAfterSack] at h
  rw [SendState.bytesAfterSack]
  split at h
  · rename_i hfast
    rw [if_pos hfast]
    exact FastRtx_charged hnodes hv h
  · rename_i hfast
    rw [if_neg hfast]
    split at h
    · have hrtx := RtxMarkedChunks_charged (s := { s with eMarkedChunksPending := true }) hnodes hv h
      exact ⟨hrtx.arwnd, hrtx.wrapped, hrtx.lt, hrtx.rwnd⟩
    · rename_i hany
      cases h
      have hnone : (s.sSendBuffer.find? fun n => n.eMarkedForRtx ≠ .NO_RTX) = none := by
        simpa [SendState.AnyMarkedChunks, List.find?_eq_none] using hany
      rw [SendState.cwndBytes, hnone]
      exact charged_zero rfl rfl rfl

/-! ## Timeouts -/

/-- The bytes of the chunks that a timeout of a destination marks. -/
def timedOutBytes (spDest : ℕ) : List SendBufferNode → ℕ
  | [] => 0
  | n :: l =>
    (if n.spDest = spDest ∧ n.eGapAcked = false ∧ n.eAdvancedAcked = false then n.usLength else 0) +
      timedOutBytes spDest l

variable (cfg) in
theorem markChunkForRtx_rwnd {e : MarkedForRtx} :
    (SendState.markChunkForRtx cfg e v n).1.window =
      (v.uiArwnd, (v.uiPeerRwnd + n.usLength) % 2 ^ 32, v.wrapped) := by
  rw [SendState.markChunkForRtx]
  split <;> rfl

variable (cfg) in
theorem markChunkForRtx_quiet {e : MarkedForRtx} :
    Quiet v (SendState.markChunkForRtx cfg e v n).1 := by
  have hwindow := markChunkForRtx_rwnd cfg (v := v) (n := n) (e := e)
  simp only [SendVars.window, Prod.mk.injEq] at hwindow
  exact ⟨hwindow.1, hwindow.2.2, fun _ => hwindow.2.1.trans_lt (Nat.mod_lt _ (by norm_num))⟩

theorem timeoutNode_quiet {spDest : ℕ} : Quiet v (SendState.timeoutNode cfg spDest v n).1 := by
  rw [SendState.timeoutNode]
  split
  · exact markChunkForRtx_quiet cfg
  · exact Quiet.refl

/-- A timeout gives credit for the chunks that it marks. -/
theorem timeout_rwnd {spDest : ℕ} (hv : v.uiPeerRwnd < 2 ^ 32) :
    (walkList (SendState.timeoutNode cfg spDest) v l).1.uiPeerRwnd =
      (v.uiPeerRwnd + timedOutBytes spDest l) % 2 ^ 32 := by
  induction l generalizing v with
  | nil => exact (Nat.mod_eq_of_lt hv).symm
  | cons n l ih =>
    have hn : (SendState.timeoutNode cfg spDest v n).1.uiPeerRwnd = (v.uiPeerRwnd +
        if n.spDest = spDest ∧ n.eGapAcked = false ∧ n.eAdvancedAcked = false then n.usLength
        else 0) % 2 ^ 32 := by
      rw [SendState.timeoutNode]
      split
      · exact congrArg (fun w => w.2.1) (markChunkForRtx_rwnd cfg)
      · exact (Nat.mod_eq_of_lt hv).symm
    rw [walkList, ih (timeoutNode_quiet.lt hv), hn, timedOutBytes, Nat.mod_add_mod, Nat.add_assoc]

/-! ## Acknowledgments -/

/-- The block of the cursor is the first one of its list. -/
structure Cursor.Ready (cfg : SendConfig) (c : Cursor) : Prop where
  plain : cfg.eUseNonRenegSacks = false → c.nonReneg = []
  gap : c.done = false → cfg.eUseNonRenegSacks = false ∨ c.eUseGapAckBlock = true → c.gaps ≠ []
  nonRenegable : c.done = false → c.eUseGapAckBlock = false → cfg.eUseNonRenegSacks = true →
    c.nonReneg ≠ []

namespace Cursor

variable {c : Cursor}

@[simp] theorem choose_gaps : (c.choose cfg).gaps = c.gaps := by
  unfold choose
  split
  · rfl
  · rfl
  · split <;> rfl
  · split_ifs <;> rfl

@[simp] theorem choose_nonReneg : (c.choose cfg).nonReneg = c.nonReneg := by
  unfold choose
  split
  · rfl
  · rfl
  · split <;> rfl
  · split_ifs <;> rfl

theorem choose_ready (h : cfg.eUseNonRenegSacks = false → c.nonReneg = []) :
    (c.choose cfg).Ready cfg := by
  refine ⟨fun hcfg => choose_nonReneg.trans (h hcfg), ?_, ?_⟩
  · intro hdone hflag
    rw [choose_gaps]
    rw [done_choose] at hdone
    intro hgaps
    cases hcfg : cfg.eUseNonRenegSacks with
    | false => simp [done, hgaps, h hcfg] at hdone
    | true =>
      obtain ⟨b, l, hl⟩ := List.exists_cons_of_ne_nil (l := c.nonReneg) fun hnil => by
        simp [done, hgaps, hnil] at hdone
      simp [choose, hgaps, hl, hcfg] at hflag
  · intro hdone hflag hcfg
    rw [choose_nonReneg]
    rw [done_choose] at hdone
    intro hnil
    obtain ⟨g, l, hl⟩ := List.exists_cons_of_ne_nil (l := c.gaps) fun hgaps => by
      simp [done, hgaps, hnil] at hdone
    simp [choose, hl, hnil] at hflag

/-- One block less is left. -/
theorem processed_length (h : c.Ready cfg) (hdone : c.done = false) :
    (c.processed cfg).gaps.length + (c.processed cfg).nonReneg.length + 1 =
      c.gaps.length + c.nonReneg.length := by
  rw [processed]
  split
  · rename_i hflag
    have := List.length_pos_of_ne_nil (h.gap hdone hflag)
    simp only [List.length_tail]
    omega
  · rename_i hflag
    have := List.length_pos_of_ne_nil (h.nonRenegable hdone (by simpa using fun h => hflag (.inr h))
      (by simpa using fun h => hflag (.inl h)))
    simp only [List.length_tail]
    omega

theorem processed_plain (h : c.Ready cfg) (hcfg : cfg.eUseNonRenegSacks = false) :
    (c.processed cfg).nonReneg = [] := by
  rw [processed, if_pos (Or.inl hcfg)]
  exact h.plain hcfg

end Cursor

theorem withdraw_quiet : Quiet v (v.withdraw n).1 := by
  rw [SendVars.withdraw]
  split
  · exact quiet_of_window rfl
  · exact Quiet.refl

theorem gapAck_quiet : Quiet v (v.gapAck eNewCumAck n).1 := by
  refine quiet_of_window ?_
  rw [SendVars.gapAck]
  dsimp only
  split_ifs <;> rfl

/-- What the functions that process a SACK return: the nodes stay right, and the window is not
used. -/
structure Processed (cfg : SendConfig) (v : SendVars) (l : List SendBufferNode) (v' : SendVars)
    (l' : List SendBufferNode) : Prop extends Quiet v v' where
  nodes : (∀ n ∈ l, NodeOk cfg n) → ∀ n ∈ l', NodeOk cfg n

theorem Processed.trans {l'' : List SendBufferNode} (h : Processed cfg v l v' l')
    (h' : Processed cfg v' l' v'' l'') : Processed cfg v l v'' l'' :=
  ⟨h.toQuiet.trans h'.toQuiet, fun hl => h'.nodes (h.nodes hl)⟩

theorem Processed.cons {m : SendBufferNode} (hquiet : Quiet v v')
    (hkept : Kept cfg v [n] v' [m]) (h : Processed cfg v' l v'' l') :
    Processed cfg v (n :: l) v'' (m :: l') := by
  refine ⟨hquiet.trans h.toQuiet, fun hl => ?_⟩
  obtain ⟨hn, hl⟩ := List.forall_mem_cons.mp hl
  refine List.forall_mem_cons.mpr ⟨?_, h.nodes hl⟩
  exact hkept.nodes (fun x hx => by rwa [List.mem_singleton.mp hx]) m (List.mem_singleton_self m)

theorem processed_walkList (hkeeps : Keeps cfg f) (hquiet : ∀ v n, Quiet v (f v n).1) :
    Processed cfg v l (walkList f v l).1 (walkList f v l).2 :=
  ⟨quiet_walkList hquiet, hkeeps.walkList.nodes⟩

/-- The marking loops return, whatever the blocks are. -/
theorem markLoop_processed {c : Cursor} {rounds : ℕ} (hc : c.Ready cfg)
    (hrounds : l.length + (c.gaps.length + c.nonReneg.length) < rounds) :
    ∃ v' l', markLoop cfg eNewCumAck rounds v before l c = some (v', before ++ l') ∧
      Processed cfg v l v' l' := by
  have hwithdraw {v : SendVars} {l : List SendBufferNode} : Processed cfg v l
      (walkList SendVars.withdraw v l).1 (walkList SendVars.withdraw v l).2 :=
    processed_walkList withdraw_keeps fun _ _ => withdraw_quiet
  induction rounds generalizing v before l c with
  | zero => omega
  | succ rounds ih =>
    cases l with
    | nil => exact ⟨v, [], by simp [markLoop], Quiet.refl, id⟩
    | cons n l =>
      cases hdone : c.done with
      | true => exact ⟨_, _, by rw [markLoop_done hdone]; rfl, hwithdraw⟩
      | false =>
        rw [List.length_cons] at hrounds
        have hless := Cursor.processed_length hc hdone
        have hready : ((c.processed cfg).choose cfg).Ready cfg :=
          Cursor.choose_ready (Cursor.processed_plain hc)
        -- the loop goes on behind a chunk
        have hstep {g : SendVars → SendBufferNode → SendVars × SendBufferNode} {c' : Cursor}
            (hkeeps : Keeps cfg g) (hquiet : Quiet v (g v n).1) (hc' : c'.Ready cfg)
            (hle : c'.gaps.length + c'.nonReneg.length ≤ c.gaps.length + c.nonReneg.length) :
            ∃ v' l', markLoop cfg eNewCumAck rounds (g v n).1 (before ++ [(g v n).2]) l c' =
              some (v', before ++ l') ∧ Processed cfg v (n :: l) v' l' := by
          obtain ⟨v', l', hloop, hprocessed⟩ :=
            @ih (g v n).1 l (before ++ [(g v n).2]) c' hc' (by omega)
          exact ⟨v', (g v n).2 :: l', by simp [hloop], hprocessed.cons hquiet (hkeeps v n)⟩
        have hkeep : Keeps cfg fun v n => (v, n) := fun _ _ => Kept.refl
        rw [markLoop, if_neg (by simp [hdone])]
        split
        · exact hstep withdraw_keeps withdraw_quiet hc le_rfl
        · split
          · exact hstep gapAck_keeps gapAck_quiet hc le_rfl
          · split
            · exact hstep withdraw_keeps withdraw_quiet hready (by simp; omega)
            · split
              · rename_i hlast
                obtain ⟨rounds, rfl⟩ : ∃ k, rounds = k + 1 := ⟨rounds - 1, by omega⟩
                rw [markLoop_done hlast]
                refine ⟨(walkList SendVars.withdraw v l).1, n :: (walkList SendVars.withdraw v l).2,
                  by simp [passed], ?_⟩
                exact hwithdraw.cons Quiet.refl Kept.refl
              · split
                · rename_i hnil
                  subst hnil
                  exact hstep hkeep Quiet.refl hready (by simp; omega)
                · exact ih hready (by simp; omega)

theorem missingReport_quiet {high : ℤ} :
    Quiet v (SendState.missingReport cfg eNewCumAck high v n).1 := by
  rw [SendState.missingReport]
  split
  · dsimp only
    split
    · have hquiet := markChunkForRtx_quiet cfg (v := v) (e := .FAST_RTX)
        (n := { n with iNumMissingReports := n.iNumMissingReports + 1 })
      exact ⟨hquiet.arwnd, hquiet.wrapped, hquiet.lt⟩
    · exact Quiet.refl
  · exact Quiet.refl

variable (cfg eNewCumAck) in
theorem markGapAcked_processed (sack : Sack) :
    ∃ s', s.markGapAcked cfg sack eNewCumAck = some s' ∧
      Processed cfg s.toSendVars s.sSendBuffer s'.toSendVars s'.sSendBuffer := by
  have hready : (Cursor.init cfg sack).Ready cfg :=
    Cursor.choose_ready fun hcfg => by simp [hcfg]
  have hlength : (Cursor.init cfg sack).gaps.length + (Cursor.init cfg sack).nonReneg.length ≤
      sack.gapAckBlocks.length + sack.nonRenegBlocks.length := by
    rw [Cursor.init, Cursor.choose_gaps, Cursor.choose_nonReneg]
    dsimp only
    split <;> simp
  obtain ⟨v', l', hloop, hmarked⟩ : ∃ v' l', markLoop cfg eNewCumAck (markRounds s sack)
      s.toSendVars [] s.sSendBuffer _ = some (v', [] ++ l') ∧ Processed cfg _ _ v' l' :=
    markLoop_processed hready (by rw [markRounds]; omega)
  refine ⟨{ v' with sSendBuffer := l' }, ?_, hmarked⟩
  rw [SendState.markGapAcked, hloop]
  rfl

variable (cfg eNewCumAck) in
theorem ProcessGapAckBlocks_processed (sack : Sack) :
    ∃ s', s.ProcessGapAckBlocks cfg sack eNewCumAck = some s' ∧
      Processed cfg s.toSendVars s.sSendBuffer s'.toSendVars s'.sSendBuffer := by
  have hstart : Processed cfg s.toSendVars s.sSendBuffer
      { s.toSendVars with eFastRtxNeeded := false } s.sSendBuffer := ⟨quiet_of_window rfl, id⟩
  rw [SendState.ProcessGapAckBlocks]
  dsimp only
  split
  · exact ⟨_, rfl, hstart⟩
  · obtain ⟨s₁, hs₁, hmarked⟩ := markGapAcked_processed cfg
      (s := { s with eFastRtxNeeded := false }) eNewCumAck sack
    rw [hs₁]
    refine ⟨_, rfl, (hstart.trans hmarked).trans ?_⟩
    exact processed_walkList missingReport_keeps fun _ _ => missingReport_quiet

theorem deleteBlocks_subset {blocks : List TsnBlock} : SendState.deleteBlocks blocks l ⊆ l := by
  induction blocks generalizing l with
  | nil => exact List.Subset.refl l
  | cons b blocks ih =>
    rw [SendState.deleteBlocks]
    refine List.append_subset.mpr ⟨List.takeWhile_subset _, List.Subset.trans ih ?_⟩
    exact ((List.dropWhile_sublist _).trans (List.dropWhile_sublist _)).subset

theorem ProcessNonRenegSackBlocks_processed {sack : Sack} :
    Processed cfg s.toSendVars s.sSendBuffer (s.ProcessNonRenegSackBlocks sack).toSendVars
      (s.ProcessNonRenegSackBlocks sack).sSendBuffer := by
  rw [SendState.ProcessNonRenegSackBlocks]
  split
  · exact ⟨Quiet.refl, id⟩
  · exact ⟨quiet_of_window rfl, fun h n hn => h n (deleteBlocks_subset hn)⟩

/-- How a function that processes the blocks does. -/
def ProcessesAcks (cfg : SendConfig) (gapAcks : SendState → Bool → Option SendState) : Prop :=
  ∀ s eNewCumAck, ∃ s', gapAcks s eNewCumAck = some s' ∧
    Processed cfg s.toSendVars s.sSendBuffer s'.toSendVars s'.sSendBuffer

theorem gapAcksOfSack_processes {sack : Sack} :
    ProcessesAcks cfg (SendState.gapAcksOfSack cfg sack) := by
  intro s eNewCumAck
  rw [SendState.gapAcksOfSack]
  split
  · exact ProcessGapAckBlocks_processed cfg eNewCumAck sack
  · exact ⟨_, rfl, quiet_of_window rfl, id⟩

theorem gapAcksOfNonRenegSack_processes {sack : Sack} :
    ProcessesAcks cfg (SendState.gapAcksOfNonRenegSack cfg sack) := by
  intro s eNewCumAck
  rw [SendState.gapAcksOfNonRenegSack]
  split
  · obtain ⟨s₁, hs₁, hprocessed⟩ := ProcessGapAckBlocks_processed cfg (s := s)
      eNewCumAck sack
    rw [hs₁]
    exact ⟨_, rfl, hprocessed.trans ProcessNonRenegSackBlocks_processed⟩
  · exact ⟨_, rfl, quiet_of_window rfl, id⟩

theorem dequeueNode_quiet : Quiet v (v.dequeueNode n) := by
  refine quiet_of_window ?_
  rw [SendVars.dequeueNode]
  split_ifs <;> rfl

theorem dequeueUpTo_quiet (uiTsn : ℤ) : Quiet v (SendVars.dequeueUpTo uiTsn v l).1 := by
  induction l generalizing v with
  | nil => exact Quiet.refl
  | cons n l ih =>
    rw [SendVars.dequeueUpTo]
    split
    · exact dequeueNode_quiet.trans ih
    · exact Quiet.refl

/-- A SACK is processed up to the retransmissions, and the window is not used. -/
theorem processAcks_processed {gapAcks : SendState → Bool → Option SendState} (sack : Sack)
    (hacks : ProcessesAcks cfg gapAcks) : ∃ s', s.processAcks cfg gapAcks sack = some s' ∧
      Processed cfg s.toSendVars s.sSendBuffer s'.toSendVars s'.sSendBuffer := by
  have hdequeued : Processed cfg s.toSendVars s.sSendBuffer (s.dequeued sack).toSendVars
      (s.dequeued sack).sSendBuffer := by
    refine ⟨?_, fun h n hn => h n (dequeued_subset hn)⟩
    rw [SendState.dequeued]
    split
    · have hquiet := dequeueUpTo_quiet (v := s.toSendVars) (l := s.sSendBuffer)
        sack.uiCumAck
      exact ⟨hquiet.arwnd, hquiet.wrapped, hquiet.lt⟩
    · exact Quiet.refl
  obtain ⟨s₁, hs₁, hprocessed⟩ := hacks (s.dequeued sack) (decide (sack.uiCumAck > s.uiCumAckPoint))
  rw [processAcks_eq, hs₁]
  exact ⟨_, rfl, (hdequeued.trans hprocessed).trans ⟨quiet_of_window rfl, id⟩⟩

/-! ## Events -/

namespace SendState

/-- The window is within what the peer has offered, and no subtraction has wrapped. -/
structure WithinWindow (s : SendState) : Prop where
  le : s.uiPeerRwnd ≤ s.uiArwnd
  wrapped : s.wrapped = false

/-- The state in which a SACK is processed. -/
def cleared (s : SendState) : SendState :=
  { s.mapDests fun x => { x with iNumNewlyAckedBytes := 0 } with sSendBuffer := s.sSendBuffer }

/-- What a SACK, or NR-SACK, does up to the retransmissions. -/
def acked (cfg : SendConfig) (s : SendState) (sack : Sack) : Option SendState :=
  s.cleared.processAcks cfg
    (if cfg.eUseNonRenegSacks then gapAcksOfNonRenegSack cfg sack else gapAcksOfSack cfg sack) sack

/-- What a timeout marks. -/
def markedByTimeout (cfg : SendConfig) (s : SendState) (spDest : ℕ) : SendState :=
  s.walk (timeoutNode cfg spDest)

end SendState

namespace SendEvent

/-- Chunks fit a packet, and windows 32 bits. -/
def Fits (cfg : SendConfig) : SendEvent → Prop
  | .send usLength _ _ _ => usLength ≤ cfg.uiMaxPayloadSize
  | .sack chunk _ => chunk.uiArwnd < 2 ^ 32
  | _ => True

/-- What is resent is in the window.  After a timeout, what is not resent of the credit is still
within what the peer has offered. -/
def KeepsWindow (cfg : SendConfig) (s : SendState) : SendEvent → Prop
  | .sack chunk rtxDest =>
    s.uiCumAckPoint ≤ chunk.uiCumAck → ∀ t, s.acked cfg chunk = some t →
      t.bytesAfterSack cfg rtxDest ≤ t.uiPeerRwnd
  | .timeout spDest _ =>
    let credited := (s.uiPeerRwnd + timedOutBytes spDest s.sSendBuffer) % 2 ^ 32
    let resent := (s.markedByTimeout cfg spDest).pendingBytes cfg
    resent ≤ credited ∧ credited ≤ s.uiArwnd + resent
  | _ => True

end SendEvent

/-- What holds in every state of a run. -/
structure Windowed (cfg : SendConfig) (s : SendState) : Prop where
  nodes : ∀ n ∈ s.sSendBuffer, NodeOk cfg n
  lt : s.uiPeerRwnd < 2 ^ 32

theorem toInt_le {i : ℤ} : Receiver.toInt i ≤ i := by
  rw [Receiver.toInt]
  split_ifs <;> omega

/-- A new chunk takes from the window at most what there is. -/
theorem GenOneDataChunk_within {usLength usStreamId iUnrelRtxLimit spNewTxDest : ℕ}
    (h : Windowed cfg s) (hwithin : s.WithinWindow) (hfits : usLength ≤ cfg.uiMaxPayloadSize) :
    Windowed cfg (s.GenOneDataChunk usLength usStreamId iUnrelRtxLimit spNewTxDest) ∧
      (s.GenOneDataChunk usLength usStreamId iUnrelRtxLimit spNewTxDest).WithinWindow := by
  obtain ⟨t, ht⟩ : ∃ t, t = s.GenOneDataChunk usLength usStreamId iUnrelRtxLimit spNewTxDest :=
    ⟨_, rfl⟩
  have hbuffer : t.sSendBuffer = s.sSendBuffer ++
      [newChunk (s.uiNextTsn + 1) usLength usStreamId iUnrelRtxLimit spNewTxDest] := by rw [ht]; rfl
  have hwindow : t.uiArwnd = s.uiArwnd ∧ t.uiPeerRwnd ≤ s.uiPeerRwnd ∧ t.wrapped = s.wrapped := by
    rw [ht, SendState.GenOneDataChunk]
    dsimp only
    split
    · rename_i hroom
      have hle : SendState.padded usLength ≤ s.uiPeerRwnd := Nat.cast_le.mp (hroom.trans toInt_le)
      have hcharged : Charged (SendState.padded usLength)
          ({ s.toSendVars with uiNextTsn := s.uiNextTsn + 1 }.addOutstanding spNewTxDest usLength) _ :=
        chargeRwnd_charged
      refine ⟨rfl, (hcharged.rwnd h.lt hle).trans_le (Nat.sub_le _ _), hcharged.wrapped.trans ?_⟩
      have hnot : ¬ s.uiPeerRwnd < SendState.padded usLength := by omega
      change (s.wrapped || decide (s.uiPeerRwnd < SendState.padded usLength)) = s.wrapped
      rw [decide_eq_false hnot, Bool.or_false]
    · exact ⟨rfl, Nat.zero_le _, rfl⟩
  obtain ⟨harwnd, hle, hwrapped⟩ := hwindow
  rw [← ht]
  refine ⟨⟨fun n hn => ?_, hle.trans_lt h.lt⟩, ?_, hwrapped.trans hwithin.wrapped⟩
  · rw [hbuffer, List.mem_append, List.mem_singleton] at hn
    rcases hn with hn | rfl
    · exact h.nodes n hn
    · exact ⟨hfits, fun hmarked => absurd rfl hmarked⟩
  · rw [harwnd]
    exact hle.trans hwithin.le

theorem TimeoutRtx_charged {spDest : ℕ} {rtxDest : SendBufferNode → ℕ} (h : Windowed cfg s)
    (hs' : s.TimeoutRtx cfg spDest rtxDest = some s') :
    Charged ((s.markedByTimeout cfg spDest).pendingBytes cfg)
      (s.markedByTimeout cfg spDest).toSendVars s'.toSendVars := by
  have hquiet : Quiet s.toSendVars (s.markedByTimeout cfg spDest).toSendVars :=
    quiet_walkList fun _ _ => timeoutNode_quiet
  have hnodes : ∀ n ∈ (s.markedByTimeout cfg spDest).sSendBuffer, NodeOk cfg n :=
    timeoutNode_keeps.walkList.nodes h.nodes
  have hrtx : (if (s.markedByTimeout cfg spDest).eMarkedChunksPending then
      (s.markedByTimeout cfg spDest).RtxMarkedChunks cfg .RTX_LIMIT_ONE_PACKET rtxDest
      else some (s.markedByTimeout cfg spDest)) = some s' := hs'
  rw [SendState.pendingBytes]
  split at hrtx
  · rename_i hpending
    rw [if_pos hpending]
    exact RtxMarkedChunks_charged hnodes (hquiet.lt h.lt) hrtx
  · rename_i hpending
    cases hrtx
    rw [if_neg hpending]
    exact charged_zero rfl rfl rfl

/-- A timeout. -/
theorem TimeoutRtx_within {spDest : ℕ} {rtxDest : SendBufferNode → ℕ} (h : Windowed cfg s)
    (hwithin : s.WithinWindow) : ∃ s', s.TimeoutRtx cfg spDest rtxDest = some s' ∧
      Windowed cfg s' ∧
      (s'.WithinWindow ↔ SendEvent.KeepsWindow cfg s (.timeout spDest rtxDest)) := by
  obtain ⟨s', hs', hresent⟩ := TimeoutRtx_resent spDest rtxDest h.nodes
  have hquiet : Quiet s.toSendVars (s.markedByTimeout cfg spDest).toSendVars :=
    quiet_walkList fun _ _ => timeoutNode_quiet
  have hcredit : (s.markedByTimeout cfg spDest).uiPeerRwnd =
      (s.uiPeerRwnd + timedOutBytes spDest s.sSendBuffer) % 2 ^ 32 := timeout_rwnd h.lt
  have hcharged := TimeoutRtx_charged h hs'
  refine ⟨s', hs', ⟨hresent.kept.nodes h.nodes, hcharged.lt (hquiet.lt h.lt)⟩, ?_⟩
  have hwrapped : s'.wrapped = decide ((s.markedByTimeout cfg spDest).uiPeerRwnd <
      (s.markedByTimeout cfg spDest).pendingBytes cfg) := by
    rw [hcharged.wrapped, hquiet.wrapped, hwithin.wrapped, Bool.false_or]
  have harwnd : s'.uiArwnd = s.uiArwnd := hcharged.arwnd.trans hquiet.arwnd
  simp only [SendEvent.KeepsWindow]
  rw [← hcredit]
  constructor
  · rintro ⟨hle, hfalse⟩
    have hge := of_decide_eq_false (hwrapped.symm.trans hfalse)
    have hrwnd := hcharged.rwnd (hquiet.lt h.lt) (by omega)
    omega
  · rintro ⟨hge, hle⟩
    have hrwnd := hcharged.rwnd (hquiet.lt h.lt) hge
    refine ⟨by omega, hwrapped.trans (decide_eq_false (by omega))⟩

theorem processSack_of_lt {gapAcks : SendState → Bool → Option SendState} {sack : Sack}
    {rtxDest : SendBufferNode → ℕ} (h : sack.uiCumAck < s.uiCumAckPoint) :
    s.processSack cfg gapAcks sack rtxDest = some s.cleared := if_pos h

theorem processSack_of_le {gapAcks : SendState → Bool → Option SendState} {sack : Sack}
    {rtxDest : SendBufferNode → ℕ} (h : ¬ sack.uiCumAck < s.uiCumAckPoint) :
    s.processSack cfg gapAcks sack rtxDest =
      (s.cleared.processAcks cfg gapAcks sack).bind fun t => (t.rtxAfterSack cfg rtxDest).map fun u =>
        { u with uiPeerRwnd := sack.uiArwnd - u.TotalOutstanding cfg, uiArwnd := sack.uiArwnd } :=
  if_neg h

/-- A SACK or an NR-SACK. -/
theorem sack_within {sack : Sack} {rtxDest : SendBufferNode → ℕ} (h : Windowed cfg s)
    (hwithin : s.WithinWindow) (harwnd : sack.uiArwnd < 2 ^ 32) :
    ∃ s', s.step cfg (.sack sack rtxDest) = some s' ∧ Windowed cfg s' ∧
      (s'.WithinWindow ↔ SendEvent.KeepsWindow cfg s (.sack sack rtxDest)) := by
  obtain ⟨gapAcks, hgapAcks⟩ : ∃ gapAcks, gapAcks = if cfg.eUseNonRenegSacks then
      SendState.gapAcksOfNonRenegSack cfg sack else SendState.gapAcksOfSack cfg sack := ⟨_, rfl⟩
  have hacks : ProcessesAcks cfg gapAcks := by
    rw [hgapAcks]
    split
    · exact gapAcksOfNonRenegSack_processes
    · exact gapAcksOfSack_processes
  have hstep : s.step cfg (.sack sack rtxDest) = s.processSack cfg gapAcks sack rtxDest := by
    rw [SendState.step, hgapAcks]
    split <;> rfl
  obtain ⟨t, ht, hprocessed⟩ := processAcks_processed (s := s.cleared) sack hacks
  have hacked : s.acked cfg sack = some t := by
    rw [SendState.acked, ← hgapAcks, ht]
  obtain ⟨s₂, hs₂, hresent⟩ := rtxAfterSack_resent rtxDest (hprocessed.nodes h.nodes)
  have hcharged := rtxAfterSack_charged (hprocessed.nodes h.nodes) (hprocessed.lt h.lt) hs₂
  by_cases hold : sack.uiCumAck < s.uiCumAckPoint
  · refine ⟨s.cleared, hstep.trans (processSack_of_lt hold), ⟨h.nodes, h.lt⟩, ?_⟩
    exact iff_of_true ⟨hwithin.le, hwithin.wrapped⟩ fun hle => absurd hold (not_lt.mpr hle)
  · rw [hstep, processSack_of_le hold, ht, Option.bind_some, hs₂]
    refine ⟨_, rfl, ⟨?_, ?_⟩, ?_⟩
    · exact hresent.kept.nodes (hprocessed.nodes h.nodes)
    · exact (Nat.sub_le _ _).trans_lt harwnd
    · have hwrapped : s₂.wrapped =
          decide (t.uiPeerRwnd < t.bytesAfterSack cfg rtxDest) := by
        rw [hcharged.wrapped, hprocessed.wrapped]
        exact (congrArg (· || _) hwithin.wrapped).trans (Bool.false_or _)
      constructor
      · rintro ⟨-, hfalse⟩ _ u hu
        obtain rfl : t = u := Option.some.inj (hacked.symm.trans hu)
        have := of_decide_eq_false (hwrapped.symm.trans hfalse)
        omega
      · intro hkeeps
        have hbytes := hkeeps (not_lt.mp hold) t hacked
        exact ⟨Nat.sub_le _ _, hwrapped.trans (decide_eq_false (by omega))⟩

/-- One event. -/
theorem step_within {e : SendEvent} (h : Windowed cfg s) (hwithin : s.WithinWindow)
    (he : e.Fits cfg) : ∃ s', s.step cfg e = some s' ∧ Windowed cfg s' ∧
      (s'.WithinWindow ↔ e.KeepsWindow cfg s) := by
  cases e with
  | send =>
    obtain ⟨hwindowed, hnew⟩ := GenOneDataChunk_within h hwithin he
    exact ⟨_, rfl, hwindowed, iff_of_true hnew trivial⟩
  | sack => exact sack_within h hwithin he
  | timeout => exact TimeoutRtx_within h hwithin
  | window => exact ⟨_, rfl, ⟨h.nodes, h.lt⟩, iff_of_true ⟨hwithin.le, hwithin.wrapped⟩ trivial⟩

theorem run_within_of_windowed {es : List SendEvent} (h : Windowed cfg s)
    (hwithin : s.WithinWindow) (hes : ∀ e ∈ es, e.Fits cfg) :
    (∀ es₁, es₁ <+: es → ∃ s', s.run cfg es₁ = some s' ∧ s'.WithinWindow) ↔
      SendState.AlongRun cfg (fun s e => e.KeepsWindow cfg s) s es := by
  induction es generalizing s with
  | nil =>
    refine iff_of_true (fun es₁ hes₁ => ?_) trivial
    rw [List.prefix_nil.mp hes₁]
    exact ⟨s, rfl, hwithin⟩
  | cons e es ih =>
    obtain ⟨he, hrest'⟩ := List.forall_mem_cons.mp hes
    obtain ⟨s₁, hs₁, hwindowed₁, hiff⟩ := step_within h hwithin he
    have hrun (es₁ : List SendEvent) : s.run cfg (e :: es₁) = s₁.run cfg es₁ := by
      rw [SendState.run, hs₁, Option.bind_some]
    constructor
    · intro hall
      have hwithin₁ : s₁.WithinWindow := by
        obtain ⟨s', hs', hw⟩ := hall [e] ⟨es, rfl⟩
        rw [hrun] at hs'
        obtain rfl : s₁ = s' := Option.some.inj hs'
        exact hw
      refine ⟨hiff.mp hwithin₁, fun s' hs' => ?_⟩
      obtain rfl : s₁ = s' := Option.some.inj (hs₁.symm.trans hs')
      refine (ih hwindowed₁ hwithin₁ hrest').mp fun es₁ hes₁ => ?_
      rw [← hrun]
      exact hall (e :: es₁) ((List.prefix_cons_inj e).mpr hes₁)
    · rintro ⟨hkeeps, hrest⟩ es₁ hes₁
      have hwithin₁ := hiff.mpr hkeeps
      cases es₁ with
      | nil => exact ⟨s, rfl, hwithin⟩
      | cons e' es₁ =>
        obtain ⟨rfl, htail⟩ := List.cons_prefix_cons.mp hes₁
        rw [hrun]
        exact (ih hwindowed₁ hwithin₁ hrest').mpr (hrest s₁ hs₁) es₁ htail

namespace SendState

/-- Two chunks are sent, and time out a number of times. -/
def timeouts (k : ℕ) : List SendEvent :=
  [.send 1000 0 0 0, .send 1000 0 0 0] ++ List.replicate k (.timeout 0 fun _ => 0)

theorem timeouts_fits {k : ℕ} : ∀ e ∈ timeouts k, e.Fits (oneDest false) := by
  intro e he
  simp only [timeouts, List.cons_append, List.nil_append, List.mem_cons, List.mem_replicate] at he
  have hfits : 1000 ≤ (oneDest false).uiMaxPayloadSize := by decide
  rcases he with rfl | rfl | ⟨-, rfl⟩
  · exact hfits
  · exact hfits
  · trivial

theorem within_withBuffer : (withBuffer []).WithinWindow := ⟨le_rfl, rfl⟩

end SendState

end Ns2.Sctp
