import Ns2.Sctp.GapAck

/-!
# Outstanding bytes

The bytes that `iOutstandingBytes` of a destination counts, over whole runs of a sender.

* `SendEvent`, `SendState.run` — new chunks, SACKs, timeouts, and changes of the windows elsewhere.
* `Accounted` — the counters are the lengths of the chunks that are neither gap acked nor advanced
  acked.
* `BufferOk` — what else holds of the send buffer: consecutive TSNs, marked chunks not acked.
* `run_accounted` — the counters are exact unless a SACK withdraws the gap ack of an abandoned
  chunk.
-/

namespace Ns2.Sctp

variable {cfg : SendConfig} {v v' : SendVars} {n : SendBufferNode} {l l' before : List SendBufferNode}
  {s s' : SendState} {B : List TsnBlock} {eNewCumAck : Bool} {d : ℕ}
  {f : SendVars → SendBufferNode → SendVars × SendBufferNode}

/-! ## Runs -/

/-- What happens to a sender. -/
inductive SendEvent where
  /-- `GenOneDataChunk`. -/
  | send (usLength usStreamId iUnrelRtxLimit spNewTxDest : ℕ)
  /-- `ProcessSackChunk`, or `ProcessNonRenegSackChunk` when the association uses NR-SACKs. -/
  | sack (sack : Sack) (rtxDest : SendBufferNode → ℕ)
  /-- `TimeoutRtx`. -/
  | timeout (spDest : ℕ) (rtxDest : SendBufferNode → ℕ)
  /-- The congestion variables of a destination are changed, as `Timeout`, `CwndDegradeTimerExpiration`
  and `SendMuch` do. -/
  | window (d : ℕ) (iCwnd iSsthresh iPartialBytesAcked : ℤ) (eApplyMaxBurst : Bool)

namespace SendState

/-- The congestion variables of a destination are changed. -/
def setWindow (s : SendState) (d : ℕ) (iCwnd iSsthresh iPartialBytesAcked : ℤ)
    (eApplyMaxBurst : Bool) : SendState :=
  { { s.toSendVars with eApplyMaxBurst := eApplyMaxBurst }.setDest d fun x =>
      { x with iCwnd := iCwnd, iSsthresh := iSsthresh, iPartialBytesAcked := iPartialBytesAcked } with
    sSendBuffer := s.sSendBuffer }

/-- One event. -/
def step (cfg : SendConfig) (s : SendState) : SendEvent → Option SendState
  | .send usLength usStreamId iUnrelRtxLimit spNewTxDest =>
    some (s.GenOneDataChunk usLength usStreamId iUnrelRtxLimit spNewTxDest)
  | .sack sack rtxDest =>
    if cfg.eUseNonRenegSacks then s.ProcessNonRenegSackChunk cfg sack rtxDest
    else s.ProcessSackChunk cfg sack rtxDest
  | .timeout spDest rtxDest => s.TimeoutRtx cfg spDest rtxDest
  | .window d iCwnd iSsthresh iPartialBytesAcked eApplyMaxBurst =>
    some (s.setWindow d iCwnd iSsthresh iPartialBytesAcked eApplyMaxBurst)

/-- A run.  `none` when a function does not return. -/
def run (cfg : SendConfig) : SendState → List SendEvent → Option SendState
  | s, [] => some s
  | s, e :: es => (s.step cfg e).bind fun s => run cfg s es

/-- A condition holds of each event of a run, in the state before it. -/
def AlongRun (cfg : SendConfig) (P : SendState → SendEvent → Prop) : SendState → List SendEvent → Prop
  | _, [] => True
  | s, e :: es => P s e ∧ ∀ s', s.step cfg e = some s' → AlongRun cfg P s' es

/-- An invariant of the steps of a run, which all return. -/
theorem run_invariant {P : SendState → SendEvent → Prop} {Inv : SendState → Prop}
    (hstep : ∀ s e, Inv s → P s e → ∃ s', s.step cfg e = some s' ∧ Inv s')
    {es : List SendEvent} (hinv : Inv s) (hes : AlongRun cfg P s es) :
    ∃ s', s.run cfg es = some s' ∧ Inv s' := by
  induction es generalizing s with
  | nil => exact ⟨s, rfl, hinv⟩
  | cons e es ih =>
    obtain ⟨hP, hrest⟩ := hes
    obtain ⟨s₁, hs₁, hinv₁⟩ := hstep s e hinv hP
    obtain ⟨s', hs', hinv'⟩ := ih hinv₁ (hrest s₁ hs₁)
    refine ⟨s', ?_, hinv'⟩
    rw [run, hs₁, Option.bind_some, hs']

theorem alongRun_append {P : SendState → SendEvent → Prop} {es es' : List SendEvent}
    (hes : AlongRun cfg P s es) (hes' : ∀ s', s.run cfg es = some s' → AlongRun cfg P s' es') :
    AlongRun cfg P s (es ++ es') := by
  induction es generalizing s with
  | nil => exact hes' s rfl
  | cons e es ih =>
    refine ⟨hes.1, fun s₁ hs₁ => ih (hes.2 s₁ hs₁) fun s' hs' => hes' s' ?_⟩
    rw [run, hs₁, Option.bind_some, hs']

theorem alongRun_and {P : SendEvent → Prop} {Q : SendState → SendEvent → Prop} {es : List SendEvent}
    (hP : ∀ e ∈ es, P e) (hQ : AlongRun cfg Q s es) :
    AlongRun cfg (fun s e => P e ∧ Q s e) s es := by
  induction es generalizing s with
  | nil => trivial
  | cons e es ih =>
    obtain ⟨he, hes⟩ := List.forall_mem_cons.mp hP
    exact ⟨⟨he, hQ.1⟩, fun s' hs' => ih hes (hQ.2 s' hs')⟩

end SendState

/-! ## The counters -/

/-- The sum of the weights of the nodes. -/
def total (w : SendBufferNode → ℤ) (l : List SendBufferNode) : ℤ := (l.map w).sum

/-- What a chunk adds to the outstanding bytes of a destination. -/
def SendBufferNode.outstanding (d : ℕ) (n : SendBufferNode) : ℤ :=
  if n.spDest = d ∧ n.eGapAcked = false ∧ n.eAdvancedAcked = false then n.usLength else 0

/-- The same, with marked chunks counted as not outstanding. -/
def SendBufferNode.unmarked (d : ℕ) (n : SendBufferNode) : ℤ :=
  if n.eMarkedForRtx = .NO_RTX then n.outstanding d else 0

/-- The counters are exact. -/
def SendState.Accounted (s : SendState) : Prop :=
  ∀ d, (s.dests d).iOutstandingBytes = total (SendBufferNode.outstanding d) s.sSendBuffer

/-- The outstanding bytes without those newly acked, which `ProcessSackChunk` takes off last. -/
def SendVars.net (v : SendVars) (d : ℕ) : ℤ :=
  (v.dests d).iOutstandingBytes - (v.dests d).iNumNewlyAckedBytes

@[simp] theorem total_nil {w : SendBufferNode → ℤ} : total w [] = 0 := rfl

@[simp] theorem total_cons {w : SendBufferNode → ℤ} : total w (n :: l) = w n + total w l := by
  simp [total]

@[simp] theorem total_append {w : SendBufferNode → ℤ} : total w (l ++ l') = total w l + total w l' := by
  simp [total]

theorem outstanding_nonneg : 0 ≤ n.outstanding d := by
  rw [SendBufferNode.outstanding]
  split_ifs <;> omega

theorem total_outstanding_nonneg : 0 ≤ total (SendBufferNode.outstanding d) l := by
  induction l with
  | nil => simp
  | cons n l ih =>
    have := outstanding_nonneg (n := n) (d := d)
    rw [total_cons]
    omega

/-- A value that changes with each node as its weight does changes with the whole buffer as the
sum of the weights. -/
theorem walkList_total {V : SendVars → ℤ} {w w' : SendBufferNode → ℤ}
    (h : ∀ n ∈ l, ∀ v, V (f v n).1 - V v = w' (f v n).2 - w n) :
    V (walkList f v l).1 - V v = total w' (walkList f v l).2 - total w l := by
  induction l generalizing v with
  | nil => simp [walkList]
  | cons n l ih =>
    have hn := h n List.mem_cons_self v
    have hl := ih (v := (f v n).1) fun m hm => h m (List.mem_cons_of_mem n hm)
    simp only [walkList, total_cons]
    omega

theorem walk_out {w w' : SendBufferNode → ℤ}
    (h : ∀ n ∈ s.sSendBuffer, ∀ v : SendVars,
      ((f v n).1.dests d).iOutstandingBytes - (v.dests d).iOutstandingBytes = w' (f v n).2 - w n) :
    ((s.walk f).dests d).iOutstandingBytes - (s.dests d).iOutstandingBytes =
      total w' (s.walk f).sSendBuffer - total w s.sSendBuffer :=
  walkList_total (V := fun v => (v.dests d).iOutstandingBytes) h

theorem walk_net (h : ∀ n ∈ s.sSendBuffer, ∀ v : SendVars,
      (f v n).1.net d - v.net d = (f v n).2.outstanding d - n.outstanding d) :
    (s.walk f).net d - s.net d = total (SendBufferNode.outstanding d) (s.walk f).sSendBuffer -
      total (SendBufferNode.outstanding d) s.sSendBuffer :=
  walkList_total (V := fun v => v.net d) h

/-! ## What a pass leaves alone -/

/-- A chunk fits a packet, and a marked chunk is not acked. -/
structure NodeOk (cfg : SendConfig) (n : SendBufferNode) : Prop where
  fits : n.usLength ≤ cfg.uiMaxPayloadSize
  marked : n.eMarkedForRtx ≠ .NO_RTX → n.eGapAcked = false ∧ n.eAdvancedAcked = false

/-- The TSNs, and what holds of each node, are kept. -/
structure Kept (cfg : SendConfig) (v : SendVars) (l : List SendBufferNode) (v' : SendVars)
    (l' : List SendBufferNode) : Prop where
  tsns : l'.map SendBufferNode.uiTsn = l.map SendBufferNode.uiTsn
  nextTsn : v'.uiNextTsn = v.uiNextTsn
  cumAck : v'.uiCumAckPoint = v.uiCumAckPoint
  nodes : (∀ n ∈ l, NodeOk cfg n) → ∀ n ∈ l', NodeOk cfg n

theorem Kept.refl : Kept cfg v l v l := ⟨rfl, rfl, rfl, id⟩

theorem Kept.trans {v'' : SendVars} {l'' : List SendBufferNode} (h : Kept cfg v l v' l')
    (h' : Kept cfg v' l' v'' l'') : Kept cfg v l v'' l'' where
  tsns := h'.tsns.trans h.tsns
  nextTsn := h'.nextTsn.trans h.nextTsn
  cumAck := h'.cumAck.trans h.cumAck
  nodes := fun hl => h'.nodes (h.nodes hl)

theorem Kept.cons {m : SendBufferNode} {v'' : SendVars} (h : Kept cfg v [n] v' [m])
    (h' : Kept cfg v' l v'' l') : Kept cfg v (n :: l) v'' (m :: l') where
  tsns := by
    have hn : m.uiTsn = n.uiTsn := by simpa using h.tsns
    simp [hn, h'.tsns]
  nextTsn := h'.nextTsn.trans h.nextTsn
  cumAck := h'.cumAck.trans h.cumAck
  nodes := by
    intro hl
    obtain ⟨hn, hl⟩ := List.forall_mem_cons.mp hl
    refine List.forall_mem_cons.mpr ⟨h.nodes (fun x hx => ?_) m (List.mem_singleton_self m), h'.nodes hl⟩
    rw [List.mem_singleton.mp hx]
    exact hn

/-- A body of a loop that keeps them. -/
def Keeps (cfg : SendConfig) (f : SendVars → SendBufferNode → SendVars × SendBufferNode) : Prop :=
  ∀ v n, Kept cfg v [n] (f v n).1 [(f v n).2]

theorem Keeps.walkList (h : Keeps cfg f) :
    Kept cfg v l (walkList f v l).1 (walkList f v l).2 := by
  induction l generalizing v with
  | nil => exact Kept.refl
  | cons n l ih => exact (h v n).cons ih

theorem Kept.node {m : SendBufferNode} (htsn : m.uiTsn = n.uiTsn)
    (hnext : v'.uiNextTsn = v.uiNextTsn) (hcum : v'.uiCumAckPoint = v.uiCumAckPoint)
    (hnode : NodeOk cfg n → NodeOk cfg m) : Kept cfg v [n] v' [m] where
  tsns := by simp [htsn]
  nextTsn := hnext
  cumAck := hcum
  nodes := by
    intro h x hx
    rw [List.mem_singleton.mp hx]
    exact hnode (h n (List.mem_singleton_self n))

theorem withdraw_keeps : Keeps cfg SendVars.withdraw := by
  intro v n
  rw [SendVars.withdraw]
  split
  · refine Kept.node rfl rfl rfl fun h => ⟨h.fits, fun hmarked => ⟨rfl, (h.marked hmarked).2⟩⟩
  · exact Kept.refl

theorem gapAck_keeps : Keeps cfg (SendVars.gapAck eNewCumAck) := by
  intro v n
  rw [SendVars.gapAck]
  split
  · refine Kept.node rfl ?_ ?_ fun h => ⟨h.fits, fun hmarked => absurd rfl hmarked⟩
    all_goals
      dsimp only
      split_ifs <;> rfl
  · exact Kept.refl

theorem plainMark_keeps : Keeps cfg (plainMark eNewCumAck B) := by
  intro v n
  rw [plainMark, SendVars.mark]
  split
  · exact gapAck_keeps v n
  · exact withdraw_keeps v n

theorem markChunkForRtx_kept {e : MarkedForRtx} (hgap : n.eGapAcked = false)
    (hadv : n.eAdvancedAcked = false) :
    Kept cfg v [n] (SendState.markChunkForRtx cfg e v n).1 [(SendState.markChunkForRtx cfg e v n).2] := by
  rw [SendState.markChunkForRtx]
  split
  · exact Kept.node rfl rfl rfl fun h => ⟨h.fits, fun hmarked => absurd rfl hmarked⟩
  · exact Kept.node rfl rfl rfl fun h => ⟨h.fits, fun _ => ⟨hgap, hadv⟩⟩

theorem timeoutNode_keeps {spDest : ℕ} : Keeps cfg (SendState.timeoutNode cfg spDest) := by
  intro v n
  rw [SendState.timeoutNode]
  split
  · rename_i h
    refine (markChunkForRtx_kept h.2.1 h.2.2).trans (Kept.node rfl rfl rfl fun h => ?_)
    exact ⟨h.fits, h.marked⟩
  · exact Kept.refl

theorem markFastRtx_kept (hgap : n.eGapAcked = false) (hadv : n.eAdvancedAcked = false) :
    Kept cfg v [n] { (SendState.markChunkForRtx cfg .FAST_RTX v n).1 with eFastRtxNeeded := true }
      [{ (SendState.markChunkForRtx cfg .FAST_RTX v n).2 with eIneligibleForFastRtx := true }] :=
  (markChunkForRtx_kept hgap hadv).trans (Kept.node rfl rfl rfl fun h => ⟨h.fits, h.marked⟩)

theorem missingReport_keeps {high : ℤ} : Keeps cfg (SendState.missingReport cfg eNewCumAck high) := by
  intro v n
  rw [SendState.missingReport]
  split
  · rename_i h
    have hcount : Kept cfg v [n] v [{ n with iNumMissingReports := n.iNumMissingReports + 1 }] :=
      Kept.node rfl rfl rfl fun h => ⟨h.fits, h.marked⟩
    dsimp only
    split
    · rename_i h'
      exact hcount.trans (markFastRtx_kept h.1 h'.2.2)
    · exact hcount
  · exact Kept.refl

theorem cutCwnd_keeps : Keeps cfg (SendState.cutCwnd cfg l) := by
  intro v n
  rw [SendState.cutCwnd]
  split
  · exact Kept.node rfl rfl rfl id
  · exact Kept.refl

theorem countMarked_keeps {sign : ℤ} : Keeps cfg (SendState.countMarked sign) := by
  intro v n
  rw [SendState.countMarked]
  split
  · exact Kept.node rfl rfl rfl id
  · exact Kept.refl

theorem resend_keeps {spRtxDest : ℕ} : Keeps cfg (SendState.resend spRtxDest) := fun _ _ =>
  Kept.node rfl rfl rfl fun h => ⟨h.fits, fun hmarked => absurd rfl hmarked⟩

/-! ## What a pass does to the counters -/

@[simp] theorem addOutstanding_out {k : ℤ} {i : ℕ} : ((v.addOutstanding i k).dests d).iOutstandingBytes =
    (v.dests d).iOutstandingBytes + if i = d then k else 0 := by
  by_cases h : i = d
  · subst h
    simp [SendVars.addOutstanding, SendVars.setDest]
  · simp [SendVars.addOutstanding, SendVars.setDest, Function.update_of_ne (Ne.symm h), h]

@[simp] theorem addOutstanding_newly {k : ℤ} {i : ℕ} :
    ((v.addOutstanding i k).dests d).iNumNewlyAckedBytes = (v.dests d).iNumNewlyAckedBytes := by
  by_cases h : i = d
  · subst h
    simp [SendVars.addOutstanding, SendVars.setDest]
  · simp [SendVars.addOutstanding, SendVars.setDest, Function.update_of_ne (Ne.symm h)]

theorem addOutstanding_net {k : ℤ} {i : ℕ} :
    (v.addOutstanding i k).net d - v.net d = if i = d then k else 0 := by
  rw [SendVars.net, SendVars.net, addOutstanding_out, addOutstanding_newly]
  omega

/-- A chunk that is not abandoned is outstanding again when its gap ack is withdrawn. -/
theorem withdraw_net (h : n.eGapAcked = true → n.eAdvancedAcked = false) :
    (v.withdraw n).1.net d - v.net d = (v.withdraw n).2.outstanding d - n.outstanding d := by
  rw [SendVars.withdraw]
  split
  · rename_i hgap
    rw [addOutstanding_net]
    simp [SendBufferNode.outstanding, hgap, h hgap]
  · simp

theorem setDest_net {i : ℕ} {g : Dest → Dest} :
    (v.setDest i g).net d = if d = i then
      (g (v.dests i)).iOutstandingBytes - (g (v.dests i)).iNumNewlyAckedBytes else v.net d := by
  split
  · rename_i h
    subst h
    simp [SendVars.net, SendVars.setDest]
  · rename_i h
    simp [SendVars.net, SendVars.setDest, Function.update_of_ne h]

theorem setDest_net_of_eq {i : ℕ} {g : Dest → Dest}
    (h : ∀ x, (g x).iOutstandingBytes - (g x).iNumNewlyAckedBytes =
      x.iOutstandingBytes - x.iNumNewlyAckedBytes) : (v.setDest i g).net d = v.net d := by
  rw [setDest_net]
  split
  · rename_i hd
    rw [hd]
    exact h _
  · rfl

/-- A chunk that is gap acked is newly acked, unless it was abandoned. -/
theorem gapAck_net : (v.gapAck eNewCumAck n).1.net d - v.net d =
    (v.gapAck eNewCumAck n).2.outstanding d - n.outstanding d := by
  by_cases hgap : n.eGapAcked = false
  · have hafter : (v.gapAck eNewCumAck n).2.outstanding d = 0 := by
      simp [SendVars.gapAck, hgap, SendBufferNode.outstanding]
    have hnet : (v.gapAck eNewCumAck n).1.net d = v.net d - n.outstanding d := by
      rw [SendVars.gapAck, if_pos hgap]
      dsimp only
      have hfrac (u : SendVars) (p : Prop) [Decidable p] : (if p then u.setDest n.spDest fun x =>
          { x with iPartialBytesAcked := x.iPartialBytesAcked + n.usLength } else u).net d =
          u.net d := by
        split
        · exact setDest_net_of_eq fun _ => rfl
        · rfl
      rw [hfrac, SendBufferNode.outstanding]
      by_cases hadv : n.eAdvancedAcked = false
      · rw [if_pos hadv, setDest_net]
        by_cases hd : d = n.spDest
        · subst hd
          simp [hgap, hadv, SendVars.net]
          omega
        · rw [if_neg hd, if_neg fun h => hd h.1.symm]
          simp [SendVars.net]
      · rw [if_neg hadv, if_neg fun h => hadv h.2.2]
        simp [SendVars.net]
    omega
  · rw [SendVars.gapAck, if_neg hgap]
    simp

theorem mark_net {reported : Bool}
    (h : reported = false → n.eGapAcked = true → n.eAdvancedAcked = false) :
    (v.mark eNewCumAck reported n).1.net d - v.net d =
      (v.mark eNewCumAck reported n).2.outstanding d - n.outstanding d := by
  cases reported with
  | true => exact gapAck_net
  | false => exact withdraw_net (h rfl)

variable (cfg) in
/-- A chunk is marked, and stays outstanding, or abandoned. -/
theorem markChunkForRtx_out {e : MarkedForRtx} (hgap : n.eGapAcked = false)
    (hadv : n.eAdvancedAcked = false) :
    ((SendState.markChunkForRtx cfg e v n).1.dests d).iOutstandingBytes -
        (v.dests d).iOutstandingBytes =
      (SendState.markChunkForRtx cfg e v n).2.outstanding d - n.outstanding d := by
  rw [SendState.markChunkForRtx]
  split
  · simp only [addOutstanding_out, SendBufferNode.outstanding, hgap, hadv, SendVars.creditRwnd]
    by_cases hd : n.spDest = d <;> simp [hd]
  · simp [SendBufferNode.outstanding, SendVars.creditRwnd]

variable (cfg) in
theorem markChunkForRtx_newly {e : MarkedForRtx} :
    ((SendState.markChunkForRtx cfg e v n).1.dests d).iNumNewlyAckedBytes =
      (v.dests d).iNumNewlyAckedBytes := by
  rw [SendState.markChunkForRtx]
  split
  · rw [addOutstanding_newly]
    rfl
  · rfl

theorem timeoutNode_out {spDest : ℕ} :
    ((SendState.timeoutNode cfg spDest v n).1.dests d).iOutstandingBytes -
        (v.dests d).iOutstandingBytes =
      (SendState.timeoutNode cfg spDest v n).2.outstanding d - n.outstanding d := by
  rw [SendState.timeoutNode]
  split
  · rename_i h
    exact markChunkForRtx_out cfg h.2.1 h.2.2
  · simp

theorem missingReport_net {high : ℤ} : (SendState.missingReport cfg eNewCumAck high v n).1.net d -
      v.net d =
    (SendState.missingReport cfg eNewCumAck high v n).2.outstanding d - n.outstanding d := by
  rw [SendState.missingReport]
  split
  · rename_i h
    dsimp only
    split
    · rename_i h'
      have hout := markChunkForRtx_out cfg (v := v) (d := d) (e := .FAST_RTX)
        (n := { n with iNumMissingReports := n.iNumMissingReports + 1 }) h.1 h'.2.2
      have hnewly := markChunkForRtx_newly cfg (v := v) (d := d) (e := .FAST_RTX)
        (n := { n with iNumMissingReports := n.iNumMissingReports + 1 })
      simp only [SendVars.net, SendBufferNode.outstanding] at *
      omega
    · simp [SendBufferNode.outstanding]
  · simp

theorem cutCwnd_out : ((SendState.cutCwnd cfg l v n).1.dests d).iOutstandingBytes -
      (v.dests d).iOutstandingBytes =
    (SendState.cutCwnd cfg l v n).2.outstanding d - n.outstanding d := by
  rw [SendState.cutCwnd]
  split
  · by_cases hd : d = n.spDest
    · subst hd
      simp [SendVars.setDest]
    · simp [SendVars.setDest, Function.update_of_ne hd]
  · simp

/-! ## The send buffer of a sender -/

/-- The buffer holds consecutive TSNs up to `uiNextTsn`, and none is missing above
`uiCumAckPoint`. -/
structure BufferOk (cfg : SendConfig) (s : SendState) : Prop where
  nodes : ∀ n ∈ s.sSendBuffer, NodeOk cfg n
  first : s.uiNextTsn - s.sSendBuffer.length ≤ s.uiCumAckPoint
  tsns : Consecutive (s.uiNextTsn - s.sSendBuffer.length + 1) s.sSendBuffer

theorem consecutive_congr {t : ℤ} (h : l'.map SendBufferNode.uiTsn = l.map SendBufferNode.uiTsn)
    (hl : Consecutive t l) : Consecutive t l' := by
  induction l generalizing t l' with
  | nil =>
    rw [List.map_nil, List.map_eq_nil_iff] at h
    rw [h]
    trivial
  | cons n l ih =>
    obtain ⟨m, l', rfl, hm, hrest⟩ := List.map_eq_cons_iff.mp h
    exact ⟨hm.trans hl.1, ih hrest hl.2⟩

/-- What keeps the TSNs and the nodes keeps the buffer. -/
theorem BufferOk.kept (h : BufferOk cfg s)
    (hk : Kept cfg s.toSendVars s.sSendBuffer s'.toSendVars s'.sSendBuffer) : BufferOk cfg s' := by
  have hlength : s'.sSendBuffer.length = s.sSendBuffer.length := by
    simpa using congrArg List.length hk.tsns
  refine ⟨hk.nodes h.nodes, ?_, ?_⟩
  · rw [hlength, hk.nextTsn, hk.cumAck]
    exact h.first
  · rw [hlength, hk.nextTsn]
    exact consecutive_congr hk.tsns h.tsns

theorem BufferOk.walk (h : BufferOk cfg s) (hf : Keeps cfg f) : BufferOk cfg (s.walk f) :=
  h.kept hf.walkList

/-! ## Retransmission -/

/-- A counter changes as the chunks do that are not marked. -/
def Balanced (v : SendVars) (l : List SendBufferNode) (v' : SendVars) (l' : List SendBufferNode) :
    Prop :=
  ∀ d, (v'.dests d).iOutstandingBytes - (v.dests d).iOutstandingBytes =
    total (SendBufferNode.unmarked d) l' - total (SendBufferNode.unmarked d) l

theorem Balanced.trans {v'' : SendVars} {l'' : List SendBufferNode} (h : Balanced v l v' l')
    (h' : Balanced v' l' v'' l'') : Balanced v l v'' l'' := fun d => by
  have := h d
  have := h' d
  omega

/-- A marked chunk is outstanding again, on the destination that it is sent to. -/
theorem resend_balanced (spRtxDest : ℕ) (hn : NodeOk cfg n) (hmarked : n.eMarkedForRtx ≠ .NO_RTX) :
    Balanced v [n] (SendState.resend spRtxDest v n).1 [(SendState.resend spRtxDest v n).2] := by
  intro d
  obtain ⟨hgap, hadv⟩ := hn.marked hmarked
  have hout : ((SendState.resend spRtxDest v n).1.dests d).iOutstandingBytes =
      (v.dests d).iOutstandingBytes + if spRtxDest = d then (n.usLength : ℤ) else 0 :=
    addOutstanding_out
  rw [hout]
  simp [SendBufferNode.unmarked, SendBufferNode.outstanding, SendState.resend, hmarked, hgap, hadv]

/-- The loop that fills a packet. -/
theorem fillPacket_spec (spRtxDest iOutDataSize : ℕ) (hl : ∀ n ∈ l, NodeOk cfg n) :
    let packet := SendState.fillPacket cfg spRtxDest v iOutDataSize l
    Kept cfg v l packet.1 (packet.2.2.1 ++ packet.2.2.2) ∧
      Balanced v l packet.1 (packet.2.2.1 ++ packet.2.2.2) := by
  induction l generalizing v iOutDataSize with
  | nil => exact ⟨Kept.refl, fun _ => by simp [SendState.fillPacket]⟩
  | cons n l ih =>
    obtain ⟨hn, hl⟩ := List.forall_mem_cons.mp hl
    rw [SendState.fillPacket]
    by_cases hmarked : n.eMarkedForRtx ≠ .NO_RTX
    · rw [if_pos hmarked]
      split
      · exact ⟨Kept.refl, fun _ => by simp⟩
      · obtain ⟨hkept, hbalanced⟩ := ih (v := (SendState.resend spRtxDest v n).1)
          (iOutDataSize + SendState.padded n.usLength) hl
        refine ⟨(resend_keeps v n).cons hkept, fun d => ?_⟩
        have hone := resend_balanced (v := v) spRtxDest hn hmarked d
        have hrest := hbalanced d
        simp only [List.cons_append, total_cons, total_nil] at *
        omega
    · rw [if_neg hmarked]
      obtain ⟨hkept, hbalanced⟩ := ih (v := v) iOutDataSize hl
      refine ⟨Kept.cons Kept.refl hkept, fun d => ?_⟩
      have hrest := hbalanced d
      simp only [List.cons_append, total_cons] at *
      omega

theorem fillPacket_left {spRtxDest iOutDataSize : ℕ} :
    (SendState.fillPacket cfg spRtxDest v iOutDataSize l).2.2.2.length ≤ l.length := by
  induction l generalizing v iOutDataSize with
  | nil => simp [SendState.fillPacket]
  | cons n l ih =>
    rw [SendState.fillPacket]
    split
    · split
      · exact le_rfl
      · exact ih.trans (by simp)
    · exact ih.trans (by simp)

/-- A packet takes at least one chunk, since each fits. -/
theorem fillPacket_progress (spRtxDest : ℕ) (hn : NodeOk cfg n) :
    (SendState.fillPacket cfg spRtxDest v 0 (n :: l)).2.2.2.length < (n :: l).length := by
  have hlt {k : ℕ} (h : k ≤ l.length) : k < (n :: l).length := by
    rw [List.length_cons]
    omega
  rw [SendState.fillPacket]
  split
  · rw [if_neg (by have := hn.fits; omega)]
    exact hlt fillPacket_left
  · exact hlt fillPacket_left

theorem Kept.append (h : Kept cfg v l v' l') : Kept cfg v (before ++ l) v' (before ++ l') := by
  induction before with
  | nil => exact h
  | cons n before ih => exact Kept.refl.cons ih

theorem Balanced.append (h : Balanced v l v' l') : Balanced v (before ++ l) v' (before ++ l') := by
  intro d
  have := h d
  simp only [total_append]
  omega

/-- The loop over the packets ends, and the counters change as the chunks do. -/
theorem rtxLoop_spec {eLimit : SendState.RtxLimit}
    {spRtxDest rounds iNumPacketsSent uiBurstLength : ℕ} (hl : ∀ n ∈ l, NodeOk cfg n)
    (hrounds : l.length < rounds) :
    ∃ v' l', SendState.rtxLoop cfg eLimit spRtxDest rounds v before l iNumPacketsSent uiBurstLength =
        some (v', l') ∧ Kept cfg v (before ++ l) v' l' ∧ Balanced v (before ++ l) v' l' := by
  induction rounds generalizing v before l iNumPacketsSent uiBurstLength with
  | zero => omega
  | succ rounds ih =>
    rw [SendState.rtxLoop]
    split
    · rename_i hcond
      have hne : l ≠ [] := hcond.elim (fun h => h.2.2) fun h => h.2.2
      obtain ⟨n, l, rfl⟩ := List.exists_cons_of_ne_nil hne
      have hleft := fillPacket_progress (v := v) (l := l) spRtxDest
        (hl n List.mem_cons_self)
      obtain ⟨hkept, hbalanced⟩ := fillPacket_spec (v := v) spRtxDest 0 hl
      generalize SendState.fillPacket cfg spRtxDest v 0 (n :: l) = packet at *
      have hnodes : ∀ m ∈ packet.2.2.2, NodeOk cfg m := fun m hm =>
        hkept.nodes hl m (List.mem_append_right _ hm)
      have happ : before ++ packet.2.2.1 ++ packet.2.2.2 =
          before ++ (packet.2.2.1 ++ packet.2.2.2) := List.append_assoc _ _ _
      have hnext (i k : ℕ) : ∃ v' l', SendState.rtxLoop cfg eLimit spRtxDest rounds packet.1
          (before ++ packet.2.2.1) packet.2.2.2 i k = some (v', l') ∧
          Kept cfg v (before ++ n :: l) v' l' ∧ Balanced v (before ++ n :: l) v' l' := by
        obtain ⟨v', l', hloop, hk, hb⟩ :=
          @ih packet.1 packet.2.2.2 (before ++ packet.2.2.1) i k hnodes (by omega)
        rw [happ] at hk hb
        exact ⟨v', l', hloop, hkept.append.trans hk, hbalanced.append.trans hb⟩
      dsimp only
      split
      · split
        · split
          · refine ⟨_, _, rfl, ?_, ?_⟩
            · rw [happ]
              exact hkept.append.trans ⟨rfl, rfl, rfl, id⟩
            · rw [happ]
              exact hbalanced.append
          · exact hnext _ _
        · exact hnext _ _
      · exact hnext _ _
    · exact ⟨v, before ++ l, rfl, Kept.refl, fun d => by simp⟩

/-- The marked chunks are not counted any more. -/
theorem countMarked_neg (hn : NodeOk cfg n) :
    ((SendState.countMarked (-1) v n).1.dests d).iOutstandingBytes - (v.dests d).iOutstandingBytes =
      (SendState.countMarked (-1) v n).2.unmarked d - n.outstanding d := by
  rw [SendState.countMarked]
  split
  · rename_i hmarked
    obtain ⟨hgap, hadv⟩ := hn.marked hmarked
    simp only [addOutstanding_out, SendBufferNode.unmarked, SendBufferNode.outstanding, hgap, hadv,
      if_neg hmarked]
    split_ifs <;> simp_all
  · rename_i hmarked
    simp [SendBufferNode.unmarked, not_not.mp hmarked]

/-- The marked chunks are counted again. -/
theorem countMarked_pos (hn : NodeOk cfg n) :
    ((SendState.countMarked 1 v n).1.dests d).iOutstandingBytes - (v.dests d).iOutstandingBytes =
      (SendState.countMarked 1 v n).2.outstanding d - n.unmarked d := by
  rw [SendState.countMarked]
  split
  · rename_i hmarked
    obtain ⟨hgap, hadv⟩ := hn.marked hmarked
    simp only [addOutstanding_out, SendBufferNode.unmarked, SendBufferNode.outstanding, hgap, hadv,
      if_neg hmarked]
    split_ifs <;> simp_all
  · rename_i hmarked
    simp [SendBufferNode.unmarked, not_not.mp hmarked]

/-- The chunks are kept, and the counters change as they do. -/
structure Resent (cfg : SendConfig) (s s' : SendState) : Prop where
  kept : Kept cfg s.toSendVars s.sSendBuffer s'.toSendVars s'.sSendBuffer
  balanced : ∀ d, (s'.dests d).iOutstandingBytes - (s.dests d).iOutstandingBytes =
    total (SendBufferNode.outstanding d) s'.sSendBuffer -
      total (SendBufferNode.outstanding d) s.sSendBuffer

theorem Resent.trans {s'' : SendState} (h : Resent cfg s s') (h' : Resent cfg s' s'') :
    Resent cfg s s'' :=
  ⟨h.kept.trans h'.kept, fun d => by
    have := h.balanced d
    have := h'.balanced d
    omega⟩

theorem Resent.same (hbuffer : s'.sSendBuffer = s.sSendBuffer)
    (hout : ∀ d, (s'.dests d).iOutstandingBytes = (s.dests d).iOutstandingBytes)
    (hnext : s'.uiNextTsn = s.uiNextTsn) (hcum : s'.uiCumAckPoint = s.uiCumAckPoint) :
    Resent cfg s s' := by
  refine ⟨⟨by rw [hbuffer], hnext, hcum, fun h => by rwa [hbuffer]⟩, fun d => ?_⟩
  rw [hbuffer, hout]
  omega

theorem resent_walk (hf : Keeps cfg f) (hout : ∀ d v n,
      ((f v n).1.dests d).iOutstandingBytes - (v.dests d).iOutstandingBytes =
        (f v n).2.outstanding d - n.outstanding d) : Resent cfg s (s.walk f) :=
  ⟨hf.walkList, fun d => walk_out fun n _ v => hout d v n⟩

/-- `RtxMarkedChunks` returns. -/
theorem RtxMarkedChunks_resent (eLimit : SendState.RtxLimit) (rtxDest : SendBufferNode → ℕ)
    (hnodes : ∀ n ∈ s.sSendBuffer, NodeOk cfg n) :
    ∃ s', s.RtxMarkedChunks cfg eLimit rtxDest = some s' ∧ Resent cfg s s' := by
  rw [SendState.RtxMarkedChunks]
  split
  · exact ⟨_, rfl, Resent.same rfl (fun _ => rfl) rfl rfl⟩
  · rename_i first hfirst
    dsimp only
    have hneg : Kept cfg s.toSendVars s.sSendBuffer
        (s.walk (SendState.countMarked (-1))).toSendVars
        (s.walk (SendState.countMarked (-1))).sSendBuffer := countMarked_keeps.walkList
    have hrounds := Nat.lt_succ_self (s.walk (SendState.countMarked (-1))).sSendBuffer.length
    obtain ⟨v', l', hloop, hkept, hbalanced⟩ :
        ∃ v' l', SendState.rtxLoop cfg eLimit (rtxDest first) _ _ [] _ 0 0 = some (v', l') ∧
          Kept cfg _ ([] ++ _) v' l' ∧ Balanced _ ([] ++ _) v' l' :=
      rtxLoop_spec (hneg.nodes hnodes) hrounds
    rw [List.nil_append] at hkept
    have hnodes' : ∀ n ∈ l', NodeOk cfg n := (hneg.trans hkept).nodes hnodes
    have hpos : Kept cfg v' l' (walkList (SendState.countMarked 1) v' l').1
        (walkList (SendState.countMarked 1) v' l').2 := countMarked_keeps.walkList
    rw [hloop]
    refine ⟨_, rfl, (hneg.trans hkept).trans ⟨hpos.tsns, hpos.nextTsn, hpos.cumAck, hpos.nodes⟩,
      fun d => ?_⟩
    have hoff := walk_out (s := s) (d := d) (f := SendState.countMarked (-1)) fun n hn v =>
      countMarked_neg (d := d) (hnodes n hn)
    have hon := walk_out (s := { v' with sSendBuffer := l' }) (d := d) (f := SendState.countMarked 1)
      fun n hn v => countMarked_pos (d := d) (hnodes' n hn)
    have hmoved := hbalanced d
    simp only [List.nil_append] at hmoved
    simp only at hon ⊢
    omega

/-- `FastRtx` returns. -/
theorem FastRtx_resent {rtxDest : SendBufferNode → ℕ}
    (hnodes : ∀ n ∈ s.sSendBuffer, NodeOk cfg n) :
    ∃ s', s.FastRtx cfg rtxDest = some s' ∧ Resent cfg s s' := by
  have hclear : Resent cfg s { s.mapDests fun x => { x with eCcApplied := false } with
      sSendBuffer := s.sSendBuffer } := Resent.same rfl (fun _ => rfl) rfl rfl
  have hcut := hclear.trans (resent_walk (f := SendState.cutCwnd cfg s.sSendBuffer) cutCwnd_keeps
    fun d v n => cutCwnd_out)
  rw [SendState.FastRtx]
  dsimp only
  split
  · obtain ⟨s', hs', hrtx⟩ := RtxMarkedChunks_resent .RTX_LIMIT_ONE_PACKET rtxDest
      (hcut.kept.nodes hnodes)
    exact ⟨s', hs', hcut.trans hrtx⟩
  · exact ⟨_, rfl, hcut⟩

/-- The retransmissions after a SACK return. -/
theorem rtxAfterSack_resent (rtxDest : SendBufferNode → ℕ)
    (hnodes : ∀ n ∈ s.sSendBuffer, NodeOk cfg n) :
    ∃ s', s.rtxAfterSack cfg rtxDest = some s' ∧ Resent cfg s s' := by
  rw [SendState.rtxAfterSack]
  split
  · exact FastRtx_resent hnodes
  · split
    · have hpending : Resent cfg s { s with eMarkedChunksPending := true } :=
        Resent.same rfl (fun _ => rfl) rfl rfl
      obtain ⟨s', hs', hrtx⟩ := RtxMarkedChunks_resent
        (s := { s with eMarkedChunksPending := true }) .RTX_LIMIT_CWND rtxDest hnodes
      exact ⟨s', hs', hpending.trans hrtx⟩
    · exact ⟨_, rfl, Resent.same rfl (fun _ => rfl) rfl rfl⟩

/-- `TimeoutRtx` returns. -/
theorem TimeoutRtx_resent (spDest : ℕ) (rtxDest : SendBufferNode → ℕ)
    (hnodes : ∀ n ∈ s.sSendBuffer, NodeOk cfg n) :
    ∃ s', s.TimeoutRtx cfg spDest rtxDest = some s' ∧ Resent cfg s s' := by
  have hmark : Resent cfg s (s.walk (SendState.timeoutNode cfg spDest)) :=
    resent_walk timeoutNode_keeps fun d v n => timeoutNode_out
  rw [SendState.TimeoutRtx]
  split
  · obtain ⟨s', hs', hrtx⟩ := RtxMarkedChunks_resent .RTX_LIMIT_ONE_PACKET rtxDest
      (hmark.kept.nodes hnodes)
    exact ⟨s', hs', hmark.trans hrtx⟩
  · exact ⟨_, rfl, hmark⟩

/-- What a run keeps. -/
structure Tracked (cfg : SendConfig) (s : SendState) : Prop extends BufferOk cfg s where
  accounted : s.Accounted

theorem Tracked.resent (h : Tracked cfg s) (hr : Resent cfg s s') : Tracked cfg s' :=
  ⟨h.toBufferOk.kept hr.kept, fun d => by
    have := h.accounted d
    have := hr.balanced d
    omega⟩

/-! ## Acknowledgments -/

theorem dequeueNode_net : (v.dequeueNode n).net d = v.net d - n.outstanding d := by
  have hburst (u : SendVars) (p : Prop) [Decidable p] :
      (if p then { u with eApplyMaxBurst := true } else u).net d = u.net d := by
    split <;> rfl
  rw [SendVars.dequeueNode, hburst, SendBufferNode.outstanding]
  by_cases hacked : n.eGapAcked = false ∧ n.eAdvancedAcked = false
  · rw [if_pos hacked, setDest_net]
    by_cases hd : d = n.spDest
    · subst hd
      simp [hacked, SendVars.net]
      omega
    · rw [if_neg hd, if_neg fun h => hd h.1.symm]
      simp [SendVars.net]
  · rw [if_neg hacked, if_neg fun h => hacked h.2]
    simp

theorem dequeueNode_nextTsn : (v.dequeueNode n).uiNextTsn = v.uiNextTsn := by
  rw [SendVars.dequeueNode]
  split_ifs <;> rfl

/-- What `SendBufferDequeueUpTo` takes off is newly acked. -/
theorem dequeueUpTo_net (uiTsn : ℤ) : (SendVars.dequeueUpTo uiTsn v l).1.net d - v.net d =
    total (SendBufferNode.outstanding d) (SendVars.dequeueUpTo uiTsn v l).2 -
      total (SendBufferNode.outstanding d) l := by
  induction l generalizing v with
  | nil => simp [SendVars.dequeueUpTo]
  | cons n l ih =>
    rw [SendVars.dequeueUpTo]
    split
    · have hrest := ih (v := v.dequeueNode n)
      rw [dequeueNode_net] at hrest
      rw [total_cons]
      omega
    · simp

theorem dequeueUpTo_nextTsn {uiTsn : ℤ} :
    (SendVars.dequeueUpTo uiTsn v l).1.uiNextTsn = v.uiNextTsn := by
  induction l generalizing v with
  | nil => rfl
  | cons n l ih =>
    rw [SendVars.dequeueUpTo]
    split
    · rw [ih, dequeueNode_nextTsn]
    · rfl

theorem dequeueUpTo_subset {uiTsn : ℤ} : (SendVars.dequeueUpTo uiTsn v l).2 ⊆ l := by
  induction l generalizing v with
  | nil => exact List.Subset.refl []
  | cons n l ih =>
    rw [SendVars.dequeueUpTo]
    split
    · exact List.subset_cons_of_subset n ih
    · exact List.Subset.refl _

theorem dequeueUpTo_gt {uiTsn t : ℤ} (hl : Consecutive t l) :
    ∀ n ∈ (SendVars.dequeueUpTo uiTsn v l).2, uiTsn < n.uiTsn := by
  induction l generalizing v t with
  | nil => simp [SendVars.dequeueUpTo]
  | cons n l ih =>
    rw [SendVars.dequeueUpTo]
    split
    · exact ih hl.2
    · intro m hm
      have := hl.le m hm
      have := hl.1
      omega

/-- The chunks that are left are consecutive, and none is missing above the cumulative ack. -/
theorem dequeueUpTo_consecutive {uiTsn next : ℤ} (hl : Consecutive (next - l.length + 1) l)
    (hfirst : next - l.length ≤ uiTsn) :
    next - (SendVars.dequeueUpTo uiTsn v l).2.length ≤ uiTsn ∧
      Consecutive (next - (SendVars.dequeueUpTo uiTsn v l).2.length + 1)
        (SendVars.dequeueUpTo uiTsn v l).2 := by
  induction l generalizing v with
  | nil => exact ⟨hfirst, trivial⟩
  | cons n l ih =>
    rw [SendVars.dequeueUpTo]
    split
    · obtain ⟨hn, hl⟩ := hl
      simp only [List.length_cons, Nat.cast_add, Nat.cast_one] at hn hl hfirst
      refine ih ?_ (by omega)
      rwa [show next - (l.length : ℤ) + 1 = next - (l.length + 1) + 1 + 1 by omega]
    · exact ⟨hfirst, hl⟩

/-- The newly acked bytes are taken off. -/
theorem settleDest_out {x : Dest} {adjust : Bool}
    (h : 0 ≤ x.iOutstandingBytes - x.iNumNewlyAckedBytes) :
    (SendState.settleDest cfg adjust x).iOutstandingBytes =
      x.iOutstandingBytes - x.iNumNewlyAckedBytes := by
  have hadjust : (SendState.AdjustCwnd cfg x).iOutstandingBytes = x.iOutstandingBytes ∧
      (SendState.AdjustCwnd cfg x).iNumNewlyAckedBytes = x.iNumNewlyAckedBytes := by
    rw [SendState.AdjustCwnd]
    split_ifs <;> exact ⟨rfl, rfl⟩
  have hsettle (y : Dest) (hout : y.iOutstandingBytes = x.iOutstandingBytes)
      (hnewly : y.iNumNewlyAckedBytes = x.iNumNewlyAckedBytes) :
      (let z : Dest := { y with
          iOutstandingBytes :=
            if y.iNumNewlyAckedBytes ≤ y.iOutstandingBytes then
              y.iOutstandingBytes - y.iNumNewlyAckedBytes
            else 0 }
        if z.iOutstandingBytes = 0 then { z with iPartialBytesAcked := 0 } else z).iOutstandingBytes =
        x.iOutstandingBytes - x.iNumNewlyAckedBytes := by
    have hle : y.iNumNewlyAckedBytes ≤ y.iOutstandingBytes := by omega
    simp only [if_pos hle]
    split <;> simp only [hout, hnewly]
  rw [SendState.settleDest]
  by_cases hcond : adjust = true ∧ x.iNumNewlyAckedBytes > 0
  · rw [if_pos hcond]
    exact hsettle _ hadjust.1 hadjust.2
  · rw [if_neg hcond]
    exact hsettle x rfl rfl

/-- The chunks are right but for those newly acked. -/
structure Settling (cfg : SendConfig) (s : SendState) : Prop extends BufferOk cfg s where
  net : ∀ d, s.net d = total (SendBufferNode.outstanding d) s.sSendBuffer

/-- The blocks of a SACK are sorted and disjoint, and not below its cumulative ack. -/
structure Sack.WellFormed (sack : Sack) : Prop where
  blocks : Disjointed sack.gapAckBlocks
  offsets : ∀ b ∈ sack.gapAckBlocks, sack.uiCumAck ≤ b.uiStartTsn

/-- The gap ack of no abandoned chunk is withdrawn: each that the cumulative ack does not take off
is in a block of the SACK (and not right behind another block). -/
def Sack.CoversAbandoned (sack : Sack) (s : SendState) : Prop :=
  ∀ n ∈ s.sSendBuffer, (s.uiCumAckPoint < sack.uiCumAck → sack.uiCumAck < n.uiTsn) →
    n.eGapAcked = true → n.eAdvancedAcked = true →
      n.uiTsn ∈ tsns sack.gapAckBlocks ∧ ∀ b ∈ sack.gapAckBlocks, b.uiEndTsn + 1 ≠ n.uiTsn

/-- The marking loops for a SACK are one pass over the buffer. -/
theorem markGapAcked_plain {sack : Sack} (hcfg : cfg.eUseNonRenegSacks = false)
    (hs : BufferOk cfg s) (hsack : sack.WellFormed) (hcum : s.uiCumAckPoint = sack.uiCumAck) :
    s.markGapAcked cfg sack eNewCumAck = some (s.walk (plainMark eNewCumAck sack.gapAckBlocks)) := by
  have hreads : Reads cfg (Cursor.init cfg sack) sack.gapAckBlocks := by
    rw [Cursor.init, hcfg]
    exact reads_gaps
  have hends : ∀ b ∈ sack.gapAckBlocks,
      s.uiNextTsn - s.sSendBuffer.length + 1 ≤ b.uiEndTsn + 1 := fun b hb => by
    have := hs.first
    have := hsack.blocks.le b hb
    have := hsack.offsets b hb
    omega
  have hpass : markLoop cfg eNewCumAck (markRounds s sack) s.toSendVars [] s.sSendBuffer
      (Cursor.init cfg sack) = passed (plainMark eNewCumAck sack.gapAckBlocks) s.toSendVars []
        s.sSendBuffer :=
    markLoop_plain hcfg hsack.blocks hs.tsns hends hreads (by rw [markRounds]; omega)
  rw [SendState.markGapAcked, hpass]
  rfl

theorem Settling.walk (h : Settling cfg s) (hf : Keeps cfg f)
    (hnet : ∀ d, ∀ n ∈ s.sSendBuffer, ∀ v : SendVars,
      (f v n).1.net d - v.net d = (f v n).2.outstanding d - n.outstanding d) :
    Settling cfg (s.walk f) := by
  refine ⟨h.toBufferOk.walk hf, fun d => ?_⟩
  have hwalk := walk_net (hnet d)
  have hbefore := h.net d
  omega

/-- `ProcessGapAckBlocks` returns, and the chunks stay right but for those newly acked. -/
theorem ProcessGapAckBlocks_settling {sack : Sack} (hcfg : cfg.eUseNonRenegSacks = false)
    (hs : Settling cfg s) (hsack : sack.WellFormed) (hcum : s.uiCumAckPoint = sack.uiCumAck)
    (hcovers : ∀ n ∈ s.sSendBuffer, n.eGapAcked = true → n.eAdvancedAcked = true →
      n.uiTsn ∈ tsns sack.gapAckBlocks ∧ ∀ b ∈ sack.gapAckBlocks, b.uiEndTsn + 1 ≠ n.uiTsn) :
    ∃ s', s.ProcessGapAckBlocks cfg sack eNewCumAck = some s' ∧ Settling cfg s' := by
  have h₀ : Settling cfg { s with eFastRtxNeeded := false } := ⟨⟨hs.nodes, hs.first, hs.tsns⟩, hs.net⟩
  rw [SendState.ProcessGapAckBlocks]
  dsimp only
  split
  · exact ⟨_, rfl, h₀⟩
  · rw [markGapAcked_plain hcfg h₀.toBufferOk hsack hcum]
    refine ⟨_, rfl, Settling.walk (h₀.walk plainMark_keeps fun d n hn v => ?_) missingReport_keeps
      fun d n _ v => missingReport_net⟩
    refine mark_net fun hreported hgap => ?_
    by_contra hadv
    exact of_decide_eq_false hreported (hcovers n hn hgap (Bool.eq_true_of_not_eq_false hadv))

/-- The sender when the chunks up to the cumulative ack are taken off. -/
def SendState.dequeued (s : SendState) (sack : Sack) : SendState :=
  if sack.uiCumAck > s.uiCumAckPoint then
    let res := SendVars.dequeueUpTo sack.uiCumAck s.toSendVars s.sSendBuffer
    { res.1 with uiCumAckPoint := sack.uiCumAck, sSendBuffer := res.2 }
  else s

/-- The bytes newly acked are taken off the counters. -/
def SendState.settled (cfg : SendConfig) (adjust : Bool) (s : SendState) : SendState :=
  SendState.AdvancePeerAckPoint
    { s.mapDests (SendState.settleDest cfg adjust) with sSendBuffer := s.sSendBuffer }

theorem processAcks_eq {gapAcks : SendState → Bool → Option SendState} {sack : Sack} :
    s.processAcks cfg gapAcks sack =
      (gapAcks (s.dequeued sack) (decide (sack.uiCumAck > s.uiCumAckPoint))).map fun t =>
        t.settled cfg (decide (sack.uiCumAck > s.uiCumAckPoint) &&
          decide (sack.uiCumAck ≥ t.uiRecover)) := by
  rw [SendState.processAcks, SendState.dequeued]
  simp only [decide_eq_true_eq]
  rfl

theorem settled_tracked {adjust : Bool} (h : Settling cfg s) : Tracked cfg (s.settled cfg adjust) := by
  refine ⟨⟨h.nodes, h.first, h.tsns⟩, fun d => ?_⟩
  have hnet : (s.dests d).iOutstandingBytes - (s.dests d).iNumNewlyAckedBytes =
      total (SendBufferNode.outstanding d) s.sSendBuffer := h.net d
  have hnonneg := total_outstanding_nonneg (d := d) (l := s.sSendBuffer)
  exact (settleDest_out (by omega)).trans hnet

theorem dequeued_subset {sack : Sack} : (s.dequeued sack).sSendBuffer ⊆ s.sSendBuffer := by
  rw [SendState.dequeued]
  split
  · exact dequeueUpTo_subset
  · exact List.Subset.refl _

theorem dequeued_cumAck {sack : Sack} (hcum : s.uiCumAckPoint ≤ sack.uiCumAck) :
    (s.dequeued sack).uiCumAckPoint = sack.uiCumAck := by
  rw [SendState.dequeued]
  split
  · rfl
  · omega

theorem dequeued_settling {sack : Sack} (h : Settling cfg s)
    (hcum : s.uiCumAckPoint ≤ sack.uiCumAck) : Settling cfg (s.dequeued sack) := by
  rw [SendState.dequeued]
  split
  · obtain ⟨hfirst, htsns⟩ := dequeueUpTo_consecutive (v := s.toSendVars) h.tsns
      (h.first.trans hcum)
    refine ⟨⟨fun n hn => h.nodes n (dequeueUpTo_subset hn), ?_, ?_⟩, fun d => ?_⟩
    · simpa only [dequeueUpTo_nextTsn] using hfirst
    · simpa only [dequeueUpTo_nextTsn] using htsns
    · have hnet := dequeueUpTo_net (v := s.toSendVars) (l := s.sSendBuffer) (d := d)
        sack.uiCumAck
      have hbefore := h.net d
      simp only [SendVars.net] at *
      omega
  · exact h

theorem dequeued_gt {sack : Sack} (h : BufferOk cfg s) (hnew : s.uiCumAckPoint < sack.uiCumAck) :
    ∀ n ∈ (s.dequeued sack).sSendBuffer, sack.uiCumAck < n.uiTsn := by
  rw [SendState.dequeued, if_pos hnew]
  exact dequeueUpTo_gt h.tsns

/-- A SACK is processed up to the retransmissions, and the counters are exact again. -/
theorem processAcks_tracked {sack : Sack} (hcfg : cfg.eUseNonRenegSacks = false)
    (hs : Settling cfg s) (hsack : sack.WellFormed) (hcum : s.uiCumAckPoint ≤ sack.uiCumAck)
    (hcovers : sack.gapAckBlocks ≠ [] → sack.CoversAbandoned s) :
    ∃ s', s.processAcks cfg (SendState.gapAcksOfSack cfg sack) sack = some s' ∧ Tracked cfg s' := by
  have hdequeued := dequeued_settling hs hcum
  rw [processAcks_eq, SendState.gapAcksOfSack]
  split
  · rename_i hne
    obtain ⟨s₁, hs₁, hsettling⟩ := ProcessGapAckBlocks_settling hcfg hdequeued hsack
      (dequeued_cumAck hcum) fun n hn => hcovers hne n (dequeued_subset hn) fun hnew =>
        dequeued_gt hs.toBufferOk hnew n hn
    rw [hs₁]
    exact ⟨_, rfl, settled_tracked hsettling⟩
  · exact ⟨_, rfl, settled_tracked ⟨⟨hdequeued.nodes, hdequeued.first, hdequeued.tsns⟩,
      hdequeued.net⟩⟩

/-! ## Events -/

/-- `ProcessSackChunk` returns, and the counters stay exact. -/
theorem ProcessSackChunk_tracked {sack : Sack} {rtxDest : SendBufferNode → ℕ}
    (hcfg : cfg.eUseNonRenegSacks = false) (h : Tracked cfg s) (hsack : sack.WellFormed)
    (hcovers : s.uiCumAckPoint ≤ sack.uiCumAck → sack.gapAckBlocks ≠ [] → sack.CoversAbandoned s) :
    ∃ s', s.ProcessSackChunk cfg sack rtxDest = some s' ∧ Tracked cfg s' := by
  rw [SendState.ProcessSackChunk, SendState.processSack]
  split
  · exact ⟨_, rfl, ⟨h.nodes, h.first, h.tsns⟩, h.accounted⟩
  · rename_i hcum
    have hcleared : Settling cfg { s.mapDests fun x => { x with iNumNewlyAckedBytes := 0 } with
        sSendBuffer := s.sSendBuffer } := by
      refine ⟨⟨h.nodes, h.first, h.tsns⟩, fun d => ?_⟩
      exact (Int.sub_zero _).trans (h.accounted d)
    have hle : s.uiCumAckPoint ≤ sack.uiCumAck := not_lt.mp hcum
    obtain ⟨s₁, hs₁, htracked₁⟩ := processAcks_tracked hcfg hcleared hsack hle (hcovers hle)
    obtain ⟨s₂, hs₂, hresent⟩ := rtxAfterSack_resent rtxDest htracked₁.nodes
    have htracked₂ := htracked₁.resent hresent
    rw [hs₁, Option.bind_some, hs₂]
    exact ⟨_, rfl, ⟨htracked₂.nodes, htracked₂.first, htracked₂.tsns⟩, htracked₂.accounted⟩

theorem consecutive_concat {t : ℤ} (hl : Consecutive t l) (hn : n.uiTsn = t + l.length) :
    Consecutive t (l ++ [n]) := by
  induction l generalizing t with
  | nil => exact ⟨by simpa using hn, trivial⟩
  | cons m l ih =>
    refine ⟨hl.1, ih hl.2 ?_⟩
    rw [hn, List.length_cons]
    push_cast
    omega

/-- The chunk that `GenOneDataChunk` adds to the send buffer. -/
def newChunk (uiTsn : ℤ) (usLength usStreamId iUnrelRtxLimit spNewTxDest : ℕ) : SendBufferNode :=
  { uiTsn, usLength, usStreamId, iUnrelRtxLimit
    eAdvancedAcked := false
    eGapAcked := false
    eAddedToPartialBytesAcked := false
    iNumMissingReports := 0
    eMarkedForRtx := .NO_RTX
    eIneligibleForFastRtx := false
    iNumTxs := 1
    spDest := spNewTxDest }

/-- A new chunk is outstanding. -/
theorem GenOneDataChunk_tracked {usLength usStreamId iUnrelRtxLimit spNewTxDest : ℕ}
    (h : Tracked cfg s) (hfits : usLength ≤ cfg.uiMaxPayloadSize) :
    Tracked cfg (s.GenOneDataChunk usLength usStreamId iUnrelRtxLimit spNewTxDest) := by
  obtain ⟨t, ht⟩ : ∃ t, t = s.GenOneDataChunk usLength usStreamId iUnrelRtxLimit spNewTxDest :=
    ⟨_, rfl⟩
  have hbuffer : t.sSendBuffer = s.sSendBuffer ++
      [newChunk (s.uiNextTsn + 1) usLength usStreamId iUnrelRtxLimit spNewTxDest] := by rw [ht]; rfl
  have hvars : t.dests = (s.toSendVars.addOutstanding spNewTxDest usLength).dests ∧
      t.uiNextTsn = s.uiNextTsn + 1 ∧ t.uiCumAckPoint = s.uiCumAckPoint := by
    rw [ht, SendState.GenOneDataChunk]
    split_ifs <;> exact ⟨rfl, rfl, rfl⟩
  obtain ⟨hdests, hnext, hcum⟩ := hvars
  have hcount : t.uiNextTsn - t.sSendBuffer.length = s.uiNextTsn - s.sSendBuffer.length := by
    rw [hnext, hbuffer, List.length_append, List.length_singleton]
    push_cast
    omega
  rw [← ht]
  refine ⟨⟨fun n hn => ?_, ?_, ?_⟩, fun d => ?_⟩
  · rw [hbuffer, List.mem_append, List.mem_singleton] at hn
    rcases hn with hn | rfl
    · exact h.nodes n hn
    · exact ⟨hfits, fun hmarked => absurd rfl hmarked⟩
  · rw [hcount, hcum]
    exact h.first
  · rw [hcount, hbuffer]
    refine consecutive_concat h.tsns ?_
    simp only [newChunk]
    omega
  · have hbefore := h.accounted d
    rw [hdests, hbuffer, addOutstanding_out, total_append, total_cons, total_nil, hbefore]
    simp [newChunk, SendBufferNode.outstanding]

theorem setWindow_tracked {iCwnd iSsthresh iPartialBytesAcked : ℤ} {eApplyMaxBurst : Bool}
    (h : Tracked cfg s) :
    Tracked cfg (s.setWindow d iCwnd iSsthresh iPartialBytesAcked eApplyMaxBurst) := by
  refine ⟨⟨h.nodes, h.first, h.tsns⟩, fun i => ?_⟩
  have hsame : ((s.setWindow d iCwnd iSsthresh iPartialBytesAcked eApplyMaxBurst).dests
      i).iOutstandingBytes = (s.dests i).iOutstandingBytes := by
    by_cases hi : i = d
    · subst hi
      simp [SendState.setWindow, SendVars.setDest]
    · simp [SendState.setWindow, SendVars.setDest, Function.update_of_ne hi]
  rw [hsame]
  exact h.accounted i

namespace SendEvent

/-- Chunks fit a packet, and SACKs have well formed blocks. -/
def WellFormed (cfg : SendConfig) : SendEvent → Prop
  | .send usLength _ _ _ => usLength ≤ cfg.uiMaxPayloadSize
  | .sack chunk _ => chunk.WellFormed
  | _ => True

/-- A SACK that is processed withdraws the gap ack of no abandoned chunk. -/
def CoversAbandoned (s : SendState) : SendEvent → Prop
  | .sack chunk _ =>
    s.uiCumAckPoint ≤ chunk.uiCumAck → chunk.gapAckBlocks ≠ [] → chunk.CoversAbandoned s
  | _ => True

end SendEvent

namespace SendState

/-- A sender that has sent nothing. -/
structure Opened (s : SendState) : Prop where
  buffer : s.sSendBuffer = []
  tsns : s.uiNextTsn = s.uiCumAckPoint
  outstanding : ∀ d, (s.dests d).iOutstandingBytes = 0

theorem Opened.tracked (h : s.Opened) : Tracked cfg s where
  nodes := by simp [h.buffer]
  first := by simp [h.buffer, h.tsns]
  tsns := by
    rw [h.buffer]
    trivial
  accounted := fun d => by simp [h.buffer, h.outstanding]

/-- One event keeps the counters exact. -/
theorem step_tracked {e : SendEvent} (hcfg : cfg.eUseNonRenegSacks = false) (h : Tracked cfg s)
    (he : e.WellFormed cfg) (hcovers : e.CoversAbandoned s) :
    ∃ s', s.step cfg e = some s' ∧ Tracked cfg s' := by
  cases e with
  | send => exact ⟨_, rfl, GenOneDataChunk_tracked h he⟩
  | sack sack rtxDest =>
    rw [step, if_neg (by simp [hcfg])]
    exact ProcessSackChunk_tracked hcfg h he hcovers
  | timeout =>
    obtain ⟨s', hs', hresent⟩ := TimeoutRtx_resent _ _ h.nodes
    exact ⟨s', hs', h.resent hresent⟩
  | window => exact ⟨_, rfl, setWindow_tracked h⟩

/-- **In a run without NR-SACKs every function returns, and the outstanding bytes of each
destination are those of its chunks that are not acked, as long as no SACK withdraws the gap ack of
an abandoned chunk.** -/
theorem run_accounted (cfg : SendConfig) (hcfg : cfg.eUseNonRenegSacks = false) (s : SendState)
    (hs : s.Opened) (es : List SendEvent) (hes : ∀ e ∈ es, e.WellFormed cfg)
    (hcovers : AlongRun cfg (fun s e => e.CoversAbandoned s) s es) :
    ∃ s', s.run cfg es = some s' ∧ s'.Accounted := by
  have halong : AlongRun cfg (fun s e => e.WellFormed cfg ∧ e.CoversAbandoned s) s es :=
    alongRun_and hes hcovers
  obtain ⟨s', hs', htracked⟩ := run_invariant
    (fun _ _ h he => step_tracked hcfg h he.1 he.2) hs.tracked halong
  exact ⟨s', hs', htracked.accounted⟩

/-- Three chunks are sent, the second on an unreliable stream, and time out. -/
def timedOut : List SendEvent :=
  [.send 1000 0 0 0, .send 1000 1 0 0, .send 1000 0 0 0, .timeout 0 fun _ => 0]

/-- A SACK with one block that ends at 3. -/
def sackUpTo3 (uiStartTsn : ℤ) : SendEvent := .sack ⟨0, 60000, [⟨uiStartTsn, 3⟩], []⟩ fun _ => 0

theorem opened_withBuffer : (withBuffer []).Opened := ⟨rfl, rfl, fun _ => rfl⟩

theorem timedOut_wellFormed : ∀ e ∈ timedOut, e.WellFormed (oneDest false) := by
  simp [timedOut, SendEvent.WellFormed, oneDest]

theorem sackUpTo3_wellFormed {t : ℤ} (h : 0 ≤ t ∧ t ≤ 3) :
    (sackUpTo3 t).WellFormed (oneDest false) :=
  ⟨⟨by simpa using h.2, List.pairwise_singleton _ _⟩, by simpa using h.1⟩

theorem sackUpTo3_covers (h : ∀ n ∈ s.sSendBuffer, n.eGapAcked = true → n.uiTsn = 2 ∨ n.uiTsn = 3) :
    (sackUpTo3 2).CoversAbandoned s := by
  intro _ _ n hn _ hgap _
  rw [mem_tsns]
  rcases h n hn hgap with htsn | htsn <;> simp [htsn]

/-- The SACK with the block [2,3] arrives twice. -/
theorem run_accounted_twice : ∃ s', (withBuffer []).run (oneDest false)
    (timedOut ++ [sackUpTo3 2, sackUpTo3 2]) = some s' ∧ s'.Accounted := by
  refine run_accounted (oneDest false) rfl _ opened_withBuffer _ (fun e he => ?_) ?_
  · rcases List.mem_append.mp he with he | he
    · exact timedOut_wellFormed e he
    · simp only [List.mem_cons, List.not_mem_nil, or_false, or_self] at he
      rw [he]
      exact sackUpTo3_wellFormed (by decide)
  · have htimedOut : AlongRun (oneDest false) (fun s e => e.CoversAbandoned s) (withBuffer [])
        timedOut := ⟨trivial, fun _ _ => ⟨trivial, fun _ _ => ⟨trivial, fun _ _ =>
          ⟨trivial, fun _ _ => trivial⟩⟩⟩⟩
    obtain ⟨t, ht, hgap, t', ht', hgap'⟩ : ∃ t, (withBuffer []).run (oneDest false) timedOut = some t ∧
        (t.sSendBuffer.filter fun n => n.eGapAcked).map SendBufferNode.uiTsn = [] ∧
        ∃ t', t.step (oneDest false) (sackUpTo3 2) = some t' ∧
          (t'.sSendBuffer.filter fun n => n.eGapAcked).map SendBufferNode.uiTsn = [2, 3] :=
      ⟨_, rfl, rfl, _, rfl, rfl⟩
    refine alongRun_append htimedOut fun s₄ hs₄ => ?_
    obtain rfl : t = s₄ := Option.some.inj (ht.symm.trans hs₄)
    refine ⟨sackUpTo3_covers fun n hn hacked => ?_, fun s₅ hs₅ => ?_⟩
    · have hmem := List.mem_map_of_mem (f := SendBufferNode.uiTsn) (List.mem_filter.mpr ⟨hn, hacked⟩)
      simp [hgap] at hmem
    · obtain rfl : t' = s₅ := Option.some.inj (ht'.symm.trans hs₅)
      refine ⟨sackUpTo3_covers fun n hn hacked => ?_, fun _ _ => trivial⟩
      have hmem := List.mem_map_of_mem (f := SendBufferNode.uiTsn) (List.mem_filter.mpr ⟨hn, hacked⟩)
      simpa [hgap'] using hmem

/-- **Chunk 2 is abandoned by the timeout and gap acked.  The SACK with the block [3,3], which was
overtaken, withdraws that, and chunk 2 counts again: 2000 bytes instead of 1000.** -/
theorem not_accounted : (withBuffer []).Opened ∧
    (∀ e ∈ timedOut ++ [sackUpTo3 2, sackUpTo3 3], e.WellFormed (oneDest false)) ∧
    ∃ s', (withBuffer []).run (oneDest false) (timedOut ++ [sackUpTo3 2, sackUpTo3 3]) = some s' ∧
      ¬ s'.Accounted := by
  refine ⟨opened_withBuffer, fun e he => ?_, ?_⟩
  · rcases List.mem_append.mp he with he | he
    · exact timedOut_wellFormed e he
    · simp only [List.mem_cons, List.not_mem_nil, or_false] at he
      rcases he with rfl | rfl
      · exact sackUpTo3_wellFormed (by decide)
      · exact sackUpTo3_wellFormed (by decide)
  · obtain ⟨s', hs', hout, htotal⟩ : ∃ s', (withBuffer []).run (oneDest false)
        (timedOut ++ [sackUpTo3 2, sackUpTo3 3]) = some s' ∧
        (s'.dests 0).iOutstandingBytes = 2000 ∧
        total (SendBufferNode.outstanding 0) s'.sSendBuffer = 1000 := ⟨_, rfl, by rfl, by rfl⟩
    refine ⟨s', hs', fun h => ?_⟩
    have h0 := h 0
    rw [hout, htotal] at h0
    exact absurd h0 (by decide)

end SendState

end Ns2.Sctp
