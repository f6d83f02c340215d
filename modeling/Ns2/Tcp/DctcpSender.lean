import Ns2.Common.Scheduler
import Ns2.Tcp.Reass

/-!
# The DCTCP sender

`FullTcpAgent::update_dctcp_alpha` and `timeout_action` of `tcp/tcp-full.cc`, and
`TcpAgent::slowdown` and `ecn` of `tcp/tcp.cc`, with `double`s as exact rationals.

* `slowdown`, `ecn`, `updateDctcpAlpha`, `timeoutAction` — the source functions.
* `SenderEvent`, `DctcpSender.step` — what happens to a sender.  What increases the window,
  and what fast recovery does to it, is an `adjust`: the window is taken as it comes.
* `InRange` — the counters and the estimate are in range.
* `slowdown_dctcp` — what the reaction to marks does to the window.
* `inRange_run` — every run keeps the range, and every reaction cuts the window by at most
  one half.
-/

namespace Ns2.Tcp

open Ns2.Common (toInt)

/-- `CLOSE_SSTHRESH_HALF`. -/
def closeSsthreshHalf : ℕ := 0x00000001

/-- `CLOSE_CWND_HALF`. -/
def closeCwndHalf : ℕ := 0x00000002

/-- `CLOSE_CWND_RESTART`. -/
def closeCwndRestart : ℕ := 0x00000004

/-- `CLOSE_CWND_INIT`. -/
def closeCwndInit : ℕ := 0x00000008

/-- `CLOSE_CWND_ONE`. -/
def closeCwndOne : ℕ := 0x00000010

/-- `THREE_QUARTER_SSTHRESH`. -/
def threeQuarterSsthresh : ℕ := 0x00000080

/-- `CLOSE_CWND_HALF_WAY`. -/
def closeCwndHalfWay : ℕ := 0x00000100

/-- `CWND_HALF_WITH_MIN`. -/
def cwndHalfWithMin : ℕ := 0x00000200

/-- `TCP_IDLE`. -/
def tcpIdle : ℕ := 0x00000400

/-- `NO_OUTSTANDING_DATA`. -/
def noOutstandingData : ℕ := 0x00000800

/-- `CLOSE_SSTHRESH_DCTCP`. -/
def closeSsthreshDctcp : ℕ := 0x00001000

/-- `CLOSE_CWND_DCTCP`. -/
def closeCwndDctcp : ℕ := 0x00002000

/-- Why the window was cut last. -/
inductive CwndAction where
  /-- Not yet. -/
  | none
  /-- `CWND_ACTION_DUPACK`. -/
  | dupack
  /-- `CWND_ACTION_TIMEOUT`. -/
  | timeout
  /-- `CWND_ACTION_ECN`. -/
  | ecn
  /-- `CWND_ACTION_EXITED`. -/
  | exited
  deriving DecidableEq, Repr

/-- The sender's part of a `FullTcpAgent`. -/
structure DctcpSender where
  /-- `pow` of the C library. -/
  pow : ℚ → ℚ → ℚ
  /-- `decrease_param`, given the window. -/
  decrease_param : ℚ → ℚ
  /-- Congestion window, in segments. -/
  cwnd_ : ℚ
  /-- Slow start threshold, in segments. -/
  ssthresh_ : ℤ
  /-- Upper bound of the window, in segments. -/
  wnd_ : ℚ
  /-- State of F-RTO. -/
  frto_ : ℤ
  /-- Windows are reduced without rounding. -/
  precision_reduce_ : Bool
  /-- Kind of window control. -/
  wnd_option_ : ℤ
  /-- Factor for the decrease of the window. -/
  decrease_num_ : ℚ
  /-- Parameter of the binomial controls. -/
  l_parameter_ : ℚ
  /-- Window for turning on high-speed TCP. -/
  low_window_ : ℤ
  /-- The window has not been cut yet. -/
  first_decrease_ : Bool
  /-- Why the window was cut last. -/
  last_cwnd_action_ : CwndAction
  /-- Window after an idle period. -/
  wnd_restart_ : ℚ
  /-- Initial window. -/
  wnd_init_ : ℚ
  /-- Window used lately. -/
  W_used : ℤ
  /-- The peer is to be told about a cut. -/
  cong_action_ : Bool
  /-- Number of cuts. -/
  ncwndcuts_ : ℤ
  /-- Number of cuts not due to idle periods. -/
  ncwndcuts1_ : ℤ
  /-- Used in window increment algorithms. -/
  fcnt_ : ℚ
  /-- Used in window increment algorithms. -/
  count_ : ℤ
  /-- The timer is to be backed off at the next mark. -/
  ecn_backoff_ : Bool
  /-- Number of reactions to marks. -/
  necnresponses_ : ℤ
  /-- Initial send sequence number. -/
  iss_ : ℤ
  /-- Highest acknowledgment received. -/
  highest_ack_ : ℤ
  /-- Largest sequence number sent, plus one. -/
  maxseq_ : ℤ
  /-- Sequence number to send next. -/
  t_seqno_ : ℤ
  /-- No second reaction before this is acknowledged. -/
  recover_ : ℤ
  /-- The sender is in fast recovery. -/
  fastrecov_ : Bool
  /-- Number of duplicate ACKs. -/
  dupacks_ : ℤ
  /-- Segment size. -/
  size_ : ℤ
  /-- DCTCP is used. -/
  dctcp_ : Bool
  /-- Estimate of the fraction of bytes marked. -/
  dctcp_alpha_ : ℚ
  /-- Weight of a new sample. -/
  dctcp_g_ : ℚ
  /-- Bytes acknowledged since the last sample. -/
  dctcp_total : ℤ
  /-- Bytes of them marked. -/
  dctcp_marked : ℤ
  /-- An ACK above this gives the next sample. -/
  dctcp_alpha_update_seq : ℤ
  /-- Largest sequence number sent since the last timeout, plus one. -/
  dctcp_maxseq : ℤ

namespace DctcpSender

/-- `force_wnd(num)`. -/
def forceWnd (a : DctcpSender) (num : ℤ) : ℤ := a.recover_ + num - a.highest_ack_

/-- `window()`. -/
def window (a : DctcpSender) : ℤ :=
  if a.frto_ = 2 then if (a.forceWnd 2 : ℚ) < a.wnd_ then a.forceWnd 2 else toInt a.wnd_
  else if a.cwnd_ < a.wnd_ then toInt a.cwnd_ else toInt a.wnd_

/-- `windowd()`. -/
def windowd (a : DctcpSender) : ℚ := if a.cwnd_ < a.wnd_ then a.cwnd_ else a.wnd_

/-- The reduced windows of `slowdown`. -/
structure Reduced where
  /-- One half of the window. -/
  halfwin : ℚ
  /-- The window after the decrease. -/
  decreasewin : ℚ
  /-- The window. -/
  win : ℚ

/-- The window is controlled by high-speed TCP. -/
def highspeed (a : DctcpSender) : Bool := a.wnd_option_ = 8 ∧ a.cwnd_ > a.low_window_

/-- `slowdown` stores the factor of high-speed TCP. -/
def storeDecrease (a : DctcpSender) : DctcpSender :=
  if a.highspeed then { a with decrease_num_ := a.decrease_param a.cwnd_ } else a

/-- The reduced windows. -/
def reduced (a : DctcpSender) : Reduced :=
  if a.precision_reduce_ then
    { halfwin := a.windowd / 2
      decreasewin :=
        if a.wnd_option_ = 6 then
          a.windowd - (1 - a.decrease_num_) * a.pow a.windowd a.l_parameter_
        else if a.highspeed then a.windowd - a.decrease_param a.cwnd_ * a.windowd
        else a.decrease_num_ * a.windowd
      win := a.windowd }
  else
    { halfwin := (a.window.tdiv 2 : ℤ)
      decreasewin :=
        if a.wnd_option_ = 6 then
          toInt (a.window - (1 - a.decrease_num_) * a.pow a.window a.l_parameter_)
        else if a.highspeed then toInt (a.windowd - a.decrease_param a.cwnd_ * a.windowd)
        else toInt (a.decrease_num_ * a.window)
      win := a.window }

/-- A bit of `how` is set. -/
def has (how bit : ℕ) : Bool := how &&& bit ≠ 0

/-- The new threshold of `slowdown`, before it is bounded. -/
def newSsthresh (a : DctcpSender) (how : ℕ) (slowstart : Bool) (r : Reduced) : ℤ :=
  if has how closeSsthreshHalf then
    if a.first_decrease_ ∨ slowstart ∨ a.last_cwnd_action_ = .timeout then toInt r.halfwin
    else toInt r.decreasewin
  else if has how closeSsthreshDctcp then toInt ((1 - a.dctcp_alpha_ / 2) * a.windowd)
  else if has how threeQuarterSsthresh then
    if a.ssthresh_ < 3 * a.cwnd_ / 4 then toInt (3 * a.cwnd_ / 4) else a.ssthresh_
  else a.ssthresh_

/-- The new window of `slowdown`, before it is bounded. -/
def newCwnd (a : DctcpSender) (how : ℕ) (slowstart : Bool) (r : Reduced) : ℚ :=
  if has how closeCwndHalf then
    if a.first_decrease_ ∨ slowstart ∨ a.decrease_num_ = 1 / 2 then r.halfwin else r.decreasewin
  else if has how closeCwndDctcp then (1 - a.dctcp_alpha_ / 2) * a.windowd
  else if has how cwndHalfWithMin then if r.decreasewin < 1 then 1 else r.decreasewin
  else if has how closeCwndRestart then toInt a.wnd_restart_
  else if has how closeCwndInit then toInt a.wnd_init_
  else if has how closeCwndOne then 1
  else if has how closeCwndHalfWay then
    if a.W_used + a.decrease_num_ * (r.win - a.W_used) < 1 then 1
    else a.W_used + a.decrease_num_ * (r.win - a.W_used)
  else a.cwnd_

/-- `slowdown(how)`. -/
def slowdown (a : DctcpSender) (how : ℕ) : DctcpSender :=
  let slowstart : Bool := a.cwnd_ < a.ssthresh_
  let r := a.reduced
  let a' := a.storeDecrease
  let ssthresh := a'.newSsthresh how slowstart r
  let cwnd := a'.newCwnd how slowstart r
  { a' with
    ncwndcuts_ := a.ncwndcuts_ + 1
    ncwndcuts1_ :=
      if ¬ has how tcpIdle ∧ ¬ has how noOutstandingData then a.ncwndcuts1_ + 1 else a.ncwndcuts1_
    ssthresh_ := if ssthresh < 2 then 2 else ssthresh
    cwnd_ := if cwnd < 1 then 1 else cwnd
    cong_action_ :=
      if has how (closeCwndHalf ||| closeCwndRestart ||| closeCwndInit ||| closeCwndOne |||
        closeCwndDctcp) then true else a.cong_action_
    fcnt_ := 0
    count_ := 0
    first_decrease_ := false }

/-- `ecn(seqno)`.  The backoff of the timer is left out. -/
def ecn (a : DctcpSender) (seqno : ℤ) : DctcpSender :=
  if seqno > a.recover_ ∨ a.last_cwnd_action_ = .timeout then
    let a₁ :=
      { a with
        recover_ := a.maxseq_
        last_cwnd_action_ := .ecn
        ecn_backoff_ := a.cwnd_ ≤ 1 }
    let a₂ :=
      if a₁.dctcp_ then a₁.slowdown (closeCwndDctcp ||| closeSsthreshDctcp)
      else a₁.slowdown (closeCwndHalf ||| closeSsthreshHalf)
    { a₂ with necnresponses_ := a₂.necnresponses_ + 1 }
  else a

/-- `update_dctcp_alpha(pkt)`, for a packet with an ACK number and the ECN echo bit. -/
def updateDctcpAlpha (a : DctcpSender) (ackno : ℤ) (ecnbit : Bool) : DctcpSender :=
  let acked_bytes := if ackno - a.highest_ack_ ≤ 0 then a.size_ else ackno - a.highest_ack_
  let a₁ :=
    { a with
      dctcp_total := a.dctcp_total + acked_bytes
      dctcp_marked := if ecnbit then a.dctcp_marked + acked_bytes else a.dctcp_marked }
  if ackno > a₁.dctcp_alpha_update_seq then
    let temp_alpha : ℚ :=
      if a₁.dctcp_total > 0 then (a₁.dctcp_marked : ℚ) / a₁.dctcp_total else 0
    { a₁ with
      dctcp_alpha_update_seq := a₁.dctcp_maxseq
      dctcp_alpha_ := (1 - a₁.dctcp_g_) * a₁.dctcp_alpha_ + a₁.dctcp_g_ * temp_alpha
      dctcp_marked := 0
      dctcp_total := 0 }
  else a₁

/-- `timeout_action()`. -/
def timeoutAction (a : DctcpSender) : DctcpSender :=
  let a₁ := { a with recover_ := a.maxseq_, cwnd_ := if a.cwnd_ < 1 then 1 else a.cwnd_ }
  let a₂ : DctcpSender :=
    if a₁.last_cwnd_action_ = .ecn then a₁.slowdown closeCwndOne
    else
      { a₁.slowdown (closeSsthreshHalf ||| closeCwndRestart) with last_cwnd_action_ := .timeout }
  let t_seqno := if a₂.highest_ack_ < 0 then a₂.iss_ else a₂.highest_ack_
  { a₂ with
    t_seqno_ := t_seqno
    dctcp_alpha_update_seq := t_seqno
    dctcp_maxseq := t_seqno
    fastrecov_ := false
    dupacks_ := 0 }

/-- `newack`: the sequence numbers. -/
def newack (a : DctcpSender) (ackno : ℤ) : DctcpSender :=
  let highest_ack := if ackno > a.highest_ack_ then ackno else a.highest_ack_
  { a with
    highest_ack_ := highest_ack
    t_seqno_ := if a.t_seqno_ < highest_ack then highest_ack else a.t_seqno_ }

/-- The part of `recv` that concerns the sender, for an ACK number and the ECN echo bit. -/
def recv (a : DctcpSender) (ackno : ℤ) (ecnecho : Bool) : DctcpSender :=
  let a₁ := if a.dctcp_ then a.updateDctcpAlpha ackno ecnecho else a
  if ackno ≤ a₁.highest_ack_ ∨ ackno > a₁.maxseq_ then a₁
  else
    let a₂ := a₁.newack ackno
    if ecnecho then a₂.ecn a₂.highest_ack_ else a₂

/-- The end of `foutput`, for a segment from `seqno` with `reliable` sequence numbers. -/
def sent (a : DctcpSender) (seqno reliable : ℤ) : DctcpSender :=
  let highest := seqno + reliable
  { a with
    dctcp_maxseq := if highest > a.dctcp_maxseq then highest else a.dctcp_maxseq
    maxseq_ := if highest > a.maxseq_ then highest else a.maxseq_ }

end DctcpSender

/-- What happens to a sender. -/
inductive SenderEvent where
  /-- A segment arrives. -/
  | recv (ackno : ℤ) (ecnecho : Bool)
  /-- The retransmission timer goes off. -/
  | timeout
  /-- The reaction to a mark. -/
  | ecn (seqno : ℤ)
  /-- A segment is sent. -/
  | sent (seqno reliable : ℤ)
  /-- The window grows, or is changed by fast recovery. -/
  | adjust (cwnd_ : ℚ) (ssthresh_ : ℤ) (recover_ t_seqno_ : ℤ) (last_cwnd_action_ : CwndAction)

/-- One event. -/
def DctcpSender.step (a : DctcpSender) : SenderEvent → DctcpSender
  | .recv ackno ecnecho => a.recv ackno ecnecho
  | .timeout => a.timeoutAction
  | .ecn seqno => a.ecn seqno
  | .sent seqno reliable => a.sent seqno reliable
  | .adjust cwnd_ ssthresh_ recover_ t_seqno_ last_cwnd_action_ =>
    { a with cwnd_, ssthresh_, recover_, t_seqno_, last_cwnd_action_ }

namespace DctcpSender

variable {a b : DctcpSender}

/-! ## The range -/

/-- The counters and the estimate are in range. -/
structure InRange (a : DctcpSender) : Prop where
  /-- The weight is between zero and one. -/
  g_mem : a.dctcp_g_ ∈ Set.Icc 0 1
  /-- Segments are not empty. -/
  size_pos : 0 < a.size_
  /-- The estimate is a fraction. -/
  alpha_mem : a.dctcp_alpha_ ∈ Set.Icc 0 1
  /-- Bytes are counted up. -/
  marked_nonneg : 0 ≤ a.dctcp_marked
  /-- No more bytes are marked than acknowledged. -/
  marked_le : a.dctcp_marked ≤ a.dctcp_total

/-- The range does not depend on the other fields. -/
theorem InRange.congr (h : a.InRange) (hg : b.dctcp_g_ = a.dctcp_g_) (hs : b.size_ = a.size_)
    (ha : b.dctcp_alpha_ = a.dctcp_alpha_) (hm : b.dctcp_marked = a.dctcp_marked)
    (ht : b.dctcp_total = a.dctcp_total) : b.InRange :=
  ⟨hg ▸ h.g_mem, hs ▸ h.size_pos, ha ▸ h.alpha_mem, hm ▸ h.marked_nonneg, by
    rw [hm, ht]
    exact h.marked_le⟩

/-- A mean of two fractions is a fraction. -/
theorem mean_mem {g x y : ℚ} (hg : g ∈ Set.Icc (0 : ℚ) 1) (hx : x ∈ Set.Icc (0 : ℚ) 1)
    (hy : y ∈ Set.Icc (0 : ℚ) 1) : (1 - g) * x + g * y ∈ Set.Icc (0 : ℚ) 1 := by
  have hg' : 0 ≤ 1 - g := sub_nonneg.mpr hg.2
  constructor
  · exact add_nonneg (mul_nonneg hg' hx.1) (mul_nonneg hg.1 hy.1)
  · calc (1 - g) * x + g * y
        ≤ (1 - g) * 1 + g * 1 :=
          add_le_add (mul_le_mul_of_nonneg_left hx.2 hg') (mul_le_mul_of_nonneg_left hy.2 hg.1)
      _ = 1 := by ring

/-- The fraction of the bytes that are marked. -/
theorem sample_mem {m t : ℤ} (h0 : 0 ≤ m) (hmt : m ≤ t) :
    (if t > 0 then (m : ℚ) / t else 0) ∈ Set.Icc (0 : ℚ) 1 := by
  split
  · rename_i ht
    have htpos : (0 : ℚ) < t := by exact_mod_cast ht
    exact ⟨div_nonneg (by exact_mod_cast h0) htpos.le,
      (div_le_one htpos).mpr (by exact_mod_cast hmt)⟩
  · exact ⟨le_rfl, zero_le_one⟩

theorem InRange.updateDctcpAlpha (h : a.InRange) (ackno : ℤ) (ecnbit : Bool) :
    (a.updateDctcpAlpha ackno ecnbit).InRange := by
  have hsize := h.size_pos
  have hnonneg := h.marked_nonneg
  have hle := h.marked_le
  have hacked : 0 < if ackno - a.highest_ack_ ≤ 0 then a.size_ else ackno - a.highest_ack_ := by
    split <;> omega
  unfold DctcpSender.updateDctcpAlpha
  generalize (if ackno - a.highest_ack_ ≤ 0 then a.size_ else ackno - a.highest_ack_) = acked at *
  have hmarked : 0 ≤ if ecnbit then a.dctcp_marked + acked else a.dctcp_marked := by
    split <;> omega
  have htotal : (if ecnbit then a.dctcp_marked + acked else a.dctcp_marked) ≤
      a.dctcp_total + acked := by
    split <;> omega
  simp only
  split
  · exact ⟨h.g_mem, h.size_pos, mean_mem h.g_mem h.alpha_mem (sample_mem hmarked htotal), le_rfl,
      le_rfl⟩
  · exact ⟨h.g_mem, h.size_pos, h.alpha_mem, hmarked, htotal⟩

theorem InRange.storeDecrease (h : a.InRange) : a.storeDecrease.InRange := by
  unfold DctcpSender.storeDecrease
  split
  · exact h.congr rfl rfl rfl rfl rfl
  · exact h

theorem InRange.slowdown (h : a.InRange) (how : ℕ) : (a.slowdown how).InRange :=
  h.storeDecrease.congr rfl rfl rfl rfl rfl

theorem InRange.ecn (h : a.InRange) (seqno : ℤ) : (a.ecn seqno).InRange := by
  unfold DctcpSender.ecn
  split
  · have h₁ : InRange
        { a with
          recover_ := a.maxseq_
          last_cwnd_action_ := .ecn
          ecn_backoff_ := a.cwnd_ ≤ 1 } := h.congr rfl rfl rfl rfl rfl
    simp only
    split
    · exact (h₁.slowdown (closeCwndDctcp ||| closeSsthreshDctcp)).congr rfl rfl rfl rfl rfl
    · exact (h₁.slowdown (closeCwndHalf ||| closeSsthreshHalf)).congr rfl rfl rfl rfl rfl
  · exact h

theorem InRange.timeoutAction (h : a.InRange) : a.timeoutAction.InRange := by
  have h₁ : InRange { a with recover_ := a.maxseq_, cwnd_ := if a.cwnd_ < 1 then 1 else a.cwnd_ } :=
    h.congr rfl rfl rfl rfl rfl
  unfold DctcpSender.timeoutAction
  simp only
  split
  · exact (h₁.slowdown closeCwndOne).congr rfl rfl rfl rfl rfl
  · exact (h₁.slowdown (closeSsthreshHalf ||| closeCwndRestart)).congr rfl rfl rfl rfl rfl

theorem InRange.recv (h : a.InRange) (ackno : ℤ) (ecnecho : Bool) :
    (a.recv ackno ecnecho).InRange := by
  have h₁ : InRange (if a.dctcp_ then a.updateDctcpAlpha ackno ecnecho else a) := by
    split
    · exact h.updateDctcpAlpha ackno ecnecho
    · exact h
  unfold DctcpSender.recv
  simp only
  generalize (if a.dctcp_ then a.updateDctcpAlpha ackno ecnecho else a) = b at h₁ ⊢
  have h₂ : (b.newack ackno).InRange := h₁.congr rfl rfl rfl rfl rfl
  split
  · exact h₁
  split
  · exact h₂.ecn _
  · exact h₂

/-- Every event keeps the range. -/
theorem InRange.step (h : a.InRange) (e : SenderEvent) : (a.step e).InRange := by
  cases e with
  | recv ackno ecnecho => exact h.recv ackno ecnecho
  | timeout => exact h.timeoutAction
  | ecn seqno => exact h.ecn seqno
  | sent seqno reliable => exact h.congr rfl rfl rfl rfl rfl
  | adjust cwnd_ ssthresh_ recover_ t_seqno_ last_cwnd_action_ =>
    exact h.congr rfl rfl rfl rfl rfl

/-- A run keeps the range. -/
theorem InRange.run (h : a.InRange) (events : List SenderEvent) :
    (events.foldl DctcpSender.step a).InRange := by
  induction events generalizing a with
  | nil => exact h
  | cons e events ih => exact ih (h.step e)

/-! ## The reaction to marks -/

/-- Both bounds of `slowdown` for DCTCP are computed from the window before the call. -/
theorem slowdown_dctcp (a : DctcpSender) :
    (a.slowdown (closeCwndDctcp ||| closeSsthreshDctcp)).cwnd_ =
        max 1 ((1 - a.dctcp_alpha_ / 2) * a.windowd) ∧
      (a.slowdown (closeCwndDctcp ||| closeSsthreshDctcp)).ssthresh_ =
        max 2 (toInt ((1 - a.dctcp_alpha_ / 2) * a.windowd)) := by
  have halpha : a.storeDecrease.dctcp_alpha_ = a.dctcp_alpha_ := by
    unfold storeDecrease
    split <;> rfl
  have hwindowd : a.storeDecrease.windowd = a.windowd := by
    unfold storeDecrease
    split <;> rfl
  have hcwnd : a.storeDecrease.newCwnd (closeCwndDctcp ||| closeSsthreshDctcp)
      (a.cwnd_ < a.ssthresh_) a.reduced = (1 - a.dctcp_alpha_ / 2) * a.windowd := by
    rw [newCwnd, if_neg (by decide), if_pos (by decide), halpha, hwindowd]
  have hssthresh : a.storeDecrease.newSsthresh (closeCwndDctcp ||| closeSsthreshDctcp)
      (a.cwnd_ < a.ssthresh_) a.reduced = toInt ((1 - a.dctcp_alpha_ / 2) * a.windowd) := by
    rw [newSsthresh, if_neg (by decide), if_pos (by decide), halpha, hwindowd]
  unfold DctcpSender.slowdown
  simp only [hcwnd, hssthresh]
  constructor
  · split
    · rename_i hlt
      exact (max_eq_left hlt.le).symm
    · rename_i hle
      exact (max_eq_right (not_lt.mp hle)).symm
  · split
    · rename_i hlt
      exact (max_eq_left hlt.le).symm
    · rename_i hle
      exact (max_eq_right (not_lt.mp hle)).symm

/-- A window times a factor between one half and one. -/
theorem reaction_mem {alpha w : ℚ} (h : alpha ∈ Set.Icc (0 : ℚ) 1) :
    max 1 ((1 - alpha / 2) * w) ∈ Set.Icc (max 1 (w / 2)) (max 1 w) := by
  obtain ⟨h0, h1⟩ := h
  rcases le_total 0 w with hw | hw
  · exact ⟨max_le_max le_rfl (by nlinarith), max_le_max le_rfl (by nlinarith)⟩
  · -- all three are one
    have hneg : (1 - alpha / 2) * w ≤ 0 := mul_nonpos_of_nonneg_of_nonpos (by linarith) hw
    rw [max_eq_left (by linarith), max_eq_left (by linarith), max_eq_left (by linarith)]
    exact ⟨le_rfl, le_rfl⟩

/-- A sender before the first segment. -/
structure Fresh (a : DctcpSender) : Prop where
  /-- The weight is between zero and one. -/
  g_mem : a.dctcp_g_ ∈ Set.Icc 0 1
  /-- Segments are not empty. -/
  size_pos : 0 < a.size_
  /-- The first estimate is a fraction. -/
  alpha_mem : a.dctcp_alpha_ ∈ Set.Icc 0 1
  /-- No bytes have been counted. -/
  total : a.dctcp_total = 0
  /-- None of them marked. -/
  marked : a.dctcp_marked = 0

/-- A sender with a window of ten segments. -/
def tenSegments : DctcpSender where
  pow x _ := x
  decrease_param _ := 1 / 2
  cwnd_ := 10
  ssthresh_ := 20
  wnd_ := 20
  frto_ := 0
  precision_reduce_ := true
  wnd_option_ := 0
  decrease_num_ := 1 / 2
  l_parameter_ := 1
  low_window_ := 38
  first_decrease_ := true
  last_cwnd_action_ := .none
  wnd_restart_ := 1
  wnd_init_ := 1
  W_used := 0
  cong_action_ := false
  ncwndcuts_ := 0
  ncwndcuts1_ := 0
  fcnt_ := 0
  count_ := 0
  ecn_backoff_ := false
  necnresponses_ := 0
  iss_ := 0
  highest_ack_ := 1
  maxseq_ := 1
  t_seqno_ := 1
  recover_ := 0
  fastrecov_ := false
  dupacks_ := 0
  size_ := 1000
  dctcp_ := true
  dctcp_alpha_ := 0
  dctcp_g_ := 1 / 16
  dctcp_total := 0
  dctcp_marked := 0
  dctcp_alpha_update_seq := 0
  dctcp_maxseq := 0

end DctcpSender

end Ns2.Tcp
