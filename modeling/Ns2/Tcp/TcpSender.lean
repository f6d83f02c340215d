import Ns2.Tcp.DctcpSender

/-!
# The window and the round-trip time of a sender

What `TcpAgent` of `tcp/tcp.cc` keeps for all its subclasses: the growth of the window, the
round-trip time with the backoff of the timer, and the reaction to marks.  `double`s are exact
rationals.

* `limitedSlowStart`, `opencwnd` — the growth of the window.
* `rttUpdate`, `rttBackoff` — the round-trip time.
* `ecn` — the reaction to a mark, with the backoff.
-/

namespace Ns2.Tcp

open Ns2.Common (toInt)

/-- A call of `ecn` that cut the window, or a timeout. -/
inductive WindowCut where
  /-- `ecn(seqno)` called `slowdown`, when the largest sequence number sent was `maxseq`. -/
  | ecn (seqno maxseq : ℤ)
  /-- The retransmission timer went off. -/
  | timeout
  deriving DecidableEq, Repr

/-- The part of a sender that all the agents share. -/
structure TcpSender extends DctcpSender where
  /-- `increase_param`, given the window. -/
  increase_param : ℚ → ℚ
  /-- Parameter of the binomial controls. -/
  k_parameter_ : ℚ
  /-- Constant of the experimental increase algorithms. -/
  wnd_const_ : ℚ
  /-- Averaged window. -/
  awnd_ : ℚ
  /-- Factor for additive increase. -/
  increase_num_ : ℚ
  /-- Bound of the window; zero for none. -/
  maxcwnd_ : ℤ
  /-- Bound of the slow start threshold; zero for none. -/
  max_ssthresh_ : ℤ
  /-- `initial_window()`. -/
  initial_window : ℚ
  /-- Clock granularity. -/
  tcp_tick_ : ℚ
  /-- First value of the smoothed round-trip time. -/
  srtt_init_ : ℤ
  /-- First value of the mean deviation. -/
  rttvar_init_ : ℤ
  /-- First value of the timeout. -/
  rtxcur_init_ : ℚ
  /-- Bits of `t_srtt_` after the binary point. -/
  T_SRTT_BITS : ℕ
  /-- Bits of `t_rttvar_` after the binary point. -/
  T_RTTVAR_BITS : ℕ
  /-- Exponent of the multiple of the mean deviation in the timeout. -/
  rttvar_exp_ : ℕ
  /-- Round-trip time, in ticks. -/
  t_rtt_ : ℤ
  /-- Smoothed round-trip time. -/
  t_srtt_ : ℤ
  /-- Mean deviation of the round-trip time. -/
  t_rttvar_ : ℤ
  /-- Timeout, without backoff. -/
  t_rtxcur_ : ℚ
  /-- Backoff of the retransmission timer. -/
  t_backoff_ : ℤ
  /-- Lower bound of the timeout. -/
  minrto_ : ℚ
  /-- Upper bound of the timeout. -/
  maxrto_ : ℚ
  /-- The lower bound goes before the backoff. -/
  rfc2988_ : Bool
  /-- The next timeout may be one round-trip time. -/
  use_rtt_ : Bool
  /-- ECN is used if the peer does. -/
  ecn_ : Bool
  /-- ECN was agreed on. -/
  ect_ : Bool
  /-- The last ACK of new data had the ECN echo bit. -/
  ecn_burst_ : Bool
  /-- No second fast retransmit in one window. -/
  bug_fix_ : Bool
  /-- No backoff if nothing is outstanding. -/
  restart_bugfix_ : Bool
  /-- History: the cuts of the window by `ecn`, and the timeouts. -/
  cuts : List WindowCut

/-- `limited_slow_start`. -/
def limitedSlowStart (cwnd : ℚ) (max_ssthresh : ℤ) (increment : ℚ) : ℚ :=
  if max_ssthresh ≤ 0 then increment
  else
    let round := toInt (cwnd / (max_ssthresh / 2))
    let increment1 : ℚ := if 0 < round then 1 / round else 0
    if increment < increment1 then increment1 else increment

/-- The value that a `short` takes, which has 16 bits. -/
def toShort (n : ℤ) : ℤ := n.bmod (2 ^ 16)

namespace TcpSender

/-! ## The window -/

/-- `slowdown(how)`. -/
def slowdown (a : TcpSender) (how : ℕ) : TcpSender :=
  { a with toDctcpSender := a.toDctcpSender.slowdown how }

/-- `increment` of the standard algorithm, or of high-speed TCP, in congestion avoidance. -/
def bounded (a : TcpSender) (increment : ℚ) : ℚ :=
  if (a.last_cwnd_action_ = .none ∨ a.last_cwnd_action_ = .timeout) ∧ 0 < a.max_ssthresh_ then
    limitedSlowStart a.cwnd_ a.max_ssthresh_ increment
  else increment

/-- The experimental increase algorithms: one segment for every `cwnd_` of `f`. -/
def accumulate (a : TcpSender) (f : ℚ) : TcpSender :=
  if f + a.fcnt_ > a.cwnd_ then { a with fcnt_ := 0, cwnd_ := a.cwnd_ + 1 }
  else { a with fcnt_ := f + a.fcnt_ }

/-- The smoothed round-trip time, in seconds. -/
def srtt (a : TcpSender) : ℚ := (a.t_srtt_ >>> a.T_SRTT_BITS : ℤ) * a.tcp_tick_

/-- The bound at the end of `opencwnd`. -/
def capped (a : TcpSender) : TcpSender :=
  if a.maxcwnd_ ≠ 0 ∧ toInt a.cwnd_ > a.maxcwnd_ then { a with cwnd_ := a.maxcwnd_ } else a

theorem capped_cwnd_ (a : TcpSender) :
    a.capped.cwnd_ =
      if a.maxcwnd_ ≠ 0 ∧ toInt a.cwnd_ > a.maxcwnd_ then (a.maxcwnd_ : ℚ) else a.cwnd_ := by
  unfold capped
  split_ifs <;> rfl

/-- The bound depends on nothing else. -/
theorem capped_cwnd_congr {a b : TcpSender} (hmax : a.maxcwnd_ = b.maxcwnd_)
    (hcwnd : a.cwnd_ = b.cwnd_) : a.capped.cwnd_ = b.capped.cwnd_ := by
  rw [capped_cwnd_, capped_cwnd_, hmax, hcwnd]

/-- The linear growth of `opencwnd`, by `wnd_option_`. -/
def linear (a : TcpSender) : Option TcpSender :=
  match a.wnd_option_ with
  | 0 =>
    some (if a.count_ + 1 ≥ a.cwnd_ then { a with count_ := 0, cwnd_ := a.cwnd_ + 1 }
      else { a with count_ := a.count_ + 1 })
  | 1 => some { a with cwnd_ := a.cwnd_ + a.bounded (a.increase_num_ / a.cwnd_) }
  | 2 => some (a.accumulate (a.srtt * a.srtt * a.wnd_const_))
  | 3 => some (a.accumulate (a.awnd_ * a.awnd_ * a.wnd_const_))
  | 4 => some (a.accumulate (a.awnd_ * a.wnd_const_))
  | 5 => some (a.accumulate (a.srtt * a.wnd_const_))
  | 6 =>
    some { a with
      cwnd_ := a.cwnd_ + a.increase_num_ / (a.cwnd_ * a.pow a.cwnd_ a.k_parameter_) }
  | 8 => some { a with cwnd_ := a.cwnd_ + a.bounded (a.increase_param a.cwnd_) }
  | _ => none

/-- `opencwnd`. -/
def opencwnd (a : TcpSender) : Option TcpSender :=
  (if a.cwnd_ < a.ssthresh_ then some { a with cwnd_ := a.cwnd_ + 1 } else a.linear).map capped

/-! ## The round-trip time -/

/-- `rtt_init`. -/
def rttInit (a : TcpSender) : TcpSender :=
  { a with
    t_rtt_ := 0
    t_srtt_ := toInt (a.srtt_init_ / a.tcp_tick_) * 2 ^ a.T_SRTT_BITS
    t_rttvar_ := toInt (a.rttvar_init_ / a.tcp_tick_) * 2 ^ a.T_RTTVAR_BITS
    t_rtxcur_ := a.rtxcur_init_
    t_backoff_ := 1 }

/-- `rtt_update`, for a round trip of `ticks`. -/
def rttUpdate (a : TcpSender) (ticks : ℤ) : TcpSender :=
  let t_rtt := if ticks < 1 then 1 else ticks
  let a₁ : TcpSender :=
    if a.t_srtt_ ≠ 0 then
      let delta := toShort (t_rtt - a.t_srtt_ >>> a.T_SRTT_BITS)
      let t_srtt := a.t_srtt_ + delta
      let deviation := if delta < 0 then toShort (-delta) else delta
      let t_rttvar := a.t_rttvar_ + toShort (deviation - a.t_rttvar_ >>> a.T_RTTVAR_BITS)
      { a with
        t_rtt_ := t_rtt
        t_srtt_ := if t_srtt ≤ 0 then 1 else t_srtt
        t_rttvar_ := if t_rttvar ≤ 0 then 1 else t_rttvar }
    else
      { a with
        t_rtt_ := t_rtt
        t_srtt_ := t_rtt * 2 ^ a.T_SRTT_BITS
        t_rttvar_ := t_rtt * 2 ^ (a.T_RTTVAR_BITS - 1) }
  { a₁ with
    t_rtxcur_ :=
      ((a₁.t_rttvar_ * 2 ^ (a₁.rttvar_exp_ + (a₁.T_SRTT_BITS - a₁.T_RTTVAR_BITS)) +
        a₁.t_srtt_) >>> a₁.T_SRTT_BITS : ℤ) * a₁.tcp_tick_ }

/-- `rtt_timeout`. -/
def rttTimeout (a : TcpSender) : ℚ :=
  let timeout :=
    if a.rfc2988_ then
      if a.t_rtxcur_ < a.minrto_ ∧ ¬ a.use_rtt_ then a.minrto_ * a.t_backoff_
      else a.t_rtxcur_ * a.t_backoff_
    else if a.t_rtxcur_ * a.t_backoff_ < a.minrto_ then a.minrto_
    else a.t_rtxcur_ * a.t_backoff_
  let timeout := if timeout > a.maxrto_ then a.maxrto_ else timeout
  if timeout < 2 * a.tcp_tick_ then
    if a.use_rtt_ ∧ timeout < a.tcp_tick_ then a.tcp_tick_ else 2 * a.tcp_tick_
  else timeout

/-- `rtt_backoff`. -/
def rttBackoff (a : TcpSender) : TcpSender :=
  let a₁ : TcpSender :=
    if a.t_backoff_ < 64 ∨ (a.rfc2988_ ∧ a.rttTimeout < a.maxrto_) then
      { a with t_backoff_ := a.t_backoff_ * 2 }
    else a
  -- backed off this far, the smoothed time is forgotten
  if a₁.t_backoff_ > 8 then
    { a₁ with t_rttvar_ := a₁.t_rttvar_ + a₁.t_srtt_ >>> a₁.T_SRTT_BITS, t_srtt_ := 0 }
  else a₁

/-- The test of `ecn(seqno)`. -/
def reacts (a : TcpSender) (seqno : ℤ) : Prop :=
  seqno > a.recover_ ∨ a.last_cwnd_action_ = .timeout

instance (a : TcpSender) (seqno : ℤ) : Decidable (a.reacts seqno) :=
  inferInstanceAs (Decidable (_ ∨ _))

/-- `ecn(seqno)`. -/
def ecn (a : TcpSender) (seqno : ℤ) : TcpSender :=
  if a.reacts seqno then
    let a₁ := if a.cwnd_ ≤ 1 ∧ a.ecn_backoff_ then a.rttBackoff else a
    { a₁ with
      toDctcpSender := a₁.toDctcpSender.ecn seqno
      cuts := a.cuts ++ [.ecn seqno a.maxseq_] }
  else a

end TcpSender

end Ns2.Tcp
