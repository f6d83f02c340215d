import Ns2.Mptcp.Coupling

/-!
# The linked increase

`MpFullTcpAgent::opencwnd` of `tcp/mptcp-full.cc`, and the increase of a plain TCP.

* `getTotalcwnd`, `increment`, `growth`, `opencwnd` — the source functions.
* `growth_le` — no subflow grows faster than a plain TCP.
* `newAlpha_single` — with one subflow the factor is one.
* `opencwnd_plain` — with one subflow the window grows like that of a plain TCP.
-/

namespace Ns2.Mptcp

open Ns2.Tcp Extremum
open Ns2.Common (toInt)

/-- The subflow is in slow start. -/
def CoupledSubflow.SlowStart (t : CoupledSubflow) : Prop := t.cwnd_ < t.ssthresh_ ∧ t.mptcp_allow_slowstart_

instance (t : CoupledSubflow) : Decidable t.SlowStart := inferInstanceAs (Decidable (_ ∧ _))

namespace CoupledAgent

/-- `get_totalcwnd`. -/
def getTotalcwnd (c : CoupledAgent) : ℚ := (c.subflows_.map CoupledSubflow.mptcpGetCwnd).sum

/-- `increment` of `opencwnd`, with the factor as it is. -/
def increment (c : CoupledAgent) (t : CoupledSubflow) : ℚ :=
  let totalcwnd := c.getTotalcwnd
  if totalcwnd > 1 / 10 then
    let oincrement := t.increase_num_ / t.cwnd_
    let increment := t.increase_num_ / t.cwnd_ * (t.cwnd_ / totalcwnd) * c.alpha_
    if oincrement < increment then oincrement else increment
  else t.increase_num_ / t.cwnd_

/-- What the window grows by in congestion avoidance. -/
def growth (c : CoupledAgent) (t : CoupledSubflow) : ℚ := t.bounded (c.increment t)

/-- Replace the sender of a subflow. -/
def put (c : CoupledAgent) (id : ℕ) (t : FullTcpSender) : CoupledAgent :=
  { c with subflows_ := c.subflows_.modify id fun s => { s with toFullTcpSender := t } }

/-- `opencwnd`, of subflow `id`. -/
def opencwnd (c : CoupledAgent) (id : ℕ) : CoupledAgent :=
  let c₁ := c.calculateAlpha
  match c₁.subflows_[id]? with
  | none => c₁
  | some t =>
    if t.SlowStart then
      c₁.put id ({ t.toFullTcpSender with cwnd_ := t.cwnd_ + 1 } : FullTcpSender).capped
    else
      { c₁ with reads := c₁.reads ++ [c₁.assigned] }.put id
        ({ t.toFullTcpSender with cwnd_ := t.cwnd_ + c₁.growth t } : FullTcpSender).capped

variable {c : CoupledAgent} {t : CoupledSubflow}

/-! ## No more than a plain TCP -/

/-- **The bound of the increase.**  The minimum is taken, whatever the factor is. -/
theorem increment_le (c : CoupledAgent) (t : CoupledSubflow) :
    c.increment t ≤ t.increase_num_ / t.cwnd_ := by
  unfold increment
  simp only
  split_ifs with _ h
  · exact le_rfl
  · exact not_lt.mp h
  · exact le_rfl

theorem growth_le (c : CoupledAgent) (t : CoupledSubflow) (h : t.max_ssthresh_ ≤ 0) :
    c.growth t ≤ t.increase_num_ / t.cwnd_ := by
  have hbounded : t.bounded (c.increment t) = c.increment t :=
    if_neg fun h' => absurd h'.2 (not_lt.mpr h)
  rw [growth, hbounded]
  exact c.increment_le t

/-! ## One subflow -/

/-- One subflow that uses the linked increase, in a state in which `calculate_alpha` goes
through. -/
structure Single (c : CoupledAgent) (t : CoupledSubflow) : Prop where
  /-- There is no other one. -/
  only : c.subflows_ = [t]
  /-- The subflow is not in fast recovery. -/
  settled : t.fastrecov_ = false
  /-- Slow start is allowed. -/
  slowstart : t.mptcp_allow_slowstart_ = true
  /-- There is a window. -/
  cwnd : 1 ≤ t.cwnd_
  /-- The window can grow. -/
  num : 0 < t.increase_num_
  /-- The call does not return early. -/
  measured : c.Measured
  /-- The maximum is not the one the loop starts with. -/
  pressure : 1 / 1000 ≤ t.pressure

theorem Single.used_eq (h : c.Single t) : c.used = [t] := by
  have hne := h.measured.used_ne_nil
  rw [used, h.only] at hne ⊢
  by_cases hb : t.mptcpGetBackoff < 4
  · exact List.filter_cons_of_pos (by simpa using hb)
  · exact absurd (List.filter_cons_of_neg (by simpa using hb)) hne

/-- The factor of one subflow is one: the truncated window cancels. -/
theorem newAlpha_single (h : c.Single t) (hm : c.OnlyLia) : c.newAlpha = some 1 := by
  have hrtt : t.mptcpGetSrtt ≠ 0 :=
    (h.measured.srtt_pos t (h.used_eq ▸ List.mem_singleton_self t)).ne'
  have hrate : c.rateSum = t.rate := by
    rw [rateSum, h.used_eq]
    simp
  have htotal : c.total = t.window := by
    rw [total, h.used_eq]
    simp
  have hwindow : (t.window : ℚ) ≠ 0 := by
    intro hzero
    have hle := h.measured.rate
    rw [hrate, CoupledSubflow.rate, hzero] at hle
    norm_num at hle
  have hmax : c.used.foldl (keepMax CoupledSubflow.pressure) (1 / 1000) = t.pressure := by
    rw [h.used_eq, List.foldl_cons, List.foldl_nil, keepMax_eq_max]
    exact max_eq_right h.pressure
  rw [newAlpha_lia h.measured hm, hmax, hrate, htotal, CoupledSubflow.pressure, CoupledSubflow.rate]
  congr 1
  field_simp

theorem Single.getTotalcwnd_eq (h : c.Single t) : c.getTotalcwnd = t.cwnd_ := by
  rw [getTotalcwnd, h.only]
  simp [CoupledSubflow.mptcpGetCwnd, h.settled]

/-- With the factor one, the increment is that of a plain TCP. -/
theorem increment_single {alpha : Bool} (h : c.Single t) :
    ({ c with alpha_ := 1, assigned := alpha } : CoupledAgent).increment t =
      t.increase_num_ / t.cwnd_ := by
  have htotal : ({ c with alpha_ := 1, assigned := alpha } : CoupledAgent).getTotalcwnd = t.cwnd_ :=
    h.getTotalcwnd_eq
  have hcwnd : t.cwnd_ ≠ 0 := (lt_of_lt_of_le zero_lt_one h.cwnd).ne'
  unfold increment
  simp only [htotal]
  rw [if_pos (lt_of_lt_of_le (by norm_num) h.cwnd), div_self hcwnd, mul_one, mul_one, ite_self]

/-- `TcpAgent::opencwnd` in terms of the same steps. -/
theorem opencwnd_tcp (a : FullTcpSender) :
    ({ a with wnd_option_ := 1 } : FullTcpSender).opencwnd.map (·.cwnd_) =
      some (if a.cwnd_ < a.ssthresh_ then
        ({ a with cwnd_ := a.cwnd_ + 1 } : FullTcpSender).capped.cwnd_
      else
        ({ a with cwnd_ := a.cwnd_ + a.bounded (a.increase_num_ / a.cwnd_) } :
          FullTcpSender).capped.cwnd_) := by
  rw [FullTcpSender.opencwnd, TcpSender.opencwnd]
  by_cases h : a.cwnd_ < a.ssthresh_
  · rw [if_pos h, if_pos h]
    exact congrArg some (TcpSender.capped_cwnd_congr rfl rfl)
  · rw [if_neg h, if_neg h]
    exact congrArg some (TcpSender.capped_cwnd_congr rfl rfl)

/-- **A single subflow, and the bound for any number of them.**  With one subflow and only the
linked increase, the window is what a plain TCP would make of it; and without limited slow
start no subflow grows faster in congestion avoidance than a plain TCP. -/
theorem opencwnd_plain :
    (∀ (c : CoupledAgent) (t : CoupledSubflow), c.Single t → c.OnlyLia →
      (c.opencwnd 0).subflows_[0]?.map (·.cwnd_) =
        ({ t.toFullTcpSender with wnd_option_ := 1 } : FullTcpSender).opencwnd.map (·.cwnd_)) ∧
      ∀ (c : CoupledAgent) (t : CoupledSubflow), t.max_ssthresh_ ≤ 0 →
        c.growth t ≤ t.increase_num_ / t.cwnd_ := by
  refine ⟨fun c t h hm => ?_, growth_le⟩
  have hcalc : c.calculateAlpha = { c with alpha_ := 1, assigned := true } := by
    rw [calculateAlpha, newAlpha_single h hm]
  have hget : ({ c with alpha_ := 1, assigned := true } : CoupledAgent).subflows_[0]? = some t := by
    show c.subflows_[0]? = some t
    rw [h.only]
    rfl
  have hgrowth : ({ c with alpha_ := 1, assigned := true } : CoupledAgent).growth t =
      t.bounded (t.increase_num_ / t.cwnd_) := by
    rw [growth, increment_single h]
  rw [opencwnd_tcp]
  unfold opencwnd
  simp only [hcalc, hget]
  by_cases hs : t.cwnd_ < t.ssthresh_
  · have hslow : t.SlowStart := ⟨hs, h.slowstart⟩
    rw [if_pos hslow, if_pos hs]
    simp [put, h.only]
  · have hslow : ¬ t.SlowStart := fun h' => hs h'.1
    rw [if_neg hslow, if_neg hs, hgrowth]
    simp [put, h.only]

/-- A subflow with a window of thirty segments, in congestion avoidance. -/
def thirtySegments : CoupledSubflow :=
  { FullTcpSender.default .sack with cwnd_ := 30, t_srtt_ := 8, mptcp_allow_slowstart_ := true }

/-- An agent with this subflow only. -/
def ofThirty (lia_ lia_dctcp_alpha_ : ℤ) : CoupledAgent where
  lia_ := lia_
  lia_dctcp_alpha_ := lia_dctcp_alpha_
  subflows_ := [thirtySegments]
  alpha_ := 0
  assigned := false
  reads := []

theorem single_ofThirty (lia_ lia_dctcp_alpha_ : ℤ) :
    (ofThirty lia_ lia_dctcp_alpha_).Single thirtySegments := by
  have hused : (ofThirty lia_ lia_dctcp_alpha_).used = [thirtySegments] := rfl
  refine ⟨rfl, rfl, rfl, by decide +kernel, by decide +kernel, ⟨?_, ?_⟩, by decide +kernel⟩
  · rw [hused]
    exact List.forall_mem_singleton.mpr (by decide +kernel)
  · rw [rateSum, hused]
    decide +kernel

/-- A window of thirty segments, and the bound. -/
theorem opencwnd_plain_thirty :
    ((ofThirty 1 0).opencwnd 0).subflows_[0]?.map (·.cwnd_) =
        ({ thirtySegments.toFullTcpSender with wnd_option_ := 1 } : FullTcpSender).opencwnd.map
          (·.cwnd_) ∧
      (ofThirty 1 0).growth thirtySegments ≤
        thirtySegments.increase_num_ / thirtySegments.cwnd_ :=
  ⟨opencwnd_plain.1 _ _ (single_ofThirty 1 0) (by decide), opencwnd_plain.2 _ _ (by decide)⟩

/-- **Both modes configured.**  The factor is not assigned, and the window does not grow as that
of a plain TCP. -/
theorem not_opencwnd_plain :
    ¬ ∀ (c : CoupledAgent) (t : CoupledSubflow), c.Single t → c.lia_ ≠ 0 →
      (c.opencwnd 0).subflows_[0]?.map (·.cwnd_) =
        ({ t.toFullTcpSender with wnd_option_ := 1 } : FullTcpSender).opencwnd.map (·.cwnd_) := by
  intro h
  have heq := h (ofThirty 1 1) thirtySegments (single_ofThirty 1 1) (by decide)
  revert heq
  decide +kernel

end CoupledAgent

end Ns2.Mptcp
