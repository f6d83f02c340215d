import Ns2.Lib.Extremum
import Ns2.Tcp.FullSender

/-!
# The coupling of the subflows' windows

`MptcpAgent::calculate_alpha` of `tcp/mptcp.cc`, over the windows, round-trip times and
backoffs of the subflows.  `double`s are exact rationals.

* `AlphaSums`, `alphaLoop`, `newAlpha`, `calculateAlpha` — the source function.
* `LiaFactor`, `DctcpFactor` — what the factor is meant to be in the two modes.
* `newAlpha_isSome_iff` — when the call assigns `alpha_`.
* `calculateAlpha_coupled_iff` — when it leaves the factor that is meant.
-/

namespace Ns2.Mptcp

open Ns2.Tcp Extremum
open Ns2.Common (toInt)

/-- A subflow, as its sender. -/
structure CoupledSubflow extends FullTcpSender where
  /-- The subflow may be in slow start. -/
  mptcp_allow_slowstart_ : Bool

namespace CoupledSubflow

/-- `mptcp_get_cwnd`. -/
def mptcpGetCwnd (t : CoupledSubflow) : ℚ := if t.fastrecov_ then t.ssthresh_ else t.cwnd_

/-- `mptcp_get_srtt`. -/
def mptcpGetSrtt (t : CoupledSubflow) : ℚ := t.srtt

/-- `mptcp_get_backoff`. -/
def mptcpGetBackoff (t : CoupledSubflow) : ℤ := t.t_backoff_

/-- `cwnd_i` of `calculate_alpha`. -/
def window (t : CoupledSubflow) : ℤ := toInt t.mptcpGetCwnd

/-- The window over the round-trip time. -/
def rate (t : CoupledSubflow) : ℚ := t.window / t.mptcpGetSrtt

/-- The window over the square of the round-trip time. -/
def pressure (t : CoupledSubflow) : ℚ := t.window / (t.mptcpGetSrtt * t.mptcpGetSrtt)

end CoupledSubflow

/-- The agent, as far as it couples its subflows. -/
structure CoupledAgent where
  /-- The linked increase is used. -/
  lia_ : ℤ
  /-- The variant for data centers is used. -/
  lia_dctcp_alpha_ : ℤ
  /-- The subflows. -/
  subflows_ : List CoupledSubflow
  /-- The factor; what the memory held, as long as it was not assigned. -/
  alpha_ : ℚ
  /-- History: `alpha_` was assigned. -/
  assigned : Bool
  /-- History: for each time `opencwnd` read `alpha_`, whether it had been assigned. -/
  reads : List Bool

/-- What the loop of `calculate_alpha` accumulates. -/
structure AlphaSums where
  /-- Largest window over the square of the round-trip time. -/
  max_i : ℚ
  /-- Sum of the windows over the round-trip times. -/
  sum_i : ℚ
  /-- Sum of the windows over the squares. -/
  avr_i : ℚ
  /-- Sum of the windows. -/
  totalcwnd : ℤ
  /-- Smallest round-trip time. -/
  min_rtt : ℚ

namespace AlphaSums

/-- Before the loop. -/
def init : AlphaSums := ⟨1 / 1000, 0, 0, 0, 0⟩

/-- One subflow more. -/
def add (lia_ lia_dctcp_alpha_ : ℤ) (s : AlphaSums) (t : CoupledSubflow) : AlphaSums where
  max_i := if lia_ ≠ 0 then keepMax CoupledSubflow.pressure s.max_i t else s.max_i
  avr_i := if lia_ ≠ 0 then s.avr_i + t.pressure else s.avr_i
  min_rtt :=
    if lia_ = 0 ∧ lia_dctcp_alpha_ ≠ 0 ∧ (s.min_rtt = 0 ∨ t.mptcpGetSrtt < s.min_rtt) then
      t.mptcpGetSrtt
    else s.min_rtt
  sum_i := s.sum_i + t.rate
  totalcwnd := s.totalcwnd + t.window

end AlphaSums

namespace CoupledAgent

/-- The loop of `calculate_alpha`; `none` for its early return. -/
def alphaLoop (c : CoupledAgent) : List CoupledSubflow → AlphaSums → Option AlphaSums
  | [], s => some s
  | t :: rest, s =>
    if t.mptcpGetBackoff ≥ 4 then alphaLoop c rest s
    else if t.mptcpGetSrtt < 1 / 1000000 then none
    else alphaLoop c rest (s.add c.lia_ c.lia_dctcp_alpha_ t)

/-- What `calculate_alpha` assigns to `alpha_`, if anything. -/
def newAlpha (c : CoupledAgent) : Option ℚ :=
  (c.alphaLoop c.subflows_ AlphaSums.init).bind fun s =>
    if s.sum_i < 1 / 1000 then none
    else if s.min_rtt < 1 / 1000 then
      if c.lia_ ≠ 0 ∧ c.lia_dctcp_alpha_ = 0 then
        some (s.totalcwnd * s.max_i / (s.sum_i * s.sum_i))
      else if c.lia_dctcp_alpha_ ≠ 0 ∧ c.lia_ = 0 then some (s.totalcwnd / s.min_rtt / s.sum_i)
      else none
    else none

/-- `calculate_alpha`. -/
def calculateAlpha (c : CoupledAgent) : CoupledAgent :=
  match c.newAlpha with
  | some alpha => { c with alpha_ := alpha, assigned := true }
  | none => c

/-! ## What the factor is meant to be -/

/-- The subflows that count: those without many timeouts. -/
def used (c : CoupledAgent) : List CoupledSubflow := c.subflows_.filter fun t => t.mptcpGetBackoff < 4

/-- Their windows. -/
def total (c : CoupledAgent) : ℤ := (c.used.map CoupledSubflow.window).sum

/-- Their windows over the round-trip times. -/
def rateSum (c : CoupledAgent) : ℚ := (c.used.map CoupledSubflow.rate).sum

/-- The factor of the linked increase. -/
def LiaFactor (c : CoupledAgent) (alpha : ℚ) : Prop :=
  ∃ m, IsGreatest (values CoupledSubflow.pressure c.used) m ∧ alpha = c.total * m / c.rateSum ^ 2

/-- The factor of the variant for data centers. -/
def DctcpFactor (c : CoupledAgent) (alpha : ℚ) : Prop :=
  ∃ r, IsLeast (values CoupledSubflow.mptcpGetSrtt c.used) r ∧ alpha = c.total / r / c.rateSum

/-- Only the linked increase is configured. -/
def OnlyLia (c : CoupledAgent) : Prop := c.lia_ ≠ 0 ∧ c.lia_dctcp_alpha_ = 0

/-- Only the variant for data centers is configured. -/
def OnlyDctcp (c : CoupledAgent) : Prop := c.lia_dctcp_alpha_ ≠ 0 ∧ c.lia_ = 0

instance (c : CoupledAgent) : Decidable c.OnlyLia := inferInstanceAs (Decidable (_ ∧ _))

instance (c : CoupledAgent) : Decidable c.OnlyDctcp := inferInstanceAs (Decidable (_ ∧ _))

/-- The round-trip times are known, and there is something to send with. -/
structure Measured (c : CoupledAgent) : Prop where
  /-- The round-trip times are not too small. -/
  srtt : ∀ t ∈ c.used, 1 / 1000000 ≤ t.mptcpGetSrtt
  /-- The windows are not too small. -/
  rate : 1 / 1000 ≤ c.rateSum

/-- `alpha_` is the factor of the mode that is configured. -/
def Coupled (c : CoupledAgent) : Prop :=
  (c.OnlyLia → c.LiaFactor c.alpha_) ∧ (c.OnlyDctcp → c.DctcpFactor c.alpha_)

/-- The guards of `calculate_alpha` let it assign `alpha_`. -/
def Updates (c : CoupledAgent) : Prop :=
  c.Measured ∧ (c.OnlyLia ∨ c.OnlyDctcp ∧ ∃ t ∈ c.used, t.mptcpGetSrtt < 1 / 1000)

end CoupledAgent

/-! ## The loop -/

namespace AlphaSums

variable {lia dctcp : ℤ} {l : List CoupledSubflow} {s : AlphaSums}

theorem foldl_sum_i : (l.foldl (add lia dctcp) s).sum_i = s.sum_i + (l.map CoupledSubflow.rate).sum := by
  induction l generalizing s with
  | nil => simp
  | cons t l ih =>
    rw [List.foldl_cons, ih, List.map_cons, List.sum_cons, ← add_assoc]
    rfl

theorem foldl_totalcwnd :
    (l.foldl (add lia dctcp) s).totalcwnd = s.totalcwnd + (l.map CoupledSubflow.window).sum := by
  induction l generalizing s with
  | nil => simp
  | cons t l ih =>
    rw [List.foldl_cons, ih, List.map_cons, List.sum_cons, ← add_assoc]
    rfl

theorem foldl_max_i (h : lia ≠ 0) :
    (l.foldl (add lia dctcp) s).max_i = l.foldl (keepMax CoupledSubflow.pressure) s.max_i := by
  induction l generalizing s with
  | nil => rfl
  | cons t l ih =>
    rw [List.foldl_cons, List.foldl_cons, ih]
    simp [add, h]

/-- With the linked increase, the round-trip times are not looked at. -/
theorem foldl_min_rtt_lia (h : lia ≠ 0) : (l.foldl (add lia dctcp) s).min_rtt = s.min_rtt := by
  induction l generalizing s with
  | nil => rfl
  | cons t l ih =>
    rw [List.foldl_cons, ih]
    simp [add, h]

/-- After the first subflow, the smallest round-trip time is kept. -/
theorem foldl_min_rtt_pos (hl : lia = 0) (hd : dctcp ≠ 0) (hs : 0 < s.min_rtt)
    (h : ∀ t ∈ l, 0 < t.mptcpGetSrtt) :
    (l.foldl (add lia dctcp) s).min_rtt = l.foldl (keepMin CoupledSubflow.mptcpGetSrtt) s.min_rtt := by
  induction l generalizing s with
  | nil => rfl
  | cons t l ih =>
    have hadd : (s.add lia dctcp t).min_rtt = keepMin CoupledSubflow.mptcpGetSrtt s.min_rtt t := by
      simp [add, keepMin, hl, hd, hs.ne']
    have hpos : 0 < (s.add lia dctcp t).min_rtt := by
      rw [hadd, keepMin_eq_min]
      exact lt_min hs (h t List.mem_cons_self)
    rw [List.foldl_cons, List.foldl_cons, ih hpos fun t' ht => h t' (List.mem_cons_of_mem t ht),
      hadd]

/-- In the variant for data centers, the loop finds the smallest round-trip time. -/
theorem foldl_min_rtt (hl : lia = 0) (hd : dctcp ≠ 0) (hne : l ≠ [])
    (h : ∀ t ∈ l, 0 < t.mptcpGetSrtt) :
    IsLeast (values CoupledSubflow.mptcpGetSrtt l) (l.foldl (add lia dctcp) init).min_rtt := by
  obtain ⟨t, l, rfl⟩ := List.exists_cons_of_ne_nil hne
  have hadd : (init.add lia dctcp t).min_rtt = t.mptcpGetSrtt := by
    simp [add, init, hl, hd]
  have hpos : 0 < (init.add lia dctcp t).min_rtt := hadd ▸ h t List.mem_cons_self
  rw [List.foldl_cons, foldl_min_rtt_pos hl hd hpos fun t' ht => h t' (List.mem_cons_of_mem t ht),
    hadd, values_cons]
  exact isLeast_foldl l t.mptcpGetSrtt

end AlphaSums

namespace CoupledAgent

variable {c : CoupledAgent} {l : List CoupledSubflow} {s : AlphaSums}

/-- The loop goes over the subflows that count, if they all have a round-trip time. -/
theorem alphaLoop_of_srtt
    (h : ∀ t ∈ l.filter (fun t : CoupledSubflow => t.mptcpGetBackoff < 4),
      1 / 1000000 ≤ t.mptcpGetSrtt) :
    c.alphaLoop l s = some ((l.filter fun t : CoupledSubflow => t.mptcpGetBackoff < 4).foldl
      (AlphaSums.add c.lia_ c.lia_dctcp_alpha_) s) := by
  induction l generalizing s with
  | nil => rfl
  | cons t l ih =>
    rw [alphaLoop]
    by_cases hb : t.mptcpGetBackoff ≥ 4
    · rw [List.filter_cons_of_neg (by simpa using hb)] at h ⊢
      rw [if_pos hb, ih h]
    · rw [List.filter_cons_of_pos (by simpa using hb)] at h ⊢
      obtain ⟨hr, hrest⟩ := List.forall_mem_cons.mp h
      rw [if_neg hb, if_neg (not_lt.mpr hr), ih hrest, List.foldl_cons]

/-- The loop returns early if one of them has none. -/
theorem alphaLoop_of_not_srtt
    (h : ¬ ∀ t ∈ l.filter (fun t : CoupledSubflow => t.mptcpGetBackoff < 4),
      1 / 1000000 ≤ t.mptcpGetSrtt) :
    c.alphaLoop l s = none := by
  induction l generalizing s with
  | nil => exact absurd (by simp) h
  | cons t l ih =>
    rw [alphaLoop]
    by_cases hb : t.mptcpGetBackoff ≥ 4
    · rw [List.filter_cons_of_neg (by simpa using hb)] at h
      rw [if_pos hb, ih h]
    · rw [List.filter_cons_of_pos (by simpa using hb), List.forall_mem_cons, not_and] at h
      rw [if_neg hb]
      by_cases hr : t.mptcpGetSrtt < 1 / 1000000
      · rw [if_pos hr]
      · rw [if_neg hr, ih (h (not_lt.mp hr))]

/-- What the loop leaves. -/
def sums (c : CoupledAgent) : AlphaSums :=
  c.used.foldl (AlphaSums.add c.lia_ c.lia_dctcp_alpha_) AlphaSums.init

theorem sums_sum_i : c.sums.sum_i = c.rateSum :=
  AlphaSums.foldl_sum_i.trans (zero_add _)

theorem sums_totalcwnd : c.sums.totalcwnd = c.total :=
  AlphaSums.foldl_totalcwnd.trans (zero_add _)

theorem Measured.used_ne_nil (h : c.Measured) : c.used ≠ [] := by
  intro hnil
  have hrate := h.rate
  rw [rateSum, hnil] at hrate
  norm_num at hrate

theorem Measured.srtt_pos (h : c.Measured) : ∀ t ∈ c.used, 0 < t.mptcpGetSrtt :=
  fun t ht => lt_of_lt_of_le (by norm_num) (h.srtt t ht)

/-- Without measurements nothing is assigned. -/
theorem newAlpha_of_not_measured (h : ¬ c.Measured) : c.newAlpha = none := by
  by_cases hsrtt : ∀ t ∈ c.used, 1 / 1000000 ≤ t.mptcpGetSrtt
  · have hrate : c.sums.sum_i < 1 / 1000 := by
      rw [sums_sum_i]
      exact not_le.mp fun hrate => h ⟨hsrtt, hrate⟩
    rw [newAlpha, alphaLoop_of_srtt hsrtt]
    exact if_pos hrate
  · rw [newAlpha, alphaLoop_of_not_srtt hsrtt]
    rfl

/-- With measurements, the guard on the smallest round-trip time and the mode decide. -/
theorem newAlpha_of_measured (h : c.Measured) :
    c.newAlpha =
      if c.sums.min_rtt < 1 / 1000 then
        if c.OnlyLia then some (c.total * c.sums.max_i / (c.rateSum * c.rateSum))
        else if c.OnlyDctcp then some (c.total / c.sums.min_rtt / c.rateSum)
        else none
      else none := by
  have hloop : c.alphaLoop c.subflows_ AlphaSums.init = some c.sums :=
    alphaLoop_of_srtt h.srtt
  have hrate : ¬ c.sums.sum_i < 1 / 1000 := not_lt.mpr (sums_sum_i.symm ▸ h.rate)
  rw [newAlpha, hloop, Option.bind_some, if_neg hrate, sums_sum_i, sums_totalcwnd]
  rfl

/-! ## The linked increase -/

/-- The linked increase: the maximum starts at one thousandth. -/
theorem newAlpha_lia (h : c.Measured) (hm : c.OnlyLia) :
    c.newAlpha = some
      (c.total * c.used.foldl (keepMax CoupledSubflow.pressure) (1 / 1000) / (c.rateSum * c.rateSum)) := by
  have hmin : c.sums.min_rtt < 1 / 1000 := by
    rw [sums, AlphaSums.foldl_min_rtt_lia hm.1]
    norm_num [AlphaSums.init]
  rw [newAlpha_of_measured h, if_pos hmin, if_pos hm, sums, AlphaSums.foldl_max_i hm.1]
  rfl

/-- The linked increase gives the factor if and only if a window over the square of its
round-trip time reaches one thousandth. -/
theorem liaFactor_iff (h : c.Measured) :
    c.LiaFactor
        (c.total * c.used.foldl (keepMax CoupledSubflow.pressure) (1 / 1000) /
          (c.rateSum * c.rateSum)) ↔
      (∃ t ∈ c.used, 1 / 1000 ≤ t.pressure) ∨ c.total = 0 := by
  have hsum : c.rateSum ≠ 0 := (lt_of_lt_of_le (by norm_num) h.rate).ne'
  obtain ⟨m, hm⟩ := exists_isGreatest (f := CoupledSubflow.pressure) h.used_ne_nil
  constructor
  · rintro ⟨m', hm', heq⟩
    obtain rfl := hm'.unique hm
    rw [← sq, div_left_inj' (pow_ne_zero 2 hsum)] at heq
    by_cases htot : c.total = 0
    · exact Or.inr htot
    · -- the maximum is the one of the loop, which is no less than its start
      have hloop := isGreatest_foldl (f := CoupledSubflow.pressure) c.used (1 / 1000)
      have hmax := mul_left_cancel₀ (Int.cast_ne_zero.mpr htot) heq
      rw [hmax] at hloop
      obtain ⟨t, ht, hmt⟩ := hm.1
      exact Or.inl ⟨t, ht, hmt ▸ hloop.2 (Set.mem_insert _ _)⟩
  · rintro (⟨t, ht, hle⟩ | htot)
    · exact ⟨_, isGreatest_foldl_of_le ⟨t, ht, hle⟩, by rw [sq]⟩
    · exact ⟨m, hm, by rw [htot]; simp⟩

/-! ## The variant for data centers -/

theorem sums_min_rtt (h : c.Measured) (hm : c.OnlyDctcp) :
    IsLeast (values CoupledSubflow.mptcpGetSrtt c.used) c.sums.min_rtt :=
  AlphaSums.foldl_min_rtt hm.2 hm.1 h.used_ne_nil h.srtt_pos

/-- The guard on the smallest round-trip time. -/
theorem sums_min_rtt_lt_iff (h : c.Measured) (hm : c.OnlyDctcp) :
    c.sums.min_rtt < 1 / 1000 ↔ ∃ t ∈ c.used, t.mptcpGetSrtt < 1 / 1000 := by
  obtain ⟨hmem, hle⟩ := sums_min_rtt h hm
  constructor
  · intro hlt
    obtain ⟨t, ht, heq⟩ := hmem
    exact ⟨t, ht, heq ▸ hlt⟩
  · rintro ⟨t, ht, hlt⟩
    exact (hle ⟨t, ht, rfl⟩).trans_lt hlt

/-- The variant for data centers assigns the factor, if a round-trip time is below one
millisecond. -/
theorem newAlpha_dctcp (h : c.Measured) (hm : c.OnlyDctcp) :
    c.newAlpha =
      if c.sums.min_rtt < 1 / 1000 then some (c.total / c.sums.min_rtt / c.rateSum) else none := by
  have hl : ¬ c.OnlyLia := fun hl => hl.1 hm.2
  rw [newAlpha_of_measured h, if_neg hl, if_pos hm]

theorem dctcpFactor_sums (h : c.Measured) (hm : c.OnlyDctcp) :
    c.DctcpFactor (c.total / c.sums.min_rtt / c.rateSum) :=
  ⟨_, sums_min_rtt h hm, rfl⟩

/-! ## When `alpha_` is assigned -/

/-- **The guards.**  The call assigns `alpha_` if and only if they let it. -/
theorem newAlpha_isSome_iff : c.newAlpha.isSome = true ↔ c.Updates := by
  by_cases h : c.Measured
  · by_cases hl : c.OnlyLia
    · rw [newAlpha_lia h hl]
      exact iff_of_true rfl ⟨h, Or.inl hl⟩
    · by_cases hd : c.OnlyDctcp
      · rw [newAlpha_dctcp h hd, Updates, ← sums_min_rtt_lt_iff h hd]
        by_cases hlt : c.sums.min_rtt < 1 / 1000
        · rw [if_pos hlt]
          exact iff_of_true rfl ⟨h, Or.inr ⟨hd, hlt⟩⟩
        · rw [if_neg hlt]
          refine iff_of_false (by simp) fun hu => ?_
          exact hu.2.elim hl fun hd' => hlt hd'.2
      · have hnone : c.newAlpha = none := by
          rw [newAlpha_of_measured h, if_neg hl, if_neg hd, ite_self]
        rw [hnone]
        exact iff_of_false (by simp) fun hu => hu.2.elim hl fun hd' => hd hd'.1
  · rw [newAlpha_of_not_measured h]
    exact iff_of_false (by simp) fun hu => h hu.1

@[simp] theorem calculateAlpha_lia_ : c.calculateAlpha.lia_ = c.lia_ := by
  unfold calculateAlpha
  split <;> rfl

@[simp] theorem calculateAlpha_lia_dctcp_alpha_ :
    c.calculateAlpha.lia_dctcp_alpha_ = c.lia_dctcp_alpha_ := by
  unfold calculateAlpha
  split <;> rfl

@[simp] theorem calculateAlpha_subflows_ : c.calculateAlpha.subflows_ = c.subflows_ := by
  unfold calculateAlpha
  split <;> rfl

@[simp] theorem calculateAlpha_reads : c.calculateAlpha.reads = c.reads := by
  unfold calculateAlpha
  split <;> rfl

theorem calculateAlpha_alpha_ : c.calculateAlpha.alpha_ = c.newAlpha.getD c.alpha_ := by
  unfold calculateAlpha
  cases c.newAlpha <;> rfl

theorem calculateAlpha_assigned : c.calculateAlpha.assigned = true ↔ c.assigned = true ∨ c.Updates := by
  rw [← newAlpha_isSome_iff]
  unfold calculateAlpha
  cases c.newAlpha <;> simp

/-- The condition: in the linked increase a window over the square of its round-trip time
reaches one thousandth; in the variant for data centers a round-trip time is below one
millisecond, or the factor has not changed. -/
def Reaches (c : CoupledAgent) : Prop :=
  (c.OnlyLia → (∃ t ∈ c.used, 1 / 1000 ≤ t.pressure) ∨ c.total = 0) ∧
    (c.OnlyDctcp → (∃ t ∈ c.used, t.mptcpGetSrtt < 1 / 1000) ∨ c.DctcpFactor c.alpha_)

/-- **The coupling factor.**  On measured subflows, the call leaves the factor of the mode
if and only if the condition holds. -/
theorem calculateAlpha_coupled_iff (c : CoupledAgent) (h : c.Measured) :
    c.calculateAlpha.Coupled ↔ c.Reaches := by
  have hlia : (c.calculateAlpha.OnlyLia → c.calculateAlpha.LiaFactor c.calculateAlpha.alpha_) ↔
      (c.OnlyLia → c.LiaFactor (c.newAlpha.getD c.alpha_)) := by
    simp only [OnlyLia, LiaFactor, used, total, rateSum, calculateAlpha_lia_,
      calculateAlpha_lia_dctcp_alpha_, calculateAlpha_subflows_, calculateAlpha_alpha_]
  have hdctcp :
      (c.calculateAlpha.OnlyDctcp → c.calculateAlpha.DctcpFactor c.calculateAlpha.alpha_) ↔
        (c.OnlyDctcp → c.DctcpFactor (c.newAlpha.getD c.alpha_)) := by
    simp only [OnlyDctcp, DctcpFactor, used, total, rateSum, calculateAlpha_lia_,
      calculateAlpha_lia_dctcp_alpha_, calculateAlpha_subflows_, calculateAlpha_alpha_]
  rw [Coupled, hlia, hdctcp, Reaches]
  refine and_congr (forall_congr' fun hm => ?_) (forall_congr' fun hm => ?_)
  · rw [newAlpha_lia h hm]
    exact liaFactor_iff h
  · rw [newAlpha_dctcp h hm, ← sums_min_rtt_lt_iff h hm]
    by_cases hlt : c.sums.min_rtt < 1 / 1000
    · rw [if_pos hlt]
      exact iff_of_true (dctcpFactor_sums h hm) (Or.inl hlt)
    · rw [if_neg hlt]
      exact (or_iff_right hlt).symm

/-- An agent with one subflow, a window of ten segments and a round trip of ten
milliseconds. -/
def tenMilliseconds (lia_ lia_dctcp_alpha_ : ℤ) : CoupledAgent where
  lia_ := lia_
  lia_dctcp_alpha_ := lia_dctcp_alpha_
  subflows_ :=
    [{ FullTcpSender.default .sack with cwnd_ := 10, t_srtt_ := 8, mptcp_allow_slowstart_ := true }]
  alpha_ := 0
  assigned := false
  reads := []

theorem tenMilliseconds_used (lia_ lia_dctcp_alpha_ : ℤ) :
    (tenMilliseconds lia_ lia_dctcp_alpha_).used =
      (tenMilliseconds lia_ lia_dctcp_alpha_).subflows_ := rfl

theorem tenMilliseconds_rateSum (lia_ lia_dctcp_alpha_ : ℤ) :
    (tenMilliseconds lia_ lia_dctcp_alpha_).rateSum = 1000 := by
  have hsub : (tenMilliseconds lia_ lia_dctcp_alpha_).subflows_ = (tenMilliseconds 0 0).subflows_ :=
    rfl
  rw [rateSum, tenMilliseconds_used, hsub]
  decide +kernel

theorem measured_tenMilliseconds (lia_ lia_dctcp_alpha_ : ℤ) :
    (tenMilliseconds lia_ lia_dctcp_alpha_).Measured := by
  refine ⟨?_, ?_⟩
  · rw [tenMilliseconds_used]
    exact List.forall_mem_singleton.mpr (by decide +kernel)
  · rw [tenMilliseconds_rateSum]
    norm_num

/-- The linked increase on it. -/
theorem calculateAlpha_coupled_tenMilliseconds :
    (tenMilliseconds 1 0).Measured ∧ (tenMilliseconds 1 0).calculateAlpha.Coupled := by
  refine ⟨measured_tenMilliseconds 1 0,
    (calculateAlpha_coupled_iff _ (measured_tenMilliseconds 1 0)).mpr ⟨fun _ => Or.inl ?_, ?_⟩⟩
  · exact ⟨_, List.mem_singleton_self _, by decide +kernel⟩
  · exact fun h => absurd h.2 (by decide)

/-- **The variant for data centers, with round trips of ten milliseconds.**  `alpha_` is not
assigned. -/
theorem not_coupled : ¬ ∀ c : CoupledAgent, c.Measured → c.calculateAlpha.Coupled := by
  intro h
  have hkept : (tenMilliseconds 0 1).newAlpha = none := by decide +kernel
  obtain ⟨r, ⟨⟨t, ht, rfl⟩, -⟩, heq⟩ :=
    (h (tenMilliseconds 0 1) (measured_tenMilliseconds 0 1)).2 (by decide +kernel)
  have hsame : (tenMilliseconds 0 1).calculateAlpha = tenMilliseconds 0 1 := by
    unfold calculateAlpha
    rw [hkept]
  rw [hsame, tenMilliseconds_used] at ht
  rw [hsame, tenMilliseconds_rateSum, List.mem_singleton.mp ht] at heq
  revert heq
  decide +kernel

end CoupledAgent

end Ns2.Mptcp
